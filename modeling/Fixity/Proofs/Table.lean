import Fixity.Expr
import Fixity.Table
import Mathlib.Data.List.Nodup

/-!
# What an accepted table promises

`Table.ofDrafts` looks at each draft once, and compares a binary draft only with the last entry of
its level.  Still it accepts just the drafts of which any two keep the rules (`ofDrafts_eq_ok`), and a
table has the drafts as its entries:

* `BinaryRules`: no type has two entries, levels lie between those of nothing at all and of a call, and
  entries of one level have one associativity;
* `UnaryRules`: the same without associativities, and no prefix entry has the level of a binary one.

Look-ups answer from the entries, so the same rules hold of what `binary?` and `unary?` find.
-/

namespace Fixity.Table

variable {β γ : Type}

def Accepted (T : Table β γ) : Prop := ∃ binary unary, ofDrafts binary unary = .ok T

/-- The rules that the entries of a table keep. -/
structure Regular (T : Table β γ) : Prop where
  binary_level : ∀ op ∈ T.binary, isLevel op.precedence = true
  unary_level : ∀ op ∈ T.unary, isLevel op.precedence = true
  same_assoc : ∀ a ∈ T.binary, ∀ b ∈ T.binary, a.precedence = b.precedence → a.assoc = b.assoc
  apart : ∀ u ∈ T.unary, ∀ b ∈ T.binary, u.precedence ≠ b.precedence

/-! ### Rules of lists of entries -/

def AssocByLevel (ops : List (BinaryOp β)) : Prop :=
  ∀ a ∈ ops, ∀ b ∈ ops, a.precedence = b.precedence → a.assoc = b.assoc

structure BinaryRules (ops : List (BinaryOp β)) : Prop where
  nodup : (ops.map (·.type)).Nodup
  level : ∀ op ∈ ops, isLevel op.precedence = true
  assoc : AssocByLevel ops

/-- The rules that prefix entries keep beside the binary ones. -/
structure UnaryRules (binary : List (BinaryOp β)) (ops : List (UnaryOp γ)) : Prop where
  nodup : (ops.map (·.type)).Nodup
  level : ∀ u ∈ ops, isLevel u.precedence = true
  apart : ∀ u ∈ ops, ∀ b ∈ binary, u.precedence ≠ b.precedence

/-- The entry found at a level stands for all entries there. -/
theorem assocByLevel_cons {op : BinaryOp β} {done : List (BinaryOp β)} :
    AssocByLevel (op :: done) ↔ AssocByLevel done ∧
      ∀ other, done.find? (·.precedence = op.precedence) = some other → other.assoc = op.assoc := by
  constructor
  · intro h
    refine ⟨fun a ha b hb => h a (List.mem_cons_of_mem _ ha) b (List.mem_cons_of_mem _ hb),
      fun other hother => ?_⟩
    have hlevel : other.precedence = op.precedence := by simpa using List.find?_some hother
    exact h other (List.mem_cons_of_mem _ (List.mem_of_find?_eq_some hother)) op (by simp) hlevel
  · rintro ⟨hdone, hop⟩
    have hnew : ∀ a ∈ done, a.precedence = op.precedence → a.assoc = op.assoc := by
      intro a ha he
      cases hf : done.find? (·.precedence = op.precedence) with
      | none =>
        have hne := List.find?_eq_none.mp hf a ha
        exact absurd (by simpa using he) hne
      | some other =>
        have hp : other.precedence = op.precedence := by simpa using List.find?_some hf
        rw [← hop other hf]
        exact hdone a ha other (List.mem_of_find?_eq_some hf) (he.trans hp.symm)
    intro a ha b hb he
    rcases List.mem_cons.mp ha with rfl | ha'
    · rcases List.mem_cons.mp hb with rfl | hb'
      · rfl
      · exact (hnew b hb' he.symm).symm
    · rcases List.mem_cons.mp hb with rfl | hb'
      · exact hnew a ha' he
      · exact hdone a ha' b hb' he

theorem binaryRules_nil : BinaryRules ([] : List (BinaryOp β)) :=
  ⟨List.nodup_nil, by simp, by simp [AssocByLevel]⟩

theorem unaryRules_nil {binary : List (BinaryOp β)} : UnaryRules binary ([] : List (UnaryOp γ)) :=
  ⟨List.nodup_nil, by simp, by simp⟩

theorem binaryRules_cons {op : BinaryOp β} {done : List (BinaryOp β)} :
    BinaryRules (op :: done) ↔ BinaryRules done ∧ op.type ∉ done.map (·.type) ∧
      isLevel op.precedence = true ∧
      ∀ other, done.find? (·.precedence = op.precedence) = some other → other.assoc = op.assoc := by
  constructor
  · rintro ⟨hnodup, hlevel, hassoc⟩
    obtain ⟨hnew, hnodup⟩ := List.nodup_cons.mp hnodup
    obtain ⟨hop, hlevel⟩ := List.forall_mem_cons.mp hlevel
    obtain ⟨hassoc, hfound⟩ := assocByLevel_cons.mp hassoc
    exact ⟨⟨hnodup, hlevel, hassoc⟩, hnew, hop, hfound⟩
  · rintro ⟨⟨hnodup, hlevel, hassoc⟩, hnew, hop, hfound⟩
    exact ⟨List.nodup_cons.mpr ⟨hnew, hnodup⟩, List.forall_mem_cons.mpr ⟨hop, hlevel⟩,
      assocByLevel_cons.mpr ⟨hassoc, hfound⟩⟩

theorem unaryRules_cons {binary : List (BinaryOp β)} {u : UnaryOp γ} {done : List (UnaryOp γ)} :
    UnaryRules binary (u :: done) ↔ UnaryRules binary done ∧ u.type ∉ done.map (·.type) ∧
      isLevel u.precedence = true ∧ ∀ b ∈ binary, u.precedence ≠ b.precedence := by
  constructor
  · rintro ⟨hnodup, hlevel, hapart⟩
    obtain ⟨hnew, hnodup⟩ := List.nodup_cons.mp hnodup
    obtain ⟨hu, hlevel⟩ := List.forall_mem_cons.mp hlevel
    obtain ⟨hbinary, hapart⟩ := List.forall_mem_cons.mp hapart
    exact ⟨⟨hnodup, hlevel, hapart⟩, hnew, hu, hbinary⟩
  · rintro ⟨⟨hnodup, hlevel, hapart⟩, hnew, hu, hbinary⟩
    exact ⟨List.nodup_cons.mpr ⟨hnew, hnodup⟩, List.forall_mem_cons.mpr ⟨hu, hlevel⟩,
      List.forall_mem_cons.mpr ⟨hbinary, hapart⟩⟩

theorem BinaryRules.perm {ops ops' : List (BinaryOp β)} (h : BinaryRules ops) (hp : ops.Perm ops') :
    BinaryRules ops' where
  nodup := (hp.map _).nodup_iff.mp h.nodup
  level := fun op hop => h.level op (hp.mem_iff.mpr hop)
  assoc := fun a ha b hb => h.assoc a (hp.mem_iff.mpr ha) b (hp.mem_iff.mpr hb)

theorem UnaryRules.perm {binary binary' : List (BinaryOp β)} {ops ops' : List (UnaryOp γ)}
    (h : UnaryRules binary ops) (hbinary : binary.Perm binary') (hp : ops.Perm ops') :
    UnaryRules binary' ops' where
  nodup := (hp.map _).nodup_iff.mp h.nodup
  level := fun u hu => h.level u (hp.mem_iff.mpr hu)
  apart := fun u hu b hb => h.apart u (hp.mem_iff.mpr hu) b (hbinary.mem_iff.mpr hb)

/-! ### One draft -/

theorem draft_injective : Function.Injective (BinaryOp.draft : BinaryOp β → BinaryDraft β) := by
  rintro ⟨type, precedence, assoc, builder⟩ ⟨type', precedence', assoc', builder'⟩ h
  simpa [BinaryOp.draft] using h

theorem unaryDraft_injective : Function.Injective (UnaryOp.draft : UnaryOp γ → UnaryDraft γ) := by
  rintro ⟨type, precedence, builder⟩ ⟨type', precedence', builder'⟩ h
  simpa [UnaryOp.draft] using h

/-- **A binary draft is accepted**, and becomes the first entry as it is, exactly when its type is
new, its level is allowed, it says what it builds, and the entry found at its level has its
associativity. -/
theorem addBinary_eq_ok {done done' : List (BinaryOp β)} {d : BinaryDraft β} :
    addBinary done d = .ok done' ↔ ∃ op : BinaryOp β, op.draft = d ∧ done' = op :: done ∧
      op.type ∉ done.map (·.type) ∧ isLevel op.precedence = true ∧
      ∀ other, done.find? (·.precedence = op.precedence) = some other → other.assoc = op.assoc := by
  obtain ⟨type, precedence, assoc, builder⟩ := d
  constructor
  · intro h
    unfold addBinary at h
    split at h
    · cases h
    rename_i hnew
    split at h
    · cases h
    rename_i hlevel
    split at h
    · cases h
    rename_i builder hbuilder
    obtain rfl : _ = some builder := hbuilder
    simp only at h hnew hlevel
    split at h
    · rename_i other hother
      split at h
      · rename_i hassoc
        refine ⟨⟨type, precedence, assoc, builder⟩, rfl, (Except.ok.inj h).symm,
          by simpa using hnew, by simpa using hlevel, fun o ho => ?_⟩
        rw [hother] at ho
        rw [← Option.some.inj ho, hassoc]
      · cases h
    · rename_i hnone
      refine ⟨⟨type, precedence, assoc, builder⟩, rfl, (Except.ok.inj h).symm,
        by simpa using hnew, by simpa using hlevel, fun o ho => ?_⟩
      rw [hnone] at ho
      cases ho
  · rintro ⟨op, hdraft, rfl, hnew, hlevel, hassoc⟩
    obtain ⟨rfl, rfl, rfl, rfl⟩ := BinaryDraft.mk.inj hdraft
    rw [addBinary, if_neg (by simpa using hnew), if_neg (by simpa using hlevel)]
    cases hother : done.find? (·.precedence = op.precedence) with
    | none => rfl
    | some other => exact if_pos (hassoc other hother)

theorem addUnary_eq_ok {binary : List (BinaryOp β)} {done done' : List (UnaryOp γ)} {d : UnaryDraft γ} :
    addUnary binary done d = .ok done' ↔ ∃ u : UnaryOp γ, u.draft = d ∧ done' = u :: done ∧
      u.type ∉ done.map (·.type) ∧ isLevel u.precedence = true ∧
      ∀ b ∈ binary, u.precedence ≠ b.precedence := by
  obtain ⟨type, precedence, builder⟩ := d
  constructor
  · intro h
    unfold addUnary at h
    split at h
    · cases h
    rename_i hnew
    split at h
    · cases h
    rename_i hlevel
    split at h
    · cases h
    rename_i builder hbuilder
    obtain rfl : _ = some builder := hbuilder
    simp only at h hnew hlevel
    split at h
    · cases h
    rename_i hnone
    refine ⟨⟨type, precedence, builder⟩, rfl, (Except.ok.inj h).symm, by simpa using hnew,
      by simpa using hlevel, fun b hb he => ?_⟩
    have hne := List.find?_eq_none.mp hnone b hb
    exact hne (by simpa using he.symm)
  · rintro ⟨u, hdraft, rfl, hnew, hlevel, hapart⟩
    obtain ⟨rfl, rfl, rfl⟩ := UnaryDraft.mk.inj hdraft
    have hnone : binary.find? (·.precedence = u.precedence) = none :=
      List.find?_eq_none.mpr fun b hb => by simpa using (hapart b hb).symm
    rw [addUnary, if_neg (by simpa using hnew), if_neg (by simpa using hlevel)]
    simp only [hnone]

/-! ### All drafts -/

theorem foldlM_ok_induct {α β ε : Type} {step : β → α → Except ε β} {P : β → Prop}
    (hstep : ∀ b a b', P b → step b a = .ok b' → P b') :
    ∀ (as : List α) (b b' : β), P b → as.foldlM step b = .ok b' → P b'
  | [], b, b', hb, h => by
    rw [List.foldlM_nil] at h
    exact Except.ok.inj h ▸ hb
  | a :: as, b, b', hb, h => by
    rw [List.foldlM_cons] at h
    cases hs : step b a with
    | error e =>
      rw [hs] at h
      cases h
    | ok b₁ =>
      rw [hs] at h
      exact foldlM_ok_induct hstep as b₁ b' (hstep b a b₁ hb hs) h

/-- Where a draft is accepted when its entry keeps the rules beside those before it, a list of drafts
is accepted when all its entries together keep them. -/
theorem foldlM_eq_ok {α β ε : Type} {step : List α → β → Except ε (List α)} (draft : α → β)
    (Rules : List α → Prop) (htail : ∀ op done, Rules (op :: done) → Rules done)
    (hstep : ∀ done d done', Rules done →
      (step done d = .ok done' ↔ ∃ op, draft op = d ∧ done' = op :: done ∧ Rules done')) :
    ∀ (ds : List β) (done ops : List α), Rules done → (ds.foldlM step done = .ok ops ↔
      ∃ es : List α, es.map draft = ds ∧ ops = es.reverse ++ done ∧ Rules ops) := by
  intro ds
  induction ds with
  | nil =>
    intro done ops hdone
    rw [List.foldlM_nil]
    constructor
    · intro h
      obtain rfl := Except.ok.inj h
      exact ⟨[], rfl, rfl, hdone⟩
    · rintro ⟨es, hes, rfl, -⟩
      obtain rfl := List.map_eq_nil_iff.mp hes
      rfl
  | cons d ds ih =>
    intro done ops hdone
    rw [List.foldlM_cons]
    constructor
    · intro h
      cases hs : step done d with
      | error e =>
        rw [hs] at h
        cases h
      | ok done' =>
        rw [hs] at h
        obtain ⟨op, hop, rfl, hrules⟩ := (hstep done d done' hdone).mp hs
        obtain ⟨es, hes, rfl, hall⟩ := (ih _ _ hrules).mp h
        exact ⟨op :: es, by rw [List.map_cons, hop, hes], by simp, hall⟩
    · rintro ⟨es, hes, rfl, hall⟩
      obtain ⟨op, es, rfl, hop, hes⟩ := List.map_eq_cons_iff.mp hes
      rw [List.reverse_cons, List.append_assoc, List.singleton_append] at hall ⊢
      have hrules : Rules (op :: done) := by
        -- the entries added later can be taken away again
        generalize es.reverse = later at hall
        induction later with
        | nil => exact hall
        | cons e later ih => exact ih (htail e _ hall)
      rw [(hstep done d (op :: done) hdone).mpr ⟨op, hop, rfl, hrules⟩]
      exact (ih _ _ hrules).mpr ⟨es, hes, rfl, hall⟩

theorem foldlM_nil_eq_ok {α β ε : Type} {step : List α → β → Except ε (List α)} (draft : α → β)
    (Rules : List α → Prop) (hnil : Rules []) (htail : ∀ op done, Rules (op :: done) → Rules done)
    (hstep : ∀ done d done', Rules done →
      (step done d = .ok done' ↔ ∃ op, draft op = d ∧ done' = op :: done ∧ Rules done'))
    {ds : List β} {ops : List α} :
    ds.foldlM step [] = .ok ops ↔ ops.reverse.map draft = ds ∧ Rules ops := by
  rw [foldlM_eq_ok draft Rules htail hstep ds [] ops hnil]
  constructor
  · rintro ⟨es, hes, rfl, h⟩
    rw [List.append_nil] at h ⊢
    exact ⟨by rw [List.reverse_reverse, hes], h⟩
  · rintro ⟨hds, h⟩
    exact ⟨ops.reverse, hds, by simp, h⟩

theorem foldlM_addBinary_eq_ok {ds : List (BinaryDraft β)} {ops : List (BinaryOp β)} :
    ds.foldlM addBinary [] = .ok ops ↔ ops.reverse.map BinaryOp.draft = ds ∧ BinaryRules ops := by
  refine foldlM_nil_eq_ok BinaryOp.draft BinaryRules binaryRules_nil
    (fun op done h => (binaryRules_cons.mp h).1) fun done d done' hdone => ?_
  rw [addBinary_eq_ok]
  refine exists_congr fun op => and_congr_right fun _ => and_congr_right ?_
  rintro rfl
  rw [binaryRules_cons, and_iff_right hdone]

theorem foldlM_addUnary_eq_ok {binary : List (BinaryOp β)} {ds : List (UnaryDraft γ)}
    {ops : List (UnaryOp γ)} :
    ds.foldlM (addUnary binary) [] = .ok ops ↔
      ops.reverse.map UnaryOp.draft = ds ∧ UnaryRules binary ops := by
  refine foldlM_nil_eq_ok UnaryOp.draft (UnaryRules binary) unaryRules_nil
    (fun op done h => (unaryRules_cons.mp h).1) fun done d done' hdone => ?_
  rw [addUnary_eq_ok]
  refine exists_congr fun op => and_congr_right fun _ => and_congr_right ?_
  rintro rfl
  rw [unaryRules_cons, and_iff_right hdone]

/-- **What table is made from drafts**: the one whose entries are the drafts, in their order, if they
keep the rules. -/
theorem ofDrafts_eq_ok {binary : List (BinaryDraft β)} {unary : List (UnaryDraft γ)} {T : Table β γ} :
    ofDrafts binary unary = .ok T ↔ T.binary.map BinaryOp.draft = binary ∧
      T.unary.map UnaryOp.draft = unary ∧ BinaryRules T.binary ∧ UnaryRules T.binary T.unary := by
  obtain ⟨bs, us⟩ := T
  constructor
  · intro h
    cases hb : binary.foldlM addBinary [] with
    | error e =>
      rw [ofDrafts, hb] at h
      cases h
    | ok ops =>
      simp only [ofDrafts, hb, bind, Except.bind] at h
      cases hu : unary.foldlM (addUnary ops) [] with
      | error e =>
        rw [hu] at h
        cases h
      | ok uops =>
        rw [hu] at h
        obtain ⟨rfl, rfl⟩ := Table.mk.inj (Except.ok.inj h)
        obtain ⟨hbinary, hbrules⟩ := foldlM_addBinary_eq_ok.mp hb
        obtain ⟨hunary, hurules⟩ := foldlM_addUnary_eq_ok.mp hu
        exact ⟨hbinary, hunary, hbrules.perm (List.reverse_perm _).symm,
          hurules.perm (List.reverse_perm _).symm (List.reverse_perm _).symm⟩
  · rintro ⟨hbinary, hunary, hbrules, hurules⟩
    have hb : binary.foldlM addBinary [] = .ok bs.reverse :=
      foldlM_addBinary_eq_ok.mpr ⟨by rwa [List.reverse_reverse],
        hbrules.perm (List.reverse_perm _).symm⟩
    have hu : unary.foldlM (addUnary bs.reverse) [] = .ok us.reverse :=
      foldlM_addUnary_eq_ok.mpr ⟨by rwa [List.reverse_reverse],
        hurules.perm (List.reverse_perm _).symm (List.reverse_perm _).symm⟩
    simp only [ofDrafts, hb, bind, Except.bind, hu, List.reverse_reverse]
    rfl

theorem Accepted.rules {T : Table β γ} (h : T.Accepted) :
    BinaryRules T.binary ∧ UnaryRules T.binary T.unary := by
  obtain ⟨binary, unary, h⟩ := h
  exact (ofDrafts_eq_ok.mp h).2.2

/-- **An accepted table is regular.** -/
theorem Accepted.regular {T : Table β γ} (h : T.Accepted) : T.Regular :=
  ⟨h.rules.1.level, h.rules.2.level, h.rules.1.assoc, h.rules.2.apart⟩

theorem Accepted.binary_nodup {T : Table β γ} (h : T.Accepted) : (T.binary.map (·.type)).Nodup :=
  h.rules.1.nodup

theorem Accepted.unary_nodup {T : Table β γ} (h : T.Accepted) : (T.unary.map (·.type)).Nodup :=
  h.rules.2.nodup

/-! ### Looking up -/

theorem mem_of_binary? {T : Table β γ} {type : TokenType} {op : BinaryOp β}
    (h : T.binary? type = some op) : op ∈ T.binary ∧ op.type = type :=
  ⟨List.mem_of_find?_eq_some h, by simpa using List.find?_some h⟩

theorem mem_of_unary? {T : Table β γ} {type : TokenType} {op : UnaryOp γ}
    (h : T.unary? type = some op) : op ∈ T.unary ∧ op.type = type :=
  ⟨List.mem_of_find?_eq_some h, by simpa using List.find?_some h⟩

theorem find?_of_nodup {α β : Type} [DecidableEq β] {key : α → β} {as : List α}
    (h : (as.map key).Nodup) {a : α} (ha : a ∈ as) : as.find? (fun x => key x = key a) = some a := by
  induction as with
  | nil => cases ha
  | cons x as ih =>
    obtain ⟨hx, h⟩ := List.nodup_cons.mp h
    rcases List.mem_cons.mp ha with rfl | ha
    · simp
    · have hne : key x ≠ key a := fun he => hx (he ▸ List.mem_map_of_mem ha)
      rw [List.find?_cons_of_neg (by simpa using hne)]
      exact ih h ha

theorem Accepted.binary?_of_mem {T : Table β γ} (h : T.Accepted) {op : BinaryOp β}
    (hop : op ∈ T.binary) :
    T.binary? op.type = some op := find?_of_nodup h.binary_nodup hop

theorem Accepted.unary?_of_mem {T : Table β γ} (h : T.Accepted) {u : UnaryOp γ} (hu : u ∈ T.unary) :
    T.unary? u.type = some u := find?_of_nodup h.unary_nodup hu

theorem operatorOf_of_binary? {T : Table β γ} {type : TokenType} {op : BinaryOp β}
    (h : T.binary? type = some op) : T.operatorOf type = op.draft := by
  rw [operatorOf, h]

theorem operatorOf_of_none {T : Table β γ} {type : TokenType} (h : T.binary? type = none) :
    T.operatorOf type = ⟨type, Precedence.lowest, .none, none⟩ := by
  rw [operatorOf, h]

theorem binding_of_binary? {T : Table β γ} {type : TokenType} {op : BinaryOp β}
    (h : T.binary? type = some op) : T.binding type = ⟨op.precedence, op.assoc⟩ := by
  rw [binding, operatorOf_of_binary? h]
  rfl

theorem binding_of_none {T : Table β γ} {type : TokenType} (h : T.binary? type = none) :
    T.binding type = ⟨Precedence.lowest, .none⟩ := by
  rw [binding, operatorOf_of_none h]

theorem isLevel_iff {p : Int} : isLevel p = true ↔ 0 < p ∧ p < 1000 := by
  rw [isLevel, Bool.and_eq_true, decide_eq_true_eq, decide_eq_true_eq]
  rfl

namespace Regular

variable {T : Table β γ} (hT : T.Regular)
include hT

theorem binary?_level {type : TokenType} {op : BinaryOp β} (h : T.binary? type = some op) :
    0 < op.precedence ∧ op.precedence < 1000 :=
  isLevel_iff.mp (hT.binary_level op (mem_of_binary? h).1)

theorem unary?_level {type : TokenType} {op : UnaryOp γ} (h : T.unary? type = some op) :
    0 < op.precedence ∧ op.precedence < 1000 :=
  isLevel_iff.mp (hT.unary_level op (mem_of_unary? h).1)

theorem assoc_eq {s t : TokenType} {a b : BinaryOp β} (ha : T.binary? s = some a)
    (hb : T.binary? t = some b) (h : a.precedence = b.precedence) : a.assoc = b.assoc :=
  hT.same_assoc a (mem_of_binary? ha).1 b (mem_of_binary? hb).1 h

theorem unary_ne_binary {s t : TokenType} {u : UnaryOp γ} {b : BinaryOp β}
    (hu : T.unary? s = some u) (hb : T.binary? t = some b) : u.precedence ≠ b.precedence :=
  hT.apart u (mem_of_unary? hu).1 b (mem_of_binary? hb).1

end Regular

/-! ### Well-typed tables -/

/-- An accepted table whose entries build the nodes that their operators are made for. -/
structure WellTyped (T : Table) : Prop where
  accepted : T.Accepted
  binary : ∀ op ∈ T.binary, op.type.category? = some op.builder
  unary : ∀ op ∈ T.unary, op.type.isUnary = true

/-- What parsing relies on: a regular table whose entries build the nodes that their operators are
made for. -/
structure Coherent (T : Table) : Prop where
  regular : T.Regular
  binary : ∀ op ∈ T.binary, op.type.category? = some op.builder
  unary : ∀ op ∈ T.unary, op.type.isUnary = true

theorem WellTyped.coherent {T : Table} (h : T.WellTyped) : T.Coherent :=
  ⟨h.accepted.regular, h.binary, h.unary⟩

namespace Coherent

variable {T : Table} (hT : T.Coherent)
include hT

theorem category?_of_binary? {type : TokenType} {op : BinaryOp} (h : T.binary? type = some op) :
    type.category? = some op.builder := by
  obtain ⟨hmem, rfl⟩ := mem_of_binary? h
  exact hT.binary op hmem

theorem isUnary_of_unary? {type : TokenType} {op : UnaryOp} (h : T.unary? type = some op) :
    type.isUnary = true := by
  obtain ⟨hmem, rfl⟩ := mem_of_unary? h
  exact hT.unary op hmem

theorem binary?_eq_none {type : TokenType} (h : type.category? = none) :
    T.binary? type = none := by
  cases hb : T.binary? type with
  | none => rfl
  | some op =>
    rw [hT.category?_of_binary? hb] at h
    simp at h

theorem unary?_eq_none {type : TokenType} (h : type.isUnary = false) : T.unary? type = none := by
  cases hu : T.unary? type with
  | none => rfl
  | some op =>
    rw [hT.isUnary_of_unary? hu] at h
    simp at h

end Coherent

theorem standard_wellTyped : standard.WellTyped where
  accepted := ⟨_, _, ofDrafts_standard⟩
  binary := by decide
  unary := by decide

end Fixity.Table
