import Fixity.Proofs.Document.Unfold

/-!
# Reading the nodes of a document

Nodes are read from the last to the first, with the trees that are built so far and a mark at each
node that has a parent.  After each node these are the trees of the nodes read and the places they
refer to (`stateOf`).  So a node is built when it says what it is, its references lead to later nodes
without a parent, and its builder takes their trees (`readNode_iff`); and all nodes are when this
holds of each (`readFrom_iff`).

The trees are then those at the places of the nodes (`linked_iff`).
-/

namespace Fixity.Document

open Fixity.Expr

/-- The value says what the entry says: it is an object of a registered kind with a type, its value
can be found from its lexeme, and its children are whole numbers. -/
structure Says (R : Registry) (v : Json) (entry : Entry) : Prop where
  object : ∃ members, v = .object members
  kind : R.builder? (readRow v).kind = some entry.shape
  type_ne_nil : (readRow v).type ≠ []
  token : ∃ literal, literalOf (TokenType.ofName (readRow v).type) (readRow v).lexeme = .ok literal ∧
    entry.token = ⟨TokenType.ofName (readRow v).type, (readRow v).lexeme, literal, (readRow v).pos⟩
  children : (readRow v).children.map Json.whole? = entry.children.map fun (j : Nat) => some (j : Int)

/-! ### The state between two nodes -/

/-- The state in which the given trees are built, and the given places have a parent. -/
def stateOf (n : Nat) (ts : List Expr) (refs : List Nat) : Built :=
  ⟨ts.reverse.toArray, ((List.range n).map fun j => decide (j ∈ refs)).toArray⟩

theorem stateOf_perm (n : Nat) (ts : List Expr) {refs refs' : List Nat} (h : refs.Perm refs') :
    stateOf n ts refs = stateOf n ts refs' := by
  simp only [stateOf, h.mem_iff]

theorem trees_stateOf {n i j : Nat} {ts : List Expr} (hn : n = i + 1 + ts.length) (hi : i < j)
    (hj : j < n) (refs : List Nat) :
    (stateOf n ts refs).trees[n - 1 - j]? = ts[j - (i + 1)]? := by
  have hplace : ts.length - 1 - (n - 1 - j) = j - (i + 1) := by omega
  rw [stateOf, List.getElem?_toArray, List.getElem?_reverse (by omega), hplace]

theorem owned_stateOf {n j : Nat} (hj : j < n) (ts : List Expr) (refs : List Nat) :
    (stateOf n ts refs).owned[j]?.getD false = decide (j ∈ refs) := by
  simp [stateOf, hj]

theorem own_stateOf (n j : Nat) (ts : List Expr) (refs : List Nat) :
    { stateOf n ts refs with owned := (stateOf n ts refs).owned.setIfInBounds j true } =
      stateOf n ts (j :: refs) := by
  simp only [stateOf, List.setIfInBounds_toArray]
  congr 2
  refine List.ext_getElem (by simp) fun k hk hk' => ?_
  rw [List.getElem_set]
  by_cases hjk : j = k
  · simp [hjk]
  · simp [hjk, Ne.symm hjk]

theorem push_stateOf (n : Nat) (t : Expr) (ts : List Expr) (refs : List Nat) :
    { stateOf n ts refs with trees := (stateOf n ts refs).trees.push t } =
      stateOf n (t :: ts) refs := by
  simp only [stateOf, List.push_toArray, List.reverse_cons]

/-! ### One node -/

/-- The references lead to the given trees, those of the nodes after node `i` of `n`. -/
structure Leads (n i : Nat) (ts : List Expr) (js : List Nat) (cs : List Expr) : Prop where
  bounds : ∀ j ∈ js, i < j ∧ j < n
  trees : List.Forall₂ (fun j c => ts[j - (i + 1)]? = some c) js cs

theorem leads_nil {n i : Nat} {ts cs : List Expr} : Leads n i ts [] cs ↔ cs = [] := by
  constructor
  · rintro ⟨-, h⟩
    exact List.forall₂_nil_left_iff.mp h
  · rintro rfl
    exact ⟨by simp, .nil⟩

theorem leads_cons {n i j : Nat} {ts cs : List Expr} {js : List Nat} :
    Leads n i ts (j :: js) cs ↔ ∃ c cs', cs = c :: cs' ∧ i < j ∧ j < n ∧
      ts[j - (i + 1)]? = some c ∧ Leads n i ts js cs' := by
  constructor
  · rintro ⟨hbounds, htrees⟩
    obtain ⟨hj, hbounds⟩ := List.forall_mem_cons.mp hbounds
    cases htrees with
    | cons hc htrees => exact ⟨_, _, rfl, hj.1, hj.2, hc, hbounds, htrees⟩
  · rintro ⟨c, cs', rfl, hij, hjn, hc, hbounds, htrees⟩
    exact ⟨List.forall_mem_cons.mpr ⟨⟨hij, hjn⟩, hbounds⟩, .cons hc htrees⟩

/-- **A child is taken** when the reference leads to a later node that has no parent. -/
theorem adopt_iff {n i : Nat} {ts : List Expr} (hn : n = i + 1 + ts.length) (refs : List Nat)
    (ref : Json) (x : Expr × Built) :
    adopt n i (stateOf n ts refs) ref = .ok x ↔ ∃ (j : Nat) (c : Expr), ref.whole? = some (j : Int) ∧
      i < j ∧ j < n ∧ ts[j - (i + 1)]? = some c ∧ j ∉ refs ∧ x = (c, stateOf n ts (j :: refs)) := by
  unfold adopt
  cases hwhole : ref.whole? with
  | none => simp
  | some child =>
    simp only
    by_cases hrange : child ≤ i ∨ n ≤ child.toNat
    · rw [if_pos hrange]
      constructor
      · intro h
        cases h
      · rintro ⟨j, c, hj, hij, hjn, -⟩
        obtain rfl := Option.some.inj hj
        omega
    · obtain ⟨j, rfl⟩ := Int.eq_ofNat_of_zero_le (by omega : 0 ≤ child)
      rw [Int.toNat_natCast] at hrange ⊢
      obtain ⟨hij, hjn⟩ : i < j ∧ j < n := by omega
      have hlt : j - (i + 1) < ts.length := by omega
      rw [if_neg hrange, trees_stateOf hn hij hjn, owned_stateOf hjn, own_stateOf,
        List.getElem?_eq_getElem hlt]
      simp only [decide_eq_true_eq]
      constructor
      · intro h
        split at h
        · cases h
        · rename_i hfree
          exact ⟨j, _, rfl, hij, hjn, List.getElem?_eq_getElem hlt, hfree,
            (Except.ok.inj h).symm⟩
      · rintro ⟨j', c, hj', -, -, hc, hfree, rfl⟩
        obtain rfl : j = j' := Int.ofNat.inj (Option.some.inj hj')
        rw [List.getElem?_eq_getElem hlt] at hc
        obtain rfl := Option.some.inj hc
        rw [if_neg hfree]

/-- **The children of a node are taken** when the references lead to later nodes, no two of them to
one node and none to a node that has a parent. -/
theorem adoptAll_iff {n i : Nat} {ts : List Expr} (hn : n = i + 1 + ts.length) (rs : List Json) :
    ∀ {refs : List Nat} (taken : List Expr) (x : List Expr × Built), refs.Nodup →
      (adoptAll n i taken (stateOf n ts refs) rs = .ok x ↔ ∃ js cs,
        rs.map Json.whole? = js.map (fun (j : Nat) => some (j : Int)) ∧ (js ++ refs).Nodup ∧
          Leads n i ts js cs ∧ x = (taken.reverse ++ cs, stateOf n ts (js ++ refs))) := by
  induction rs with
  | nil =>
    intro refs taken x hrefs
    rw [adoptAll]
    constructor
    · intro h
      obtain rfl := Except.ok.inj h
      exact ⟨[], [], rfl, hrefs, leads_nil.mpr rfl, by rw [List.append_nil]; rfl⟩
    · rintro ⟨js, cs, hjs, -, hleads, rfl⟩
      obtain rfl := List.map_eq_nil_iff.mp hjs.symm
      obtain rfl := leads_nil.mp hleads
      rw [List.append_nil]
      rfl
  | cons ref rs ih =>
    intro refs taken x hrefs
    rw [adoptAll, bind_eq_ok]
    constructor
    · rintro ⟨_, hadopt, h⟩
      obtain ⟨j, c, hwhole, hij, hjn, hc, hfree, rfl⟩ := (adopt_iff hn refs ref _).mp hadopt
      obtain ⟨js, cs, hjs, hnodup, hleads, rfl⟩ :=
        (ih (c :: taken) x (List.nodup_cons.mpr ⟨hfree, hrefs⟩)).mp h
      have hperm : (js ++ j :: refs).Perm (j :: js ++ refs) := List.perm_middle
      refine ⟨j :: js, c :: cs, ?_, hperm.nodup_iff.mp hnodup,
        leads_cons.mpr ⟨c, cs, rfl, hij, hjn, hc, hleads⟩, ?_⟩
      · rw [List.map_cons, List.map_cons, hwhole, hjs]
      · rw [stateOf_perm n ts hperm, List.reverse_cons, List.append_assoc]
        rfl
    · rintro ⟨js, cs, hjs, hnodup, hleads, rfl⟩
      cases js with
      | nil => cases hjs
      | cons j js =>
        obtain ⟨hwhole, hjs⟩ := List.cons.inj hjs
        obtain ⟨c, cs, rfl, hij, hjn, hc, hleads⟩ := leads_cons.mp hleads
        have hperm : (js ++ j :: refs).Perm (j :: js ++ refs) := List.perm_middle
        have hnodup := hperm.nodup_iff.mpr hnodup
        have hcons := (List.nodup_append.mp hnodup).2.1
        refine ⟨_, (adopt_iff hn refs ref _).mpr
          ⟨j, c, hwhole, hij, hjn, hc, (List.nodup_cons.mp hcons).1, rfl⟩, ?_⟩
        refine (ih (c :: taken) _ hcons).mpr ⟨js, cs, hjs, hnodup, hleads, ?_⟩
        rw [stateOf_perm n ts hperm, List.reverse_cons, List.append_assoc]
        rfl

theorem tokenOf_iff {r : RawRow} {token : Token} : tokenOf r = .ok token ↔ r.type ≠ [] ∧
    ∃ literal, literalOf (TokenType.ofName r.type) r.lexeme = .ok literal ∧
      token = ⟨TokenType.ofName r.type, r.lexeme, literal, r.pos⟩ := by
  unfold tokenOf
  by_cases hempty : r.type = []
  · rw [hempty]
    constructor
    · intro h
      cases h
    · rintro ⟨hne, -⟩
      exact absurd rfl hne
  · have hisEmpty : r.type.isEmpty = false := List.isEmpty_eq_false_iff.mpr hempty
    simp only [hisEmpty, Bool.false_eq_true, if_false, bind_eq_ok]
    constructor
    · rintro ⟨literal, hliteral, hpure⟩
      exact ⟨hempty, literal, hliteral, (Except.ok.inj hpure).symm⟩
    · rintro ⟨-, literal, hliteral, rfl⟩
      exact ⟨literal, hliteral, rfl⟩

/-- **A node is built** when it says what it is, its references lead to later nodes without a
parent, and its builder takes their trees. -/
theorem readNode_iff {R : Registry} {n i : Nat} {ts : List Expr} (hn : n = i + 1 + ts.length)
    {refs : List Nat} (hrefs : refs.Nodup) (v : Json) (b : Built) :
    readNode R n i (stateOf n ts refs) v = .ok b ↔ ∃ entry cs t, Says R v entry ∧
      (entry.children ++ refs).Nodup ∧ Leads n i ts entry.children cs ∧
      build entry.shape entry.token cs = .ok t ∧
      b = stateOf n (t :: ts) (entry.children ++ refs) := by
  constructor
  · intro h
    unfold readNode at h
    split at h
    case h_2 => cases h
    case h_1 members =>
      simp only at h
      split at h
      case h_1 => cases h
      case h_2 shape hkind =>
        obtain ⟨token, htoken, h⟩ := bind_eq_ok.mp h
        obtain ⟨_, hadopt, h⟩ := bind_eq_ok.mp h
        obtain ⟨t, hbuild, hpure⟩ := bind_eq_ok.mp h
        obtain ⟨js, cs, hjs, hnodup, hleads, rfl⟩ := (adoptAll_iff hn _ [] _ hrefs).mp hadopt
        obtain ⟨hne, hliteral⟩ := tokenOf_iff.mp htoken
        refine ⟨⟨shape, token, js⟩, cs, t, ⟨⟨members, rfl⟩, hkind, hne, hliteral, hjs⟩, hnodup,
          hleads, hbuild, ?_⟩
        rw [← push_stateOf]
        exact (Except.ok.inj hpure).symm
  · rintro ⟨entry, cs, t, hsaid, hnodup, hleads, hbuild, rfl⟩
    obtain ⟨members, rfl⟩ := hsaid.object
    have htoken := tokenOf_iff.mpr ⟨hsaid.type_ne_nil, hsaid.token⟩
    have hadopt := (adoptAll_iff hn _ [] _ hrefs).mpr
      ⟨entry.children, cs, hsaid.children, hnodup, hleads, rfl⟩
    simp only [readNode, hsaid.kind]
    refine bind_eq_ok.mpr ⟨entry.token, htoken, bind_eq_ok.mpr ⟨_, hadopt, ?_⟩⟩
    refine bind_eq_ok.mpr ⟨t, hbuild, ?_⟩
    rw [← push_stateOf]
    rfl

/-! ### All nodes -/

/-- The entries, of nodes `i` to `n`, are built into the trees. -/
inductive Linked (n : Nat) : Nat → List Entry → List Expr → Prop
  | nil {i : Nat} : Linked n i [] []
  | cons {i : Nat} {entry : Entry} {entries : List Entry} {cs ts : List Expr} {t : Expr} :
      Leads n i ts entry.children cs → build entry.shape entry.token cs = .ok t →
      Linked n (i + 1) entries ts → Linked n i (entry :: entries) (t :: ts)

theorem Linked.length_eq {n i : Nat} {entries : List Entry} {ts : List Expr}
    (h : Linked n i entries ts) : ts.length = entries.length := by
  induction h with
  | nil => rfl
  | cons _ _ _ ih => rw [List.length_cons, List.length_cons, ih]

/-- **Nodes are built from the last to the first** when each can be built from those after it, and
no place is referred to twice. -/
theorem readFrom_iff {R : Registry} {n : Nat} (vs : List Json) :
    ∀ {i : Nat} (b : Built), n = i + vs.length →
      (readFrom R n i vs = .ok b ↔ ∃ entries ts, List.Forall₂ (Says R) vs entries ∧
        Linked n i entries ts ∧ (entries.flatMap Entry.children).Nodup ∧
        b = stateOf n ts (entries.flatMap Entry.children)) := by
  induction vs with
  | nil =>
    intro i b _
    have hstart : readFrom R n i [] = .ok (stateOf n [] []) := by
      have hfree : (List.range n).map (fun j => decide (j ∈ ([] : List Nat))) =
          List.replicate n false := by
        simp [List.map_const']
      rw [stateOf, hfree]
      simp only [readFrom, List.zipIdx_nil, List.foldrM_nil, List.toArray_replicate]
      rfl
    rw [hstart]
    constructor
    · intro h
      exact ⟨[], [], .nil, .nil, List.nodup_nil, (Except.ok.inj h).symm⟩
    · rintro ⟨entries, ts, hsaid, hlinked, -, rfl⟩
      cases hsaid
      cases hlinked
      rfl
  | cons v vs ih =>
    intro i b hn
    rw [List.length_cons] at hn
    have hnext : n = i + 1 + vs.length := by omega
    rw [readFrom_cons, bind_eq_ok]
    constructor
    · rintro ⟨_, hrest, hread⟩
      obtain ⟨entries, ts, hsaid, hlinked, hnodup, rfl⟩ := (ih _ hnext).mp hrest
      have hlength : n = i + 1 + ts.length := by
        rw [hlinked.length_eq, ← hsaid.length_eq, hnext]
      obtain ⟨entry, cs, t, hhere, hnodup', hleads, hbuild, rfl⟩ :=
        (readNode_iff hlength hnodup v b).mp (mapError_eq_ok.mp hread)
      exact ⟨entry :: entries, t :: ts, .cons hhere hsaid, .cons hleads hbuild hlinked, hnodup', rfl⟩
    · rintro ⟨_, _, hsaid, hlinked, hnodup, rfl⟩
      cases hsaid with
      | @cons _ entry _ entries hhere hsaid =>
        cases hlinked with
        | @cons _ _ _ cs ts t hleads hbuild hlinked =>
          have hlength : n = i + 1 + ts.length := by
            rw [hlinked.length_eq, ← hsaid.length_eq, hnext]
          have hrest := (List.nodup_append.mp hnodup).2.1
          refine ⟨_, (ih _ hnext).mpr ⟨entries, ts, hsaid, hlinked, hrest, rfl⟩, ?_⟩
          exact mapError_eq_ok.mpr ((readNode_iff hlength hrest v _).mpr
            ⟨entry, cs, t, hhere, hnodup, hleads, hbuild, rfl⟩)

/-! ### Trees at places -/

theorem getElem?_iff_treeAt {entries : List Entry} {i n : Nat} {ts : List Expr}
    (h : List.Forall₂ (TreeAt entries) (List.range' i n) ts) {j : Nat} (hij : i ≤ j)
    (hj : j < i + n) (c : Expr) : ts[j - i]? = some c ↔ TreeAt entries j c := by
  have hlength : ts.length = n := by rw [← h.length_eq, List.length_range']
  have hlt : j - i < ts.length := by omega
  have hplace : TreeAt entries j ts[j - i] := by
    have hget := h.get (by rw [h.length_eq]; exact hlt) hlt
    rw [List.get_eq_getElem, List.get_eq_getElem, List.getElem_range'] at hget
    rwa [Nat.one_mul, Nat.add_sub_cancel' hij] at hget
  rw [List.getElem?_eq_getElem hlt, Option.some.injEq]
  constructor
  · rintro rfl
    exact hplace
  · exact hplace.unique

/-- References lead to the trees at their places. -/
theorem leads_iff {entries : List Entry} {n i m : Nat} {ts cs : List Expr} {js : List Nat}
    (h : List.Forall₂ (TreeAt entries) (List.range' (i + 1) m) ts) (hn : n = i + 1 + m) :
    Leads n i ts js cs ↔
      (∀ j ∈ js, i < j ∧ j < n) ∧ List.Forall₂ (TreeAt entries) js cs := by
  induction js generalizing cs with
  | nil => simp [leads_nil]
  | cons j js ih =>
    rw [leads_cons, List.forall_mem_cons]
    constructor
    · rintro ⟨c, cs', rfl, hij, hjn, hc, hleads⟩
      obtain ⟨hbounds, htrees⟩ := ih.mp hleads
      exact ⟨⟨⟨hij, hjn⟩, hbounds⟩,
        .cons ((getElem?_iff_treeAt h hij (by omega) c).mp hc) htrees⟩
    · rintro ⟨⟨⟨hij, hjn⟩, hbounds⟩, htrees⟩
      cases htrees with
      | cons hc htrees =>
        exact ⟨_, _, rfl, hij, hjn, (getElem?_iff_treeAt h hij (by omega) _).mpr hc,
          ih.mpr ⟨hbounds, htrees⟩⟩

/-- **The nodes from place `i` on are built into the trees at their places**, if all references lead
to later nodes. -/
theorem linked_iff {all : List Entry} (entries : List Entry) :
    ∀ {i : Nat} {ts : List Expr}, all.drop i = entries →
      (Linked all.length i entries ts ↔
        (∀ (k : Nat) (entry : Entry), i ≤ k → all[k]? = some entry →
          ∀ j ∈ entry.children, k < j ∧ j < all.length) ∧
        List.Forall₂ (TreeAt all) (List.range' i entries.length) ts) := by
  induction entries with
  | nil =>
    intro i ts hall
    have hlength : all.length ≤ i := List.drop_eq_nil_iff.mp hall
    constructor
    · intro h
      cases h
      refine ⟨fun k entry hk hentry => ?_, .nil⟩
      have hlt := (List.getElem?_eq_some_iff.mp hentry).1
      omega
    · rintro ⟨-, h⟩
      cases h
      exact .nil
  | cons entry entries ih =>
    intro i ts hall
    have hentry : all[i]? = some entry := by
      rw [← Nat.add_zero i, ← List.getElem?_drop, hall]
      rfl
    have hnext : all.drop (i + 1) = entries := by
      rw [← List.drop_drop, hall]
      rfl
    have hlength : all.length = i + 1 + entries.length := by
      have := congrArg List.length hall
      rw [List.length_drop, List.length_cons] at this
      omega
    rw [List.length_cons, List.range'_succ]
    constructor
    · intro h
      cases h with
      | cons hleads hbuild hlinked =>
        obtain ⟨hafter, htrees⟩ := (ih hnext).mp hlinked
        obtain ⟨hbounds, hcs⟩ := (leads_iff htrees hlength).mp hleads
        refine ⟨fun k other hk hother => ?_,
          .cons (treeAt_iff.mpr ⟨entry, _, hentry, hcs, hbuild⟩) htrees⟩
        by_cases hik : i = k
        · subst hik
          obtain rfl := Option.some.inj (hentry.symm.trans hother)
          exact hbounds
        · exact hafter k other (by omega) hother
    · rintro ⟨hafter, h⟩
      cases h with
      | cons htree htrees =>
        obtain ⟨other, cs, hother, hcs, hbuild⟩ := treeAt_iff.mp htree
        obtain rfl := Option.some.inj (hentry.symm.trans hother)
        refine .cons ((leads_iff htrees hlength).mpr
          ⟨hafter i entry (Nat.le_refl i) hentry, hcs⟩) hbuild ((ih hnext).mpr ⟨?_, htrees⟩)
        exact fun k other hk => hafter k other (by omega)

end Fixity.Document
