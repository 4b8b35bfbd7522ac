import Fixity.Proofs.Document.RoundTrip
import Mathlib.Data.List.Perm.Basic

/-!
# Unfolding the nodes of a document

The nodes of a document name their children by their places in the list.  `Unfolds entries js os us`
says what comes of following the references from the places `js`: the outlines `os`, which are trees
that no builder has looked at yet, and the places `us` that are passed on the way.

References that always lead to a later place, and to each place but the first exactly once
(`Arranged`), make a tree:

* everything can be unfolded (`Arranged.exists_unfolds`),
* and from the first place every place is passed exactly once (`Arranged.visits_perm`).

For a place is passed as often as the one place that refers to it, and so as often as the first.
-/

namespace Fixity.Document

open Fixity.Expr

/-- What a node of a document says: the shape it is rebuilt into, its token and the places of its
children. -/
structure Entry where
  shape : Shape
  token : Token
  children : List Nat
deriving DecidableEq

/-- A tree of shapes and tokens. -/
inductive Outline where
  | node (shape : Shape) (token : Token) (children : List Outline)

mutual

def Outline.build : Outline → Except RowFault Expr
  | .node shape token children => do Document.build shape token (← Outline.buildAll children)

def Outline.buildAll : List Outline → Except RowFault (List Expr)
  | [] => .ok []
  | o :: os => do return (← o.build) :: (← Outline.buildAll os)

end

/-- From the places `js` the entries unfold into the outlines `os`, and the places `us` are passed,
each before those below it. -/
inductive Unfolds (entries : List Entry) : List Nat → List Outline → List Nat → Prop
  | nil : Unfolds entries [] [] []
  | cons {i : Nat} {entry : Entry} {js us vs : List Nat} {os os' : List Outline} :
      entries[i]? = some entry → Unfolds entries entry.children os us →
      Unfolds entries js os' vs →
      Unfolds entries (i :: js) (.node entry.shape entry.token os :: os') (i :: (us ++ vs))

/-- The references lead to later places, and to each place but the first exactly once. -/
structure Arranged (entries : List Entry) : Prop where
  ne_nil : entries ≠ []
  after : ∀ i entry, entries[i]? = some entry →
    ∀ j ∈ entry.children, i < j ∧ j < entries.length
  once : ∀ j, 0 < j → j < entries.length → (entries.flatMap Entry.children).count j = 1

variable {entries : List Entry}

/-- Each place but the first is referred to once when each is referred to and none twice. -/
theorem arranged_iff : Arranged entries ↔ entries ≠ [] ∧
    (∀ (k : Nat) (entry : Entry), entries[k]? = some entry →
      ∀ j ∈ entry.children, k < j ∧ j < entries.length) ∧
    (entries.flatMap Entry.children).Nodup ∧
    ∀ j, 0 < j → j < entries.length → j ∈ entries.flatMap Entry.children := by
  constructor
  · rintro ⟨hne, hafter, honce⟩
    refine ⟨hne, hafter, List.nodup_iff_count.mpr fun j => ?_, fun j hpos hj => ?_⟩
    · by_cases hmem : j ∈ entries.flatMap Entry.children
      · obtain ⟨entry, hentry, hj⟩ := List.mem_flatMap.mp hmem
        obtain ⟨k, hk⟩ := List.getElem?_of_mem hentry
        obtain ⟨hkj, hjn⟩ := hafter k entry hk j hj
        exact Nat.le_of_eq (honce j (by omega) hjn)
      · rw [List.count_eq_zero.mpr hmem]
        exact Nat.zero_le 1
    · exact List.one_le_count_iff.mp (Nat.le_of_eq (honce j hpos hj).symm)
  · rintro ⟨hne, hafter, hnodup, hall⟩
    exact ⟨hne, hafter, fun j hpos hj => by
      rw [hnodup.count, if_pos (hall j hpos hj)]⟩

theorem Arranged.pos (h : Arranged entries) : 0 < entries.length :=
  List.length_pos_iff.mpr h.ne_nil

/-! ### What is unfolded -/

theorem Unfolds.unique {js us us' : List Nat} {os os' : List Outline}
    (h : Unfolds entries js os us) (h' : Unfolds entries js os' us') : os = os' ∧ us = us' := by
  induction h generalizing os' us' with
  | nil =>
    cases h'
    exact ⟨rfl, rfl⟩
  | cons hentry _ _ ihbelow ihnext =>
    cases h' with
    | cons hentry' hbelow' hnext' =>
      obtain rfl := Option.some.inj (hentry.symm.trans hentry')
      obtain ⟨rfl, rfl⟩ := ihbelow hbelow'
      obtain ⟨rfl, rfl⟩ := ihnext hnext'
      exact ⟨rfl, rfl⟩

theorem exists_unfolds_of_forall {js : List Nat} (h : ∀ j ∈ js, ∃ o us, Unfolds entries [j] [o] us) :
    ∃ os us, Unfolds entries js os us := by
  induction js with
  | nil => exact ⟨[], [], .nil⟩
  | cons j js ih =>
    obtain ⟨o, us, hfirst⟩ := h j List.mem_cons_self
    obtain ⟨os, vs, hnext⟩ := ih fun j hj => h j (List.mem_cons_of_mem _ hj)
    cases hfirst with
    | cons hentry hbelow _ => exact ⟨_, _, .cons hentry hbelow hnext⟩

/-- **Every place can be unfolded**, for what it refers to comes after it. -/
theorem Arranged.exists_unfolds (h : Arranged entries) :
    ∀ {i : Nat}, i < entries.length → ∃ o us, Unfolds entries [i] [o] us := by
  -- by induction on the number of places after the one that is unfolded
  have hbelow : ∀ d i, entries.length - i = d → i < entries.length →
      ∃ o us, Unfolds entries [i] [o] us := by
    intro d
    induction d using Nat.strongRecOn with
    | ind d ih =>
      intro i hd hi
      have hentry : entries[i]? = some entries[i] := List.getElem?_eq_getElem hi
      obtain ⟨os, us, hos⟩ : ∃ os us, Unfolds entries entries[i].children os us := by
        refine exists_unfolds_of_forall fun j hj => ?_
        obtain ⟨hij, hj⟩ := h.after i entries[i] hentry j hj
        exact ih _ (by omega) j rfl hj
      exact ⟨_, _, .cons hentry hos .nil⟩
  intro i hi
  exact hbelow _ i rfl hi

/-- The entries stand in another order: `f` says where each has gone. -/
def Renumbers (f : Nat → Nat) (entries entries' : List Entry) : Prop :=
  ∀ i entry, entries[i]? = some entry →
    entries'[f i]? = some { entry with children := entry.children.map f }

/-- **Entries in another order unfold alike.** -/
theorem Unfolds.renumber {f : Nat → Nat} {entries' : List Entry} (hf : Renumbers f entries entries')
    {js us : List Nat} {os : List Outline} (h : Unfolds entries js os us) :
    Unfolds entries' (js.map f) os (us.map f) := by
  induction h with
  | nil => exact .nil
  | @cons i entry js us vs os os' hentry _ _ ihbelow ihnext =>
    rw [List.map_cons, List.map_cons, List.map_append]
    exact @Unfolds.cons entries' (f i) { entry with children := entry.children.map f } _ _ _ os os'
      (hf i entry hentry) ihbelow ihnext

/-! ### What is passed -/

def childrenAt (entries : List Entry) (i : Nat) : List Nat := (entries[i]?.map Entry.children).getD []

theorem childrenAt_of_getElem? {i : Nat} {entry : Entry} (h : entries[i]? = some entry) :
    childrenAt entries i = entry.children := by
  rw [childrenAt, h]
  rfl

theorem Arranged.after_of_mem (h : Arranged entries) {i j : Nat} (hj : j ∈ childrenAt entries i) :
    i < j ∧ j < entries.length := by
  cases hentry : entries[i]? with
  | none =>
    rw [childrenAt, hentry] at hj
    cases hj
  | some entry =>
    rw [childrenAt_of_getElem? hentry] at hj
    exact h.after i entry hentry j hj

theorem Unfolds.lt_of_mem {js us : List Nat} {os : List Outline} (h : Unfolds entries js os us) :
    ∀ k ∈ us, k < entries.length := by
  induction h with
  | nil => simp
  | cons hentry _ _ ihbelow ihnext =>
    refine List.forall_mem_cons.mpr ⟨(List.getElem?_eq_some_iff.mp hentry).1, fun k hk => ?_⟩
    exact (List.mem_append.mp hk).elim (ihbelow k) (ihnext k)

/-- A place is passed once where unfolding begins, and once for each reference on the way. -/
theorem Unfolds.count_eq {js us : List Nat} {os : List Outline} (h : Unfolds entries js os us)
    (k : Nat) : us.count k = js.count k + (us.flatMap (childrenAt entries)).count k := by
  induction h with
  | nil => rfl
  | cons hentry _ _ ihbelow ihnext =>
    simp only [List.flatMap_cons, List.flatMap_append, List.count_cons, List.count_append,
      childrenAt_of_getElem? hentry]
    omega

theorem exists_parent {j : Nat} (h : (entries.flatMap Entry.children).count j = 1) :
    ∃ p, ∀ k, (childrenAt entries k).count j = if k = p then 1 else 0 := by
  induction entries with
  | nil => cases h
  | cons entry entries ih =>
    rw [List.flatMap_cons, List.count_append] at h
    by_cases hentry : entry.children.count j = 0
    · obtain ⟨p, hp⟩ := ih (by omega)
      refine ⟨p + 1, fun k => ?_⟩
      cases k with
      | zero => simpa [childrenAt] using hentry
      | succ k =>
        have hk := hp k
        simpa [childrenAt] using hk
    · have hrest : j ∉ entries.flatMap Entry.children := List.count_eq_zero.mp (by omega)
      refine ⟨0, fun k => ?_⟩
      cases k with
      | zero =>
        show entry.children.count j = 1
        omega
      | succ k =>
        refine List.count_eq_zero.mpr fun hj => hrest ?_
        cases hk : entries[k]? with
        | none => simp [childrenAt, hk] at hj
        | some other =>
          have hj : j ∈ other.children := by simpa [childrenAt, hk] using hj
          exact List.mem_flatMap.mpr ⟨other, List.mem_of_getElem? hk, hj⟩

/-- What only one place refers to is met as often as that place. -/
theorem count_flatMap_of_parent {f : Nat → List Nat} {j p : Nat}
    (h : ∀ k, (f k).count j = if k = p then 1 else 0) (us : List Nat) :
    (us.flatMap f).count j = us.count p := by
  induction us with
  | nil => rfl
  | cons k us ih =>
    rw [List.flatMap_cons, List.count_append, List.count_cons, ih, h]
    by_cases hk : k = p
    · simp [hk, Nat.add_comm]
    · simp [hk]

theorem Arranged.count_eq_one (h : Arranged entries) {o : Outline} {us : List Nat}
    (hus : Unfolds entries [0] [o] us) : ∀ {k : Nat}, k < entries.length → us.count k = 1 := by
  intro k
  induction k using Nat.strongRecOn with
  | ind k ih =>
    intro hk
    rw [hus.count_eq k]
    cases k with
    | zero =>
      have hnone : (us.flatMap (childrenAt entries)).count 0 = 0 := by
        refine List.count_eq_zero.mpr fun hmem => ?_
        obtain ⟨i, -, hi⟩ := List.mem_flatMap.mp hmem
        exact absurd (h.after_of_mem hi).1 (Nat.not_lt_zero i)
      rw [hnone]
      rfl
    | succ k =>
      obtain ⟨p, hp⟩ := exists_parent (h.once (k + 1) (Nat.succ_pos k) hk)
      have hcount : (childrenAt entries p).count (k + 1) = 1 := (hp p).trans (if_pos rfl)
      have hmem : k + 1 ∈ childrenAt entries p :=
        List.one_le_count_iff.mp (Nat.le_of_eq hcount.symm)
      have hlt := (h.after_of_mem hmem).1
      have hfirst : [0].count (k + 1) = 0 := List.count_eq_zero.mpr (by simp)
      rw [count_flatMap_of_parent hp, ih p hlt (by omega), hfirst]

/-- **Unfolding from the first place passes every place exactly once.** -/
theorem Arranged.visits_perm (h : Arranged entries) {o : Outline} {us : List Nat}
    (hus : Unfolds entries [0] [o] us) : us.Perm (List.range entries.length) := by
  refine List.perm_iff_count.mpr fun k => ?_
  rw [List.nodup_range.count]
  by_cases hk : k < entries.length
  · rw [h.count_eq_one hus hk, if_pos (List.mem_range.mpr hk)]
  · rw [if_neg (by rwa [List.mem_range])]
    exact List.count_eq_zero.mpr fun hmem => hk (hus.lt_of_mem k hmem)

/-! ### What is built -/

theorem build_node {shape : Shape} {token : Token} {os : List Outline} {t : Expr} :
    (Outline.node shape token os).build = .ok t ↔
      ∃ cs, Outline.buildAll os = .ok cs ∧ build shape token cs = .ok t := by
  rw [Outline.build]
  exact bind_eq_ok

theorem buildAll_cons {o : Outline} {os : List Outline} {ts : List Expr} :
    Outline.buildAll (o :: os) = .ok ts ↔
      ∃ t ts', o.build = .ok t ∧ Outline.buildAll os = .ok ts' ∧ ts = t :: ts' := by
  rw [Outline.buildAll, bind_eq_ok]
  constructor
  · rintro ⟨t, ht, h⟩
    obtain ⟨ts', hts, hpure⟩ := bind_eq_ok.mp h
    exact ⟨t, ts', ht, hts, (Except.ok.inj hpure).symm⟩
  · rintro ⟨t, ts', ht, hts, rfl⟩
    exact ⟨t, ht, bind_eq_ok.mpr ⟨ts', hts, rfl⟩⟩

def TreeAt (entries : List Entry) (i : Nat) (t : Expr) : Prop :=
  ∃ o us, Unfolds entries [i] [o] us ∧ o.build = .ok t

theorem forall₂_treeAt {js us : List Nat} {os : List Outline} (h : Unfolds entries js os us) :
    ∀ {ts : List Expr}, Outline.buildAll os = .ok ts → List.Forall₂ (TreeAt entries) js ts := by
  induction h with
  | nil =>
    intro ts hts
    obtain rfl := Except.ok.inj hts
    exact .nil
  | cons hentry hbelow _ _ ihnext =>
    intro ts hts
    obtain ⟨t, ts', ht, hts', rfl⟩ := buildAll_cons.mp hts
    exact .cons ⟨_, _, .cons hentry hbelow .nil, ht⟩ (ihnext hts')

theorem exists_unfolds_of_forall₂ {js : List Nat} {ts : List Expr}
    (h : List.Forall₂ (TreeAt entries) js ts) :
    ∃ os us, Unfolds entries js os us ∧ Outline.buildAll os = .ok ts := by
  induction h with
  | nil => exact ⟨[], [], .nil, rfl⟩
  | cons hfirst _ ih =>
    obtain ⟨o, us, ho, ht⟩ := hfirst
    obtain ⟨os, vs, hos, hts⟩ := ih
    cases ho with
    | cons hentry hbelow _ =>
      exact ⟨_, _, .cons hentry hbelow hos, buildAll_cons.mpr ⟨_, _, ht, hts, rfl⟩⟩

theorem treeAt_iff {i : Nat} {t : Expr} : TreeAt entries i t ↔ ∃ entry cs,
    entries[i]? = some entry ∧ List.Forall₂ (TreeAt entries) entry.children cs ∧
      build entry.shape entry.token cs = .ok t := by
  constructor
  · rintro ⟨o, us, ho, ht⟩
    cases ho with
    | cons hentry hbelow _ =>
      obtain ⟨cs, hcs, hbuild⟩ := build_node.mp ht
      exact ⟨_, cs, hentry, forall₂_treeAt hbelow hcs, hbuild⟩
  · rintro ⟨entry, cs, hentry, hcs, hbuild⟩
    obtain ⟨os, us, hos, hbuilt⟩ := exists_unfolds_of_forall₂ hcs
    exact ⟨_, _, .cons hentry hos .nil, build_node.mpr ⟨cs, hbuilt, hbuild⟩⟩

theorem TreeAt.unique {i : Nat} {t t' : Expr} (h : TreeAt entries i t) (h' : TreeAt entries i t') :
    t = t' := by
  obtain ⟨o, us, ho, ht⟩ := h
  obtain ⟨o', us', ho', ht'⟩ := h'
  obtain rfl := (List.cons.inj (ho.unique ho').1).1
  exact Except.ok.inj (ht.symm.trans ht')

/-- When the outlines are built, so is what is at each place that is passed. -/
theorem exists_treeAt_of_mem {js us : List Nat} {os : List Outline} (h : Unfolds entries js os us) :
    ∀ {ts : List Expr}, Outline.buildAll os = .ok ts → ∀ k ∈ us, ∃ t, TreeAt entries k t := by
  induction h with
  | nil => simp
  | cons hentry hbelow _ ihbelow ihnext =>
    intro ts hts
    obtain ⟨t, ts', ht, hts', rfl⟩ := buildAll_cons.mp hts
    obtain ⟨cs, hcs, -⟩ := build_node.mp ht
    refine List.forall_mem_cons.mpr ⟨⟨t, _, _, .cons hentry hbelow .nil, ht⟩, fun k hk => ?_⟩
    exact (List.mem_append.mp hk).elim (ihbelow hcs k) (ihnext hts' k)

/-- A tree has one node for each place that is passed. -/
theorem Unfolds.sizes_eq {js us : List Nat} {os : List Outline} (h : Unfolds entries js os us) :
    ∀ {ts : List Expr}, Outline.buildAll os = .ok ts → sizes ts = us.length := by
  induction h with
  | nil =>
    intro ts hts
    obtain rfl := Except.ok.inj hts
    rfl
  | cons _ _ _ ihbelow ihnext =>
    intro ts hts
    obtain ⟨t, ts', ht, hts', rfl⟩ := buildAll_cons.mp hts
    obtain ⟨cs, hcs, hbuild⟩ := build_node.mp ht
    obtain ⟨-, -, rfl⟩ := of_build_eq_ok hbuild
    have hsize := sizes_children t
    rw [sizes, ihnext hts', List.length_cons, List.length_append, ← ihbelow hcs]
    omega

/-! ### What builders ask for -/

/-- What the builder of a shape asks of the token and of the children: their number, an operator of
its own sort or a leaf that is spelt right, and a depth that is not too large. -/
def Accepts (token : Token) (cs : List Expr) : Shape → Prop
  | .literal => cs = [] ∧ token.type.isLiteral = true ∧
    Spelling.isLiteral token.type token.lexeme = true
  | .ident => cs = [] ∧ token.type = .identifier ∧ Spelling.isIdentifier token.lexeme = true
  | .unary => cs.length = 1 ∧ token.type.isUnary = true ∧ deepest cs < maxDepth
  | .binary c => cs.length = 2 ∧ token.type.category? = some c ∧ deepest cs < maxDepth
  | .call => cs ≠ [] ∧ token.type = .leftParen ∧ deepest cs < maxDepth
  | .subscript => cs.length = 2

/-- **A builder makes a node exactly when it gets what it asks for.** -/
theorem exists_build_iff {shape : Shape} {token : Token} {cs : List Expr} :
    (∃ t, build shape token cs = .ok t) ↔ Accepts token cs shape := by
  constructor
  · rintro ⟨t, h⟩
    unfold build at h
    split at h
    case h_1 =>
      obtain ⟨htype, hspelt, -⟩ := newLiteral_some_eq_ok.mp (mapError_eq_ok.mp h)
      exact ⟨rfl, htype, hspelt⟩
    case h_3 =>
      obtain ⟨htype, hspelt, -⟩ := newIdent_some_eq_ok.mp (mapError_eq_ok.mp h)
      exact ⟨rfl, htype, hspelt⟩
    case h_5 =>
      obtain ⟨htype, hdepth, -⟩ := newUnary_some_eq_ok.mp (mapError_eq_ok.mp h)
      exact ⟨rfl, htype, by rwa [deepest_singleton]⟩
    case h_7 =>
      obtain ⟨htype, hdepth, -⟩ := newBinary_some_eq_ok.mp (mapError_eq_ok.mp h)
      exact ⟨rfl, htype, by rwa [deepest_pair]⟩
    case h_9 =>
      obtain ⟨htype, hdepth, -⟩ := newCall_some_eq_ok.mp (mapError_eq_ok.mp h)
      exact ⟨List.cons_ne_nil _ _, htype, hdepth⟩
    case h_11 => exact rfl
    all_goals cases h
  · intro h
    cases shape with
    | literal =>
      obtain ⟨rfl, htype, hspelt⟩ := h
      exact ⟨_, mapError_eq_ok.mpr (newLiteral_some_eq_ok.mpr ⟨htype, hspelt, rfl⟩)⟩
    | ident =>
      obtain ⟨rfl, htype, hspelt⟩ := h
      exact ⟨_, mapError_eq_ok.mpr (newIdent_some_eq_ok.mpr ⟨htype, hspelt, rfl⟩)⟩
    | unary =>
      obtain ⟨hlength, htype, hdepth⟩ := h
      obtain ⟨e, rfl⟩ := List.length_eq_one_iff.mp hlength
      rw [deepest_singleton] at hdepth
      exact ⟨_, mapError_eq_ok.mpr (newUnary_some_eq_ok.mpr ⟨htype, hdepth, rfl⟩)⟩
    | binary c =>
      obtain ⟨hlength, htype, hdepth⟩ := h
      obtain ⟨l, r, rfl⟩ := List.length_eq_two.mp hlength
      rw [deepest_pair] at hdepth
      exact ⟨_, mapError_eq_ok.mpr (newBinary_some_eq_ok.mpr ⟨htype, hdepth, rfl⟩)⟩
    | call =>
      obtain ⟨hne, htype, hdepth⟩ := h
      obtain ⟨f, args, rfl⟩ := List.exists_cons_of_ne_nil hne
      exact ⟨_, mapError_eq_ok.mpr (newCall_some_eq_ok.mpr ⟨htype, hdepth, rfl⟩)⟩
    | subscript =>
      obtain ⟨e, i, rfl⟩ := List.length_eq_two.mp h
      exact ⟨_, rfl⟩

end Fixity.Document
