import Fixity.Proofs.Table
import Mathlib.Data.List.Perm.Basic
import Mathlib.Data.List.Sort
import Mathlib.Data.Set.List

/-!
# Tables forget the order of their drafts

Drafts make a table exactly when any two of them keep the rules (`Rules`), in whatever order they come.
What the table shows then depends on the drafts alone (`Shows`): look-ups find the drafts and nothing
else, and listings have each of them once, by level and then by name.  So drafts in another order make
a table that shows the same (`ofDrafts_forgets_order`).

No two entries of one arity have a type in common, so no two have the same place in a listing.  A list
without such a tie has only one sorted order, and the order before sorting is lost.
-/

namespace Fixity.Table

variable {β γ : Type}

structure Rules (binary : List (BinaryDraft β)) (unary : List (UnaryDraft γ)) : Prop where
  binary_once : (binary.map (·.type)).Nodup
  unary_once : (unary.map (·.type)).Nodup
  binary_level : ∀ d ∈ binary, 0 < d.precedence ∧ d.precedence < 1000
  unary_level : ∀ d ∈ unary, 0 < d.precedence ∧ d.precedence < 1000
  binary_builds : ∀ d ∈ binary, d.builder ≠ none
  unary_builds : ∀ d ∈ unary, d.builder ≠ none
  same_assoc : ∀ a ∈ binary, ∀ b ∈ binary, a.precedence = b.precedence → a.assoc = b.assoc
  apart : ∀ u ∈ unary, ∀ b ∈ binary, u.precedence ≠ b.precedence

def Precedes (a b : Int × Bytes) : Prop := a.1 < b.1 ∨ a.1 = b.1 ∧ a.2 < b.2

structure Shows (T : Table β γ) (binary : List (BinaryDraft β)) (unary : List (UnaryDraft γ)) :
    Prop where
  binary? : ∀ type op, T.binary? type = some op ↔ op.draft ∈ binary ∧ op.type = type
  unary? : ∀ type u, T.unary? type = some u ↔ u.draft ∈ unary ∧ u.type = type
  operatorOf_of_mem : ∀ d ∈ binary, T.operatorOf d.type = d
  operatorOf_of_not_mem : ∀ type, type ∉ binary.map (·.type) →
    T.operatorOf type = ⟨type, Precedence.lowest, .none, none⟩
  binaryOperators_perm : (T.binaryOperators.map BinaryOp.draft).Perm binary
  unaryOperators_perm : (T.unaryOperators.map UnaryOp.draft).Perm unary
  binaryOperators_sorted : T.binaryOperators.Pairwise fun a b =>
    Precedes (a.precedence, a.type.name) (b.precedence, b.type.name)
  unaryOperators_sorted : T.unaryOperators.Pairwise fun a b =>
    Precedes (a.precedence, a.type.name) (b.precedence, b.type.name)

structure SameView (S T : Table β γ) : Prop where
  binary? : ∀ type, S.binary? type = T.binary? type
  unary? : ∀ type, S.unary? type = T.unary? type
  operatorOf : ∀ type, S.operatorOf type = T.operatorOf type
  binaryOperators : S.binaryOperators = T.binaryOperators
  unaryOperators : S.unaryOperators = T.unaryOperators

/-! ### Rules -/

theorem types_map_draft (ops : List (BinaryOp β)) :
    (ops.map BinaryOp.draft).map (·.type) = ops.map (·.type) := by
  rw [List.map_map]
  rfl

theorem types_map_unaryDraft (ops : List (UnaryOp γ)) :
    (ops.map UnaryOp.draft).map (·.type) = ops.map (·.type) := by
  rw [List.map_map]
  rfl

theorem rules_map_draft {ops : List (BinaryOp β)} {uops : List (UnaryOp γ)} :
    Rules (ops.map BinaryOp.draft) (uops.map UnaryOp.draft) ↔
      BinaryRules ops ∧ UnaryRules ops uops := by
  constructor
  · intro h
    refine ⟨⟨types_map_draft ops ▸ h.binary_once, fun op hop => ?_, fun a ha b hb => ?_⟩,
      ⟨types_map_unaryDraft uops ▸ h.unary_once, fun u hu => ?_, fun u hu b hb => ?_⟩⟩
    · exact isLevel_iff.mpr (h.binary_level _ (List.mem_map_of_mem hop))
    · exact h.same_assoc _ (List.mem_map_of_mem ha) _ (List.mem_map_of_mem hb)
    · exact isLevel_iff.mpr (h.unary_level _ (List.mem_map_of_mem hu))
    · exact h.apart _ (List.mem_map_of_mem hu) _ (List.mem_map_of_mem hb)
  · rintro ⟨hb, hu⟩
    exact
      { binary_once := (types_map_draft ops).symm ▸ hb.nodup
        unary_once := (types_map_unaryDraft uops).symm ▸ hu.nodup
        binary_level := List.forall_mem_map.mpr fun op hop => isLevel_iff.mp (hb.level op hop)
        unary_level := List.forall_mem_map.mpr fun u h => isLevel_iff.mp (hu.level u h)
        binary_builds := List.forall_mem_map.mpr fun op _ => Option.some_ne_none op.builder
        unary_builds := List.forall_mem_map.mpr fun u _ => Option.some_ne_none u.builder
        same_assoc := List.forall_mem_map.mpr fun a ha =>
          List.forall_mem_map.mpr fun b hb' => hb.assoc a ha b hb'
        apart := List.forall_mem_map.mpr fun u h =>
          List.forall_mem_map.mpr fun b hb' => hu.apart u h b hb' }

theorem exists_map_draft {ds : List (BinaryDraft β)} (h : ∀ d ∈ ds, d.builder ≠ none) :
    ∃ ops : List (BinaryOp β), ops.map BinaryOp.draft = ds := by
  have hall : ds ∈ {l | ∀ d ∈ l, d ∈ Set.range BinaryOp.draft} := by
    rintro ⟨type, precedence, assoc, builder⟩ hd
    obtain ⟨builder, rfl⟩ := Option.ne_none_iff_exists'.mp (h _ hd)
    exact ⟨⟨type, precedence, assoc, builder⟩, rfl⟩
  rwa [← Set.range_list_map] at hall

theorem exists_map_unaryDraft {ds : List (UnaryDraft γ)} (h : ∀ d ∈ ds, d.builder ≠ none) :
    ∃ ops : List (UnaryOp γ), ops.map UnaryOp.draft = ds := by
  have hall : ds ∈ {l | ∀ d ∈ l, d ∈ Set.range UnaryOp.draft} := by
    rintro ⟨type, precedence, builder⟩ hd
    obtain ⟨builder, rfl⟩ := Option.ne_none_iff_exists'.mp (h _ hd)
    exact ⟨⟨type, precedence, builder⟩, rfl⟩
  rwa [← Set.range_list_map] at hall

/-- **Drafts make a table exactly when they keep the rules.** -/
theorem exists_ofDrafts_iff {binary : List (BinaryDraft β)} {unary : List (UnaryDraft γ)} :
    (∃ T, ofDrafts binary unary = .ok T) ↔ Rules binary unary := by
  constructor
  · rintro ⟨T, h⟩
    obtain ⟨rfl, rfl, hrules⟩ := ofDrafts_eq_ok.mp h
    exact rules_map_draft.mpr hrules
  · intro h
    obtain ⟨ops, rfl⟩ := exists_map_draft h.binary_builds
    obtain ⟨uops, rfl⟩ := exists_map_unaryDraft h.unary_builds
    exact ⟨⟨ops, uops⟩, ofDrafts_eq_ok.mpr ⟨rfl, rfl, rules_map_draft.mp h⟩⟩

theorem Rules.perm {binary binary' : List (BinaryDraft β)} {unary unary' : List (UnaryDraft γ)}
    (h : Rules binary unary) (hb : binary.Perm binary') (hu : unary.Perm unary') :
    Rules binary' unary' where
  binary_once := (hb.map _).nodup_iff.mp h.binary_once
  unary_once := (hu.map _).nodup_iff.mp h.unary_once
  binary_level := fun d hd => h.binary_level d (hb.mem_iff.mpr hd)
  unary_level := fun d hd => h.unary_level d (hu.mem_iff.mpr hd)
  binary_builds := fun d hd => h.binary_builds d (hb.mem_iff.mpr hd)
  unary_builds := fun d hd => h.unary_builds d (hu.mem_iff.mpr hd)
  same_assoc := fun a ha b hb' => h.same_assoc a (hb.mem_iff.mpr ha) b (hb.mem_iff.mpr hb')
  apart := fun u hu' b hb' => h.apart u (hu.mem_iff.mpr hu') b (hb.mem_iff.mpr hb')

/-! ### Listings -/

section listing

variable {α : Type} {key : α → Int × Bytes}

theorem Precedes.asymm {a b : Int × Bytes} (h : Precedes a b) : ¬ Precedes b a := by
  rintro (h' | ⟨heq', h'⟩)
  · rcases h with h | ⟨heq, -⟩ <;> omega
  · rcases h with h | ⟨-, h⟩
    · omega
    · exact List.lt_asymm h h'

theorem listedBefore_iff {a b : Int × Bytes} :
    listedBefore a b = true ↔ a.1 < b.1 ∨ a.1 = b.1 ∧ ¬ b.2 < a.2 := by
  simp [listedBefore, Bytes.before]

theorem listedBefore_trans (a b c : Int × Bytes) (hab : listedBefore a b = true)
    (hbc : listedBefore b c = true) : listedBefore a c = true := by
  rw [listedBefore_iff] at *
  rcases hab with hab | ⟨hab, hnames⟩
  · rcases hbc with hbc | ⟨hbc, -⟩ <;> exact Or.inl (by omega)
  · rcases hbc with hbc | ⟨hbc, hnames'⟩
    · exact Or.inl (by omega)
    · exact Or.inr ⟨hab.trans hbc, List.le_trans hnames hnames'⟩

theorem listedBefore_total (a b : Int × Bytes) : (listedBefore a b || listedBefore b a) = true := by
  rw [Bool.or_eq_true, listedBefore_iff, listedBefore_iff]
  rcases lt_trichotomy a.1 b.1 with h | h | h
  · exact Or.inl (Or.inl h)
  · rcases List.le_total a.2 b.2 with hle | hle
    · exact Or.inl (Or.inr ⟨h, hle⟩)
    · exact Or.inr (Or.inr ⟨h.symm, hle⟩)
  · exact Or.inr (Or.inl h)

/-- Without a tie, what may stand before does stand before. -/
theorem precedes_of_listedBefore {a b : Int × Bytes} (h : listedBefore a b = true) (hne : a ≠ b) :
    Precedes a b := by
  rcases listedBefore_iff.mp h with h | ⟨heq, hle⟩
  · exact Or.inl h
  · refine Or.inr ⟨heq, ?_⟩
    by_contra hnot
    exact hne (Prod.ext heq (List.le_antisymm hle hnot))

/-- **A listing is in strict order**, if no two elements have the same place in it. -/
theorem listing_sorted {l : List α} (h : (l.map key).Nodup) :
    (l.mergeSort fun a b => listedBefore (key a) (key b)).Pairwise
      fun a b => Precedes (key a) (key b) := by
  have hsorted : (l.mergeSort fun a b => listedBefore (key a) (key b)).Pairwise
      fun a b => listedBefore (key a) (key b) = true :=
    List.pairwise_mergeSort (fun a b c => listedBefore_trans (key a) (key b) (key c))
      (fun a b => listedBefore_total (key a) (key b)) l
  have hne : (l.mergeSort fun a b => listedBefore (key a) (key b)).Pairwise
      fun a b => key a ≠ key b := by
    rw [← List.pairwise_map]
    exact ((List.mergeSort_perm _ _).map key).nodup_iff.mpr h
  exact hsorted.imp₂ (fun a b => precedes_of_listedBefore) hne

/-- **A listing forgets the order of the list.** -/
theorem listing_eq_of_perm {l l' : List α} (h : (l.map key).Nodup) (hp : l.Perm l') :
    l.mergeSort (fun a b => listedBefore (key a) (key b)) =
      l'.mergeSort fun a b => listedBefore (key a) (key b) := by
  refine List.Perm.eq_of_pairwise (fun a b _ _ hab hba => absurd hba hab.asymm)
    (listing_sorted h) (listing_sorted ((hp.map key).nodup_iff.mp h)) ?_
  exact (List.mergeSort_perm _ _).trans (hp.trans (List.mergeSort_perm _ _).symm)

theorem nodup_keys {type : α → TokenType} (precedence : α → Int) {l : List α}
    (h : (l.map type).Nodup) : (l.map fun a => (precedence a, (type a).name)).Nodup := by
  refine List.Nodup.of_map (fun k => TokenType.ofName k.2) ?_
  rw [List.map_map]
  simpa [Function.comp_def] using h

end listing

/-! ### Views -/

variable {S T : Table β γ}

theorem Accepted.binary?_iff (h : T.Accepted) {type : TokenType} {op : BinaryOp β} :
    T.binary? type = some op ↔ op ∈ T.binary ∧ op.type = type := by
  refine ⟨mem_of_binary?, ?_⟩
  rintro ⟨hop, rfl⟩
  exact h.binary?_of_mem hop

theorem Accepted.unary?_iff (h : T.Accepted) {type : TokenType} {u : UnaryOp γ} :
    T.unary? type = some u ↔ u ∈ T.unary ∧ u.type = type := by
  refine ⟨mem_of_unary?, ?_⟩
  rintro ⟨hu, rfl⟩
  exact h.unary?_of_mem hu

/-- **A table shows what its drafts say.** -/
theorem shows_of_ofDrafts {binary : List (BinaryDraft β)} {unary : List (UnaryDraft γ)}
    (h : ofDrafts binary unary = .ok T) : T.Shows binary unary := by
  have hT : T.Accepted := ⟨binary, unary, h⟩
  obtain ⟨rfl, rfl, hb, hu⟩ := ofDrafts_eq_ok.mp h
  refine
    { binary? := fun type op => ?_
      unary? := fun type u => ?_
      operatorOf_of_mem := List.forall_mem_map.mpr fun op hop => ?_
      operatorOf_of_not_mem := fun type htype => ?_
      binaryOperators_perm := (List.mergeSort_perm _ _).map _
      unaryOperators_perm := (List.mergeSort_perm _ _).map _
      binaryOperators_sorted := listing_sorted (nodup_keys BinaryOp.precedence hb.nodup)
      unaryOperators_sorted := listing_sorted (nodup_keys UnaryOp.precedence hu.nodup) }
  · rw [hT.binary?_iff, List.mem_map_of_injective draft_injective]
  · rw [hT.unary?_iff, List.mem_map_of_injective unaryDraft_injective]
  · exact operatorOf_of_binary? (hT.binary?_of_mem hop)
  · rw [types_map_draft] at htype
    cases hfound : T.binary? type with
    | none => exact operatorOf_of_none hfound
    | some op =>
      obtain ⟨hop, rfl⟩ := mem_of_binary? hfound
      exact absurd (List.mem_map_of_mem hop) htype

theorem sameView_of_perm (hS : S.Accepted) (hT : T.Accepted) (hb : S.binary.Perm T.binary)
    (hu : S.unary.Perm T.unary) : S.SameView T := by
  have hbinary : ∀ type, S.binary? type = T.binary? type := fun type => Option.ext fun op => by
    rw [hS.binary?_iff, hT.binary?_iff, hb.mem_iff]
  refine
    { binary? := hbinary
      unary? := fun type => Option.ext fun u => ?_
      operatorOf := fun type => ?_
      binaryOperators := listing_eq_of_perm (nodup_keys BinaryOp.precedence hS.binary_nodup) hb
      unaryOperators := listing_eq_of_perm (nodup_keys UnaryOp.precedence hS.unary_nodup) hu }
  · rw [hS.unary?_iff, hT.unary?_iff, hu.mem_iff]
  · rw [operatorOf, operatorOf, hbinary]

/-- **A table is checked by its rules alone, and forgets the order of its drafts.**  Drafts make a table
exactly when they keep the rules, and then the table shows what they say.  The same drafts in another
order make a table, too, or do not make one either, and it shows the same. -/
theorem ofDrafts_forgets_order (binary : List (BinaryDraft β)) (unary : List (UnaryDraft γ)) :
    ((∃ T, ofDrafts binary unary = .ok T) ↔ Rules binary unary) ∧
    (∀ T, ofDrafts binary unary = .ok T → T.Shows binary unary) ∧
    ∀ binary' unary', binary.Perm binary' → unary.Perm unary' →
      ((∃ T', ofDrafts binary' unary' = .ok T') ↔ ∃ T, ofDrafts binary unary = .ok T) ∧
      ∀ T T', ofDrafts binary unary = .ok T → ofDrafts binary' unary' = .ok T' →
        T'.SameView T := by
  refine ⟨exists_ofDrafts_iff, fun T => shows_of_ofDrafts, fun binary' unary' hb hu => ⟨?_, ?_⟩⟩
  · rw [exists_ofDrafts_iff, exists_ofDrafts_iff]
    exact ⟨fun h => h.perm hb.symm hu.symm, fun h => h.perm hb hu⟩
  · intro T T' h h'
    have hT : T.Accepted := ⟨binary, unary, h⟩
    have hT' : T'.Accepted := ⟨binary', unary', h'⟩
    obtain ⟨rfl, rfl, -⟩ := ofDrafts_eq_ok.mp h
    obtain ⟨rfl, rfl, -⟩ := ofDrafts_eq_ok.mp h'
    exact sameView_of_perm hT' hT ((List.map_perm_map_iff draft_injective).mp hb).symm
      ((List.map_perm_map_iff unaryDraft_injective).mp hu).symm

/-- The standard operators, proposed from the tightest to the loosest, make another table that shows
the same as the standard one. -/
theorem standard_reversed :
    (standardBinary.map BinaryOp.draft).Perm (standardBinary.map BinaryOp.draft).reverse ∧
    (standardUnary.map UnaryOp.draft).Perm (standardUnary.map UnaryOp.draft).reverse ∧
    ∃ T, ofDrafts (standardBinary.map BinaryOp.draft).reverse
        (standardUnary.map UnaryOp.draft).reverse = .ok T ∧ T ≠ standard ∧ T.SameView standard := by
  have hb := (List.reverse_perm (standardBinary.map BinaryOp.draft)).symm
  have hu := (List.reverse_perm (standardUnary.map UnaryOp.draft)).symm
  have hreversed : ofDrafts (standardBinary.map BinaryOp.draft).reverse
      (standardUnary.map UnaryOp.draft).reverse =
      .ok ⟨standardBinary.reverse, standardUnary.reverse⟩ := rfl
  exact ⟨hb, hu, _, hreversed, by decide,
    ((ofDrafts_forgets_order _ _).2.2 _ _ hb hu).2 _ _ ofDrafts_standard hreversed⟩

end Fixity.Table
