import Fixity.Proofs.Parse.Source
import Fixity.Proofs.Table
import Mathlib.Data.Finset.Card

/-!
# A table with every operator

A table may lack operators.  Trees can be written under it but not read back.  `Table.ranked` has all
operators, each at the rank of the level that it is written at: the number of levels below it.  Ranks
keep the order of levels, so the ranked table asks for no parentheses that the table does not ask for
(`ranked_laxer`), and it is one that texts are read under (`ranked_coherent`).

An operator that is missing is written at the lowest level, or at that of a call for the operand of a
prefix operator.  As an operand it is always in parentheses, so its rank matters to its own operands
only.
-/

namespace Fixity.Table

open Fixity.Expr

def levels (T : Table) : List Int :=
  Operator.all.map (fun o => (T.binding (.op o)).precedence) ++
    Operator.all.map fun o => unaryLevel T (.op o)

/-- One more than the number of levels below. -/
def rank (T : Table) (p : Int) : Int := 1 + (T.levels.toFinset.filter (· < p)).card

/-- Every operator, at the rank of its level. -/
def ranked (T : Table) : Table where
  binary := Operator.all.filterMap fun o => o.category?.map fun c =>
    ⟨.op o, T.rank (T.binding (.op o)).precedence, (T.binding (.op o)).assoc, c⟩
  unary := (Operator.all.filter Operator.isUnary).map fun o =>
    ⟨.op o, T.rank (unaryLevel T (.op o)), ()⟩

variable {T : Table}

/-! ### Ranks -/

theorem binding_mem_levels (o : Operator) : (T.binding (.op o)).precedence ∈ T.levels :=
  List.mem_append_left _ (List.mem_map.mpr ⟨o, Operator.mem_all o, rfl⟩)

theorem unaryLevel_mem_levels (o : Operator) : unaryLevel T (.op o) ∈ T.levels :=
  List.mem_append_right _ (List.mem_map.mpr ⟨o, Operator.mem_all o, rfl⟩)

theorem rank_mono {p q : Int} (h : p ≤ q) : T.rank p ≤ T.rank q := by
  have hsub : T.levels.toFinset.filter (· < p) ⊆ T.levels.toFinset.filter (· < q) := by
    intro x hx
    obtain ⟨hmem, hlt⟩ := Finset.mem_filter.mp hx
    exact Finset.mem_filter.mpr ⟨hmem, by omega⟩
  have hcard := Finset.card_le_card hsub
  unfold rank
  omega

theorem rank_lt_rank {p q : Int} (hp : p ∈ T.levels) (h : p < q) : T.rank p < T.rank q := by
  have hsub : T.levels.toFinset.filter (· < p) ⊂ T.levels.toFinset.filter (· < q) := by
    rw [Finset.ssubset_iff_of_subset]
    · exact ⟨p, Finset.mem_filter.mpr ⟨List.mem_toFinset.mpr hp, h⟩, by simp⟩
    · intro x hx
      obtain ⟨hmem, hlt⟩ := Finset.mem_filter.mp hx
      exact Finset.mem_filter.mpr ⟨hmem, by omega⟩
  have hcard := Finset.card_lt_card hsub
  unfold rank
  omega

theorem eq_of_rank_eq {p q : Int} (hp : p ∈ T.levels) (hq : q ∈ T.levels)
    (h : T.rank p = T.rank q) : p = q := by
  by_contra hne
  rcases Int.lt_or_gt_of_ne hne with hlt | hlt
  · have := rank_lt_rank hp hlt
    omega
  · have := rank_lt_rank hq hlt
    omega

theorem rank_bounds (p : Int) : 0 < T.rank p ∧ T.rank p < 1000 := by
  have hfilter : (T.levels.toFinset.filter (· < p)).card ≤ T.levels.toFinset.card :=
    Finset.card_filter_le _ _
  have hlist : T.levels.toFinset.card ≤ T.levels.length := List.toFinset_card_le _
  have hlen : T.levels.length = 42 := by
    rw [levels, List.length_append, List.length_map, List.length_map]
    rfl
  unfold rank
  omega

/-! ### Entries -/

theorem ranked_binary? {o : Operator} {c : Category} (h : o.category? = some c) :
    T.ranked.binary? (.op o) =
      some ⟨.op o, T.rank (T.binding (.op o)).precedence, (T.binding (.op o)).assoc, c⟩ := by
  cases o <;> cases h <;> rfl

theorem ranked_unary? {o : Operator} (h : o.isUnary = true) :
    T.ranked.unary? (.op o) = some ⟨.op o, T.rank (unaryLevel T (.op o)), ()⟩ := by
  cases o <;> cases h <;> rfl

theorem mem_ranked_binary {op : BinaryOp} (h : op ∈ T.ranked.binary) :
    ∃ o, op.type = .op o ∧ o.category? = some op.builder ∧
      op.precedence = T.rank (T.binding (.op o)).precedence ∧
      op.assoc = (T.binding (.op o)).assoc := by
  obtain ⟨o, -, hop⟩ := List.mem_filterMap.mp h
  obtain ⟨c, hc, rfl⟩ := Option.map_eq_some_iff.mp hop
  exact ⟨o, rfl, hc, rfl, rfl⟩

theorem mem_ranked_unary {op : UnaryOp} (h : op ∈ T.ranked.unary) :
    ∃ o, op.type = .op o ∧ o.isUnary = true ∧ op.precedence = T.rank (unaryLevel T (.op o)) := by
  obtain ⟨o, ho, rfl⟩ := List.mem_map.mp h
  exact ⟨o, rfl, (List.mem_filter.mp ho).2, rfl⟩

theorem ranked_binding {o : Operator} {c : Category} (h : o.category? = some c) :
    T.ranked.binding (.op o) =
      ⟨T.rank (T.binding (.op o)).precedence, (T.binding (.op o)).assoc⟩ :=
  binding_of_binary? (ranked_binary? h)

theorem ranked_unaryLevel {o : Operator} (h : o.isUnary = true) :
    unaryLevel T.ranked (.op o) = T.rank (unaryLevel T (.op o)) := by
  rw [unaryLevel, ranked_unary? h]
  rfl

/-! ### The ranked table is coherent -/

theorem binding_cases (hT : T.Regular) (type : TokenType) :
    (∃ b, T.binary? type = some b ∧ T.binding type = ⟨b.precedence, b.assoc⟩ ∧
      0 < b.precedence ∧ b.precedence < 1000) ∨ T.binding type = ⟨0, .none⟩ := by
  cases hb : T.binary? type with
  | none => exact Or.inr (binding_of_none hb)
  | some b => exact Or.inl ⟨b, rfl, binding_of_binary? hb, hT.binary?_level hb⟩

theorem unaryLevel_cases (hT : T.Regular) (type : TokenType) :
    (∃ u, T.unary? type = some u ∧ unaryLevel T type = u.precedence ∧
      0 < u.precedence ∧ u.precedence < 1000) ∨
    T.unary? type = none ∧ unaryLevel T type = 1000 := by
  cases hu : T.unary? type with
  | none =>
    refine Or.inr ⟨rfl, ?_⟩
    rw [unaryLevel, hu]
    rfl
  | some u =>
    refine Or.inl ⟨u, rfl, ?_, hT.unary?_level hu⟩
    rw [unaryLevel, hu]
    rfl

theorem ranked_regular (hT : T.Regular) : T.ranked.Regular where
  binary_level := by
    intro op hop
    obtain ⟨o, -, -, hp, -⟩ := mem_ranked_binary hop
    rw [isLevel_iff, hp]
    exact rank_bounds _
  unary_level := by
    intro op hop
    obtain ⟨o, -, -, hp⟩ := mem_ranked_unary hop
    rw [isLevel_iff, hp]
    exact rank_bounds _
  same_assoc := by
    intro a ha b hb heq
    obtain ⟨o, -, -, hpa, haa⟩ := mem_ranked_binary ha
    obtain ⟨o', -, -, hpb, hab⟩ := mem_ranked_binary hb
    rw [hpa, hpb] at heq
    have hlevel := eq_of_rank_eq (binding_mem_levels o) (binding_mem_levels o') heq
    rw [haa, hab]
    rcases binding_cases hT (.op o) with ⟨x, hx, hbx, hpos, -⟩ | hbx <;>
      rcases binding_cases hT (.op o') with ⟨y, hy, hby, hpos', -⟩ | hby <;>
      rw [hbx, hby] at hlevel ⊢ <;> simp only at hlevel ⊢
    · exact hT.assoc_eq hx hy hlevel
    · omega
    · omega
  apart := by
    intro u hu b hb heq
    obtain ⟨o, -, -, hpu⟩ := mem_ranked_unary hu
    obtain ⟨o', -, -, hpb, -⟩ := mem_ranked_binary hb
    rw [hpu, hpb] at heq
    have hlevel := eq_of_rank_eq (unaryLevel_mem_levels o) (binding_mem_levels o') heq
    rcases unaryLevel_cases hT (.op o) with ⟨x, hx, hlx, hpos, -⟩ | ⟨-, hlx⟩ <;>
      rcases binding_cases hT (.op o') with ⟨y, hy, hby, hpos', hlt⟩ | hby <;>
      rw [hlx, hby] at hlevel <;> simp only at hlevel
    · exact hT.unary_ne_binary hx hy hlevel
    all_goals omega

/-- **Texts can be read under the ranked table.** -/
theorem ranked_coherent (hT : T.Regular) : T.ranked.Coherent where
  regular := ranked_regular hT
  binary := by
    intro op hop
    obtain ⟨o, htype, hc, -⟩ := mem_ranked_binary hop
    rw [htype]
    exact hc
  unary := by
    intro op hop
    obtain ⟨o, htype, hu, -⟩ := mem_ranked_unary hop
    rw [htype]
    exact hu

theorem ranked_hasEntry (T : Table) {e : Expr} (h : Built e) : e.HasEntry T.ranked := by
  have hchecked := h.checked
  cases e with
  | unary op x d =>
    obtain ⟨o, ho, hu⟩ := exists_op_of_isUnary hchecked.1
    show (T.ranked.unary? op.type).isSome = true
    rw [ho, ranked_unary? hu]
    rfl
  | binary c op l r d =>
    obtain ⟨o, ho⟩ := exists_op_of_category? hchecked.1
    have hc : o.category? = some c := by
      have := hchecked.1
      rwa [ho] at this
    show (T.ranked.binary? op.type).isSome = true
    rw [ho, ranked_binary? hc]
    rfl
  | _ => trivial

/-! ### The ranked table asks for no more parentheses -/

/-- No tree binds looser under the ranked table than the rank of its level. -/
theorem rank_le_precedence (hT : T.Regular) {x : Expr} (h : Built x) :
    T.rank (x.precedence T) ≤ x.precedence T.ranked := by
  have hchecked := h.checked
  cases x with
  | literal t =>
    have := rank_bounds (T := T) 1001
    show T.rank 1001 ≤ 1001
    omega
  | ident t =>
    have := rank_bounds (T := T) 1001
    show T.rank 1001 ≤ 1001
    omega
  | unary op y d =>
    obtain ⟨o, ho, hu⟩ := exists_op_of_isUnary hchecked.1
    have hranked : (Expr.unary op y d).precedence T.ranked = T.rank (unaryLevel T (.op o)) := by
      rw [precedence, ho, ranked_unary? hu]
      rfl
    rw [hranked]
    refine rank_mono ?_
    rcases unaryLevel_cases hT (.op o) with ⟨u, hu', hlevel, -⟩ | ⟨hu', hlevel⟩
    · rw [precedence, ho, hu', hlevel]
      exact Int.le_refl _
    · rw [precedence, ho, hu', hlevel]
      decide
  | binary c op l r d =>
    obtain ⟨o, ho⟩ := exists_op_of_category? hchecked.1
    have hc : o.category? = some c := by
      have := hchecked.1
      rwa [ho] at this
    rw [precedence, precedence, ho, ranked_binding hc]
  | call p f args d =>
    have := rank_bounds (T := T) 1000
    show T.rank 1000 ≤ 1000
    omega
  | subscript b y i d => exact hchecked.elim

theorem precedence_of_call_le (hT : T.Regular) {x : Expr} (h : 1000 ≤ x.precedence T) (S : Table) :
    1000 ≤ x.precedence S := by
  cases x with
  | literal t => exact h
  | ident t => exact h
  | unary op y d =>
    rw [precedence] at h
    rcases unaryLevel_cases hT op.type with ⟨u, hu, -, -, hlt⟩ | ⟨hu, -⟩
    · rw [hu] at h
      simp only [Option.map_some, Option.getD_some] at h
      omega
    · rw [hu] at h
      exact absurd h (by decide)
  | binary c op l r d =>
    rw [precedence] at h
    rcases binding_cases hT op.type with ⟨b, -, hb, -, hlt⟩ | hb
    · rw [hb] at h
      simp only at h
      omega
    · rw [hb] at h
      exact absurd h (by decide)
  | call p f args d => exact h
  | subscript b y i d => exact h

/-- **The ranked table asks for no parentheses that the table does not ask for.** -/
theorem ranked_laxer (hT : T.Regular) : T.ranked.Laxer T where
  operand := by
    intro x type hx htype h
    obtain ⟨o, rfl, ho⟩ := exists_op_of_isUnary htype
    rw [needsParens_prefix_eq_false] at h ⊢
    rw [ranked_unaryLevel ho]
    exact Int.le_trans (rank_mono h) (rank_le_precedence hT hx)
  joined := by
    intro x type c side hx htype h
    obtain ⟨o, rfl⟩ := exists_op_of_category? htype
    have hle := rank_le_precedence hT hx
    -- towards either side the operand binds tighter, or as tightly and the operator groups there
    have hrank : ∀ {a : Assoc}, (T.binding (.op o)).precedence < x.precedence T ∨
        (T.binding (.op o)).precedence = x.precedence T ∧ (T.binding (.op o)).assoc = a →
        T.rank (T.binding (.op o)).precedence < x.precedence T.ranked ∨
          T.rank (T.binding (.op o)).precedence = x.precedence T.ranked ∧
            (T.binding (.op o)).assoc = a := by
      intro a h
      rcases h with hlt | ⟨heq, hassoc⟩
      · have := rank_lt_rank (binding_mem_levels o) hlt
        exact Or.inl (by omega)
      · rw [← heq] at hle
        rcases Int.lt_or_eq_of_le hle with hlt | heq'
        · exact Or.inl hlt
        · exact Or.inr ⟨heq', hassoc⟩
    rw [ranked_binding htype]
    cases side with
    | left => exact needsParens_left_eq_false.mpr (hrank (needsParens_left_eq_false.mp h))
    | right => exact needsParens_right_eq_false.mpr (hrank (needsParens_right_eq_false.mp h))
  callee := by
    intro x _ h
    rw [needsParens_callee_eq_false] at h ⊢
    exact precedence_of_call_le hT h _

end Fixity.Table
