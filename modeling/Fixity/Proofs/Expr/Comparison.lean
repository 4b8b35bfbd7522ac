import Fixity.Proofs.Expr.Same
import Mathlib.Data.List.Perm.Basic
import Mathlib.Logic.Function.Iterate
import Mathlib.Logic.Relation
import Mathlib.Order.WellFounded

/-!
# Comparing in any order

A comparison of two trees keeps the pairs that are left on a stack.  In a round it takes the pair on top.
If the two nodes differ, the answer is that the trees do; otherwise the pairs of their children go on top
of the stack, the last one first (`Comparison.next`).  When no pair is left, the trees are of the same
shape.

None of this depends on the stack.  Let a round take any of the pairs, and put the pairs of children
anywhere among the others (`Comparison.Round`).  A round leaves fewer nodes to be seen, so the rounds come
to an end in every order.  What all pairs together will answer stays the same (`Round.verdict_eq`), so they
end with the answer of `Expr.same` (`same_in_any_order`), which is the answer that recursion gives.
-/

namespace Fixity.Expr

/-- Two trees to be compared; either may be missing. -/
abbrev Pair := Option Expr × Option Expr

/-- The pairs of children that are left of a pair whose nodes agree; nothing if they differ. -/
def opened? : Option Expr → Option Expr → Option (List Pair)
  | none, none => some []
  | some a, some b =>
    if sameHead a b then some ((a.children.zip b.children).map (Prod.map some some)) else none
  | _, _ => none

/-- How far a comparison has come: pairs are left to be compared, or there is an answer. -/
inductive Comparison where
  | pending (pairs : List Pair)
  | answer (same : Bool)

namespace Comparison

def next : Comparison → Comparison
  | pending [] => answer true
  | pending ((a, b) :: stack) =>
    match opened? a b with
    | none => answer false
    | some pairs => pending (pairs.reverse ++ stack)
  | answer same => answer same

/-- A round in any order: it takes any of the pairs, and the pairs of the children are put anywhere. -/
inductive Round : Comparison → Comparison → Prop
  | finish : Round (pending []) (answer true)
  | differ {a b : Option Expr} {pairs : List Pair} : (a, b) ∈ pairs → opened? a b = none →
      Round (pending pairs) (answer false)
  | agree {a b : Option Expr} {pairs rest children later : List Pair} :
      pairs.Perm ((a, b) :: rest) → opened? a b = some children → later.Perm (children ++ rest) →
      Round (pending pairs) (pending later)

def verdict : Comparison → Bool
  | pending pairs => pairs.all fun p => same p.1 p.2
  | answer same => same

end Comparison

/-! ### What a pair is worth -/

theorem allSame_eq_all (xs : List (Expr × Expr)) :
    allSame xs = xs.all fun p => same (some p.1) (some p.2) := by
  rw [Bool.eq_iff_iff, allSame_iff, List.all_eq_true]
  rfl

theorem same_eq_opened? (a b : Option Expr) :
    same a b = match opened? a b with
      | none => false
      | some pairs => pairs.all fun p => same p.1 p.2 := by
  cases a with
  | none =>
    cases b with
    | none => rfl
    | some b => rfl
  | some a =>
    cases b with
    | none => rfl
    | some b =>
      have hstack : same (some a) (some b) = allSame [(a, b)] := rfl
      rw [hstack, allSame_cons, List.append_nil, allSame_reverse, allSame_eq_all, opened?]
      by_cases h : sameHead a b = true
      · rw [if_pos h, h, Bool.true_and]
        show _ = List.all _ _
        rw [List.all_map]
        rfl
      · rw [if_neg h, Bool.eq_false_of_not_eq_true h, Bool.false_and]

/-- The number of rounds that a tree keeps a comparison busy at most; one if it is missing. -/
def rounds : Option Expr → Nat
  | none => 1
  | some e => e.size

def load : List Pair → Nat
  | [] => 0
  | (a, _) :: pairs => rounds a + load pairs

theorem load_append (xs ys : List Pair) : load (xs ++ ys) = load xs + load ys := by
  induction xs with
  | nil => exact (Nat.zero_add _).symm
  | cons x xs ih => rw [List.cons_append, load, load, ih, Nat.add_assoc]

theorem load_perm {xs ys : List Pair} (h : xs.Perm ys) : load xs = load ys := by
  induction h with
  | nil => rfl
  | cons x _ ih => rw [load, load, ih]
  | swap x y xs => exact Nat.add_left_comm _ _ _
  | trans _ _ ih ih' => rw [ih, ih']

theorem load_zip_le (es fs : List Expr) : load ((es.zip fs).map (Prod.map some some)) ≤ sizes es := by
  induction es generalizing fs with
  | nil => exact Nat.zero_le _
  | cons e es ih =>
    cases fs with
    | nil => exact Nat.zero_le _
    | cons f fs =>
      rw [List.zip_cons_cons, List.map_cons, sizes]
      exact Nat.add_le_add_left (ih fs) e.size

/-- The children keep a comparison busy for fewer rounds than their parents. -/
theorem load_lt_rounds {a b : Option Expr} {children : List Pair} (h : opened? a b = some children) :
    load children < rounds a := by
  cases a with
  | none =>
    cases b with
    | none =>
      obtain rfl := Option.some.inj h
      exact Nat.one_pos
    | some b => cases h
  | some a =>
    cases b with
    | none => cases h
    | some b =>
      rw [opened?, Option.ite_none_right_eq_some] at h
      obtain rfl := Option.some.inj h.2
      apply Nat.lt_of_le_of_lt (load_zip_le a.children b.children)
      rw [rounds, ← sizes_children a]
      exact Nat.lt_succ_self _

/-! ### Rounds -/

namespace Comparison

/-- **No round changes the verdict**, whichever pair it takes. -/
theorem Round.verdict_eq {s s' : Comparison} (h : Round s s') : s'.verdict = s.verdict := by
  cases h with
  | finish => rfl
  | @differ a b pairs hmem hnone =>
    have hpair : same a b = false := by rw [same_eq_opened?, hnone]
    symm
    apply List.all_eq_false.mpr
    exact ⟨(a, b), hmem, by simp [hpair]⟩
  | @agree a b pairs rest children later hpairs hsome hlater =>
    have hpair : same a b = children.all fun p => same p.1 p.2 := by rw [same_eq_opened?, hsome]
    show later.all _ = pairs.all _
    rw [hlater.all_eq, hpairs.all_eq, List.all_append, List.all_cons, hpair]

theorem verdict_of_rounds {s s' : Comparison} (h : Relation.ReflTransGen Round s s') :
    s'.verdict = s.verdict := by
  induction h with
  | refl => rfl
  | tail _ hround ih => rw [hround.verdict_eq, ih]

def left : Comparison → Nat
  | pending pairs => load pairs + 1
  | answer _ => 0

theorem Round.left_lt {s s' : Comparison} (h : Round s s') : s'.left < s.left := by
  cases h with
  | finish => exact Nat.one_pos
  | differ => exact Nat.succ_pos _
  | agree hpairs hsome hlater =>
    have hchildren := load_lt_rounds hsome
    rw [left, left, load_perm hpairs, load_perm hlater, load_append, load]
    omega

/-- **In no order do the rounds go on forever.** -/
theorem wellFounded_round : WellFounded (flip Round) :=
  Subrelation.wf (fun h => Round.left_lt h) (InvImage.wf left wellFounded_lt)

theorem round_next (pairs : List Pair) : Round (pending pairs) (pending pairs).next := by
  cases pairs with
  | nil => exact .finish
  | cons p stack =>
    obtain ⟨a, b⟩ := p
    rw [next]
    cases h : opened? a b with
    | none => exact .differ List.mem_cons_self h
    | some children => exact .agree (List.Perm.refl _) h ((List.reverse_perm children).append_right stack)

theorem round_or_answer (s : Comparison) : (∃ s', Round s s') ∨ s = answer s.verdict := by
  cases s with
  | pending pairs => exact .inl ⟨_, round_next pairs⟩
  | answer same => exact .inr rfl

/-- **The loop comes to its answer.** -/
theorem exists_iterate_next (s : Comparison) : ∃ n ≤ s.left, next^[n] s = answer s.verdict := by
  induction hleft : s.left using Nat.strongRecOn generalizing s with
  | ind k ih =>
    subst hleft
    cases s with
    | answer same => exact ⟨0, Nat.zero_le _, rfl⟩
    | pending pairs =>
      -- after a round fewer are left, and the verdict is the same
      have hround := round_next pairs
      obtain ⟨n, hn, hanswer⟩ := ih _ hround.left_lt _ rfl
      refine ⟨n + 1, Nat.succ_le_of_lt (Nat.lt_of_le_of_lt hn hround.left_lt), ?_⟩
      rw [Function.iterate_succ_apply, hanswer, hround.verdict_eq]

end Comparison

open Comparison

theorem verdict_pending_singleton (a b : Option Expr) : (pending [(a, b)]).verdict = same a b := by
  simp [verdict]

theorem left_pending_singleton_le (a b : Option Expr) : (pending [(a, b)]).left ≤ count a + 2 := by
  cases a with
  | none => exact Nat.le_add_left 2 (count none)
  | some e =>
    rw [count_some]
    exact Nat.le_succ (e.size + 0 + 1)

theorem same_iff {a b : Option Expr} : same a b = true ↔ (a = none ∧ b = none) ∨
    ∃ x y, a = some x ∧ b = some y ∧ x.shape = y.shape ∧ x.token.type = y.token.type ∧
      x.children.length = y.children.length ∧
      (x.children = [] → x.token.lexeme = y.token.lexeme) ∧
      List.Forall₂ (fun c d => same (some c) (some d) = true) x.children y.children := by
  constructor
  · intro h
    cases a with
    | none =>
      cases b with
      | none => exact .inl ⟨rfl, rfl⟩
      | some y => cases h
    | some x =>
      cases b with
      | none => cases h
      | some y =>
        obtain ⟨hshape, htype, hlexeme, hchildren⟩ := alike_iff.mp h
        exact .inr ⟨x, y, rfl, rfl, hshape, htype, hchildren.length_eq, hlexeme, hchildren⟩
  · intro h
    rcases h with ⟨rfl, rfl⟩ | ⟨x, y, rfl, rfl, hshape, htype, -, hlexeme, hchildren⟩
    · rfl
    · exact alike_iff.mpr ⟨hshape, htype, hlexeme, hchildren⟩

/-- **Trees of the same shape, in any order.**  Two trees are the same when both are missing, or when
their nodes agree and their children are the same one by one.  The loop comes to this answer, in no more
rounds than the first tree has nodes, and two.  It takes the pairs in one of many orders.  In each of
them the rounds come to an end, and where there is no further round, the answer is the same. -/
theorem same_in_any_order :
    (∀ a b : Option Expr,
      (same a b = true ↔ (a = none ∧ b = none) ∨
        ∃ x y, a = some x ∧ b = some y ∧ x.shape = y.shape ∧ x.token.type = y.token.type ∧
          x.children.length = y.children.length ∧
          (x.children = [] → x.token.lexeme = y.token.lexeme) ∧
          List.Forall₂ (fun c d => same (some c) (some d) = true) x.children y.children) ∧
      (∃ n ≤ count a + 2, next^[n] (pending [(a, b)]) = answer (same a b)) ∧
      ∀ s, Relation.ReflTransGen Round (pending [(a, b)]) s →
        (∃ s', Round s s') ∨ s = answer (same a b)) ∧
    (∀ pairs, Round (pending pairs) (pending pairs).next) ∧
    WellFounded (flip Round) := by
  refine ⟨fun a b => ⟨same_iff, ?_, ?_⟩, round_next, wellFounded_round⟩
  · obtain ⟨n, hn, hanswer⟩ := exists_iterate_next (pending [(a, b)])
    rw [verdict_pending_singleton] at hanswer
    exact ⟨n, Nat.le_trans hn (left_pending_singleton_le a b), hanswer⟩
  · intro s hrounds
    rw [← verdict_pending_singleton, ← verdict_of_rounds hrounds]
    exact round_or_answer s

def nameAt (column : Int64) (lexeme : Bytes) : Expr :=
  .ident ⟨.identifier, lexeme, .none, ⟨1, column⟩⟩

def minusNames (l r : Bytes) : Expr :=
  .binary .arithmetic ⟨.op .minus, "-", .none, ⟨1, 3⟩⟩ (nameAt 1 l) (nameAt 5 r) 2

/-- The stack takes the right operands of `a - b` and `a - c` first and answers in the second round.
When the left operands are taken first there is one more round, and the answer is the same. -/
theorem same_left_first :
    ∃ lefts rights : Pair, lefts = (some (nameAt 1 "a"), some (nameAt 1 "a")) ∧
      rights = (some (nameAt 5 "b"), some (nameAt 5 "c")) ∧
      Round (pending [(some (minusNames "a" "b"), some (minusNames "a" "c"))])
        (pending [lefts, rights]) ∧
      Round (pending [lefts, rights]) (pending [rights]) ∧
      Round (pending [rights]) (answer false) ∧
      same (some (minusNames "a" "b")) (some (minusNames "a" "c")) = false := by
  have hfirst : Round (pending [(some (minusNames "a" "b"), some (minusNames "a" "c"))])
      (pending [(some (nameAt 1 "a"), some (nameAt 1 "a")),
        (some (nameAt 5 "b"), some (nameAt 5 "c"))]) :=
    .agree (List.Perm.refl _) rfl (List.Perm.refl _)
  have hlefts : Round (pending [(some (nameAt 1 "a"), some (nameAt 1 "a")),
      (some (nameAt 5 "b"), some (nameAt 5 "c"))])
      (pending [(some (nameAt 5 "b"), some (nameAt 5 "c"))]) :=
    .agree (List.Perm.refl _) rfl (List.Perm.refl _)
  have hrights : Round (pending [(some (nameAt 5 "b"), some (nameAt 5 "c"))]) (answer false) :=
    .differ List.mem_cons_self rfl
  refine ⟨_, _, rfl, rfl, hfirst, hlefts, hrights, ?_⟩
  have hrun := ((Relation.ReflTransGen.single hfirst).tail hlefts).tail hrights
  rcases (same_in_any_order.1 _ _).2.2 _ hrun with ⟨s', hround⟩ | hanswer
  · cases hround
  · exact (Comparison.answer.inj hanswer).symm

end Fixity.Expr
