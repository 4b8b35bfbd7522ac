import Fixity.Expr.Same
import Fixity.Proofs.Expr.Built
import Fixity.Proofs.Expr.Nodes
import Mathlib.Data.List.Forall2

/-!
# Trees of the same shape, node by node

`Expr.allSame` takes pairs of trees from a stack, the last pair of children first.  The order does
not matter, so the answer is the one that recursion gives (`alike_iff`): the nodes agree and their
children do pairwise.  Sameness is an equivalence.
-/

namespace Fixity.Expr

theorem allSame_cons (a b : Expr) (stack : List (Expr × Expr)) :
    allSame ((a, b) :: stack) =
      (sameHead a b && allSame ((a.children.zip b.children).reverse ++ stack)) := by
  rw [allSame]

theorem allSame_nil : allSame [] = true := by rw [allSame]

/-- Stacks of pairs, one on the other, are compared one after the other. -/
theorem allSame_append (xs ys : List (Expr × Expr)) :
    allSame (xs ++ ys) = (allSame xs && allSame ys) := by
  fun_induction allSame xs with
  | case1 => simp
  | case2 a b stack ih =>
    rw [List.cons_append, allSame_cons, ← List.append_assoc, ih, Bool.and_assoc]

theorem allSame_reverse (xs : List (Expr × Expr)) : allSame xs.reverse = allSame xs := by
  induction xs with
  | nil => rfl
  | cons x xs ih =>
    rw [List.reverse_cons, allSame_append, ih, ← List.singleton_append (l := xs), allSame_append,
      Bool.and_comm]

/-- Both trees are there and of the same shape. -/
def Alike (a b : Expr) : Prop := same (some a) (some b) = true

theorem allSame_iff {xs : List (Expr × Expr)} :
    allSame xs = true ↔ ∀ p ∈ xs, Alike p.1 p.2 := by
  induction xs with
  | nil => simp [allSame_nil]
  | cons x xs ih =>
    rw [← List.singleton_append, allSame_append, Bool.and_eq_true, ih, List.forall_mem_append,
      List.forall_mem_singleton]
    rfl

theorem sameHead_iff {a b : Expr} :
    sameHead a b = true ↔ a.shape = b.shape ∧ a.token.type = b.token.type ∧
      a.children.length = b.children.length ∧
      (a.children = [] → a.token.lexeme = b.token.lexeme) := by
  simp only [sameHead, Bool.and_eq_true, beq_iff_eq, Bool.or_eq_true, Bool.not_eq_true',
    List.isEmpty_eq_false_iff, and_assoc]
  refine and_congr_right fun _ => and_congr_right fun _ => and_congr_right fun _ => ?_
  rw [← imp_iff_not_or]

/-- **Sameness node by node**: the nodes agree and their children are pairwise of the same
shape. -/
theorem alike_iff {a b : Expr} :
    Alike a b ↔ a.shape = b.shape ∧ a.token.type = b.token.type ∧
      (a.children = [] → a.token.lexeme = b.token.lexeme) ∧
      List.Forall₂ Alike a.children b.children := by
  have hstack : Alike a b ↔
      sameHead a b = true ∧ ∀ p ∈ a.children.zip b.children, Alike p.1 p.2 := by
    rw [← allSame_iff, ← allSame_reverse (a.children.zip b.children)]
    simp only [Alike, same, allSame_cons, List.append_nil, Bool.and_eq_true]
  rw [hstack, sameHead_iff, List.forall₂_iff_zip]
  constructor
  · rintro ⟨⟨hshape, htype, hlen, hlex⟩, hpairs⟩
    exact ⟨hshape, htype, hlex, hlen, fun hp => hpairs _ hp⟩
  · rintro ⟨hshape, htype, hlex, hlen, hpairs⟩
    exact ⟨⟨hshape, htype, hlen, hlex⟩, fun p hp => hpairs hp⟩

/-! ### An equivalence -/

theorem Alike.symm {a b : Expr} (h : Alike a b) : Alike b a := by
  induction a using induction_children generalizing b with
  | node a ih =>
    obtain ⟨hshape, htype, hlex, hall⟩ := alike_iff.mp h
    refine alike_iff.mpr ⟨hshape.symm, htype.symm, fun hnil => ?_, ?_⟩
    · rw [hnil, List.forall₂_nil_right_iff] at hall
      exact (hlex hall).symm
    · have hboth := (List.forall₂_and_left _ _).mpr ⟨fun c hc b h => ih c hc (b := b) h, hall⟩
      exact List.Forall₂.flip (hboth.imp fun c b hc => hc.1 b hc.2)

theorem forall₂_trans_of_mem {R : Expr → Expr → Prop} {xs ys zs : List Expr}
    (h : List.Forall₂ R xs ys) (h' : List.Forall₂ R ys zs)
    (trans : ∀ x ∈ xs, ∀ y z, R x y → R y z → R x z) : List.Forall₂ R xs zs := by
  induction h generalizing zs with
  | nil => exact h'
  | @cons x y xs ys hxy _ ih =>
    obtain ⟨z, zs', hyz, hrest, rfl⟩ := List.forall₂_cons_left_iff.mp h'
    exact .cons (trans x (by simp) y z hxy hyz)
      (ih hrest fun x' hx' => trans x' (List.mem_cons_of_mem x hx'))

theorem Alike.trans {a b c : Expr} (hab : Alike a b) (hbc : Alike b c) : Alike a c := by
  induction a using induction_children generalizing b c with
  | node a ih =>
    obtain ⟨hshape, htype, hlex, hall⟩ := alike_iff.mp hab
    obtain ⟨hshape', htype', hlex', hall'⟩ := alike_iff.mp hbc
    refine alike_iff.mpr ⟨hshape.trans hshape', htype.trans htype', fun hnil => ?_,
      forall₂_trans_of_mem hall hall' fun x hx y z hxy hyz => ih x hx hxy hyz⟩
    rw [hlex hnil]
    rw [hnil, List.forall₂_nil_left_iff] at hall
    exact hlex' hall

/-! ### Properties of all nodes -/

/-- What passes from a node to a node like it passes from a tree to a tree like it. -/
theorem Alike.forall_nodes {P : Expr → Prop}
    (hnode : ∀ {a b : Expr}, Built a → Alike a b → P b → P a) {e t : Expr} (h : Alike e t)
    (he : Built e) (ht : ∀ n ∈ t.nodes, P n) : ∀ n ∈ e.nodes, P n := by
  induction e using induction_children generalizing t with
  | node e ih =>
    obtain ⟨hroot, hbelow⟩ := Expr.forall_nodes.mp ht
    obtain ⟨-, -, -, hchildren⟩ := alike_iff.mp h
    refine Expr.forall_nodes.mpr ⟨hnode he h hroot, fun c hc => ?_⟩
    obtain ⟨i, hi, rfl⟩ := List.getElem_of_mem hc
    have hi' : i < t.children.length := hchildren.length_eq ▸ hi
    exact ih _ hc (hchildren.get hi hi') (he.child hc) (hbelow _ (List.getElem_mem hi'))

theorem Alike.hasEntry {T : Table} {a b : Expr} (h : Alike a b) (hb : b.HasEntry T) :
    a.HasEntry T := by
  obtain ⟨hshape, htype, -, -⟩ := alike_iff.mp h
  cases a <;> cases b <;> simp only [shape, reduceCtorEq] at hshape <;>
    simp_all [HasEntry, token]

end Fixity.Expr
