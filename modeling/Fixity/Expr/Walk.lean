import Fixity.Expr

/-!
# Walking a tree

A visitor carries a state through a tree, sees every node with its distance from the root, and says
of each whether to go on to its children.  `Expr.walk` keeps the nodes still to be seen on a stack
of its own, so that it needs no more room for a deep tree than for a wide one.  `Expr.traverse` is
the same walk by recursion: a node first, then its children from first to last.
-/

namespace Fixity

namespace Expr

/-! ### Size -/

mutual

def size : Expr → Nat
  | literal _ | ident _ => 1
  | unary _ e _ => e.size + 1
  | binary _ _ l r _ => l.size + r.size + 1
  | call _ f args _ => f.size + sizes args + 1
  | subscript _ e i _ => e.size + i.size + 1

def sizes : List Expr → Nat
  | [] => 0
  | e :: es => e.size + sizes es

end

theorem sizes_children (e : Expr) : sizes e.children + 1 = e.size := by
  cases e <;> simp only [children, sizes, size] <;> omega

theorem size_pos (e : Expr) : 0 < e.size := by
  have := sizes_children e
  omega

@[simp] theorem sizes_append (es fs : List Expr) : sizes (es ++ fs) = sizes es + sizes fs := by
  induction es with
  | nil => simp [sizes]
  | cons e es ih => simp [sizes, ih]; omega

/-! ### Walking -/

/-- Sees a node at a distance from the root; says whether to go on below it. -/
abbrev Visitor (σ : Type) := σ → Expr → Nat → Bool × σ

variable {σ : Type}

/-- Walks the trees on the stack, each with its distance from the root. -/
def walkAll (visit : Visitor σ) (s : σ) : List (Expr × Nat) → σ
  | [] => s
  | (e, d) :: stack =>
    let seen := visit s e d
    if seen.1 then walkAll visit seen.2 (e.children.map (·, d + 1) ++ stack)
    else walkAll visit seen.2 stack
termination_by stack => sizes (stack.map Prod.fst)
decreasing_by
  · have h := sizes_children e
    have hMap : (e.children.map (·, d + 1)).map Prod.fst = e.children := by
      simp [Function.comp_def]
    simp only [List.map_append, hMap, sizes_append, List.map_cons, sizes]
    omega
  · have h := size_pos e
    simp only [List.map_cons, sizes]
    omega

def walk (visit : Visitor σ) (s : σ) (root : Option Expr) : σ :=
  walkAll visit s (root.toList.map (·, 0))

/-- The number of nodes of a tree, found by walking it. -/
def count (root : Option Expr) : Nat := walk (fun n _ _ => (true, n + 1)) 0 root

def preorder (root : Expr) : List (Expr × Nat) :=
  (walk (fun seen e d => (true, (e, d) :: seen)) [] (some root)).reverse

/-! ### Walking by recursion -/

mutual

/-- Visits the node, and if the visitor asks for it, its children. -/
def traverse (visit : Visitor σ) (d : Nat) : Expr → σ → σ
  | literal t, s => (visit s (literal t) d).2
  | ident t, s => (visit s (ident t) d).2
  | unary t e n, s =>
    let seen := visit s (unary t e n) d
    if seen.1 then e.traverse visit (d + 1) seen.2 else seen.2
  | binary c t l r n, s =>
    let seen := visit s (binary c t l r n) d
    if seen.1 then r.traverse visit (d + 1) (l.traverse visit (d + 1) seen.2) else seen.2
  | call t f args n, s =>
    let seen := visit s (call t f args n) d
    if seen.1 then traverseAll visit (d + 1) args (f.traverse visit (d + 1) seen.2) else seen.2
  | subscript t e i n, s =>
    let seen := visit s (subscript t e i n) d
    if seen.1 then i.traverse visit (d + 1) (e.traverse visit (d + 1) seen.2) else seen.2

def traverseAll (visit : Visitor σ) (d : Nat) : List Expr → σ → σ
  | [], s => s
  | e :: es, s => traverseAll visit d es (e.traverse visit d s)

end

end Expr

end Fixity
