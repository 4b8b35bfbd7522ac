import Fixity.Expr.Source
import Fixity.Expr.Walk
import Fixity.Proofs.Expr.Built

/-!
# The nodes of a tree

`Expr.nodes` lists a tree and everything below it, each node before its children.  What is asked of
all nodes of a tree is asked of its root and of all nodes of its children (`forall_nodes`).
-/

namespace Fixity.Expr

mutual

def nodes : Expr → List Expr
  | literal t => [literal t]
  | ident t => [ident t]
  | unary t e d => unary t e d :: e.nodes
  | binary c t l r d => binary c t l r d :: (l.nodes ++ r.nodes)
  | call t f args d => call t f args d :: (f.nodes ++ nodesAll args)
  | subscript t e i d => subscript t e i d :: (e.nodes ++ i.nodes)

def nodesAll : List Expr → List Expr
  | [] => []
  | e :: es => e.nodes ++ nodesAll es

end

theorem nodesAll_eq_flatMap (es : List Expr) : nodesAll es = es.flatMap nodes := by
  induction es with
  | nil => rw [nodesAll, List.flatMap_nil]
  | cons e es ih => rw [nodesAll, List.flatMap_cons, ih]

theorem nodes_eq (e : Expr) : e.nodes = e :: e.children.flatMap nodes := by
  cases e <;> simp [nodes, children, nodesAll_eq_flatMap]

theorem forall_nodes {P : Expr → Prop} {e : Expr} :
    (∀ n ∈ e.nodes, P n) ↔ P e ∧ ∀ c ∈ e.children, ∀ n ∈ c.nodes, P n := by
  rw [nodes_eq, List.forall_mem_cons]
  simp only [List.mem_flatMap, forall_exists_index, and_imp]
  refine and_congr_right fun _ => ⟨fun h c hc n hn => h n c hc hn, fun h n c hc hn => h c hc n hn⟩

/-- The operator of the node, if it has one, is in the table with its arity. -/
def HasEntry (T : Table) : Expr → Prop
  | unary op _ _ => (T.unary? op.type).isSome
  | binary _ op _ _ _ => (T.binary? op.type).isSome
  | _ => True

instance (T : Table) : DecidablePred (HasEntry T)
  | unary op _ _ => inferInstanceAs (Decidable ((T.unary? op.type).isSome = true))
  | binary _ op _ _ _ => inferInstanceAs (Decidable ((T.binary? op.type).isSome = true))
  | literal _ | ident _ | call .. | subscript .. => inferInstanceAs (Decidable True)

def ValidStrings (e : Expr) : Prop :=
  ∀ n ∈ e.nodes, n.token.type = .string → Utf8.isValid n.token.lexeme = true

theorem ValidStrings.child {e c : Expr} (h : e.ValidStrings) (hc : c ∈ e.children) :
    c.ValidStrings := (forall_nodes.mp h).2 c hc

/-! ### Induction along children -/

theorem size_lt_of_mem_children {e c : Expr} (h : c ∈ e.children) : c.size < e.size := by
  have hmem : ∀ {es : List Expr}, c ∈ es → c.size ≤ sizes es := by
    intro es hc
    induction es with
    | nil => simp at hc
    | cons x xs ih =>
      rcases List.mem_cons.mp hc with rfl | hc
      · rw [sizes]; omega
      · have := ih hc
        rw [sizes]; omega
  have hle := hmem h
  have := sizes_children e
  omega

theorem induction_children {motive : Expr → Prop}
    (node : ∀ e : Expr, (∀ c ∈ e.children, motive c) → motive e) (e : Expr) : motive e := by
  induction hn : e.size using Nat.strongRecOn generalizing e with
  | ind n ih =>
    subst hn
    exact node e fun c hc => ih c.size (size_lt_of_mem_children hc) c rfl

/-- Induction over trees and lists of trees, from the children of a node to the node. -/
theorem induction_lists {P : Expr → Prop} {Q : List Expr → Prop}
    (node : ∀ e : Expr, Q e.children → P e) (nil : Q [])
    (cons : ∀ (e : Expr) (es : List Expr), P e → Q es → Q (e :: es)) (e : Expr) : P e := by
  induction e using induction_children with
  | node e ih =>
    refine node e ?_
    generalize e.children = es at ih
    induction es with
    | nil => exact nil
    | cons c es ihes =>
      obtain ⟨hc, hes⟩ := List.forall_mem_cons.mp ih
      exact cons c es hc (ihes hes)

/-! ### Counting -/

/-- Counting on a stack adds up the sizes of its trees. -/
theorem walkAll_count (n : Nat) (stack : List (Expr × Nat)) :
    walkAll (fun n _ _ => (true, n + 1)) n stack = n + sizes (stack.map Prod.fst) := by
  fun_induction walkAll (fun n _ _ => (true, n + 1)) n stack with
  | case1 n => rfl
  | case2 n e d stack _ _ ih =>
    have hsize := sizes_children e
    have hmap : (e.children.map (·, d + 1)).map Prod.fst = e.children := by
      simp [Function.comp_def]
    simp only [List.map_append, hmap, sizes_append] at ih
    rw [ih, List.map_cons, sizes]
    show n + 1 + (sizes e.children + sizes (stack.map Prod.fst)) =
      n + (e.size + sizes (stack.map Prod.fst))
    omega
  | case3 n e d stack _ hseen => exact absurd rfl hseen

theorem count_some (e : Expr) : count (some e) = e.size := by
  rw [count, walk, walkAll_count, Nat.zero_add]
  exact Nat.add_zero e.size

/-! ### Built trees -/

theorem Built.of_mem_nodes {e : Expr} (h : Built e) : ∀ n ∈ e.nodes, Built n := by
  induction e using induction_children with
  | node e ih => exact forall_nodes.mpr ⟨h, fun c hc => ih c hc (h.child hc)⟩

end Fixity.Expr
