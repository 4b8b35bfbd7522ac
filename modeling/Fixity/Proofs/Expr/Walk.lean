import Fixity.Proofs.Expr.Nodes
import Mathlib.Data.List.Fold
import Mathlib.Data.List.Forall2

/-!
# Walking with a stack is recursion

A walk keeps the trees that it has still to see on one stack.  What it does with the tree on top, before
it comes to the trees below, is what the recursive traversal does with that tree
(`Expr.walkAll_cons`).  So both call the visitor on the same nodes at the same distances in the same
order, and hand it the same states, also when the visitor leaves out what is below some nodes
(`Expr.walk_is_recursion`).

Nodes are told apart by their paths, lists of places among the children (`Expr.at?`).  A visitor that
always goes on is called once for every path of the tree, in lexicographic order, in which a path comes
before those that go on from it.
-/

namespace Fixity.Expr

variable {σ : Type}

/-! ### The stack -/

theorem traverse_eq (visit : Visitor σ) (d : Nat) (e : Expr) (s : σ) :
    e.traverse visit d s = if (visit s e d).1
      then traverseAll visit (d + 1) e.children (visit s e d).2 else (visit s e d).2 := by
  cases e <;> simp [traverse, children, traverseAll]

theorem traverseAll_eq_foldl (visit : Visitor σ) (d : Nat) (es : List Expr) (s : σ) :
    traverseAll visit d es s = es.foldl (fun s e => e.traverse visit d s) s := by
  induction es generalizing s with
  | nil => rfl
  | cons e es ih => rw [traverseAll, ih, List.foldl_cons]

/-- **The tree on top of the stack** is walked as the traversal does it, before the trees below. -/
theorem walkAll_cons (visit : Visitor σ) (e : Expr) : ∀ (s : σ) (d : Nat) (stack : List (Expr × Nat)),
    walkAll visit s ((e, d) :: stack) = walkAll visit (e.traverse visit d s) stack := by
  induction e using induction_lists (Q := fun es => ∀ (s : σ) (d : Nat) (stack : List (Expr × Nat)),
    walkAll visit s (es.map (·, d) ++ stack) = walkAll visit (traverseAll visit d es s) stack) with
  | node e hchildren =>
    intro s d stack
    rw [walkAll, traverse_eq]
    split
    · exact hchildren _ (d + 1) stack
    · rfl
  | nil => rfl
  | cons e es he hes s d stack =>
    rw [List.map_cons, List.cons_append, he, hes, traverseAll]

/-- **A walk is the recursive traversal.** -/
theorem walk_some (visit : Visitor σ) (s : σ) (e : Expr) :
    walk visit s (some e) = e.traverse visit 0 s := by
  have hroot : walk visit s (some e) = walkAll visit s [(e, 0)] := rfl
  rw [hroot, walkAll_cons, walkAll]

/-! ### Records of calls -/

/-- The visitor with a record of the nodes and distances that it was called on, the last call first. -/
def recorded (visit : Visitor σ) : Visitor (σ × List (Expr × Nat)) := fun s e d =>
  ((visit s.1 e d).1, (visit s.1 e d).2, (e, d) :: s.2)

theorem fst_traverse_recorded (visit : Visitor σ) (e : Expr) :
    ∀ (d : Nat) (s : σ × List (Expr × Nat)),
      (e.traverse (recorded visit) d s).1 = e.traverse visit d s.1 := by
  induction e using induction_lists (Q := fun es => ∀ (d : Nat) (s : σ × List (Expr × Nat)),
    (traverseAll (recorded visit) d es s).1 = traverseAll visit d es s.1) with
  | node e hchildren =>
    intro d s
    rw [traverse_eq, traverse_eq, recorded]
    split
    · exact hchildren (d + 1) _
    · rfl
  | nil => rfl
  | cons e es he hes d s =>
    rw [traverseAll, traverseAll, hes, he]

/-! ### Paths -/

def at? (e : Expr) : List Nat → Option Expr
  | [] => some e
  | i :: path => e.children[i]?.bind fun c => c.at? path

mutual

def paths : Expr → List (List Nat)
  | literal _ | ident _ => [[]]
  | unary _ e _ => [] :: e.paths.map (0 :: ·)
  | binary _ _ l r _ => [] :: (l.paths.map (0 :: ·) ++ r.paths.map (1 :: ·))
  | call _ f args _ => [] :: (f.paths.map (0 :: ·) ++ pathsAll 1 args)
  | subscript _ e i _ => [] :: (e.paths.map (0 :: ·) ++ i.paths.map (1 :: ·))

def pathsAll (place : Nat) : List Expr → List (List Nat)
  | [] => []
  | e :: es => e.paths.map (place :: ·) ++ pathsAll (place + 1) es

end

theorem paths_eq (e : Expr) : e.paths = [] :: pathsAll 0 e.children := by
  cases e <;> simp [paths, pathsAll, children]

theorem length_paths (e : Expr) : e.paths.length = e.size := by
  induction e using induction_lists (Q := fun es => ∀ place, (pathsAll place es).length = sizes es) with
  | node e hchildren =>
    rw [paths_eq, List.length_cons, hchildren, sizes_children]
  | nil => rfl
  | cons e es he hes place =>
    rw [pathsAll, List.length_append, List.length_map, he, hes, sizes]

theorem mem_pathsAll {path : List Nat} : ∀ {es : List Expr} {place : Nat},
    path ∈ pathsAll place es ↔
      ∃ i c rest, es[i]? = some c ∧ path = (place + i) :: rest ∧ rest ∈ c.paths
  | [], place => by simp [pathsAll]
  | e :: es, place => by
    rw [pathsAll, List.mem_append, List.mem_map, mem_pathsAll]
    constructor
    · rintro (⟨rest, hrest, rfl⟩ | ⟨i, c, rest, hc, rfl, hrest⟩)
      · exact ⟨0, e, rest, rfl, rfl, hrest⟩
      · exact ⟨i + 1, c, rest, hc, by rw [Nat.add_assoc, Nat.add_comm 1 i], hrest⟩
    · rintro ⟨i, c, rest, hc, rfl, hrest⟩
      cases i with
      | zero =>
        obtain rfl : e = c := Option.some.inj hc
        exact .inl ⟨rest, hrest, rfl⟩
      | succ i =>
        exact .inr ⟨i, c, rest, hc, by rw [Nat.add_assoc, Nat.add_comm 1 i], hrest⟩

theorem mem_paths {path : List Nat} : ∀ {e : Expr}, path ∈ e.paths ↔ (e.at? path).isSome := by
  induction path with
  | nil => intro e; simp [paths_eq, at?]
  | cons i rest ih =>
    intro e
    rw [paths_eq, List.mem_cons, mem_pathsAll, at?]
    constructor
    · rintro (h | ⟨j, c, rest', hc, h, hrest⟩)
      · exact absurd h (List.cons_ne_nil i rest)
      · obtain ⟨rfl, rfl⟩ := List.cons.inj h
        rw [Nat.zero_add, hc, Option.bind_some]
        exact ih.mp hrest
    · intro h
      obtain ⟨n, hn⟩ := Option.isSome_iff_exists.mp h
      obtain ⟨c, hc, hn⟩ := Option.bind_eq_some_iff.mp hn
      exact .inr ⟨i, c, rest, hc, by rw [Nat.zero_add], ih.mpr (by rw [hn, Option.isSome_some])⟩

/-- A path comes before another one if it is a beginning of it, or turns to an earlier child. -/
theorem pairwise_paths (e : Expr) : e.paths.Pairwise (· < ·) := by
  induction e using induction_lists (Q := fun es => ∀ place, (pathsAll place es).Pairwise (· < ·)) with
  | node e hchildren =>
    rw [paths_eq]
    refine List.pairwise_cons.mpr ⟨fun path hpath => ?_, hchildren 0⟩
    obtain ⟨i, -, rest, -, rfl, -⟩ := mem_pathsAll.mp hpath
    exact List.nil_lt_cons _ _
  | nil => exact .nil
  | cons e es he hes place =>
    rw [pathsAll, List.pairwise_append, List.pairwise_map]
    refine ⟨he.imp List.cons_lt_cons_self.mpr, hes _, fun path hpath later hlater => ?_⟩
    obtain ⟨rest, -, rfl⟩ := List.mem_map.mp hpath
    obtain ⟨i, -, rest', -, rfl, -⟩ := mem_pathsAll.mp hlater
    exact List.cons_lt_cons_iff.mpr (.inl (by omega))

theorem not_prefix_of_lt {path later : List Nat} (h : path < later) : ¬ later <+: path := by
  rintro ⟨rest, rfl⟩
  induction later with
  | nil => exact List.not_lt_nil _ h
  | cons i later ih => exact ih (List.cons_lt_cons_self.mp h)

/-! ### Going on everywhere -/

def always (f : σ → Expr → Nat → σ) : Visitor σ := fun s e d => (true, f s e d)

/-- The rows belong to the paths, which begin at a node at distance `d`: each names the node at the end
of its path, and its distance. -/
def Reached (e : Expr) (d : Nat) (paths : List (List Nat)) (rows : List (Expr × Nat)) : Prop :=
  List.Forall₂ (fun path row => e.at? path = some row.1 ∧ row.2 = d + path.length) paths rows

theorem Reached.of_child {e c : Expr} {place d : Nat} (hc : e.children[place]? = some c)
    {paths : List (List Nat)} {rows : List (Expr × Nat)} (h : c.Reached (d + 1) paths rows) :
    e.Reached d (paths.map (place :: ·)) rows := by
  rw [Reached, List.forall₂_map_left_iff]
  refine List.Forall₂.imp (fun path row ⟨hat, hlength⟩ => ⟨?_, ?_⟩) h
  · rw [at?, hc, Option.bind_some, hat]
  · rw [hlength, List.length_cons]
    omega

/-- A visitor that always goes on is called on the same nodes whatever it does with them: on those at
the ends of the paths, in the order of the paths. -/
theorem traverse_always (e : Expr) : ∀ d : Nat, ∃ rows : List (Expr × Nat),
    (∀ (σ : Type) (f : σ → Expr → Nat → σ) (s : σ),
      e.traverse (always f) d s = rows.foldl (fun s row => f s row.1 row.2) s) ∧
    e.Reached d e.paths rows := by
  -- the trees of a list stand among the children of a node, from some place on
  induction e using induction_lists (Q := fun es => ∀ (p : Expr) (d place : Nat),
    (∀ i c, es[i]? = some c → p.children[place + i]? = some c) → ∃ rows : List (Expr × Nat),
      (∀ (σ : Type) (f : σ → Expr → Nat → σ) (s : σ), traverseAll (always f) (d + 1) es s =
        rows.foldl (fun s row => f s row.1 row.2) s) ∧ p.Reached d (pathsAll place es) rows) with
  | node e hchildren =>
    intro d
    obtain ⟨rows, hrows, hreached⟩ := hchildren e d 0 fun i c h => by rw [Nat.zero_add]; exact h
    refine ⟨(e, d) :: rows, fun σ f s => ?_, ?_⟩
    · rw [traverse_eq, List.foldl_cons]
      exact hrows σ f (f s e d)
    · rw [paths_eq]
      exact .cons ⟨rfl, rfl⟩ hreached
  | nil => exact ⟨[], fun _ _ _ => rfl, .nil⟩
  | cons e es he hes p d place hplace =>
    obtain ⟨first, hfirst, hreached⟩ := he (d + 1)
    obtain ⟨more, hmore, hrest⟩ := hes p d (place + 1) fun i c h => by
      rw [Nat.add_assoc, Nat.add_comm 1 i]; exact hplace (i + 1) c h
    refine ⟨first ++ more, fun σ f s => ?_, ?_⟩
    · rw [traverseAll, hfirst, hmore, List.foldl_append]
    · rw [pathsAll]
      exact List.rel_append (hreached.of_child (hplace 0 e rfl)) hrest

theorem preorder_eq {e : Expr} {rows : List (Expr × Nat)}
    (hrows : ∀ (σ : Type) (f : σ → Expr → Nat → σ) (s : σ),
      e.traverse (always f) 0 s = rows.foldl (fun s row => f s row.1 row.2) s) :
    e.preorder = rows := by
  have hwalk : e.preorder =
      (walk (always fun seen e d => (e, d) :: seen) [] (some e)).reverse := rfl
  have hfold : rows.foldl (fun seen row => (row.1, row.2) :: seen) [] = rows.reverse :=
    List.foldl_cons_nil
  rw [hwalk, walk_some, hrows, hfold, List.reverse_reverse]

theorem walk_always (f : σ → Expr → Nat → σ) (s : σ) (e : Expr) :
    walk (always f) s (some e) = e.preorder.foldl (fun s row => f s row.1 row.2) s := by
  obtain ⟨rows, hrows, -⟩ := traverse_always e 0
  rw [walk_some, hrows, preorder_eq hrows]

theorem recorded_always (f : σ → Expr → Nat → σ) (s : σ) (e : Expr) :
    (walk (recorded (always f)) (s, []) (some e)).2.reverse = e.preorder := by
  have hwalk : walk (recorded (always f)) (s, []) (some e) =
      e.preorder.foldl (fun s row => (f s.1 row.1 row.2, row :: s.2)) (s, []) :=
    walk_always (fun s e d => (f s.1 e d, (e, d) :: s.2)) (s, []) e
  have hsplit := List.foldl_hom₂ e.preorder Prod.mk (fun s row => f s row.1 row.2)
    (flip List.cons) (fun s row => (f s.1 row.1 row.2, row :: s.2)) s [] fun _ _ _ => rfl
  rw [hwalk, hsplit, List.foldl_cons_nil, List.reverse_reverse]

theorem forall₂_paths_preorder (e : Expr) :
    List.Forall₂ (fun path row => e.at? path = some row.1 ∧ row.2 = path.length)
      e.paths e.preorder := by
  obtain ⟨rows, hrows, hpaths⟩ := traverse_always e 0
  rw [preorder_eq hrows]
  exact hpaths.imp fun path row ⟨hat, hlength⟩ => ⟨hat, by rw [hlength, Nat.zero_add]⟩

/-- **A walk is the recursive traversal**: it ends in the same state and calls the visitor on the same
nodes at the same distances in the same order, whatever the visitor decides.  A visitor that always
goes on sees every node once and before those below it, so that counting gives the number of nodes. -/
theorem walk_is_recursion :
    (∀ {σ : Type} (visit : Visitor σ) (s : σ),
      walk visit s none = s ∧
      (∀ e : Expr, walk visit s (some e) = e.traverse visit 0 s ∧
        walk (recorded visit) (s, []) (some e) = e.traverse (recorded visit) 0 (s, []) ∧
        (walk (recorded visit) (s, []) (some e)).1 = walk visit s (some e)) ∧
      ∀ (e : Expr) (d : Nat), e.traverse visit d s =
        if (visit s e d).1
        then e.children.foldl (fun s c => c.traverse visit (d + 1) s) (visit s e d).2
        else (visit s e d).2) ∧
    count none = 0 ∧
    ∀ e : Expr,
      (∀ {σ : Type} (f : σ → Expr → Nat → σ) (s : σ),
        walk (always f) s (some e) = e.preorder.foldl (fun s row => f s row.1 row.2) s ∧
        (walk (recorded (always f)) (s, []) (some e)).2.reverse = e.preorder) ∧
      List.Forall₂ (fun path row => e.at? path = some row.1 ∧ row.2 = path.length)
        e.paths e.preorder ∧
      (∀ path, path ∈ e.paths ↔ (e.at? path).isSome) ∧
      e.paths.Pairwise (fun path later => path < later ∧ ¬ later <+: path) ∧
      count (some e) = e.paths.length := by
  refine ⟨fun visit s => ⟨?_, fun e => ⟨walk_some visit s e, walk_some _ _ e, ?_⟩, fun e d => ?_⟩,
    ?_, fun e => ⟨fun f s => ⟨walk_always f s e, ?_⟩, forall₂_paths_preorder e,
      fun _ => mem_paths, ?_, ?_⟩⟩
  · rw [walk, Option.toList_none, List.map_nil, walkAll]
  · rw [walk_some, walk_some, fst_traverse_recorded]
  · rw [traverse_eq, traverseAll_eq_foldl]
  · rw [count, walk, Option.toList_none, List.map_nil, walkAll]
  · exact recorded_always f s e
  · exact (pairwise_paths e).imp fun h => ⟨h, not_prefix_of_lt h⟩
  · rw [count_some, length_paths]

end Fixity.Expr
