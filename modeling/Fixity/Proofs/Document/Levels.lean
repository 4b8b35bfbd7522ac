import Fixity.Token
import Mathlib.Algebra.Order.BigOperators.Group.List
import Mathlib.Data.List.Shortlex

/-!
# The levels of a tree

A document can hold nodes of any type, if only each of them has a token and children (`NodeView`).  A
node of a tree is known by the path that leads to it from the root, a list of places among the children,
whose length is the distance.

The children of the nodes at one distance, from left to right, are the nodes at the next distance
(`NodeView.level`).  All levels one after the other list every node of the tree once (`mem_levelOrder`), the
shorter paths first and those of one length from left to right (`pairwise_levelOrder`).  After the root, the
list goes on with the children of its own nodes, in their order:

    levelOrder root = ([], root) :: (levelOrder root).flatMap below

which is what a queue makes of the tree.
-/

namespace Fixity

/-- Nodes as a document sees them, whatever they are: each has a type, a token and children.  The trees
are finite, so that their nodes can be counted. -/
structure NodeView (ν τ : Type) where
  type : ν → τ
  token : ν → Token
  children : ν → List ν
  /-- The number of nodes of a tree. -/
  size : ν → Nat
  size_eq : ∀ n, size n = ((children n).map size).sum + 1

namespace NodeView

variable {ν τ : Type} (v : NodeView ν τ)

/-! ### Paths -/

/-- The node at the end of a path, each step of which goes to a child by its place. -/
def at? (n : ν) : List Nat → Option ν
  | [] => some n
  | k :: path => (v.children n)[k]?.bind fun c => at? c path

theorem at?_concat (n : ν) (path : List Nat) (k : Nat) :
    v.at? n (path ++ [k]) = (v.at? n path).bind fun m => (v.children m)[k]? := by
  induction path generalizing n with
  | nil => simp [at?]
  | cons i path ih => simp only [List.cons_append, at?, ih, Option.bind_assoc]

theorem size_lt_of_getElem? {n c : ν} {k : Nat} (h : (v.children n)[k]? = some c) :
    v.size c < v.size n := by
  rw [v.size_eq n]
  apply Nat.lt_succ_of_le
  exact List.le_sum_of_mem (List.mem_map_of_mem (List.mem_of_getElem? h))

theorem length_lt_size {path : List Nat} {n m : ν} (h : v.at? n path = some m) :
    path.length < v.size n := by
  induction path generalizing n with
  | nil =>
    rw [v.size_eq n]
    exact Nat.succ_pos _
  | cons k path ih =>
    obtain ⟨c, hc, hm⟩ := Option.bind_eq_some_iff.mp h
    exact Nat.lt_of_le_of_lt (ih hm) (v.size_lt_of_getElem? hc)

/-! ### Levels -/

def below (x : List Nat × ν) : List (List Nat × ν) :=
  (v.children x.2).zipIdx.map fun c => (x.1 ++ [c.2], c.1)

def level (root : ν) : Nat → List (List Nat × ν)
  | 0 => [([], root)]
  | d + 1 => (level root d).flatMap v.below

/-- The nodes of a tree level by level.  There are no more levels than nodes. -/
def levelOrder (root : ν) : List (List Nat × ν) :=
  (List.range (v.size root)).flatMap (v.level root)

theorem getElem?_below (x : List Nat × ν) (k : Nat) :
    (v.below x)[k]? = (v.children x.2)[k]?.map fun c => (x.1 ++ [k], c) := by
  rw [below, List.getElem?_map, List.getElem?_zipIdx, Option.map_map, Nat.zero_add]
  rfl

theorem map_snd_below (x : List Nat × ν) : (v.below x).map Prod.snd = v.children x.2 := by
  rw [below, List.map_map]
  exact List.zipIdx_map_fst 0 _

theorem length_below (x : List Nat × ν) : (v.below x).length = (v.children x.2).length := by
  rw [below, List.length_map, List.length_zipIdx]

theorem mem_below {x : List Nat × ν} {path : List Nat} {n : ν} :
    (path, n) ∈ v.below x ↔ ∃ k, (v.children x.2)[k]? = some n ∧ path = x.1 ++ [k] := by
  rw [List.mem_iff_getElem?]
  apply exists_congr
  intro k
  rw [getElem?_below, Option.map_eq_some_iff]
  constructor
  · intro h
    obtain ⟨c, hc, hpair⟩ := h
    obtain ⟨rfl, rfl⟩ := Prod.mk.inj hpair
    exact ⟨hc, rfl⟩
  · intro h
    obtain ⟨hc, rfl⟩ := h
    exact ⟨n, hc, rfl⟩

/-- **A level has the nodes at its distance**, and no others. -/
theorem mem_level {root : ν} {d : Nat} {path : List Nat} {n : ν} :
    (path, n) ∈ v.level root d ↔ path.length = d ∧ v.at? root path = some n := by
  induction d generalizing path n with
  | zero =>
    rw [level, List.mem_singleton, List.length_eq_zero_iff, Prod.mk.injEq]
    constructor
    · intro h
      obtain ⟨rfl, rfl⟩ := h
      exact ⟨rfl, rfl⟩
    · intro h
      obtain ⟨rfl, h⟩ := h
      exact ⟨rfl, (Option.some.inj h).symm⟩
  | succ d ih =>
    rw [level, List.mem_flatMap]
    constructor
    · intro h
      obtain ⟨⟨p, m⟩, hx, hbelow⟩ := h
      obtain ⟨k, hk, rfl⟩ := v.mem_below.mp hbelow
      obtain ⟨hlength, hat⟩ := ih.mp hx
      rw [List.length_append, hlength, at?_concat, hat]
      exact ⟨rfl, hk⟩
    · intro h
      obtain ⟨hlength, hat⟩ := h
      rcases List.eq_nil_or_concat' path with rfl | ⟨p, k, rfl⟩
      · cases hlength
      · rw [at?_concat] at hat
        obtain ⟨m, hm, hk⟩ := Option.bind_eq_some_iff.mp hat
        rw [List.length_append] at hlength
        exact ⟨(p, m), ih.mpr ⟨Nat.succ.inj hlength, hm⟩, v.mem_below.mpr ⟨k, hk, rfl⟩⟩

theorem level_size (root : ν) : v.level root (v.size root) = [] := by
  rw [List.eq_nil_iff_forall_not_mem]
  intro x hx
  obtain ⟨hlength, hat⟩ := v.mem_level.mp hx
  exact absurd (v.length_lt_size hat) (hlength ▸ Nat.lt_irrefl _)

/-- **Every node is listed** with the path to it. -/
theorem mem_levelOrder {root : ν} {path : List Nat} {n : ν} :
    (path, n) ∈ v.levelOrder root ↔ v.at? root path = some n := by
  rw [levelOrder, List.mem_flatMap]
  constructor
  · intro h
    obtain ⟨d, -, hd⟩ := h
    exact (v.mem_level.mp hd).2
  · intro h
    exact ⟨path.length, List.mem_range.mpr (v.length_lt_size h), v.mem_level.mpr ⟨rfl, h⟩⟩

/-! ### From left to right -/

/-- The order of two paths of one length is that of the paths that go on from them. -/
theorem lex_append {p q : List Nat} (h : List.Lex (· < ·) p q) (hlength : p.length = q.length)
    (s t : List Nat) : List.Lex (· < ·) (p ++ s) (q ++ t) := by
  induction h with
  | nil => cases hlength
  | cons _ ih => exact .cons (ih (Nat.succ.inj hlength))
  | rel h => exact .rel h

theorem pairwise_below (x : List Nat × ν) :
    (v.below x).Pairwise fun y z => List.Shortlex (· < ·) y.1 z.1 := by
  rw [List.pairwise_iff_getElem]
  intro i j hi hj hij
  have hplace : ∀ k (hk : k < (v.below x).length), ((v.below x)[k]).1 = x.1 ++ [k] := by
    intro k hk
    simp [below]
  rw [hplace, hplace]
  exact List.Shortlex.append_left ((List.shortlex_singleton_iff i j).mpr hij) x.1

theorem pairwise_level (root : ν) (d : Nat) :
    (v.level root d).Pairwise fun x y => List.Shortlex (· < ·) x.1 y.1 := by
  induction d with
  | zero => exact List.pairwise_singleton _ _
  | succ d ih =>
    rw [level, List.pairwise_flatMap]
    refine ⟨fun x _ => v.pairwise_below x, ?_⟩
    refine ih.imp_of_mem fun {x y} hx hy hxy => ?_
    intro x' hx' y' hy'
    -- both parents are at the same distance
    have hlength : x.1.length = y.1.length := by
      rw [(v.mem_level.mp hx).1, (v.mem_level.mp hy).1]
    obtain ⟨i, -, hi⟩ := v.mem_below.mp hx'
    obtain ⟨j, -, hj⟩ := v.mem_below.mp hy'
    rw [hi, hj]
    apply List.Shortlex.of_lex
    · rw [List.length_append, List.length_append, hlength]
      rfl
    · exact lex_append ((List.shortlex_iff_lex hlength).mp hxy) hlength [i] [j]

/-- **The levels come one after the other, each from left to right.** -/
theorem pairwise_levelOrder (root : ν) :
    (v.levelOrder root).Pairwise fun x y => List.Shortlex (· < ·) x.1 y.1 := by
  rw [levelOrder, List.pairwise_flatMap]
  refine ⟨fun d _ => v.pairwise_level root d, ?_⟩
  refine List.pairwise_lt_range.imp fun {d e} hde => ?_
  intro x hx y hy
  apply List.Shortlex.of_length_lt
  rw [(v.mem_level.mp hx).1, (v.mem_level.mp hy).1]
  exact hde

theorem pairwise_length_levelOrder (root : ν) :
    (v.levelOrder root).Pairwise fun x y => x.1.length ≤ y.1.length := by
  refine (v.pairwise_levelOrder root).imp fun {x y} hxy => ?_
  rcases List.shortlex_def.mp hxy with hlt | ⟨heq, -⟩
  · exact Nat.le_of_lt hlt
  · exact Nat.le_of_eq heq

/-! ### What comes after the root -/

/-- The first levels, and the next one, are the root and the children of the first levels. -/
theorem levels_append (root : ν) (d : Nat) :
    (List.range d).flatMap (v.level root) ++ v.level root d =
      ([], root) :: ((List.range d).flatMap (v.level root)).flatMap v.below := by
  induction d with
  | zero => rfl
  | succ d ih =>
    rw [List.range_succ, List.flatMap_append, List.flatMap_singleton, List.flatMap_append,
      ← List.cons_append, ← ih, level]

theorem levelOrder_eq (root : ν) :
    v.levelOrder root = ([], root) :: (v.levelOrder root).flatMap v.below := by
  have h := v.levels_append root (v.size root)
  rwa [level_size, List.append_nil] at h

def total (xs : List (List Nat × ν)) : Nat := (xs.map fun x => v.size x.2).sum

theorem length_add_total (xs : List (List Nat × ν)) :
    xs.length + v.total (xs.flatMap v.below) = v.total xs := by
  induction xs with
  | nil => rfl
  | cons x xs ih =>
    have hbelow : v.total (v.below x) = ((v.children x.2).map v.size).sum := by
      rw [total, ← map_snd_below, List.map_map]
      rfl
    have hsize := v.size_eq x.2
    rw [total] at ih hbelow
    simp only [total, List.flatMap_cons, List.map_append, List.sum_append, List.length_cons,
      List.map_cons, List.sum_cons] at ih ⊢
    omega

theorem length_levels (root : ν) (d : Nat) :
    ((List.range d).flatMap (v.level root)).length + v.total (v.level root d) = v.size root := by
  induction d with
  | zero => simp [total, level]
  | succ d ih =>
    rw [List.range_succ, List.flatMap_append, List.flatMap_singleton, List.length_append, level,
      Nat.add_assoc, length_add_total, ih]

/-- **The list is as long as the tree has nodes.** -/
theorem length_levelOrder (root : ν) : (v.levelOrder root).length = v.size root := by
  have h := v.length_levels root (v.size root)
  rwa [level_size] at h

end NodeView

end Fixity
