import Fixity.Proofs.Document.Levels
import Fixity.Proofs.Document.Rebuild
import Fixity.Proofs.Registry

/-!
# Documents are written level by level

A document is written from a queue that grows while it is read (`NodeView.rowsFrom`).  The queue holds the
root at first.  The nodes are written in the order of the queue, and each puts its children at the end,
where a child gets as its place the length that the queue has then.

* The nodes leave the queue in the order of the levels (`taken_singleton`): when a level is at the front
  and nothing behind it, the next level is behind it once it has been written.
* The children of all rows are numbered one after the other (`flatMap_numbered`), as are the rows after
  the first, so that a child has the number of the row that describes it (`getElem?_below_levelOrder`).

The nodes are arbitrary here.  For the trees of expressions, `Document.rows` keeps only what is left of
the queue, and writes the same rows (`Document.rows_eq_rowsFrom`).
-/

namespace Fixity

namespace NodeView

variable {ν τ β : Type} (v : NodeView ν τ)

/-! ### The loop -/

/-- The row of a node whose children have the given places; the type of the node if it has no kind. -/
def row (c : KindMaps τ β) (x : ν × List Nat) : Except τ Document.Row :=
  match c.kinds (some (v.type x.1)) with
  | none => .error (v.type x.1)
  | some kind =>
    .ok ⟨kind, (v.token x.1).type.name, (v.token x.1).lexeme, (v.token x.1).pos, x.2⟩

theorem sum_size_drop {queue : List ν} {i : Nat} {n : ν} (h : queue[i]? = some n) :
    (((queue ++ v.children n).drop (i + 1)).map v.size).sum < ((queue.drop i).map v.size).sum := by
  obtain ⟨hi, rfl⟩ := List.getElem?_eq_some_iff.mp h
  rw [List.drop_append_of_le_length hi, List.drop_eq_getElem_cons hi, List.map_append,
    List.sum_append, List.map_cons, List.sum_cons, v.size_eq queue[i], Nat.succ_eq_add_one]
  omega

def rowsFrom (c : KindMaps τ β) (queue : List ν) (i : Nat) : Except τ (List Document.Row) :=
  match h : queue[i]? with
  | none => .ok []
  | some n => do
    let row ← v.row c (n, List.range' queue.length (v.children n).length)
    let rows ← rowsFrom c (queue ++ v.children n) (i + 1)
    return row :: rows
termination_by ((queue.drop i).map v.size).sum
decreasing_by exact v.sum_size_drop h

/-! ### The queue -/

def taken (queue : List ν) : List ν :=
  match queue with
  | [] => []
  | n :: queue => n :: taken (queue ++ v.children n)
termination_by (queue.map v.size).sum
decreasing_by
  rw [List.map_append, List.sum_append, List.map_cons, List.sum_cons, v.size_eq n]
  omega

theorem taken_nil : v.taken [] = [] := by rw [taken]

theorem taken_cons (n : ν) (queue : List ν) :
    v.taken (n :: queue) = n :: v.taken (queue ++ v.children n) := by
  rw [taken]

/-- **What is at the front of the queue leaves it first**, and then its children are at the end. -/
theorem taken_append (xs ys : List ν) :
    v.taken (xs ++ ys) = xs ++ v.taken (ys ++ xs.flatMap v.children) := by
  induction xs generalizing ys with
  | nil => rw [List.flatMap_nil, List.append_nil, List.nil_append, List.nil_append]
  | cons x xs ih =>
    rw [List.cons_append, taken_cons, List.append_assoc, ih, List.flatMap_cons, List.append_assoc,
      List.cons_append]

theorem map_snd_flatMap_below (xs : List (List Nat × ν)) :
    (xs.flatMap v.below).map Prod.snd = (xs.map Prod.snd).flatMap v.children := by
  rw [List.map_flatMap, List.flatMap_map]
  congr 1
  exact funext v.map_snd_below

theorem taken_levels (root : ν) (d : Nat) :
    v.taken [root] = ((List.range d).flatMap (v.level root)).map Prod.snd ++
      v.taken ((v.level root d).map Prod.snd) := by
  induction d with
  | zero => rfl
  | succ d ih =>
    have hlevel := v.taken_append ((v.level root d).map Prod.snd) []
    rw [List.append_nil, List.nil_append, ← map_snd_flatMap_below] at hlevel
    rw [ih, hlevel, List.range_succ, List.flatMap_append, List.flatMap_singleton, List.map_append,
      List.append_assoc]
    rfl

/-- **The nodes leave the queue level by level.** -/
theorem taken_singleton (root : ν) : v.taken [root] = (v.levelOrder root).map Prod.snd := by
  have h := v.taken_levels root (v.size root)
  rwa [level_size, List.map_nil, taken_nil, List.append_nil] at h

/-! ### The numbers of the children -/

/-- Numbers the children of the nodes one after the other, from `next` on. -/
def numbered (next : Nat) : List ν → List (ν × List Nat)
  | [] => []
  | n :: ns => (n, List.range' next (v.children n).length) ::
      numbered (next + (v.children n).length) ns

theorem map_fst_numbered (next : Nat) (ns : List ν) : (v.numbered next ns).map Prod.fst = ns := by
  induction ns generalizing next with
  | nil => rfl
  | cons n ns ih => rw [numbered, List.map_cons, ih]

theorem flatMap_numbered (next : Nat) (ns : List ν) :
    (v.numbered next ns).flatMap Prod.snd =
      List.range' next (ns.flatMap v.children).length := by
  induction ns generalizing next with
  | nil => rfl
  | cons n ns ih =>
    rw [numbered, List.flatMap_cons, ih, List.flatMap_cons, List.length_append]
    exact List.range'_append_1

theorem getElem?_numbered (next : Nat) (ns : List ν) (i : Nat) :
    (v.numbered next ns)[i]? = ns[i]?.map fun n =>
      (n, List.range' (next + ((ns.take i).flatMap v.children).length) (v.children n).length) := by
  induction ns generalizing next i with
  | nil => rfl
  | cons n ns ih =>
    cases i with
    | zero => rfl
    | succ i =>
      rw [numbered, List.getElem?_cons_succ, ih, List.getElem?_cons_succ, List.take_succ_cons,
        List.flatMap_cons, List.length_append, Nat.add_assoc]

/-- **The loop writes the nodes as they leave the queue**, and numbers the children from the length of
the queue on. -/
theorem rowsFrom_eq (c : KindMaps τ β) (queue : List ν) (i : Nat) :
    v.rowsFrom c queue i =
      (v.numbered queue.length (v.taken (queue.drop i))).mapM (v.row c) := by
  fun_induction rowsFrom v c queue i with
  | case1 queue i h =>
    rw [List.drop_eq_nil_of_le (List.getElem?_eq_none_iff.mp h), taken_nil]
    rfl
  | case2 queue i n h ih =>
    obtain ⟨hi, rfl⟩ := List.getElem?_eq_some_iff.mp h
    rw [ih, List.drop_append_of_le_length hi, List.drop_eq_getElem_cons hi, taken_cons, numbered,
      List.mapM_cons, List.length_append]

/-! ### What the rows say -/

structure Describes (c : KindMaps τ β) (n : ν) (row : Document.Row) : Prop where
  kind : c.kinds (some (v.type n)) = some row.kind
  type : row.type = (v.token n).type.name
  lexeme : row.lexeme = (v.token n).lexeme
  pos : row.pos = (v.token n).pos

theorem exists_row {c : KindMaps τ β} {n : ν} (h : (c.kinds (some (v.type n))).isSome)
    (children : List Nat) : ∃ row : Document.Row, v.row c (n, children) = .ok row ∧
      v.Describes c n row ∧ row.children = children := by
  obtain ⟨kind, hkind⟩ := Option.isSome_iff_exists.mp h
  refine ⟨_, by rw [row, hkind], ⟨hkind, rfl, rfl, rfl⟩, rfl⟩

theorem exists_mapM_row {c : KindMaps τ β} {xs : List (ν × List Nat)}
    (h : ∀ x ∈ xs, (c.kinds (some (v.type x.1))).isSome) : ∃ rows, xs.mapM (v.row c) = .ok rows ∧
      List.Forall₂ (fun x row => v.Describes c x.1 row ∧ Document.Row.children row = x.2) xs rows := by
  induction xs with
  | nil => exact ⟨[], rfl, .nil⟩
  | cons x xs ih =>
    obtain ⟨hx, hxs⟩ := List.forall_mem_cons.mp h
    obtain ⟨row, hrow, hdescribes⟩ := v.exists_row hx x.2
    obtain ⟨rows, hrows, hall⟩ := ih hxs
    refine ⟨row :: rows, ?_, .cons hdescribes hall⟩
    rw [List.mapM_cons, hrow, hrows]
    rfl

structure LevelByLevel (c : KindMaps τ β) (root : ν) (rows : List Document.Row) : Prop where
  /-- There is one row for every node. -/
  length_eq : rows.length = v.size root
  /-- The first row is that of the root. -/
  head : ∃ row, rows[0]? = some row ∧ v.Describes c root row
  /-- The children of all rows are the rows after the first, one after the other. -/
  children : rows.flatMap Document.Row.children = List.range' 1 (v.size root - 1)
  /-- Children come after their parents. -/
  after : ∀ i row, rows[i]? = some row → ∀ j ∈ row.children, i < j ∧ j < rows.length
  /-- Each row describes the node that has its place in the levels. -/
  nodes : List.Forall₂ (fun x row => v.Describes c x.2 row) (v.levelOrder root) rows
  /-- No row is nearer to the root than a row before it. -/
  distances : (v.levelOrder root).Pairwise fun x y => x.1.length ≤ y.1.length
  /-- The children of a row are the rows of the children. -/
  references : ∀ (i : Nat) (row : Document.Row) (path : List Nat) (n : ν), rows[i]? = some row →
    (v.levelOrder root)[i]? = some (path, n) →
    row.children.length = (v.children n).length ∧
      ∀ k j, row.children[k]? = some j →
        ((v.levelOrder root)[j]?).map Prod.fst = some (path ++ [k])

/-- The list that a member of a list gives stands where the lists of the members before it end. -/
theorem getElem?_flatMap_take {α β : Type} (f : α → List β) {xs : List α} {i k : Nat} {x : α}
    (hx : xs[i]? = some x) (hk : k < (f x).length) :
    (xs.flatMap f)[((xs.take i).flatMap f).length + k]? = (f x)[k]? := by
  induction xs generalizing i with
  | nil => cases hx
  | cons y xs ih =>
    cases i with
    | zero =>
      obtain rfl := Option.some.inj hx
      rw [List.take_zero, List.flatMap_nil, List.length_nil, Nat.zero_add, List.flatMap_cons,
        List.getElem?_append_left hk]
    | succ i =>
      rw [List.take_succ_cons, List.flatMap_cons, List.flatMap_cons, List.length_append, Nat.add_assoc,
        List.getElem?_append_right (Nat.le_add_right _ _), Nat.add_sub_cancel_left]
      exact ih hx

/-- **The children of a node stand behind the root and the children of the nodes before it.** -/
theorem getElem?_below_levelOrder {root n : ν} {path : List Nat} {i k : Nat}
    (h : (v.levelOrder root)[i]? = some (path, n)) (hk : k < (v.children n).length) :
    ((v.levelOrder root)[1 + (((v.levelOrder root).take i).flatMap v.below).length + k]?).map Prod.fst =
      some (path ++ [k]) := by
  have hplace : ∀ m, 1 + m + k = m + k + 1 := by omega
  have hbelow := getElem?_flatMap_take v.below h (by rwa [length_below])
  rw [v.getElem?_below, List.getElem?_eq_getElem hk] at hbelow
  generalize ((v.levelOrder root).take i).flatMap v.below = before at hbelow ⊢
  rw [hplace, levelOrder_eq, List.getElem?_cons_succ, hbelow]
  rfl

variable {c : KindMaps τ β} {root : ν} {rows : List Document.Row}

/-- The rows are those of the nodes in the order of the levels, with their children numbered. -/
def Enumerates (c : KindMaps τ β) (root : ν) (rows : List Document.Row) : Prop :=
  List.Forall₂ (fun x row => v.Describes c x.1 row ∧ Document.Row.children row = x.2)
    (v.numbered 1 ((v.levelOrder root).map Prod.snd)) rows

variable {v}

theorem Enumerates.nodes (h : v.Enumerates c root rows) :
    List.Forall₂ (fun x row => v.Describes c x.2 row) (v.levelOrder root) rows := by
  have hall : List.Forall₂ (fun n row => v.Describes c n row)
      ((v.numbered 1 ((v.levelOrder root).map Prod.snd)).map Prod.fst) rows :=
    List.forall₂_map_left_iff.mpr (h.imp fun _ _ hrow => hrow.1)
  rw [map_fst_numbered] at hall
  exact List.forall₂_map_left_iff.mp hall

theorem Enumerates.length_eq (h : v.Enumerates c root rows) : rows.length = v.size root := by
  rw [← h.nodes.length_eq, length_levelOrder]

theorem Enumerates.flatMap_children (h : v.Enumerates c root rows) :
    rows.flatMap Document.Row.children = List.range' 1 (v.size root - 1) := by
  have hmap : rows.map Document.Row.children =
      (v.numbered 1 ((v.levelOrder root).map Prod.snd)).map Prod.snd := by
    symm
    rw [← List.forall₂_eq_eq_eq, List.forall₂_map_left_iff, List.forall₂_map_right_iff]
    exact h.imp fun _ _ hrow => hrow.2.symm
  have hlength := congrArg List.length (v.levelOrder_eq root)
  rw [length_levelOrder, List.length_cons] at hlength
  rw [List.flatMap_def, hmap, ← List.flatMap_def, flatMap_numbered, ← map_snd_flatMap_below,
    List.length_map, hlength, Nat.add_sub_cancel]

/-- The row at a place, and the node that it describes. -/
theorem Enumerates.exists_node (h : v.Enumerates c root rows) {i : Nat} {row : Document.Row}
    (hrow : rows[i]? = some row) : ∃ path n, (v.levelOrder root)[i]? = some (path, n) ∧
      row.children = List.range' (1 + (((v.levelOrder root).take i).flatMap v.below).length)
        (v.children n).length := by
  obtain ⟨hi, rfl⟩ := List.getElem?_eq_some_iff.mp hrow
  have hlength := List.Forall₂.length_eq h
  have hentry := List.Forall₂.get h (i := i) (by omega) hi
  have hnumbered := v.getElem?_numbered 1 ((v.levelOrder root).map Prod.snd) i
  rw [List.getElem?_eq_getElem (hlength ▸ hi)] at hnumbered
  obtain ⟨n, hn, hx⟩ := Option.map_eq_some_iff.mp hnumbered.symm
  rw [List.getElem?_map] at hn
  obtain ⟨⟨path, n'⟩, hplace, rfl⟩ := Option.map_eq_some_iff.mp hn
  refine ⟨path, n', hplace, ?_⟩
  rw [← List.map_take, ← map_snd_flatMap_below, List.length_map] at hx
  exact hentry.2.trans (congrArg Prod.snd hx).symm

theorem Enumerates.references (h : v.Enumerates c root rows) {i : Nat} {row : Document.Row}
    {path : List Nat} {n : ν} (hrow : rows[i]? = some row)
    (hn : (v.levelOrder root)[i]? = some (path, n)) :
    row.children.length = (v.children n).length ∧
      ∀ k j, row.children[k]? = some j →
        ((v.levelOrder root)[j]?).map Prod.fst = some (path ++ [k]) := by
  obtain ⟨path', n', hn', hchildren⟩ := h.exists_node hrow
  obtain ⟨rfl, rfl⟩ := Prod.mk.inj (Option.some.inj (hn.symm.trans hn'))
  rw [hchildren, List.length_range']
  refine ⟨rfl, ?_⟩
  intro k j hj
  obtain ⟨hk, rfl⟩ := List.getElem?_eq_some_iff.mp hj
  rw [List.length_range'] at hk
  rw [List.getElem_range', Nat.one_mul]
  exact v.getElem?_below_levelOrder hn hk

theorem Enumerates.after (h : v.Enumerates c root rows) {i j : Nat} {row : Document.Row}
    (hrow : rows[i]? = some row) (hj : j ∈ row.children) : i < j ∧ j < rows.length := by
  obtain ⟨path, n, hn, -⟩ := h.exists_node hrow
  obtain ⟨k, hk⟩ := List.mem_iff_getElem?.mp hj
  obtain ⟨child, hchild, hpath⟩ := Option.map_eq_some_iff.mp ((h.references hrow hn).2 k j hk)
  obtain ⟨hjlt, rfl⟩ := List.getElem?_eq_some_iff.mp hchild
  obtain ⟨hilt, hi⟩ := List.getElem?_eq_some_iff.mp hn
  rw [h.length_eq, ← length_levelOrder]
  refine ⟨?_, hjlt⟩
  -- the path to the child is longer, and no longer path comes first
  by_contra hle
  have hlonger : path.length < ((v.levelOrder root)[j]).1.length := by
    rw [hpath, List.length_append]
    exact Nat.lt_succ_self _
  rcases Nat.lt_or_eq_of_le (Nat.le_of_not_lt hle) with hlt | rfl
  · have hfar := List.pairwise_iff_getElem.mp (v.pairwise_length_levelOrder root) j i hjlt hilt hlt
    rw [hi] at hfar
    exact Nat.lt_irrefl _ (Nat.lt_of_lt_of_le hlonger hfar)
  · rw [hi] at hlonger
    exact Nat.lt_irrefl _ hlonger

theorem Enumerates.levelByLevel (h : v.Enumerates c root rows) : v.LevelByLevel c root rows := by
  refine ⟨h.length_eq, ?_, h.flatMap_children, fun i row hrow j hj => h.after hrow hj, h.nodes,
    v.pairwise_length_levelOrder root, fun i row path n hrow hn => h.references hrow hn⟩
  have hnodes := h.nodes
  rw [levelOrder_eq] at hnodes
  cases hnodes with
  | cons hroot _ => exact ⟨_, rfl, hroot⟩

/-- **Nodes with kinds are written level by level.** -/
theorem exists_rowsFrom
    (h : ∀ path n, v.at? root path = some n → (c.kinds (some (v.type n))).isSome) :
    ∃ rows, v.rowsFrom c [root] 0 = .ok rows ∧ v.LevelByLevel c root rows := by
  have hkinds : ∀ x ∈ v.numbered 1 ((v.levelOrder root).map Prod.snd),
      (c.kinds (some (v.type x.1))).isSome := by
    intro x hx
    have hfst := List.mem_map_of_mem (f := Prod.fst) hx
    rw [map_fst_numbered] at hfst
    obtain ⟨⟨path, n⟩, hn, hxn⟩ := List.mem_map.mp hfst
    rw [← hxn]
    exact h path n (v.mem_levelOrder.mp hn)
  obtain ⟨rows, hrows, hall⟩ := v.exists_mapM_row hkinds
  refine ⟨rows, ?_, Enumerates.levelByLevel hall⟩
  rw [rowsFrom_eq, List.drop_zero, taken_singleton]
  exact hrows

end NodeView

/-! ### Trees of expressions -/

namespace Expr

theorem sizes_eq_sum (es : List Expr) : sizes es = (es.map size).sum := by
  induction es with
  | nil => rfl
  | cons e es ih => rw [sizes, ih, List.map_cons, List.sum_cons]

def nodeView : NodeView Expr Shape where
  type := shape
  token := token
  children := children
  size := size
  size_eq e := by rw [← sizes_eq_sum, sizes_children]

theorem mem_nodes_of_at? {path : List Nat} {e n : Expr} (h : nodeView.at? e path = some n) :
    n ∈ e.nodes := by
  induction path generalizing e with
  | nil =>
    obtain rfl := Option.some.inj h
    rw [nodes_eq]
    exact List.mem_cons_self
  | cons k path ih =>
    obtain ⟨c, hc, hn⟩ := Option.bind_eq_some_iff.mp h
    rw [nodes_eq]
    apply List.mem_cons_of_mem
    exact List.mem_flatMap.mpr ⟨c, List.mem_of_getElem? hc, ih hn⟩

end Expr

namespace Document

open Fixity.Expr (nodeView)

/-- What is left of the queue is written as the queue is. -/
theorem layout_eq (next : Nat) (queue : List Expr) :
    layout next queue = nodeView.numbered next (nodeView.taken queue) := by
  induction next, queue using layout_induct with
  | nil next =>
    rw [layout, NodeView.taken_nil]
    rfl
  | cons next e queue ih =>
    rw [layout_cons, ih, NodeView.taken_cons, NodeView.numbered]
    rfl

theorem mapError_mapM {ε ε' α β : Type} (g : ε → ε') (f : α → Except ε β) (xs : List α) :
    (xs.mapM f).mapError g = xs.mapM fun x => (f x).mapError g := by
  induction xs with
  | nil => rfl
  | cons x xs ih =>
    rw [List.mapM_cons, List.mapM_cons, ← ih]
    cases f x with
    | error e => rfl
    | ok y => cases xs.mapM f <;> rfl

/-- **The rows of a document are those of the loop.** -/
theorem rows_eq_rowsFrom (R : Registry) (root : Expr) :
    rows R root = (nodeView.rowsFrom R.toMaps [root] 0).mapError .unknownShape := by
  rw [NodeView.rowsFrom_eq, List.drop_zero, mapError_mapM, rows, layout_eq]
  congr 1
  funext x
  obtain ⟨e, children⟩ := x
  have hkinds : R.toMaps.kinds (some (nodeView.type e)) = R.kindOf? e.shape := rfl
  rw [NodeView.row]
  dsimp only
  rw [hkinds]
  cases R.kindOf? e.shape with
  | none => rfl
  | some kind => rfl

end Document

/-- **Documents are written level by level.**  The nodes of a tree, level by level and each level from
left to right, are all nodes of the tree, each once.  If they all have kinds, the loop writes one row for
each of them in this order, the first for the root, and the children of all rows are the rows after the
first in their order.  This holds of nodes of any types.  The document of a tree of expressions has these
rows. -/
theorem NodeView.rows_level_by_level :
    (∀ {ν τ : Type} (v : NodeView ν τ) (root : ν),
      (v.levelOrder root).Pairwise (fun x y => List.Shortlex (· < ·) x.1 y.1) ∧
      ∀ path n, (path, n) ∈ v.levelOrder root ↔ v.at? root path = some n) ∧
    (∀ {ν τ β : Type} (v : NodeView ν τ) (c : KindMaps τ β) (root : ν),
      (∀ path n, v.at? root path = some n → (c.kinds (some (v.type n))).isSome) →
      ∃ rows, v.rowsFrom c [root] 0 = .ok rows ∧ v.LevelByLevel c root rows) ∧
    ∀ (R : Registry) (root : Expr),
      Document.rows R root = (Expr.nodeView.rowsFrom R.toMaps [root] 0).mapError .unknownShape ∧
      ((∀ n ∈ root.nodes, (R.kindOf? n.shape).isSome) →
        ∃ rows, Document.rows R root = .ok rows ∧
          Document.encode R (some root) = .ok (Document.ofRows rows) ∧
          Expr.nodeView.LevelByLevel R.toMaps root rows ∧
          rows.length = Expr.count (some root)) := by
  refine ⟨fun v root => ⟨v.pairwise_levelOrder root, fun path n => v.mem_levelOrder⟩,
    fun v c root h => exists_rowsFrom h, fun R root => ⟨Document.rows_eq_rowsFrom R root, ?_⟩⟩
  intro h
  obtain ⟨rows, hrows, hlevels⟩ := exists_rowsFrom (v := Expr.nodeView) (c := R.toMaps)
    fun path n hn => h n (Expr.mem_nodes_of_at? hn)
  have hdocument : Document.rows R root = .ok rows := by
    rw [Document.rows_eq_rowsFrom, hrows]
    rfl
  refine ⟨rows, hdocument, ?_, hlevels, ?_⟩
  · rw [Document.encode, hdocument]
    rfl
  · rw [hlevels.length_eq, Expr.count_some]
    rfl

/-- Below a number are all smaller ones, so that each number doubles the tree of the one before. -/
def binomial : NodeView Nat Unit where
  type _ := ()
  token n := ⟨.number, Bytes.ofNat n, .none, ⟨1, 1⟩⟩
  children n := List.range n
  size n := 2 ^ n
  size_eq n := by
    induction n with
    | zero => rfl
    | succ n ih =>
      rw [List.range_succ, List.map_append, List.sum_append, List.map_singleton, List.sum_singleton,
        Nat.pow_succ]
      omega

/-- The subscript `(-x)[i]`. -/
def indexed : Expr :=
  .subscript ⟨.ofName "[", "[", .none, ⟨1, 5⟩⟩
    (.unary ⟨.op .minus, "-", .none, ⟨1, 2⟩⟩ (.ident ⟨.identifier, "x", .none, ⟨1, 3⟩⟩) 2)
    (.ident ⟨.identifier, "i", .none, ⟨1, 6⟩⟩) 3

def withSubscripts : Registry :=
  ⟨Registry.standard.kinds ++ [⟨"subscript", .subscript, .subscript⟩]⟩

/-- The places of the children of three and the numbers below it, and of those of the subscript. -/
theorem rows_level_by_level_indexed :
    (∃ rows, binomial.rowsFrom (β := Unit) ⟨fun _ => some "number", fun _ => none⟩ [3] 0 = .ok rows ∧
      rows.length = 8 ∧
      rows.map Document.Row.children = [[1, 2, 3], [], [4], [5, 6], [], [], [7], []]) ∧
    ∃ rows, Document.rows withSubscripts indexed = .ok rows ∧
      rows.length = Expr.count (some indexed) ∧
      rows.map Document.Row.children = [[1, 2], [3], [], []] := by
  obtain ⟨-, hany, hexpr⟩ := NodeView.rows_level_by_level
  constructor
  · obtain ⟨rows, hrows, hlevels⟩ := hany binomial
      (⟨fun _ => some "number", fun _ => none⟩ : KindMaps Unit Unit) 3 fun _ _ _ => rfl
    refine ⟨rows, hrows, hlevels.length_eq, ?_⟩
    rw [NodeView.rowsFrom_eq, List.drop_zero, NodeView.taken_singleton] at hrows
    obtain rfl := Except.ok.inj hrows
    rfl
  · obtain ⟨rows, hrows, -, -, hcount⟩ := (hexpr withSubscripts indexed).2 (by decide)
    refine ⟨rows, hrows, hcount, ?_⟩
    rw [Document.rows, Document.layout_eq, NodeView.taken_singleton] at hrows
    obtain rfl := Except.ok.inj hrows
    rfl

end Fixity
