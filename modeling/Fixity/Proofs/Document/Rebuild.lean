import Fixity.Proofs.Document.Row
import Fixity.Proofs.Expr.Built
import Fixity.Proofs.Expr.Nodes

/-!
# Building the nodes of a document

`Restored e t` says that `t` is the tree built where `e` was written: each node has the token that
is read for it and the trees restored from its children.  Reading a document gives exactly the tree
restored from the one it was written from (`decode_ofRows_layout`).

The rows are those of a queue of trees and of everything below them.  The queue comes first in the
rows, and the children of the first tree of the queue take the next free places.  So when the rows
after that of a node are built, its children are, and no node has taken them (`readFrom_layout`).
-/

namespace Fixity.Document

open Fixity.Expr

/-! ### Lists related one by one -/

theorem forall₂_unique {α β : Type} {P : α → β → Prop} {es : List α} {xs ys : List β}
    (h : ∀ e ∈ es, ∀ x y, P e x → P e y → x = y) (hx : List.Forall₂ P es xs)
    (hy : List.Forall₂ P es ys) : xs = ys := by
  induction hx generalizing ys with
  | nil =>
    cases hy
    rfl
  | @cons e x es xs hex hxs ih =>
    cases hy with
    | @cons _ y _ ys hey hys =>
      rw [h e List.mem_cons_self x y hex hey,
        ih (fun e he => h e (List.mem_cons_of_mem _ he)) hys]

theorem exists_append_of_forall₂ {P : Expr → Expr → Prop} {as bs xs : List Expr}
    (h : List.Forall₂ P (as ++ bs) xs) :
    ∃ ys zs, xs = ys ++ zs ∧ List.Forall₂ P as ys ∧ List.Forall₂ P bs zs := by
  have htake := List.forall₂_take as.length h
  have hdrop := List.forall₂_drop as.length h
  rw [List.take_left] at htake
  rw [List.drop_left] at hdrop
  exact ⟨_, _, (List.take_append_drop as.length xs).symm, htake, hdrop⟩

theorem exists_of_mem_of_forall₂ {P : Expr → Expr → Prop} {es xs : List Expr}
    (h : List.Forall₂ P es xs) {e : Expr} (he : e ∈ es) : ∃ x, P e x := by
  induction h with
  | nil => cases he
  | cons hex _ ih =>
    rcases List.mem_cons.mp he with rfl | he
    · exact ⟨_, hex⟩
    · exact ih he

theorem forall_mem_of_forall₂ {α β : Type} {P : α → β → Prop} {Q : β → Prop} {es : List α}
    {xs : List β} (h : List.Forall₂ P es xs) (hQ : ∀ e ∈ es, ∀ x, P e x → Q x) : ∀ x ∈ xs, Q x := by
  induction h with
  | nil => simp
  | @cons e x es xs hex _ ih =>
    exact List.forall_mem_cons.mpr
      ⟨hQ e List.mem_cons_self x hex, ih fun e he => hQ e (List.mem_cons_of_mem _ he)⟩

theorem exists_forall₂ {α β : Type} {P : α → β → Prop} {es : List α} (h : ∀ e ∈ es, ∃ x, P e x) :
    ∃ xs, List.Forall₂ P es xs := by
  induction es with
  | nil => exact ⟨[], .nil⟩
  | cons e es ih =>
    obtain ⟨x, hx⟩ := h e List.mem_cons_self
    obtain ⟨xs, hxs⟩ := ih fun e he => h e (List.mem_cons_of_mem _ he)
    exact ⟨x :: xs, .cons hx hxs⟩

theorem forall₂_iff_forall_mem {P P' : Expr → Expr → Prop} {Q : Expr → Prop} {es xs : List Expr}
    (h : List.Forall₂ P es xs) (hQ : ∀ e ∈ es, ∀ x, P e x → (P' e x ↔ Q e)) :
    List.Forall₂ P' es xs ↔ ∀ e ∈ es, Q e := by
  induction h with
  | nil => simp
  | @cons e x es xs hex _ ih =>
    rw [List.forall₂_cons, List.forall_mem_cons, hQ e List.mem_cons_self x hex,
      ih fun e he => hQ e (List.mem_cons_of_mem _ he)]

/-! ### Restored trees -/

def tokenAgain (t : Token) : Except RowFault Token := do
  let literal ← literalOf t.type (Json.reread t.lexeme)
  return ⟨t.type, Json.reread t.lexeme, literal, t.pos⟩

/-- The tree `t` is built where the tree `e` was written. -/
inductive Restored : Expr → Expr → Prop
  | node {e t : Expr} {token : Token} {cs : List Expr} : tokenAgain e.token = .ok token →
      List.Forall₂ Restored e.children cs → build e.shape token cs = .ok t → Restored e t

theorem restored_iff {e t : Expr} : Restored e t ↔ ∃ token cs, tokenAgain e.token = .ok token ∧
    List.Forall₂ Restored e.children cs ∧ build e.shape token cs = .ok t := by
  constructor
  · rintro ⟨htoken, hcs, hbuild⟩
    exact ⟨_, _, htoken, hcs, hbuild⟩
  · rintro ⟨token, cs, htoken, hcs, hbuild⟩
    exact .node htoken hcs hbuild

theorem Restored.unique {e x y : Expr} (hx : Restored e x) (hy : Restored e y) : x = y := by
  induction e using induction_children generalizing x y with
  | node e ih =>
    obtain ⟨token, cs, htoken, hcs, hbuild⟩ := restored_iff.mp hx
    obtain ⟨token', cs', htoken', hcs', hbuild'⟩ := restored_iff.mp hy
    obtain rfl := Except.ok.inj (htoken.symm.trans htoken')
    obtain rfl := forall₂_unique (fun c hc _ _ => ih c hc) hcs hcs'
    exact Except.ok.inj (hbuild.symm.trans hbuild')

/-! ### The row of a node -/

/-- The registry has a kind for the node that is rebuilt into its shape, and the kind and the type
of the node are read as they were written. -/
structure Keeps (R : Registry) (e : Expr) : Prop where
  kind : ∃ name, R.kindOf? e.shape = some name ∧ R.builder? name = some e.shape ∧
    Json.reread name = name
  type : Json.reread e.token.type.name = e.token.type.name
  type_ne_nil : e.token.type.name ≠ []

def entryRow (R : Registry) (x : Expr × List Nat) : Row :=
  ⟨(R.kindOf? x.1.shape).getD [], x.1.token.type.name, x.1.token.lexeme, x.1.token.pos, x.2⟩

def entryJson (R : Registry) (x : Expr × List Nat) : Json := (entryRow R x).reread.toJson

theorem tokenOf_entry {R : Registry} {e : Expr} (h : Keeps R e) (kind : Bytes)
    (children : List Json) :
    tokenOf ⟨kind, e.token.type.name, Json.reread e.token.lexeme, e.token.pos, children⟩ =
      tokenAgain e.token := by
  have hne : e.token.type.name.isEmpty = false := List.isEmpty_eq_false_iff.mpr h.type_ne_nil
  simp only [tokenOf, hne, Bool.false_eq_true, if_false, TokenType.ofName_name, tokenAgain]

theorem readNode_entry {R : Registry} {e : Expr} (h : Keeps R e) (n i : Nat) (b : Built)
    (children : List Nat) :
    readNode R n i b (entryJson R (e, children)) = (do
      let t ← tokenAgain e.token
      let (cs, b) ← adoptAll n i [] b (children.map fun (j : Nat) => .ofInt j)
      let x ← build e.shape t cs
      return { b with trees := b.trees.push x }) := by
  obtain ⟨name, hkind, hbuilder, hname⟩ := h.kind
  have hrow : readRow (entryJson R (e, children)) =
      ⟨name, e.token.type.name, Json.reread e.token.lexeme, e.token.pos,
        children.map fun (j : Nat) => .ofInt j⟩ := by
    rw [entryJson, readRow_toJson]
    simp only [Row.reread, entryRow, hkind, Option.getD_some, hname, h.type]
  obtain ⟨members, hobject⟩ : ∃ members, entryJson R (e, children) = .object members := ⟨_, rfl⟩
  rw [hobject] at hrow ⊢
  simp only [readNode, hrow, hbuilder, tokenOf_entry h]

/-! ### Taking children -/

theorem adopt_of_free {n i : Nat} {trees : Array Expr} (before after : List Bool) {x : Expr}
    (hi : i < before.length) (hn : before.length < n)
    (hx : trees[n - 1 - before.length]? = some x) :
    adopt n i ⟨trees, (before ++ false :: after).toArray⟩ (.ofInt before.length) =
      .ok (x, ⟨trees, (before ++ true :: after).toArray⟩) := by
  have hrange : ¬((before.length : Int) ≤ i ∨ n ≤ before.length) := by omega
  have hfree : (before ++ false :: after).toArray[before.length]? = some false := by
    rw [List.getElem?_toArray, List.getElem?_append_right (Nat.le_refl _), Nat.sub_self]
    rfl
  have hset : (before ++ false :: after).toArray.setIfInBounds before.length true =
      (before ++ true :: after).toArray := by
    rw [List.setIfInBounds_toArray, List.set_append_right _ _ (Nat.le_refl _), Nat.sub_self]
    rfl
  simp only [adopt, Json.whole?_ofInt, Int.toNat_natCast, if_neg hrange, hx, hfree, hset]
  rfl

theorem adoptAll_range' {n i : Nat} {trees : Array Expr} (after : List Bool) :
    ∀ (cs : List Expr) (before : List Bool) (taken : List Expr), i < before.length →
      before.length + cs.length ≤ n →
      (∀ k < cs.length, trees[n - 1 - (before.length + k)]? = cs[k]?) →
      adoptAll n i taken
          ⟨trees, (before ++ (List.replicate cs.length false ++ after)).toArray⟩
          ((List.range' before.length cs.length).map fun (j : Nat) => .ofInt j) =
        .ok (taken.reverse ++ cs,
          ⟨trees, (before ++ (List.replicate cs.length true ++ after)).toArray⟩) := by
  intro cs
  induction cs with
  | nil =>
    intro before taken _ _ _
    simp [adoptAll]
  | cons c cs ih =>
    intro before taken hi hn hcs
    rw [List.length_cons] at hn hcs
    have hlen : (before ++ [true]).length = before.length + 1 := by simp
    have hfirst := adopt_of_free before (List.replicate cs.length false ++ after) hi (by omega)
      (hcs 0 (by omega))
    have hrest := ih (before ++ [true]) (c :: taken) (by omega) (by omega) fun k hk => by
      have hk' := hcs (k + 1) (by omega)
      rwa [hlen, Nat.add_assoc, Nat.add_comm 1 k]
    rw [hlen, List.append_assoc, List.append_assoc] at hrest
    rw [List.length_cons, List.range'_succ, List.map_cons, adoptAll, List.replicate_succ,
      List.cons_append, hfirst]
    show adoptAll n i (c :: taken) _ _ = _
    rw [List.replicate_succ, List.cons_append]
    refine hrest.trans ?_
    rw [List.reverse_cons, List.append_assoc]
    rfl

/-! ### The rows of a queue -/

theorem layout_cons (next : Nat) (e : Expr) (queue : List Expr) :
    layout next (e :: queue) = (e, List.range' next e.children.length) ::
      layout (next + e.children.length) (queue ++ e.children) := by
  rw [layout]

/-- Induction along the queue. -/
theorem layout_induct {motive : Nat → List Expr → Prop} (nil : ∀ next, motive next [])
    (cons : ∀ next e queue, motive (next + e.children.length) (queue ++ e.children) →
      motive next (e :: queue)) (next : Nat) (queue : List Expr) : motive next queue :=
  layout.induct motive nil cons next queue

/-- The rows of a queue begin with its own. -/
theorem exists_layout_eq_append (next : Nat) (queue : List Expr) :
    ∃ more, (layout next queue).map Prod.fst = queue ++ more := by
  induction next, queue using layout_induct with
  | nil next => exact ⟨[], by rw [layout]; rfl⟩
  | cons next e queue ih =>
    obtain ⟨more, hmore⟩ := ih
    refine ⟨e.children ++ more, ?_⟩
    rw [layout_cons, List.map_cons, hmore, List.append_assoc, List.cons_append]

theorem forall_layout {P : Expr → Prop} (next : Nat) (queue : List Expr)
    (h : ∀ e ∈ queue, ∀ x ∈ e.nodes, P x) : ∀ x ∈ layout next queue, P x.1 := by
  induction next, queue using layout_induct with
  | nil next =>
    intro x hx
    rw [layout] at hx
    cases hx
  | cons next e queue ih =>
    have he := forall_nodes.mp (h e List.mem_cons_self)
    rw [layout_cons, List.forall_mem_cons]
    refine ⟨he.1, ih fun c hc => ?_⟩
    rcases List.mem_append.mp hc with hc | hc
    · exact h c (List.mem_cons_of_mem _ hc)
    · exact he.2 c hc

/-! ### Building nodes from the last to the first -/

/-- The nodes from place `i` on are built, the last first. -/
def readFrom (R : Registry) (n i : Nat) (vs : List Json) : Except DocumentError Built :=
  (vs.zipIdx i).foldrM (fun x b => (readNode R n x.2 b x.1).mapError (.row x.2))
    ⟨#[], Array.replicate n false⟩

theorem readNodes_eq (R : Registry) (vs : List Json) :
    readNodes R vs = readFrom R vs.length 0 vs := by
  rw [readNodes, readFrom, List.foldlM_reverse]

theorem readFrom_cons (R : Registry) (n i : Nat) (v : Json) (vs : List Json) :
    readFrom R n i (v :: vs) =
      readFrom R n (i + 1) vs >>= fun b => (readNode R n i b v).mapError (.row i) := by
  rw [readFrom, List.zipIdx_cons, List.foldrM_cons, readFrom]

/-- The state in which the given trees are built, and all nodes from place `k` on have a parent. -/
def builtFrom (n k : Nat) (ts : List Expr) : Built :=
  ⟨ts.reverse.toArray, (List.replicate k false ++ List.replicate (n - k) true).toArray⟩

/-- The children of a node are taken from the trees after it. -/
theorem adoptAll_builtFrom {n i next : Nat} {before cs more : List Expr}
    (hi : next = i + 1 + before.length) (hn : n = i + 1 + (before ++ (cs ++ more)).length) :
    adoptAll n i [] (builtFrom n (next + cs.length) (before ++ (cs ++ more)))
        ((List.range' next cs.length).map fun (j : Nat) => .ofInt j) =
      .ok (cs, builtFrom n next (before ++ (cs ++ more))) := by
  have hlen : (before ++ (cs ++ more)).length = before.length + (cs.length + more.length) := by
    rw [List.length_append, List.length_append]
  have htrees : ∀ k < cs.length,
      (before ++ (cs ++ more)).reverse.toArray[n - 1 - (next + k)]? = cs[k]? := by
    intro k hk
    have hplace : (before ++ (cs ++ more)).length - 1 - (n - 1 - (next + k)) = before.length + k := by
      omega
    rw [List.getElem?_toArray, List.getElem?_reverse (by omega), hplace,
      List.getElem?_append_right (by omega), Nat.add_sub_cancel_left,
      List.getElem?_append_left hk]
  have hfree : builtFrom n (next + cs.length) (before ++ (cs ++ more)) =
      ⟨(before ++ (cs ++ more)).reverse.toArray, (List.replicate next false ++
        (List.replicate cs.length false ++
          List.replicate (n - (next + cs.length)) true)).toArray⟩ := by
    rw [builtFrom, ← List.replicate_append_replicate, List.append_assoc]
  have htaken : builtFrom n next (before ++ (cs ++ more)) =
      ⟨(before ++ (cs ++ more)).reverse.toArray, (List.replicate next false ++
        (List.replicate cs.length true ++
          List.replicate (n - (next + cs.length)) true)).toArray⟩ := by
    rw [builtFrom, List.replicate_append_replicate]
    congr 4
    omega
  have hadopt := adoptAll_range' (List.replicate (n - (next + cs.length)) true) cs
    (List.replicate next false) [] (by rw [List.length_replicate]; omega)
    (by rw [List.length_replicate]; omega) (by rwa [List.length_replicate]) (n := n) (i := i)
  rw [List.length_replicate] at hadopt
  rw [hfree, htaken, hadopt]
  rfl

/-- The row of a node whose children are next is built from the trees after it. -/
theorem readNode_eq_ok {R : Registry} {e : Expr} (h : Keeps R e) {n i next : Nat}
    {before cs more : List Expr} (hcs : List.Forall₂ Restored e.children cs)
    (hi : next = i + 1 + before.length) (hn : n = i + 1 + (before ++ (cs ++ more)).length)
    (b : Built) :
    readNode R n i (builtFrom n (next + cs.length) (before ++ (cs ++ more)))
        (entryJson R (e, List.range' next cs.length)) = .ok b ↔
      ∃ t, Restored e t ∧ b = builtFrom n next (t :: (before ++ (cs ++ more))) := by
  have hpush : ∀ t : Expr, { builtFrom n next (before ++ (cs ++ more)) with
      trees := (builtFrom n next (before ++ (cs ++ more))).trees.push t } =
      builtFrom n next (t :: (before ++ (cs ++ more))) := by
    intro t
    simp only [builtFrom, List.push_toArray, List.reverse_cons]
  rw [readNode_entry h]
  simp only [bind_eq_ok, adoptAll_builtFrom hi hn]
  constructor
  · rintro ⟨token, htoken, _, hadopt, t, hbuild, hb⟩
    obtain rfl := Except.ok.inj hadopt
    refine ⟨t, .node htoken hcs hbuild, ?_⟩
    rw [← hpush]
    exact (Except.ok.inj hb).symm
  · rintro ⟨t, ht, rfl⟩
    obtain ⟨token, cs', htoken, hcs', hbuild⟩ := restored_iff.mp ht
    obtain rfl := forall₂_unique (fun _ _ _ _ hx hy => hx.unique hy) hcs hcs'
    exact ⟨token, htoken, _, rfl, t, hbuild, by rw [← hpush]; rfl⟩

/-- **The rows of a queue are built into the trees restored from them.**  All nodes that are not in
the queue have a parent then. -/
theorem readFrom_layout {R : Registry} {n : Nat} (next : Nat) (queue : List Expr)
    (hkeeps : ∀ x ∈ layout next queue, Keeps R x.1) :
    ∀ {i : Nat} (b : Built), next = i + queue.length → n = i + (layout next queue).length →
      (readFrom R n i ((layout next queue).map (entryJson R)) = .ok b ↔
        ∃ ts, List.Forall₂ Restored ((layout next queue).map Prod.fst) ts ∧
          b = builtFrom n next ts) := by
  induction next, queue using layout_induct with
  | nil next =>
    intro i b hi hn
    have hlayout : layout next [] = [] := by rw [layout]
    rw [List.length_nil] at hi
    rw [hlayout, List.length_nil] at hn
    obtain rfl : n = next := by omega
    have hstart : readFrom R n i [] = .ok (builtFrom n n []) := by
      rw [builtFrom, Nat.sub_self, List.replicate_zero, List.append_nil, List.toArray_replicate]
      rfl
    rw [hlayout, List.map_nil, List.map_nil, hstart]
    simp only [List.forall₂_nil_left_iff, exists_eq_left, Except.ok.injEq]
    exact eq_comm
  | cons next e queue ih =>
    intro i b hi hn
    rw [layout_cons] at hkeeps hn ⊢
    rw [List.forall_mem_cons] at hkeeps
    rw [List.length_cons] at hi hn
    rw [List.map_cons, List.map_cons, readFrom_cons]
    simp only [bind_eq_ok, mapError_eq_ok]
    have ih' : ∀ b', _ := fun b' => @ih hkeeps.2 (i + 1) b'
      (by rw [List.length_append]; omega) (by omega)
    obtain ⟨more, hmore⟩ := exists_layout_eq_append (next + e.children.length) (queue ++ e.children)
    simp only [ih', hmore, List.append_assoc]
    have hlen := congrArg List.length hmore
    rw [List.length_map] at hlen
    have hstep : ∀ {ts : List Expr},
        List.Forall₂ Restored (queue ++ (e.children ++ more)) ts → ∀ b : Built,
        (readNode R n i (builtFrom n (next + e.children.length) ts)
            (entryJson R (e, List.range' next e.children.length)) = .ok b ↔
          ∃ t, Restored e t ∧ b = builtFrom n next (t :: ts)) := by
      intro ts hts b
      -- the trees of the queue, of the children and of what is below them
      obtain ⟨before, rest, rfl, hbefore, hrest⟩ := exists_append_of_forall₂ hts
      obtain ⟨cs, after, rfl, hcs, hafter⟩ := exists_append_of_forall₂ hrest
      have hqueue := hbefore.length_eq
      have hall := hts.length_eq
      rw [← List.append_assoc] at hall
      rw [hcs.length_eq]
      exact readNode_eq_ok hkeeps.1 hcs (by omega) (by omega) b
    constructor
    · rintro ⟨_, ⟨ts, hts, rfl⟩, hread⟩
      obtain ⟨t, ht, rfl⟩ := (hstep hts b).mp hread
      exact ⟨t :: ts, .cons ht hts, rfl⟩
    · rintro ⟨_, hts, rfl⟩
      cases hts with
      | @cons _ t _ ts ht hts =>
        exact ⟨_, ⟨ts, hts, rfl⟩, (hstep hts _).mpr ⟨t, ht, rfl⟩⟩

/-! ### Whole documents -/

theorem rootOf_builtFrom (n : Nat) (t : Expr) (ts : List Expr) :
    rootOf (builtFrom n 1 (t :: ts)) = .ok t := by
  have howned : (builtFrom n 1 (t :: ts)).owned.toList.zipIdx.find?
      (fun x => x.2 ≠ 0 && !x.1) = none := by
    rw [List.find?_eq_none]
    rintro ⟨owned, j⟩ hj
    rw [builtFrom, List.mem_zipIdx_iff_getElem?] at hj
    cases j with
    | zero => simp
    | succ j =>
      have hmem : owned ∈ List.replicate (n - 1) true := List.mem_of_getElem? hj
      simp [List.eq_of_mem_replicate hmem]
  have hback : (builtFrom n 1 (t :: ts)).trees.back? = some t := by
    rw [builtFrom, List.back?_toArray, List.getLast?_reverse]
    rfl
  rw [rootOf, howned, hback]
  rfl

theorem exists_restored_of_mem_nodes {e t : Expr} (h : Restored e t) :
    ∀ x ∈ e.nodes, ∃ y, Restored x y := by
  induction e using induction_children generalizing t with
  | node e ih =>
    refine forall_nodes.mpr ⟨⟨t, h⟩, fun c hc => ?_⟩
    obtain ⟨token, cs, -, hcs, -⟩ := restored_iff.mp h
    obtain ⟨c', hc'⟩ := exists_of_mem_of_forall₂ hcs hc
    exact ih c hc hc'

/-- **A document is read as the tree restored from the one it was written from**, and not read if
there is none. -/
theorem decode_ofRows_layout {Z : Compression} {R : Registry} {e t : Expr}
    (hkeeps : ∀ x ∈ e.nodes, Keeps R x) :
    decode Z R (ofRows ((layout 1 [e]).map (entryRow R))) = .ok t ↔ Restored e t := by
  have hrows : ∀ x ∈ layout 1 [e], Keeps R x.1 :=
    forall_layout 1 [e] fun e' he' => by rwa [List.mem_singleton.mp he']
  have hread : ∀ b, readNodes R ((layout 1 [e]).map (entryJson R)) = .ok b ↔ ∃ ts,
      List.Forall₂ Restored ((layout 1 [e]).map Prod.fst) ts ∧
        b = builtFrom (layout 1 [e]).length 1 ts := by
    intro b
    rw [readNodes_eq, List.length_map]
    exact readFrom_layout 1 [e] hrows b rfl (Nat.zero_add _).symm
  have hlayout : (layout 1 [e]).map Prod.fst =
      e :: (layout (1 + e.children.length) ([] ++ e.children)).map Prod.fst := by
    rw [layout_cons, List.map_cons]
  rw [decode_ofRows, List.map_map, bind_eq_ok]
  constructor
  · rintro ⟨b, hb, hroot⟩
    obtain ⟨ts, hts, rfl⟩ := (hread b).mp hb
    rw [hlayout] at hts
    cases hts with
    | cons ht hts =>
      rw [rootOf_builtFrom] at hroot
      obtain rfl := Except.ok.inj hroot
      exact ht
  · intro ht
    have hsome : ∀ x ∈ (layout 1 [e]).map Prod.fst, ∃ y, Restored x y := by
      rw [List.forall_mem_map]
      refine forall_layout (P := fun x => ∃ y, Restored x y) 1 [e] fun e' he' => ?_
      rw [List.mem_singleton.mp he']
      exact exists_restored_of_mem_nodes ht
    obtain ⟨ts, hts⟩ := exists_forall₂ hsome
    refine ⟨_, (hread _).mpr ⟨ts, hts, rfl⟩, ?_⟩
    rw [hlayout] at hts
    cases hts with
    | cons ht' hts => rw [rootOf_builtFrom, ht'.unique ht]

end Fixity.Document
