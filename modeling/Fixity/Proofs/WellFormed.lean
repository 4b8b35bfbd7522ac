import Fixity.Proofs.Document.Tree
import Fixity.Proofs.Expr.Spelling
import Fixity.Proofs.Parse.Parsed

/-!
# Well-formed trees

By its type a node has a token, and none of its children is missing.  Every inner node also holds a
depth, which nothing recomputes.  `Expr.height` is the depth that it should be, `Expr.farthest` the
largest distance from the root that a walk reports, and `Shape.Takes` says which tokens may stand in
a node; a tree is well formed when at each of its nodes all these fit (`Expr.WellFormed`).

Trees are made of drafts, parsed, read from documents, or taken out of other trees
(`Expr.Obtained`).  All of them are well formed, and a draft over well-formed children is refused
only for its token, for a child that is missing, or for a child of depth `maxDepth`
(`Expr.obtained_wellFormed`).
-/

namespace Fixity

/-- The token may stand in a node of the shape: it is of a type that such a node has, and the token
of a leaf is spelt as its type asks. -/
def Shape.Takes : Shape → Token → Prop
  | .literal, t => t.type.isLiteral = true ∧ Spelling.Of t.type t.lexeme
  | .ident, t => t.type = .identifier ∧ Spelling.Of t.type t.lexeme
  | .unary, t => t.type.isUnary = true
  | .binary c, t => t.type.category? = some c
  | .call, t => t.type = .leftParen
  | .subscript, _ => False

/-! ### Drafts of nodes -/

/-- A node that is to be made.  Its token and each of its children may be missing. -/
inductive NodeDraft where
  | literal (token : Option Token)
  | ident (name : Option Token)
  | unary (op : Option Token) (operand : Option Expr)
  | binary (category : Category) (op : Option Token) (left right : Option Expr)
  | call (paren : Option Token) (callee : Option Expr) (args : List (Option Expr))

namespace NodeDraft

open Fixity.Expr

def token : NodeDraft → Option Token
  | literal t | ident t | unary t _ | binary _ t _ _ | call t _ _ => t

def children : NodeDraft → List (Option Expr)
  | literal _ | ident _ => []
  | unary _ x => [x]
  | binary _ _ l r => [l, r]
  | call _ f args => f :: args

theorem forall_unary (op : Option Token) {x : Expr} {P : Expr → Prop} (hx : P x) :
    ∀ c, some c ∈ (unary op (some x)).children → P c := by
  intro c hc
  obtain rfl := Option.some.inj (List.mem_singleton.mp hc)
  exact hx

def shape : NodeDraft → Shape
  | literal _ => .literal
  | ident _ => .ident
  | unary .. => .unary
  | binary c .. => .binary c
  | call .. => .call

def make : NodeDraft → Except NodeError Expr
  | literal t => newLiteral t
  | ident t => newIdent t
  | unary t x => newUnary t x
  | binary c t l r => newBinary c t l r
  | call t f args => newCall t f args

/-- The parts of a node that is made of a draft. -/
structure Makes (d : NodeDraft) (t : Token) (cs : List Expr) : Prop where
  token : d.token = some t
  takes : d.shape.Takes t
  children : d.children = cs.map some
  deepest_lt : deepest cs < maxDepth

/-- **What is made of a draft**: a node with its parts, one deeper than the deepest child. -/
theorem exists_of_make_eq_ok {d : NodeDraft} {e : Expr} (h : d.make = .ok e) :
    d.Makes e.token e.children ∧ e.shape = d.shape ∧ e.depth = deepest e.children + 1 := by
  have hleaf : deepest [] < maxDepth := by decide
  cases d with
  | literal token =>
    obtain ⟨t, rfl, hl, -, hs, rfl⟩ := newLiteral_eq_ok.mp h
    exact ⟨⟨rfl, ⟨hl, (Spelling.isLiteral_iff hl).mp hs⟩, rfl, hleaf⟩, rfl, rfl⟩
  | ident name =>
    obtain ⟨t, rfl, ht, hs, rfl⟩ := newIdent_eq_ok.mp h
    exact ⟨⟨rfl, ⟨ht, ht ▸ Spelling.isIdentifier_iff.mp hs⟩, rfl, hleaf⟩, rfl, rfl⟩
  | unary op x =>
    obtain ⟨t, y, rfl, rfl, hu, hd, rfl⟩ := newUnary_eq_ok.mp h
    rw [← deepest_singleton y] at hd ⊢
    exact ⟨⟨rfl, hu, rfl, hd⟩, rfl, rfl⟩
  | binary c op x y =>
    obtain ⟨t, l, r, rfl, rfl, rfl, hc, hd, rfl⟩ := newBinary_eq_ok.mp h
    rw [← deepest_pair l r] at hd ⊢
    exact ⟨⟨rfl, hc, rfl, hd⟩, rfl, rfl⟩
  | call paren callee xs =>
    obtain ⟨t, f, args, rfl, rfl, rfl, hp, hd, rfl⟩ := newCall_eq_ok.mp h
    exact ⟨⟨rfl, hp, rfl, hd⟩, rfl, rfl⟩

theorem Makes.exists_make {d : NodeDraft} {t : Token} {cs : List Expr} (h : d.Makes t cs) :
    ∃ e, d.make = .ok e := by
  obtain ⟨htoken, htakes, hchildren, hdeep⟩ := h
  cases d with
  | literal token =>
    obtain rfl : token = some t := htoken
    obtain ⟨hl, hs⟩ := htakes
    exact ⟨_, newLiteral_of_isLiteral hl ((Spelling.isLiteral_iff hl).mpr hs)⟩
  | ident name =>
    obtain rfl : name = some t := htoken
    obtain ⟨ht, hs⟩ := htakes
    rw [ht] at hs
    exact ⟨_, newIdent_eq_ok.mpr ⟨t, rfl, ht, Spelling.isIdentifier_iff.mpr hs, rfl⟩⟩
  | unary op x =>
    obtain rfl : op = some t := htoken
    obtain ⟨y, rfl, rfl⟩ := List.map_eq_singleton_iff.mp hchildren.symm
    rw [deepest_singleton] at hdeep
    exact ⟨_, newUnary_eq_ok.mpr ⟨t, y, rfl, rfl, htakes, hdeep, rfl⟩⟩
  | binary c op x y =>
    obtain rfl : op = some t := htoken
    obtain ⟨l, rs, rfl, rfl, hrs⟩ := List.map_eq_cons_iff.mp hchildren.symm
    obtain ⟨r, rfl, rfl⟩ := List.map_eq_singleton_iff.mp hrs
    rw [deepest_pair] at hdeep
    exact ⟨_, newBinary_eq_ok.mpr ⟨t, l, r, rfl, rfl, rfl, htakes, hdeep, rfl⟩⟩
  | call paren callee xs =>
    obtain rfl : paren = some t := htoken
    obtain ⟨f, args, rfl, rfl, rfl⟩ := List.map_eq_cons_iff.mp hchildren.symm
    exact ⟨_, newCall_eq_ok.mpr ⟨t, f, args, rfl, rfl, rfl, htakes, hdeep, rfl⟩⟩

theorem exists_error_iff {d : NodeDraft} :
    (∃ error, d.make = .error error) ↔ ¬∃ t cs, d.Makes t cs := by
  constructor
  · rintro ⟨error, herror⟩ ⟨t, cs, h⟩
    obtain ⟨e, he⟩ := h.exists_make
    rw [herror] at he
    cases he
  · intro h
    cases hmake : d.make with
    | error error => exact ⟨error, rfl⟩
    | ok e => exact absurd ⟨_, _, (exists_of_make_eq_ok hmake).1⟩ h

end NodeDraft

namespace Expr

/-! ### Height -/

mutual

def height : Expr → Nat
  | literal _ | ident _ => 1
  | unary _ e _ => e.height + 1
  | binary _ _ l r _ => max l.height r.height + 1
  | call _ f args _ => max f.height (heights args) + 1
  | subscript _ e i _ => max e.height i.height + 1

def heights : List Expr → Nat
  | [] => 0
  | e :: es => max e.height (heights es)

end

theorem height_eq (e : Expr) : e.height = heights e.children + 1 := by
  cases e <;> simp [height, heights, children]

theorem deepest_cons (e : Expr) (es : List Expr) :
    deepest (e :: es) = max e.depth (deepest es) := by
  rw [deepest_eq_foldl_map, deepest_eq_foldl_map, List.map_cons, ← List.foldr_eq_foldl,
    ← List.foldr_eq_foldl, List.foldr_cons]

theorem deepest_eq_heights {es : List Expr} (h : ∀ e ∈ es, e.depth = e.height) :
    deepest es = heights es := by
  induction es with
  | nil => rfl
  | cons e es ih =>
    obtain ⟨he, hes⟩ := List.forall_mem_cons.mp h
    rw [deepest_cons, heights, he, ih hes]

theorem deepest_lt_iff {d : Nat} (hd : 0 < d) {es : List Expr} :
    deepest es < d ↔ ∀ e ∈ es, e.depth < d := by
  induction es with
  | nil => simp [deepest, hd]
  | cons e es ih => rw [deepest_cons, Nat.max_lt, ih, List.forall_mem_cons]

/-! ### The farthest node -/

def farthest (e : Expr) : Nat := walk (fun far _ d => (true, max far d)) 0 (some e)

def reach : List (Expr × Nat) → Nat
  | [] => 0
  | (e, d) :: stack => max (d + e.height - 1) (reach stack)

theorem reach_append (xs ys : List (Expr × Nat)) :
    reach (xs ++ ys) = max (reach xs) (reach ys) := by
  induction xs with
  | nil => rw [List.nil_append, reach, Nat.zero_max]
  | cons x xs ih => rw [List.cons_append, reach, ih, reach, max_assoc]

/-- Below a node lies nothing farther than what lies below its children. -/
theorem max_reach_children (d : Nat) (es : List Expr) :
    max d (reach (es.map (·, d + 1))) = d + heights es := by
  induction es with
  | nil => rw [List.map_nil, reach, heights, Nat.max_zero, Nat.add_zero]
  | cons e es ih =>
    rw [List.map_cons, reach, heights]
    omega

theorem walkAll_farthest (far : Nat) (stack : List (Expr × Nat)) :
    walkAll (fun far _ d => (true, max far d)) far stack = max far (reach stack) := by
  fun_induction walkAll (fun far _ d => (true, max far d)) far stack with
  | case1 far => rw [reach, Nat.max_zero]
  | case2 far e d stack _ _ ih =>
    have hbelow := max_reach_children d e.children
    have hheight := height_eq e
    rw [ih, reach_append, reach]
    show max (max far d) (max (reach (e.children.map (·, d + 1))) (reach stack)) =
      max far (max (d + e.height - 1) (reach stack))
    omega
  | case3 far e d stack _ hseen => exact absurd rfl hseen

/-- The farthest node lies at the end of the longest path. -/
theorem farthest_eq (e : Expr) : e.farthest + 1 = e.height := by
  have hheight := height_eq e
  rw [farthest, walk, walkAll_farthest]
  show max 0 (max (0 + e.height - 1) 0) + 1 = e.height
  omega

/-! ### Well-formed trees -/

/-- What fits at a node: its depth is the height of the tree below it, which is not too high, a walk
from it goes one less far, and its token may stand in it. -/
structure WellFormedAt (n : Expr) : Prop where
  depth_eq : n.depth = n.height
  depth_le : n.depth ≤ maxDepth
  farthest_eq : n.farthest = n.depth - 1
  takes : n.shape.Takes n.token

def WellFormed (e : Expr) : Prop := ∀ n ∈ e.nodes, n.WellFormedAt

theorem WellFormed.root {e : Expr} (h : e.WellFormed) : e.WellFormedAt := (forall_nodes.mp h).1

/-- **A node that is made of well-formed children is well formed.** -/
theorem wellFormed_of_make {d : NodeDraft} {e : Expr}
    (hd : ∀ c, some c ∈ d.children → c.WellFormed) (h : d.make = .ok e) : e.WellFormed := by
  obtain ⟨hmakes, hshape, hdepth⟩ := NodeDraft.exists_of_make_eq_ok h
  have hchildren : ∀ c ∈ e.children, c.WellFormed := by
    intro c hc
    refine hd c ?_
    rw [hmakes.children]
    exact List.mem_map_of_mem hc
  have hheights := deepest_eq_heights fun c hc => (hchildren c hc).root.depth_eq
  have hheight : e.depth = e.height := by rw [hdepth, hheights, height_eq]
  have hfarthest := farthest_eq e
  refine forall_nodes.mpr ⟨⟨hheight, ?_, by omega, ?_⟩, hchildren⟩
  · rw [hdepth]
    exact hmakes.deepest_lt
  · rw [hshape]
    exact hmakes.takes

theorem wellFormed_of_built {e : Expr} (h : Built e) : e.WellFormed := by
  induction h with
  | @literal token e hmake =>
    refine wellFormed_of_make (d := .literal token) (fun c hc => ?_) hmake
    cases hc
  | @ident name e hmake =>
    refine wellFormed_of_make (d := .ident name) (fun c hc => ?_) hmake
    cases hc
  | @unary op x e _ hmake ih =>
    exact wellFormed_of_make (NodeDraft.forall_unary op ih) hmake
  | @binary c op l r e _ _ hmake ihl ihr =>
    refine wellFormed_of_make (d := .binary c op (some l) (some r)) (fun c hc => ?_) hmake
    rcases List.mem_cons.mp hc with hc | hc
    · obtain rfl := Option.some.inj hc
      exact ihl
    · obtain rfl := Option.some.inj (List.mem_singleton.mp hc)
      exact ihr
  | @call paren f e args _ _ hmake ihf ihargs =>
    refine wellFormed_of_make (d := .call paren (some f) (args.map some)) (fun c hc => ?_) hmake
    rcases List.mem_cons.mp hc with hc | hc
    · obtain rfl := Option.some.inj hc
      exact ihf
    · obtain ⟨a, ha, hac⟩ := List.mem_map.mp hc
      obtain rfl := Option.some.inj hac
      exact ihargs a ha

theorem WellFormed.child {e c : Expr} (h : e.WellFormed) (hc : c ∈ e.children) : c.WellFormed :=
  (forall_nodes.mp h).2 c hc

end Expr

/-! ### Trees of documents -/

namespace Document

open Fixity.Expr

theorem builder?_standard {name : Bytes} {shape : Shape}
    (h : Registry.standard.builder? name = some shape) : shape ≠ .subscript := by
  obtain ⟨kind, hkind, rfl⟩ := Option.map_eq_some_iff.mp h
  have hbuild : ∀ k ∈ Registry.standard.kinds, k.build ≠ .subscript := by decide
  exact hbuild kind (List.mem_of_find?_eq_some hkind)

/-- Where no node is rebuilt into a subscript, the trees at all places are built. -/
theorem TreeAt.built {entries : List Entry} (hentries : ∀ entry ∈ entries, entry.shape ≠ .subscript)
    {i : Nat} {t : Expr} (h : TreeAt entries i t) : Expr.Built t := by
  induction t using induction_children generalizing i with
  | node t ih =>
    obtain ⟨entry, cs, hentry, hcs, hbuild⟩ := treeAt_iff.mp h
    obtain ⟨-, -, rfl⟩ := of_build_eq_ok hbuild
    have hplaces : ∀ c ∈ t.children, ∃ j, TreeAt entries j c :=
      forall_mem_of_forall₂ hcs fun j _ c hc => ⟨j, hc⟩
    refine built_of_build (hentries entry (List.mem_of_getElem? hentry)) (fun c hc => ?_) hbuild
    obtain ⟨j, hj⟩ := hplaces c hc
    exact ih c hc hj

theorem exists_holds_of_decode {Z : Compression} {R : Registry} {bs : Bytes} {e : Expr}
    (h : decode Z R bs = .ok e) : ∃ doc, Holds Z bs doc := by
  obtain ⟨text, hplain, h⟩ := bind_eq_ok.mp h
  cases hread : Json.read? text with
  | none =>
    rw [hread] at h
    cases h
  | some doc => exact ⟨doc, text, hplain, hread⟩

/-- **A tree that is read from a document is built.** -/
theorem built_of_decode {Z : Compression} {bs : Bytes} {e : Expr}
    (h : decode Z Registry.standard bs = .ok e) : Expr.Built e := by
  obtain ⟨doc, hdoc⟩ := exists_holds_of_decode h
  rw [hdoc.decode_eq] at h
  obtain ⟨entries, hdescribes, -, htree⟩ := ofJson_iff.mp h
  refine htree.built (forall_mem_of_forall₂ hdescribes.nodes fun v _ entry hsays => ?_)
  exact builder?_standard hsays.kind

end Document

namespace Expr

/-- The trees that can be had: nodes that are made of drafts over such trees, parsed trees, trees
that are read from documents of the standard kinds, and what is below their roots. -/
inductive Obtained : Expr → Prop
  | made {d : NodeDraft} {e : Expr} :
      (∀ c, some c ∈ d.children → Obtained c) → d.make = .ok e → Obtained e
  | parsed {T : Table} {line : Int64} {src : Bytes} {e : Expr} :
      Expr.parseAt T line src = .ok e → Obtained e
  | decoded {Z : Compression} {doc : Bytes} {e : Expr} :
      Document.decode Z Registry.standard doc = .ok e → Obtained e
  | child {e c : Expr} : Obtained e → c ∈ e.children → Obtained c

theorem Obtained.wellFormed {e : Expr} (h : Obtained e) : e.WellFormed := by
  induction h with
  | made _ hmake ih => exact wellFormed_of_make ih hmake
  | parsed hparse => exact wellFormed_of_built (parsed_of_parseAt hparse).built
  | decoded hdecode => exact wellFormed_of_built (Document.built_of_decode hdecode)
  | child _ hc ih => exact ih.child hc

theorem exists_map_some_iff {xs : List (Option Expr)} :
    (∃ cs : List Expr, xs = cs.map some) ↔ none ∉ xs := by
  constructor
  · rintro ⟨cs, rfl⟩ hnone
    obtain ⟨c, -, hc⟩ := List.mem_map.mp hnone
    cases hc
  · intro hnone
    induction xs with
    | nil => exact ⟨[], rfl⟩
    | cons x xs ih =>
      obtain ⟨hx, hxs⟩ := not_or.mp (mt List.mem_cons.mpr hnone)
      obtain ⟨c, rfl⟩ := Option.ne_none_iff_exists'.mp (Ne.symm hx)
      obtain ⟨cs, rfl⟩ := ih hxs
      exact ⟨c :: cs, rfl⟩

/-- Well-formed trees are less deep than `maxDepth` when none of them is that deep. -/
theorem deepest_lt_maxDepth_iff {cs : List Expr} (hcs : ∀ c ∈ cs, c.WellFormed) :
    deepest cs < maxDepth ↔ ∀ c ∈ cs, c.depth ≠ maxDepth := by
  rw [deepest_lt_iff (by decide)]
  refine forall₂_congr fun c hc => ?_
  have hle := (hcs c hc).root.depth_le
  omega

/-- **Every tree that can be had is well formed**, and a draft over well-formed trees is refused
exactly when its token is missing or may not stand in the node, a child is missing, or a child is as
deep as a tree can be. -/
theorem obtained_wellFormed :
    (∀ e, Obtained e → e.WellFormed) ∧
      ∀ d : NodeDraft, (∀ c, some c ∈ d.children → c.WellFormed) →
        ((∃ error, d.make = .error error) ↔
          (¬∃ t, d.token = some t ∧ d.shape.Takes t) ∨ none ∈ d.children ∨
            ∃ c, some c ∈ d.children ∧ c.depth = maxDepth) := by
  refine ⟨fun e h => h.wellFormed, fun d hd => ?_⟩
  rw [NodeDraft.exists_error_iff]
  constructor
  · intro hnot
    by_contra hnone
    obtain ⟨htaken, hnone⟩ := not_or.mp hnone
    obtain ⟨hchildren, hdeep⟩ := not_or.mp hnone
    obtain ⟨t, htoken, htakes⟩ := not_not.mp htaken
    obtain ⟨cs, hcs⟩ := exists_map_some_iff.mpr hchildren
    have hmem : ∀ c ∈ cs, some c ∈ d.children := fun c hc => hcs ▸ List.mem_map_of_mem hc
    refine hnot ⟨t, cs, htoken, htakes, hcs, ?_⟩
    rw [deepest_lt_maxDepth_iff fun c hc => hd c (hmem c hc)]
    exact fun c hc hdepth => hdeep ⟨c, hmem c hc, hdepth⟩
  · rintro h ⟨t, cs, htoken, htakes, hcs, hdeep⟩
    have hmem : ∀ c, some c ∈ d.children ↔ c ∈ cs := by simp [hcs]
    rcases h with htaken | hnone | ⟨c, hc, hdepth⟩
    · exact htaken ⟨t, htoken, htakes⟩
    · exact exists_map_some_iff.mp ⟨cs, hcs⟩ hnone
    · have hcs' : ∀ c ∈ cs, c.WellFormed := fun c hc => hd c ((hmem c).mpr hc)
      exact (deepest_lt_maxDepth_iff hcs').mp hdeep c ((hmem c).mp hc) hdepth

/-! ### The deepest negation -/

def minusSign : Token := ⟨.op .minus, "-", .none, ⟨1, 1⟩⟩

def negations : Nat → Expr
  | 0 => .ident ⟨.identifier, "x", .none, ⟨1, 1⟩⟩
  | n + 1 => .unary minusSign (negations n) (n + 2)

theorem depth_negations (n : Nat) : (negations n).depth = n + 1 := by
  cases n <;> rfl

theorem obtained_negations {n : Nat} (h : n < maxDepth) : Obtained (negations n) := by
  induction n with
  | zero =>
    refine .made (d := .ident (some ⟨.identifier, "x", .none, ⟨1, 1⟩⟩)) (fun c hc => ?_) rfl
    cases hc
  | succ n ih =>
    have hx := ih (by omega)
    refine .made (NodeDraft.forall_unary (some minusSign) hx) ?_
    refine newUnary_some_eq_ok.mpr ⟨rfl, ?_, ?_⟩
    · rwa [depth_negations]
    · rw [depth_negations, negations]

/-- A name below 9999 minus signs is well formed; one more sign before it is refused, and before
a name with one sign less it is not. -/
theorem wellFormed_negations : (negations 9999).WellFormed ∧
    (∃ error, (NodeDraft.unary (some minusSign) (some (negations 9999))).make = .error error) ∧
    ¬∃ error, (NodeDraft.unary (some minusSign) (some (negations 9998))).make = .error error := by
  obtain ⟨hwell, hrefused⟩ := obtained_wellFormed
  have hdeepest : Obtained (negations 9999) := obtained_negations (by decide)
  have hdeep : Obtained (negations 9998) := obtained_negations (by decide)
  refine ⟨hwell _ hdeepest, ?_, ?_⟩
  · refine (hrefused _ (NodeDraft.forall_unary _ (hwell _ hdeepest))).mpr ?_
    exact Or.inr (Or.inr ⟨_, List.mem_singleton.mpr rfl, depth_negations 9999⟩)
  · rw [hrefused _ (NodeDraft.forall_unary _ (hwell _ hdeep))]
    rintro (htoken | hmissing | ⟨c, hc, hdepth⟩)
    · exact htoken ⟨minusSign, rfl, rfl⟩
    · cases List.mem_singleton.mp hmissing
    · obtain rfl := Option.some.inj (List.mem_singleton.mp hc)
      rw [depth_negations] at hdepth
      exact absurd hdepth (by decide)

end Expr

end Fixity
