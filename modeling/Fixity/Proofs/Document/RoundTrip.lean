import Fixity.Frame.Raw
import Fixity.Proofs.Decimal.Numeral
import Fixity.Proofs.Document.Rebuild

/-!
# Which trees come back from a document

Every built tree has a document.  It is read as a tree that agrees with the first one, node for
node, exactly when no number is too large to be read and every lexeme is intact
(`decode_encode_iff`):

* the tree that is read is the restored one, whose lexemes are what `Json.reread` makes of them, so
  that agreeing is being read unchanged (`agree_iff_of_restored`);
* what the functions that make nodes check of a built tree, they check again of the restored one, so
  that only numbers can be refused (`exists_restored`).
-/

namespace Fixity.Document

open Fixity.Expr

/-! ### Trees that agree -/

/-- The trees agree node for node: in shape, in the type, the lexeme and the place of the token, and
in the number and order of the children. -/
inductive Agree : Expr → Expr → Prop
  | node {e t : Expr} : e.shape = t.shape → e.token.type = t.token.type →
      e.token.lexeme = t.token.lexeme → e.token.pos = t.token.pos →
      List.Forall₂ Agree e.children t.children → Agree e t

theorem agree_iff {e t : Expr} : Agree e t ↔ e.shape = t.shape ∧ e.token.type = t.token.type ∧
    e.token.lexeme = t.token.lexeme ∧ e.token.pos = t.token.pos ∧
    List.Forall₂ Agree e.children t.children := by
  constructor
  · rintro ⟨hshape, htype, hlexeme, hpos, hchildren⟩
    exact ⟨hshape, htype, hlexeme, hpos, hchildren⟩
  · rintro ⟨hshape, htype, hlexeme, hpos, hchildren⟩
    exact .node hshape htype hlexeme hpos hchildren

/-! ### What is built -/

/-- A node is built with the shape, the token and the children it is built from. -/
theorem of_build_eq_ok {shape : Shape} {token : Token} {cs : List Expr} {t : Expr}
    (h : build shape token cs = .ok t) : t.shape = shape ∧ t.token = token ∧ t.children = cs := by
  unfold build at h
  split at h
  case h_1 =>
    obtain ⟨-, -, rfl⟩ := newLiteral_some_eq_ok.mp (mapError_eq_ok.mp h)
    exact ⟨rfl, rfl, rfl⟩
  case h_3 =>
    obtain ⟨-, -, rfl⟩ := newIdent_some_eq_ok.mp (mapError_eq_ok.mp h)
    exact ⟨rfl, rfl, rfl⟩
  case h_5 =>
    obtain ⟨-, -, rfl⟩ := newUnary_some_eq_ok.mp (mapError_eq_ok.mp h)
    exact ⟨rfl, rfl, rfl⟩
  case h_7 =>
    obtain ⟨-, -, rfl⟩ := newBinary_some_eq_ok.mp (mapError_eq_ok.mp h)
    exact ⟨rfl, rfl, rfl⟩
  case h_9 =>
    obtain ⟨-, -, rfl⟩ := newCall_some_eq_ok.mp (mapError_eq_ok.mp h)
    exact ⟨rfl, rfl, rfl⟩
  case h_11 =>
    obtain rfl := Except.ok.inj h
    exact ⟨rfl, rfl, rfl⟩
  all_goals cases h

theorem built_of_build {shape : Shape} {token : Token} {cs : List Expr} {t : Expr}
    (hshape : shape ≠ .subscript) (hcs : ∀ c ∈ cs, Expr.Built c)
    (h : build shape token cs = .ok t) : Expr.Built t := by
  unfold build at h
  split at h
  case h_1 => exact .literal (mapError_eq_ok.mp h)
  case h_3 => exact .ident (mapError_eq_ok.mp h)
  case h_5 e => exact .unary (hcs e (by simp)) (mapError_eq_ok.mp h)
  case h_7 l r => exact .binary (hcs l (by simp)) (hcs r (by simp)) (mapError_eq_ok.mp h)
  case h_9 f args =>
    obtain ⟨hf, hargs⟩ := List.forall_mem_cons.mp hcs
    exact .call hf hargs (mapError_eq_ok.mp h)
  case h_11 => exact absurd rfl hshape
  case h_12 => exact absurd rfl hshape
  all_goals cases h

theorem tokenAgain_eq_ok {t token : Token} (h : tokenAgain t = .ok token) :
    ∃ literal, literalOf t.type (Json.reread t.lexeme) = .ok literal ∧
      token = ⟨t.type, Json.reread t.lexeme, literal, t.pos⟩ := by
  obtain ⟨literal, hliteral, hpure⟩ := bind_eq_ok.mp h
  exact ⟨literal, hliteral, (Except.ok.inj hpure).symm⟩

/-- **The restored tree agrees exactly when every lexeme is read as it was.** -/
theorem agree_iff_of_restored {e t : Expr} (h : Restored e t) :
    Agree e t ↔ ∀ n ∈ e.nodes, Json.reread n.token.lexeme = n.token.lexeme := by
  induction e using induction_children generalizing t with
  | node e ih =>
    obtain ⟨token, cs, htoken, hcs, hbuild⟩ := restored_iff.mp h
    obtain ⟨literal, -, rfl⟩ := tokenAgain_eq_ok htoken
    obtain ⟨hshape, htoken', rfl⟩ := of_build_eq_ok hbuild
    have hchildren : List.Forall₂ Agree e.children t.children ↔
        ∀ c ∈ e.children, ∀ n ∈ c.nodes, Json.reread n.token.lexeme = n.token.lexeme :=
      forall₂_iff_forall_mem hcs fun c hc _ hc' => ih c hc hc'
    rw [agree_iff, forall_nodes, ← hchildren, hshape, htoken']
    constructor
    · rintro ⟨-, -, hlexeme, -, hagree⟩
      exact ⟨hlexeme.symm, hagree⟩
    · rintro ⟨hlexeme, hagree⟩
      exact ⟨rfl, rfl, hlexeme.symm, rfl, hagree⟩

/-! ### When a tree is restored -/

/-- The values of tokens are found again, unless a number is too large. -/
theorem literalOf_of_isLiteral {type : TokenType} {lexeme : Bytes}
    (hspelt : Spelling.isLiteral type lexeme = true)
    (hnumber : type = .number → Double.read? lexeme ≠ none) :
    ∃ literal, literalOf type lexeme = .ok literal := by
  cases type with
  | number =>
    obtain ⟨bits, hbits⟩ := Option.ne_none_iff_exists'.mp (hnumber rfl)
    exact ⟨.number bits, by simp only [literalOf, hbits]⟩
  | string =>
    unfold Spelling.isLiteral Spelling.isString at hspelt
    simp only at hspelt
    split at hspelt
    case h_1 rest =>
      rw [Bool.and_eq_true, beq_iff_eq] at hspelt
      exact ⟨.string rest.dropLast, by simp only [literalOf, hspelt.1, if_true]⟩
    case h_2 => cases hspelt
  | _ => exact ⟨_, rfl⟩

theorem literalOf_of_inner {type : TokenType} (lexeme : Bytes)
    (h : type = .leftParen ∨ ∃ o, type = .op o) : literalOf type lexeme = .ok .none := by
  rcases h with rfl | ⟨o, rfl⟩
  · rfl
  · rfl

/-- A token with an intact lexeme is read as it was, its value apart. -/
theorem tokenAgain_of_reread {t : Token} {literal : Literal}
    (hlexeme : Json.reread t.lexeme = t.lexeme) (h : literalOf t.type t.lexeme = .ok literal) :
    tokenAgain t = .ok { t with literal := literal } := by
  rw [tokenAgain, hlexeme, h]
  rfl

/-- **Every node of a built tree is restored**, if the lexemes are read as they were and no number
is too large. -/
theorem exists_restored {e : Expr} (h : Expr.Built e)
    (hlexeme : ∀ n ∈ e.nodes, Json.reread n.token.lexeme = n.token.lexeme)
    (hnumber : ∀ n ∈ e.nodes, n.token.type = .number → Double.read? n.token.lexeme ≠ none) :
    ∃ t, Restored e t ∧ t.depth = e.depth := by
  induction h using Expr.Built.induct with
  | literal t _ ht hs =>
    have hnode : Expr.literal t ∈ (Expr.literal t).nodes := List.mem_cons_self
    obtain ⟨literal, hliteral⟩ := literalOf_of_isLiteral hs (hnumber _ hnode)
    have hnew := newLiteral_of_isLiteral (t := { t with literal := literal }) ht hs
    refine ⟨.literal { t with literal := literal },
      .node (tokenAgain_of_reread (hlexeme _ hnode) hliteral) .nil ?_, rfl⟩
    exact mapError_eq_ok.mpr hnew
  | ident t _ ht hs =>
    have hnode : Expr.ident t ∈ (Expr.ident t).nodes := List.mem_cons_self
    have hliteral : literalOf t.type t.lexeme = .ok .none := by
      rw [ht]
      rfl
    have hnew : newIdent (some { t with literal := .none }) = .ok _ :=
      newIdent_some_eq_ok.mpr ⟨ht, hs, rfl⟩
    refine ⟨.ident { t with literal := .none },
      .node (tokenAgain_of_reread (hlexeme _ hnode) hliteral) .nil ?_, rfl⟩
    exact mapError_eq_ok.mpr hnew
  | unary op x _ hu hd hx ih =>
    obtain ⟨hroot, hbelow⟩ := forall_nodes.mp hlexeme
    obtain ⟨y, hy, hdepth⟩ := ih (hbelow x List.mem_cons_self)
      ((forall_nodes.mp hnumber).2 x List.mem_cons_self)
    have hnew : newUnary (some { op with literal := .none }) (some y) = .ok _ :=
      newUnary_some_eq_ok.mpr ⟨hu, by omega, rfl⟩
    obtain ⟨o, ho, -⟩ := exists_op_of_isUnary hu
    have hliteral := literalOf_of_inner op.lexeme (Or.inr ⟨o, ho⟩)
    refine ⟨_, .node (tokenAgain_of_reread hroot hliteral) (.cons hy .nil)
      (mapError_eq_ok.mpr hnew), ?_⟩
    show y.depth + 1 = x.depth + 1
    rw [hdepth]
  | binary c op l r _ hc hd hl hr ihl ihr =>
    obtain ⟨hroot, hbelow⟩ := forall_nodes.mp hlexeme
    obtain ⟨-, hbelow'⟩ := forall_nodes.mp hnumber
    have hmeml : l ∈ (Expr.binary c op l r (max l.depth r.depth + 1)).children :=
      List.mem_cons_self
    have hmemr : r ∈ (Expr.binary c op l r (max l.depth r.depth + 1)).children :=
      List.mem_cons_of_mem _ List.mem_cons_self
    obtain ⟨l', hl', hdepthl⟩ := ihl (hbelow l hmeml) (hbelow' l hmeml)
    obtain ⟨r', hr', hdepthr⟩ := ihr (hbelow r hmemr) (hbelow' r hmemr)
    have hnew : newBinary c (some { op with literal := .none }) (some l') (some r') = .ok _ :=
      newBinary_some_eq_ok.mpr ⟨hc, by omega, rfl⟩
    have hliteral := literalOf_of_inner op.lexeme (Or.inr (exists_op_of_category? hc))
    refine ⟨_, .node (tokenAgain_of_reread hroot hliteral) (.cons hl' (.cons hr' .nil))
      (mapError_eq_ok.mpr hnew), ?_⟩
    show max l'.depth r'.depth + 1 = max l.depth r.depth + 1
    rw [hdepthl, hdepthr]
  | call p f args _ hp hd hf hargs ihf ihargs =>
    obtain ⟨hroot, hbelow⟩ := forall_nodes.mp hlexeme
    obtain ⟨-, hbelow'⟩ := forall_nodes.mp hnumber
    have hall : ∀ c ∈ f :: args, ∃ y, Restored c y ∧ y.depth = c.depth := by
      intro c hc
      rcases List.mem_cons.mp hc with rfl | ha
      · exact ihf (hbelow _ hc) (hbelow' _ hc)
      · exact ihargs c ha (hbelow c hc) (hbelow' c hc)
    obtain ⟨ys, hys⟩ := exists_forall₂ hall
    have hdepth := deepest_congr (hys.imp fun _ _ hy => hy.2)
    have hrestored := hys.imp fun _ _ hy => hy.1
    obtain ⟨f', args', rfl⟩ : ∃ f' args', ys = f' :: args' := by
      cases hys with
      | cons _ _ => exact ⟨_, _, rfl⟩
    have hnew : newCall (some { p with literal := .none }) (some f') (args'.map some) = .ok _ :=
      newCall_some_eq_ok.mpr ⟨hp, by omega, rfl⟩
    have hliteral := literalOf_of_inner p.lexeme (Or.inl hp)
    refine ⟨_, .node (tokenAgain_of_reread hroot hliteral) hrestored (mapError_eq_ok.mpr hnew), ?_⟩
    show deepest (f' :: args') + 1 = deepest (f :: args) + 1
    rw [hdepth]

theorem read?_ne_none_of_restored {e t : Expr} (h : Restored e t)
    (hlexeme : Json.reread e.token.lexeme = e.token.lexeme) (htype : e.token.type = .number) :
    Double.read? e.token.lexeme ≠ none := by
  obtain ⟨token, cs, htoken, -, -⟩ := restored_iff.mp h
  obtain ⟨literal, hliteral, -⟩ := tokenAgain_eq_ok htoken
  intro hnone
  rw [htype, hlexeme, literalOf, hnone] at hliteral
  cases hliteral

/-! ### The kinds of built trees -/

theorem reread_of_plain {s : Bytes} (h : s.any Json.isSpecial = false) : Json.reread s = s := by
  rw [Json.reread, if_neg (by simp [h])]

theorem kindOf?_standard {shape : Shape} (h : shape ≠ .subscript) :
    ∃ name, Registry.standard.kindOf? shape = some name ∧
      Registry.standard.builder? name = some shape ∧ Json.reread name = name := by
  cases shape with
  | binary c => cases c <;> exact ⟨_, rfl, rfl, reread_of_plain (by decide)⟩
  | subscript => exact absurd rfl h
  | _ => exact ⟨_, rfl, rfl, reread_of_plain (by decide)⟩

theorem shape_ne_subscript {e : Expr} (h : Expr.Built e) : e.shape ≠ .subscript := by
  have hchecked := h.checked
  cases e with
  | subscript => exact hchecked.elim
  | _ => simp [shape]

theorem name_mem_reservedNames {e : Expr} (h : Expr.Built e) :
    e.token.type.name ∈ reservedNames := by
  rcases h.token_cases with ⟨-, ht, -⟩ | ⟨-, ht⟩ | ht | ⟨o, ht⟩
  · rcases type_of_isLiteral ht with h | h | h | h | h <;> rw [h] <;> decide
  · rw [ht]
    decide
  · rw [ht]
    decide
  · rw [ht]
    cases o <;> decide

theorem plain_name : ∀ {name : Bytes}, name ∈ reservedNames →
    name.any Json.isSpecial = false ∧ name ≠ [] := by
  decide

theorem keeps_standard {e : Expr} (h : Expr.Built e) : Keeps Registry.standard e := by
  obtain ⟨hplain, hne⟩ := plain_name (name_mem_reservedNames h)
  exact ⟨kindOf?_standard (shape_ne_subscript h), reread_of_plain hplain, hne⟩

theorem rows_eq_ok {R : Registry} {e : Expr} (h : ∀ x ∈ e.nodes, Keeps R x) :
    rows R e = .ok ((layout 1 [e]).map (entryRow R)) := by
  have hrows : ∀ x ∈ layout 1 [e], Keeps R x.1 :=
    forall_layout 1 [e] fun e' he' => by rwa [List.mem_singleton.mp he']
  rw [rows]
  generalize layout 1 [e] = xs at hrows ⊢
  induction xs with
  | nil => rfl
  | cons x xs ih =>
    obtain ⟨e, children⟩ := x
    obtain ⟨hx, hxs⟩ := List.forall_mem_cons.mp hrows
    obtain ⟨name, hkind, -, -⟩ := hx.kind
    have hentry : entryRow R (e, children) =
        ⟨name, e.token.type.name, e.token.lexeme, e.token.pos, children⟩ := by
      rw [entryRow, hkind]
      rfl
    rw [List.mapM_cons, ih hxs, List.map_cons, hentry]
    simp only [hkind]
    rfl

/-! ### Compressed documents -/

theorem decode_compress (Z : Compression) (R : Registry) {doc : Bytes}
    (h : Frame.isFrame doc = false) : decode Z R (Z.compress doc) = decode Z R doc := by
  have hframe : plain Z (Z.compress doc) = .ok doc := by
    rw [plain, Z.isFrame_compress, Z.decompress?_compress]
    rfl
  rw [decode, hframe, decode, plain_of_not_isFrame Z h]

/-! ### The round trip -/

/-- **Which trees come back.**  Every built tree has a document, which is not taken for a frame, and
whose compressed form, in whatever way it is compressed, is taken for one and read as the document is.
The document is read as a tree that agrees with the first one exactly when no number is too large and
every lexeme is intact. -/
theorem decode_encode_iff (Z : Compression) {e : Expr} (h : Expr.Built e) :
    ∃ doc, encode Registry.standard (some e) = .ok doc ∧
      ((∃ t, decode Z Registry.standard doc = .ok t ∧ Agree e t) ↔
        (∀ n ∈ e.nodes, n.token.type = .number → ¬Double.Overflows n.token.lexeme) ∧
          ∀ n ∈ e.nodes, Json.Intact n.token.lexeme) ∧
      Frame.isFrame doc = false ∧
      encodeCompressed Z Registry.standard (some e) = .ok (Z.compress doc) ∧
      Frame.isFrame (Z.compress doc) = true ∧
      decode Z Registry.standard (Z.compress doc) = decode Z Registry.standard doc := by
  have hkeeps : ∀ n ∈ e.nodes, Keeps Registry.standard n :=
    fun n hn => keeps_standard (h.of_mem_nodes n hn)
  have hnumbers : (∀ n ∈ e.nodes, n.token.type = .number → ¬Double.Overflows n.token.lexeme) ↔
      ∀ n ∈ e.nodes, n.token.type = .number → Double.read? n.token.lexeme ≠ none := by
    refine forall₂_congr fun n hn => forall_congr' fun htype => ?_
    rw [Ne, Double.read?_eq_none_iff ((h.of_mem_nodes n hn).isNumber htype)]
  have hencode : encode Registry.standard (some e) =
      .ok (ofRows ((layout 1 [e]).map (entryRow Registry.standard))) := by
    rw [encode, rows_eq_ok hkeeps]
    rfl
  refine ⟨_, hencode, ?_, isFrame_ofRows _, ?_, Z.isFrame_compress _, ?_⟩
  · simp only [hnumbers, decode_ofRows_layout hkeeps, ← Json.reread_eq_iff]
    constructor
    · rintro ⟨t, ht, hagree⟩
      have hlexeme := (agree_iff_of_restored ht).mp hagree
      refine ⟨fun n hn htype => ?_, hlexeme⟩
      obtain ⟨y, hy⟩ := exists_restored_of_mem_nodes ht n hn
      exact read?_ne_none_of_restored hy (hlexeme n hn) htype
    · rintro ⟨hnumber, hlexeme⟩
      obtain ⟨t, ht, -⟩ := exists_restored h hlexeme hnumber
      exact ⟨t, ht, (agree_iff_of_restored ht).mpr hlexeme⟩
  · rw [encodeCompressed, hencode]
    rfl
  · exact decode_compress Z _ (isFrame_ofRows _)

def callWith (control : UInt8) : Expr :=
  .call ⟨.leftParen, "(", .none, ⟨-1, 7⟩⟩ (.ident ⟨.identifier, "f", .none, ⟨0, 0⟩⟩)
    [.literal ⟨.string, [34, control, 34], .none, ⟨2, -5⟩⟩,
      .literal ⟨.number, "1.5", .none, ⟨1, 1⟩⟩] 2

theorem built_callWith {control : UInt8} (h : control ≠ 34) : Expr.Built (callWith control) := by
  have hstring : newLiteral (some ⟨.string, [34, control, 34], .none, ⟨2, -5⟩⟩) =
      .ok (.literal ⟨.string, [34, control, 34], .none, ⟨2, -5⟩⟩) := by
    refine newLiteral_of_isLiteral rfl ?_
    simp [Spelling.isLiteral, Spelling.isString, Ne.symm h]
  have hnumber : newLiteral (some ⟨.number, "1.5", .none, ⟨1, 1⟩⟩) =
      .ok (.literal ⟨.number, "1.5", .none, ⟨1, 1⟩⟩) := rfl
  have hident : newIdent (some ⟨.identifier, "f", .none, ⟨0, 0⟩⟩) =
      .ok (.ident ⟨.identifier, "f", .none, ⟨0, 0⟩⟩) := rfl
  have hargs : ∀ a ∈ [Expr.literal ⟨.string, [34, control, 34], .none, ⟨2, -5⟩⟩,
      .literal ⟨.number, "1.5", .none, ⟨1, 1⟩⟩], Expr.Built a := by
    rw [List.forall_mem_cons, List.forall_mem_singleton]
    exact ⟨.literal hstring, .literal hnumber⟩
  exact @Expr.Built.call (some ⟨.leftParen, "(", .none, ⟨-1, 7⟩⟩) _ _ _ (.ident hident) hargs rfl

/-- A tab comes back, a bell does not. -/
theorem decode_encode_tab :
    (∃ doc, encode Registry.standard (some (callWith 9)) = .ok doc ∧
      ∃ t, decode Frame.raw Registry.standard doc = .ok t ∧ Agree (callWith 9) t) ∧
    ∃ doc, encode Registry.standard (some (callWith 7)) = .ok doc ∧
      ¬∃ t, decode Frame.raw Registry.standard doc = .ok t ∧ Agree (callWith 7) t := by
  constructor
  · obtain ⟨doc, hdoc, hiff, -⟩ :=
      decode_encode_iff Frame.raw (built_callWith (show 9 ≠ 34 by decide))
    exact ⟨doc, hdoc, hiff.mpr (by decide +kernel)⟩
  · obtain ⟨doc, hdoc, hiff, -⟩ :=
      decode_encode_iff Frame.raw (built_callWith (show 7 ≠ 34 by decide))
    refine ⟨doc, hdoc, fun h => ?_⟩
    exact absurd (hiff.mp h) (by decide +kernel)

end Fixity.Document
