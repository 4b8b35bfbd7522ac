import Fixity.Frame.Raw
import Fixity.Proofs.Document.Reading

/-!
# Which documents describe a tree

A document is read exactly when it describes a tree (`decode_iff_describes_tree`): it has the
version, each node says what it is, the references make a tree (`Arranged`), and each builder gets
what it asks for.  The tree that is read is the one that the references unfold to from the first node.
-/

namespace Fixity.Document

open Fixity.Expr

/-! ### What a document says -/

def versionOf (doc : Json) : Int64 :=
  (((Json.Members.of doc).find "version").1.bind Json.toInt?).getD 0

def nodesOf (doc : Json) : List Json :=
  ((((Json.Members.of doc).find "version").2.find "nodes").1.map Json.items).getD []

/-- The document has the version, its nodes say what the entries say, and their references make a
tree. -/
structure Describes (R : Registry) (doc : Json) (entries : List Entry) : Prop where
  version : versionOf doc = Document.version
  nodes : List.Forall₂ (Says R) (nodesOf doc) entries
  arranged : Arranged entries

/-- Each builder gets what it asks for, from the leaves to the root. -/
def AllAccepted (entries : List Entry) : Prop :=
  ∀ (i : Nat) (entry : Entry), entries[i]? = some entry →
    ∃ cs, List.Forall₂ (TreeAt entries) entry.children cs ∧ Accepts entry.token cs entry.shape

/-! ### Whole documents -/

/-- The first tree is read when all other places have a parent. -/
theorem rootOf_stateOf {n : Nat} {ts : List Expr} {refs : List Nat} {t : Expr} :
    rootOf (stateOf n ts refs) = .ok t ↔
      (∀ j, 0 < j → j < n → j ∈ refs) ∧ ts.head? = some t := by
  have hback : (stateOf n ts refs).trees.back? = ts.head? := by
    rw [stateOf, List.back?_toArray, List.getLast?_reverse]
  have howned : ∀ {x : Bool × Nat}, x ∈ (stateOf n ts refs).owned.toList.zipIdx ↔
      x.2 < n ∧ x.1 = decide (x.2 ∈ refs) := by
    rintro ⟨owned, j⟩
    rw [List.mem_zipIdx_iff_getElem?, stateOf, List.getElem?_map]
    by_cases hj : j < n
    · simp [hj, eq_comm]
    · simp [hj]
  rw [rootOf, hback]
  split
  case h_1 owned j hfind =>
    -- a place without a parent
    obtain ⟨hj, howned⟩ : j < n ∧ owned = decide (j ∈ refs) :=
      howned.mp (List.mem_of_find?_eq_some hfind)
    have hfree : j ≠ 0 ∧ j ∉ refs := by simpa [howned] using List.find?_some hfind
    constructor
    · intro h
      cases h
    · rintro ⟨hall, -⟩
      exact absurd (hall j (Nat.pos_of_ne_zero hfree.1) hj) hfree.2
  case h_2 hfind =>
    have hall : ∀ j, 0 < j → j < n → j ∈ refs := by
      intro j hpos hj
      have hnot := List.find?_eq_none.mp hfind (decide (j ∈ refs), j) (howned.mpr ⟨hj, rfl⟩)
      by_contra hfree
      exact hnot (by simp [hfree, Nat.ne_of_gt hpos])
    cases ts.head? with
    | none =>
      constructor
      · intro h
        cases h
      · rintro ⟨-, h⟩
        cases h
    | some root =>
      constructor
      · intro h
        exact ⟨hall, congrArg some (Except.ok.inj h)⟩
      · rintro ⟨-, h⟩
        exact congrArg Except.ok (Option.some.inj h)

theorem ofJson_eq_ok {R : Registry} {doc : Json} {t : Expr} : ofJson R doc = .ok t ↔
    versionOf doc = version ∧ ∃ b, readNodes R (nodesOf doc) = .ok b ∧ rootOf b = .ok t := by
  have hofJson : ofJson R doc = if versionOf doc ≠ version then .error (.version (versionOf doc))
      else readNodes R (nodesOf doc) >>= rootOf := by
    unfold ofJson
    simp only
    by_cases hversion : versionOf doc ≠ version
    · rw [if_pos hversion]
      exact if_pos hversion
    · rw [if_neg hversion]
      exact if_neg hversion
  rw [hofJson]
  by_cases hversion : versionOf doc = version
  · rw [if_neg (not_not.mpr hversion), bind_eq_ok]
    exact (and_iff_right hversion).symm
  · rw [if_pos hversion]
    constructor
    · intro h
      cases h
    · rintro ⟨h, -⟩
      exact absurd h hversion

/-- **A document is read as the tree at its first place** when it describes a tree and there is a
tree at each place. -/
theorem ofJson_iff {R : Registry} {doc : Json} {t : Expr} : ofJson R doc = .ok t ↔
    ∃ entries, Describes R doc entries ∧ (∀ i < entries.length, ∃ t, TreeAt entries i t) ∧
      TreeAt entries 0 t := by
  rw [ofJson_eq_ok, readNodes_eq]
  constructor
  · rintro ⟨hversion, b, hread, hroot⟩
    obtain ⟨entries, ts, hsaid, hlinked, hnodup, rfl⟩ :=
      (readFrom_iff (nodesOf doc) b (Nat.zero_add _).symm).mp hread
    rw [hsaid.length_eq] at hlinked hroot
    obtain ⟨hall, hhead⟩ := rootOf_stateOf.mp hroot
    obtain ⟨hafter, htrees⟩ := (linked_iff entries List.drop_zero).mp hlinked
    have hne : entries ≠ [] := by
      rintro rfl
      cases hlinked
      cases hhead
    refine ⟨entries, ⟨hversion, hsaid, arranged_iff.mpr ⟨hne,
      fun k entry => hafter k entry (Nat.zero_le k), hnodup, hall⟩⟩, fun i hi => ?_, ?_⟩
    · have hi' : i < ts.length := by rwa [hlinked.length_eq]
      exact ⟨ts[i], (getElem?_iff_treeAt htrees (Nat.zero_le i) (by omega) _).mp
        (List.getElem?_eq_getElem hi')⟩
    · refine (getElem?_iff_treeAt htrees (Nat.le_refl 0) ?_ t).mp ?_
      · rw [Nat.zero_add]
        exact List.length_pos_iff.mpr hne
      · rwa [← List.head?_eq_getElem?]
  · rintro ⟨entries, ⟨hversion, hsaid, harranged⟩, htrees, htree⟩
    obtain ⟨hne, hafter, hnodup, hall⟩ := arranged_iff.mp harranged
    obtain ⟨ts, hts⟩ : ∃ ts, List.Forall₂ (TreeAt entries) (List.range' 0 entries.length) ts :=
      exists_forall₂ fun i hi => htrees i (by simpa using hi)
    have hlinked : Linked entries.length 0 entries ts :=
      (linked_iff entries List.drop_zero).mpr ⟨fun k entry _ => hafter k entry, hts⟩
    have hhead : ts.head? = some t := by
      rw [List.head?_eq_getElem?]
      refine (getElem?_iff_treeAt hts (Nat.le_refl 0) ?_ t).mpr htree
      rw [Nat.zero_add]
      exact List.length_pos_iff.mpr hne
    refine ⟨hversion, _, (readFrom_iff (nodesOf doc) _ (Nat.zero_add _).symm).mpr
      ⟨entries, ts, hsaid, ?_, hnodup, rfl⟩, ?_⟩
    · rwa [hsaid.length_eq]
    · rw [hsaid.length_eq]
      exact rootOf_stateOf.mpr ⟨hall, hhead⟩

/-! ### What the tree depends on -/

theorem Says.unique {R : Registry} {v : Json} {a b : Entry} (ha : Says R v a) (hb : Says R v b) :
    a = b := by
  obtain ⟨la, hla, hta⟩ := ha.token
  obtain ⟨lb, hlb, htb⟩ := hb.token
  obtain rfl := Except.ok.inj (hla.symm.trans hlb)
  have hshape : a.shape = b.shape := Option.some.inj (ha.kind.symm.trans hb.kind)
  have hchildren : a.children = b.children := by
    refine (List.map_inj_right fun i j h => ?_).mp (ha.children.symm.trans hb.children)
    exact Int.ofNat.inj (Option.some.inj h)
  obtain ⟨shape, token, children⟩ := a
  obtain ⟨shape', token', children'⟩ := b
  simp only at hshape hta htb hchildren
  rw [hshape, hta, htb, hchildren]

theorem Describes.unique {R : Registry} {doc : Json} {as bs : List Entry}
    (ha : Describes R doc as) (hb : Describes R doc bs) : as = bs :=
  forall₂_unique (fun _ _ _ _ h h' => h.unique h') ha.nodes hb.nodes

/-- There is a tree at each place when each builder gets what it asks for. -/
theorem allAccepted_iff {entries : List Entry} :
    AllAccepted entries ↔ ∀ i < entries.length, ∃ t, TreeAt entries i t := by
  constructor
  · intro h i hi
    obtain ⟨cs, hcs, haccepts⟩ := h i entries[i] (List.getElem?_eq_getElem hi)
    obtain ⟨t, ht⟩ := exists_build_iff.mpr haccepts
    exact ⟨t, treeAt_iff.mpr ⟨entries[i], cs, List.getElem?_eq_getElem hi, hcs, ht⟩⟩
  · intro h i entry hentry
    obtain ⟨t, ht⟩ := h i (List.getElem?_eq_some_iff.mp hentry).1
    obtain ⟨entry', cs, hentry', hcs, hbuild⟩ := treeAt_iff.mp ht
    obtain rfl := Option.some.inj (hentry.symm.trans hentry')
    exact ⟨cs, hcs, exists_build_iff.mp ⟨t, hbuild⟩⟩

/-- **What is read is what the builders make of the outline** that the document unfolds to. -/
theorem ofJson_iff_of_unfolds {R : Registry} {doc : Json} {entries : List Entry}
    (h : Describes R doc entries) {o : Outline} {us : List Nat} (ho : Unfolds entries [0] [o] us)
    (t : Expr) : ofJson R doc = .ok t ↔ o.build = .ok t := by
  rw [ofJson_iff]
  constructor
  · rintro ⟨entries', h', -, o', us', ho', ht⟩
    obtain rfl := h.unique h'
    obtain rfl := (List.cons.inj (ho.unique ho').1).1
    exact ht
  · intro ht
    have hall : Outline.buildAll [o] = .ok [t] := buildAll_cons.mpr ⟨t, [], ht, rfl, rfl⟩
    refine ⟨entries, h, fun i hi => exists_treeAt_of_mem ho hall i ?_, o, us, ho, ht⟩
    exact (h.arranged.visits_perm ho).mem_iff.mpr (List.mem_range.mpr hi)

/-- The bytes hold the document, which may be compressed. -/
def Holds (Z : Compression) (bs : Bytes) (doc : Json) : Prop :=
  ∃ text, plain Z bs = .ok text ∧ Json.read? text = some doc

variable {Z : Compression}

theorem Holds.decode_eq {bs : Bytes} {doc : Json} (h : Holds Z bs doc) (R : Registry) :
    decode Z R bs = ofJson R doc := by
  obtain ⟨text, hplain, hread⟩ := h
  rw [decode, hplain]
  simp only [bind, Except.bind, hread]

/-- **A document is read exactly when it describes a tree.**  What is read is the tree that it unfolds
to from the first node; every node is in it once, and how the others are numbered does not matter. -/
theorem decode_iff_describes_tree (R : Registry) {bs : Bytes} {doc : Json} (h : Holds Z bs doc) :
    ((∃ t, decode Z R bs = .ok t) ↔ ∃ entries, Describes R doc entries ∧ AllAccepted entries) ∧
    (∀ entries, Describes R doc entries → ∃ o us, Unfolds entries [0] [o] us ∧
      us.Perm (List.range entries.length) ∧ ∀ t, decode Z R bs = .ok t ↔ o.build = .ok t) ∧
    (∀ t, decode Z R bs = .ok t → Expr.count (some t) = (nodesOf doc).length) ∧
    ∀ (f : Nat → Nat) (bs' : Bytes) (doc' : Json) (entries entries' : List Entry),
      Holds Z bs' doc' → Describes R doc entries → Describes R doc' entries' →
      f 0 = 0 → Renumbers f entries entries' →
      ∀ t, decode Z R bs = .ok t ↔ decode Z R bs' = .ok t := by
  rw [h.decode_eq R]
  refine ⟨?_, ?_, ?_, ?_⟩
  · simp only [allAccepted_iff]
    constructor
    · rintro ⟨t, ht⟩
      obtain ⟨entries, hdescribes, htrees, -⟩ := ofJson_iff.mp ht
      exact ⟨entries, hdescribes, htrees⟩
    · rintro ⟨entries, hdescribes, htrees⟩
      obtain ⟨t, ht⟩ := htrees 0 hdescribes.arranged.pos
      exact ⟨t, ofJson_iff.mpr ⟨entries, hdescribes, htrees, ht⟩⟩
  · intro entries hdescribes
    obtain ⟨o, us, ho⟩ := hdescribes.arranged.exists_unfolds hdescribes.arranged.pos
    exact ⟨o, us, ho, hdescribes.arranged.visits_perm ho, ofJson_iff_of_unfolds hdescribes ho⟩
  · intro t ht
    obtain ⟨entries, hdescribes, -, o, us, ho, hbuild⟩ := ofJson_iff.mp ht
    have hsizes := ho.sizes_eq (buildAll_cons.mpr ⟨t, [], hbuild, rfl, rfl⟩)
    rw [count_some, hdescribes.nodes.length_eq, ← List.length_range (n := entries.length),
      ← (hdescribes.arranged.visits_perm ho).length_eq, ← hsizes]
    exact (Nat.add_zero t.size).symm
  · intro f bs' doc' entries entries' h' hdescribes hdescribes' hzero hf t
    obtain ⟨o, us, ho⟩ := hdescribes.arranged.exists_unfolds hdescribes.arranged.pos
    have ho' := ho.renumber hf
    rw [List.map_singleton, hzero] at ho'
    rw [h'.decode_eq R, ofJson_iff_of_unfolds hdescribes ho, ofJson_iff_of_unfolds hdescribes' ho']

/-! ### A difference in two orders -/

def docOf (rows : List Row) : Json :=
  .object [("version", .ofInt version.toInt),
    ("nodes", .array (rows.map fun r => r.reread.toJson))]

theorem holds_ofRows (Z : Compression) (rows : List Row) : Holds Z (ofRows rows) (docOf rows) :=
  ⟨ofRows rows, plain_of_not_isFrame Z (isFrame_ofRows rows), read?_ofRows rows⟩

theorem describes_docOf {R : Registry} {rows : List Row} {entries : List Entry}
    (hrows : List.Forall₂ (fun r entry => Says R r.reread.toJson entry) rows entries)
    (harranged : Arranged entries) : Describes R (docOf rows) entries :=
  ⟨rfl, List.forall₂_map_left_iff.mpr hrows, harranged⟩

theorem says_toJson {R : Registry} {r : Row} {shape : Shape} {literal : Literal}
    (hkind : R.builder? (Json.reread r.kind) = some shape) (htype : Json.reread r.type ≠ [])
    (hliteral : literalOf (TokenType.ofName (Json.reread r.type)) (Json.reread r.lexeme) =
      .ok literal) :
    Says R r.reread.toJson ⟨shape,
      ⟨TokenType.ofName (Json.reread r.type), Json.reread r.lexeme, literal, r.pos⟩, r.children⟩ := by
  have hrow := readRow_toJson r.reread
  refine ⟨⟨_, rfl⟩, by rw [hrow]; exact hkind, by rw [hrow]; exact htype,
    ⟨literal, by rw [hrow]; exact hliteral, by rw [hrow]; rfl⟩, ?_⟩
  rw [hrow, List.map_map]
  exact List.map_congr_left fun j _ => Json.whole?_ofInt j

/-- The conditions on the references, in a form that can be decided. -/
theorem arranged_of_forall_lt {entries : List Entry} (hne : entries ≠ [])
    (hafter : ∀ (i : Nat) (hi : i < entries.length), ∀ j ∈ (entries.get ⟨i, hi⟩).children,
      i < j ∧ j < entries.length)
    (honce : ∀ j < entries.length, 0 < j → (entries.flatMap Entry.children).count j = 1) :
    Arranged entries := by
  refine ⟨hne, fun i entry hentry => ?_, fun j hpos hj => honce j hj hpos⟩
  obtain ⟨hi, rfl⟩ := List.getElem?_eq_some_iff.mp hentry
  exact hafter i hi

def minusRow (children : List Nat) : Row := ⟨"arithmetic", "-", "-", ⟨1, 3⟩, children⟩

def minusEntry (children : List Nat) : Entry :=
  ⟨.binary .arithmetic, ⟨.op .minus, "-", .none, ⟨1, 3⟩⟩, children⟩

def nameRow (name : Bytes) (column : Int64) : Row := ⟨"ident", "identifier", name, ⟨1, column⟩, []⟩

def nameEntry (name : Bytes) (column : Int64) : Entry :=
  ⟨.ident, ⟨.identifier, name, .none, ⟨1, column⟩⟩, []⟩

theorem says_minusRow (children : List Nat) :
    Says Registry.standard (minusRow children).reread.toJson (minusEntry children) := by
  have hkind : Registry.standard.builder? (Json.reread "arithmetic") =
      some (.binary .arithmetic) := by decide
  have htype : Json.reread (Bytes.of "-") ≠ [] := by decide
  exact says_toJson (r := minusRow children) hkind htype rfl

theorem says_nameRow {name : Bytes} (hname : Json.reread name = name) (column : Int64) :
    Says Registry.standard (nameRow name column).reread.toJson (nameEntry name column) := by
  have hkind : Registry.standard.builder? (Json.reread "ident") = some .ident := by decide
  have htype : Json.reread (Bytes.of "identifier") ≠ [] := by decide
  have hsaid := says_toJson (r := nameRow name column) hkind htype rfl
  have hlexeme : Json.reread (nameRow name column).lexeme = name := hname
  rwa [hlexeme] at hsaid

/-- **The operands of `a - b` may stand in either order**: both documents describe the same tree. -/
theorem decode_difference :
    ∃ t, decode Frame.raw Registry.standard
        (ofRows [minusRow [1, 2], nameRow "a" 1, nameRow "b" 5]) = .ok t ∧
      decode Frame.raw Registry.standard
        (ofRows [minusRow [2, 1], nameRow "b" 5, nameRow "a" 1]) = .ok t ∧
      Expr.count (some t) = 3 := by
  have ha := says_nameRow (by decide : Json.reread "a" = Bytes.of "a") 1
  have hb := says_nameRow (by decide : Json.reread "b" = Bytes.of "b") 5
  have hfirst : Describes Registry.standard
      (docOf [minusRow [1, 2], nameRow "a" 1, nameRow "b" 5])
      [minusEntry [1, 2], nameEntry "a" 1, nameEntry "b" 5] :=
    describes_docOf (.cons (says_minusRow _) (.cons ha (.cons hb .nil)))
      (arranged_of_forall_lt (by decide) (by decide) (by decide))
  have hsecond : Describes Registry.standard
      (docOf [minusRow [2, 1], nameRow "b" 5, nameRow "a" 1])
      [minusEntry [2, 1], nameEntry "b" 5, nameEntry "a" 1] :=
    describes_docOf (.cons (says_minusRow _) (.cons hb (.cons ha .nil)))
      (arranged_of_forall_lt (by decide) (by decide) (by decide))
  have hrenumbers : Renumbers (fun i => if i = 0 then 0 else 3 - i)
      [minusEntry [1, 2], nameEntry "a" 1, nameEntry "b" 5]
      [minusEntry [2, 1], nameEntry "b" 5, nameEntry "a" 1] := by
    intro i entry hentry
    obtain ⟨hi, rfl⟩ := List.getElem?_eq_some_iff.mp hentry
    revert i
    decide
  obtain ⟨-, hunfolds, hcount, hrenumber⟩ := decode_iff_describes_tree Registry.standard
    (holds_ofRows Frame.raw [minusRow [1, 2], nameRow "a" 1, nameRow "b" 5])
  obtain ⟨o, us, ho, -, hbuild⟩ := hunfolds _ hfirst
  obtain ⟨ho, -⟩ := ho.unique (.cons rfl (.cons rfl .nil (.cons rfl .nil .nil)) .nil)
  obtain rfl := (List.cons.inj ho).1
  have ht := (hbuild _).mpr rfl
  exact ⟨_, ht, (hrenumber _ _ _ _ _ (holds_ofRows _ _) hfirst hsecond rfl hrenumbers _).mp ht,
    hcount _ ht⟩

end Fixity.Document
