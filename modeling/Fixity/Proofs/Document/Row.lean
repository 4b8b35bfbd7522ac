import Fixity.Document
import Fixity.Proofs.Json.Read

/-!
# Rows of a document

The text of a document is read as the rows it was written from, except that their strings are what
`Json.reread` makes of them (`decode_ofRows`).  What is read from one row is what the row says
(`readRow_toJson`).
-/

namespace Fixity.Document

def Row.reread (r : Row) : Row :=
  { r with kind := Json.reread r.kind, type := Json.reread r.type, lexeme := Json.reread r.lexeme }

open Json

theorem rereads_children (children : List Nat) :
    Rereads 2 (.array (children.map fun (i : Nat) => .ofInt i))
      (.array (children.map fun (i : Nat) => .ofInt i)) := by
  refine rereads_array (List.forall₂_map_left_iff.mpr (List.forall₂_map_right_iff.mpr ?_))
  exact List.forall₂_same.mpr fun i _ => rereads_ofInt i

theorem rereads_toJson (r : Row) : Rereads 3 r.toJson r.reread.toJson := by
  have hstring : ∀ s : Bytes, Rereads 2 (.string s) (.string (Json.reread s)) :=
    fun s => (rereads_string s).mono (by decide)
  have hint : ∀ i : Int, Rereads 2 (.ofInt i) (.ofInt i) :=
    fun i => (rereads_ofInt i).mono (by decide)
  refine rereads_object ?_ (List.cons_ne_nil _ _)
  exact .cons ((hstring r.kind).member (by decide)) (.cons ((hstring r.type).member (by decide))
    (.cons ((hstring r.lexeme).member (by decide)) (.cons ((hint _).member (by decide))
      (.cons ((hint _).member (by decide))
        (.cons ((rereads_children r.children).member (by decide)) .nil)))))

/-- **The text of a document is read as its rows**, with their strings as they are read. -/
theorem read?_ofRows (rows : List Row) :
    read? (ofRows rows) = some (.object [("version", .ofInt version.toInt),
      ("nodes", .array (rows.map fun r => r.reread.toJson))]) := by
  have hrows : Rereads 4 (.array (rows.map Row.toJson))
      (.array (rows.map fun r => r.reread.toJson)) := by
    refine rereads_array (List.forall₂_map_left_iff.mpr (List.forall₂_map_right_iff.mpr ?_))
    exact List.forall₂_same.mpr fun r _ => rereads_toJson r
  have hversion : Rereads 4 (.ofInt version.toInt) (.ofInt version.toInt) :=
    (rereads_ofInt _).mono (by decide)
  refine (rereads_object ?_ (List.cons_ne_nil _ _)).read? (by decide : 5 ≤ maxNesting)
  exact .cons (hversion.member (by decide)) (.cons (hrows.member (by decide)) .nil)

theorem readRow_toJson (r : Row) :
    readRow r.toJson =
      ⟨r.kind, r.type, r.lexeme, r.pos, r.children.map fun (i : Nat) => .ofInt i⟩ := by
  have hread : readRow r.toJson = ⟨r.kind, r.type, r.lexeme,
      ⟨((ofInt r.pos.line.toInt).toInt?).getD 0, ((ofInt r.pos.column.toInt).toInt?).getD 0⟩,
      r.children.map fun (i : Nat) => .ofInt i⟩ := rfl
  rw [hread, toInt?_ofInt, toInt?_ofInt]
  rfl

/-- The tree of nodes that were read: the first of them, unless another one has no parent. -/
def rootOf (b : Built) : Except DocumentError Expr :=
  match b.owned.toList.zipIdx.find? fun (owned, i) => i ≠ 0 && !owned with
  | some (_, i) => throw (.unreachable i)
  | none =>
    match b.trees.back? with
    | none => throw .noNodes
    | some root => return root

theorem plain_of_not_isFrame (Z : Compression) {bs : Bytes} (h : Frame.isFrame bs = false) :
    plain Z bs = .ok bs := by
  rw [plain, h]
  rfl

theorem isFrame_ofRows (rows : List Row) : Frame.isFrame (ofRows rows) = false := by
  rw [ofRows, write]
  rfl

/-- **Reading a document is building the nodes of its rows.** -/
theorem decode_ofRows (Z : Compression) (R : Registry) (rows : List Row) :
    decode Z R (ofRows rows) =
      readNodes R (rows.map fun r => r.reread.toJson) >>= rootOf := by
  have hfind : ∀ doc, doc = Json.object [("version", .ofInt version.toInt),
      ("nodes", .array (rows.map fun r => r.reread.toJson))] →
      ofJson R doc = readNodes R (rows.map fun r => r.reread.toJson) >>= rootOf := by
    rintro doc rfl
    rfl
  rw [decode, plain_of_not_isFrame Z (isFrame_ofRows rows)]
  simp only [bind, Except.bind, read?_ofRows]
  exact hfind _ rfl

end Fixity.Document
