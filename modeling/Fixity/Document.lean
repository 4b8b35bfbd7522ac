import Fixity.Decimal.Numeral
import Fixity.Document.Kind
import Fixity.Expr.Walk
import Fixity.Frame
import Fixity.Json.Read

/-!
# Tree documents

A tree is kept as a JSON document that lists its nodes level by level, the root first.  Each node
names its children by their places in the list, and children always come after their parent:

    {"version":1,"nodes":[
      {"kind":"comparison","type":">","lexeme":">","line":1,"column":3,"children":[1,2]},
      {"kind":"ident","type":"identifier","lexeme":"a","line":1,"column":1,"children":[]},
      {"kind":"ident","type":"identifier","lexeme":"b","line":1,"column":5,"children":[]}
    ]}

However deep the tree is, the document nests no deeper than this.  A document may be compressed, in
whatever way (`Compression`).

Reading works from the last node to the first, so that every child is there before its parent.
-/

namespace Fixity

/-! ### Errors -/

/-- What is wrong with one node of a document. -/
inductive RowFault where
  | notObject
  | unknownKind (name : Bytes)
  | noType
  | badNumber (lexeme : Bytes)
  | badString (lexeme : Bytes)
  | childNotIndex
  | childOutOfRange (child : Int)
  | twoParents (child : Nat)
  | arity (want got : Nat)
  | noCallee
  | notSubscript
  | refused (error : NodeError)
deriving DecidableEq

/-- Why a tree is not written or a document not read. -/
inductive DocumentError where
  | noRoot
  | unknownShape (shape : Shape)
  | damaged
  | notJson
  | version (v : Int64)
  | noNodes
  | row (index : Nat) (fault : RowFault)
  | unreachable (index : Nat)
deriving DecidableEq

def invalidDocument (detail : Bytes) : Bytes := "invalid tree document: " ++ detail

def RowFault.message : RowFault → Bytes
  | notObject => invalidDocument "node is not an object"
  | unknownKind name => "unknown node kind: " ++ Text.quote name
  | noType => invalidDocument "node has no token type"
  | badNumber lexeme => invalidDocument ("bad number " ++ Text.quote lexeme)
  | badString lexeme => invalidDocument ("bad string " ++ Text.quote lexeme)
  | childNotIndex => invalidDocument "child index: ..."
  | childOutOfRange child =>
    invalidDocument ("child index " ++ Bytes.ofInt child ++ " out of range")
  | twoParents child => invalidDocument ("node " ++ Bytes.ofNat child ++ " has two parents")
  | arity want got =>
    invalidDocument ("expect " ++ Bytes.ofNat want ++ " children, got " ++ Bytes.ofNat got)
  | noCallee => invalidDocument "call has no callee"
  | notSubscript => "invalid tree document"
  | refused error => error.message

def DocumentError.message : DocumentError → Bytes
  | noRoot => invalidDocument "no root"
  | unknownShape .subscript => "unknown node kind: *main.subscriptExpr"
  | unknownShape shape => "unknown node kind: " ++ shape.typeName
  | damaged => "decompress tree: ..."
  | notJson => invalidDocument "..."
  | version v => invalidDocument ("unsupported version " ++ Bytes.ofInt v.toInt)
  | noNodes => invalidDocument "no nodes"
  | row index fault => "node " ++ Bytes.ofNat index ++ ": " ++ fault.message
  | unreachable index =>
    invalidDocument ("node " ++ Bytes.ofNat index ++ " is not reachable from the root")

namespace Document

def version : Int64 := 1

/-! ### Writing -/

/-- The nodes in the queue and below them, level by level, each with the places of its children.
The first place that is still free is `next`. -/
def layout (next : Nat) : List Expr → List (Expr × List Nat)
  | [] => []
  | e :: queue =>
    let n := e.children.length
    (e, List.range' next n) :: layout (next + n) (queue ++ e.children)
termination_by queue => Expr.sizes queue
decreasing_by
  have := Expr.sizes_children e
  simp only [Expr.sizes_append, Expr.sizes]
  omega

structure Row where
  kind : Bytes
  type : Bytes
  lexeme : Bytes
  pos : Pos
  children : List Nat
deriving DecidableEq

def rows (R : Registry) (root : Expr) : Except DocumentError (List Row) :=
  (layout 1 [root]).mapM fun (e, children) =>
    match R.kindOf? e.shape with
    | none => .error (.unknownShape e.shape)
    | some kind => .ok ⟨kind, e.token.type.name, e.token.lexeme, e.token.pos, children⟩

def Row.toJson (r : Row) : Json :=
  .object [("kind", .string r.kind), ("type", .string r.type), ("lexeme", .string r.lexeme),
    ("line", .ofInt r.pos.line.toInt), ("column", .ofInt r.pos.column.toInt),
    ("children", .array (r.children.map fun (i : Nat) => .ofInt i))]

def ofRows (rows : List Row) : Bytes :=
  (Json.object [("version", .ofInt version.toInt), ("nodes", .array (rows.map Row.toJson))]).write

def encode (R : Registry) (root : Option Expr) : Except DocumentError Bytes :=
  match root with
  | none => .error .noRoot
  | some root => (rows R root).map ofRows

def encodeCompressed (Z : Compression) (R : Registry) (root : Option Expr) :
    Except DocumentError Bytes :=
  (encode R root).map Z.compress

/-! ### Reading -/

/-- The value of a token, recomputed from its lexeme. -/
def literalOf (type : TokenType) (lexeme : Bytes) : Except RowFault Literal :=
  match type with
  | .number =>
    match Double.read? lexeme with
    | some bits => .ok (.number bits)
    | none => .error (.badNumber lexeme)
  | .string =>
    match lexeme with
    | 34 :: rest =>
      if rest.getLast? = some 34 then .ok (.string rest.dropLast) else .error (.badString lexeme)
    | _ => .error (.badString lexeme)
  | .trueWord => .ok (.bool true)
  | .falseWord => .ok (.bool false)
  | _ => .ok .none

/-- Looks up a member and goes on with what it holds and the remaining look-ups. -/
def lookUp {α : Type} (name : Bytes) (of : Option Json → α) : StateM Json.Members α := fun m =>
  let found := m.find name
  (of found.1, found.2)

/-- What a node of a document says, before any of it is checked. -/
structure RawRow where
  kind : Bytes
  type : Bytes
  lexeme : Bytes
  pos : Pos
  children : List Json

/-- Reads the members of a node: what is missing or of another sort is empty or zero. -/
def readRow (v : Json) : RawRow :=
  let text (v : Option Json) : Bytes := (v.map Json.content).getD []
  let word (v : Option Json) : Int64 := (v.bind Json.toInt?).getD 0
  let reading : StateM Json.Members RawRow := do
    let kind ← lookUp "kind" text
    let type ← lookUp "type" text
    let lexeme ← lookUp "lexeme" text
    let line ← lookUp "line" word
    let column ← lookUp "column" word
    let children ← lookUp "children" fun v => (v.map Json.items).getD []
    return ⟨kind, type, lexeme, ⟨line, column⟩, children⟩
  (reading (Json.Members.of v)).1

def tokenOf (r : RawRow) : Except RowFault Token := do
  if r.type.isEmpty then throw .noType
  let type := TokenType.ofName r.type
  let literal ← literalOf type r.lexeme
  return ⟨type, r.lexeme, literal, r.pos⟩

def build (shape : Shape) (t : Token) (children : List Expr) : Except RowFault Expr :=
  match shape, children with
  | .literal, [] => (Expr.newLiteral t).mapError .refused
  | .literal, es => .error (.arity 0 es.length)
  | .ident, [] => (Expr.newIdent t).mapError .refused
  | .ident, es => .error (.arity 0 es.length)
  | .unary, [e] => (Expr.newUnary t e).mapError .refused
  | .unary, es => .error (.arity 1 es.length)
  | .binary c, [l, r] => (Expr.newBinary c t l r).mapError .refused
  | .binary _, es => .error (.arity 2 es.length)
  | .call, f :: args => (Expr.newCall t f (args.map some)).mapError .refused
  | .call, [] => .error .noCallee
  | .subscript, [e, i] => .ok (Expr.newSubscript t e i)
  | .subscript, _ => .error .notSubscript

/-- The trees of the nodes read so far, from the last node of the document on, and which of all
nodes have a parent. -/
structure Built where
  trees : Array Expr
  owned : Array Bool

/-- What is wrong with a reference to no node after the one that makes it. -/
def outOfRange (child : Int) : RowFault :=
  if (word? child).isSome then .childOutOfRange child else .childNotIndex

/-- Takes a tree that was built as a child of node `i`, one of `n`. -/
def adopt (n i : Nat) (b : Built) (ref : Json) : Except RowFault (Expr × Built) :=
  match ref.whole? with
  | none => .error .childNotIndex
  | some child =>
    let j := child.toNat
    if child ≤ i ∨ n ≤ j then .error (outOfRange child)
    else match b.trees[n - 1 - j]? with
      | none => .error (outOfRange child)
      | some e =>
        if b.owned[j]?.getD false then .error (.twoParents j)
        else .ok (e, { b with owned := b.owned.setIfInBounds j true })

def adoptAll (n i : Nat) (taken : List Expr) (b : Built) : List Json →
    Except RowFault (List Expr × Built)
  | [] => .ok (taken.reverse, b)
  | ref :: refs => do
    let (e, b) ← adopt n i b ref
    adoptAll n i (e :: taken) b refs

/-- Builds node `i` of `n` from those after it. -/
def readNode (R : Registry) (n i : Nat) (b : Built) (v : Json) : Except RowFault Built :=
  match v with
  | .object _ => do
    let r := readRow v
    match R.builder? r.kind with
    | none => throw (.unknownKind r.kind)
    | some shape =>
      let t ← tokenOf r
      let (children, b) ← adoptAll n i [] b r.children
      let e ← build shape t children
      return { b with trees := b.trees.push e }
  | _ => .error .notObject

def readNodes (R : Registry) (nodes : List Json) : Except DocumentError Built :=
  let n := nodes.length
  nodes.zipIdx.reverse.foldlM (fun b (v, i) => (readNode R n i b v).mapError (.row i))
    ⟨#[], Array.replicate n false⟩

def ofJson (R : Registry) (doc : Json) : Except DocumentError Expr := do
  let found := (Json.Members.of doc).find "version"
  let v := (found.1.bind Json.toInt?).getD 0
  if v ≠ version then throw (.version v)
  let nodes := ((found.2.find "nodes").1.map Json.items).getD []
  let b ← readNodes R nodes
  match b.owned.toList.zipIdx.find? fun (owned, i) => i ≠ 0 && !owned with
  | some (_, i) => throw (.unreachable i)
  | none =>
    match b.trees.back? with
    | none => throw .noNodes
    | some root => return root

/-- The text of a document, decompressed if need be. -/
def plain (Z : Compression) (bs : Bytes) : Except DocumentError Bytes :=
  if Frame.isFrame bs then
    match Z.decompress? bs with
    | none => .error .damaged
    | some bs => .ok bs
  else .ok bs

def decode (Z : Compression) (R : Registry) (bs : Bytes) : Except DocumentError Expr := do
  match Json.read? (← plain Z bs) with
  | none => throw .notJson
  | some doc => ofJson R doc

end Document

end Fixity
