import Fixity.Text.Folded
import Fixity.Text.Quoted
import Fixity.Token

/-!
# Operator tables

A table says how tightly each operator binds and how operators of one precedence group.  It is
built from drafts of its entries, and is only built when

* no type has two entries of the same arity,
* every precedence lies strictly between those of nothing at all and of a call,
* every entry says which node it builds,
* binary operators of the same precedence group in the same way, and
* no prefix operator has the precedence of a binary one.

A table forgets the order of the drafts: look-ups and listings do not show it.  It does not look into
the builders of its entries, so they are of any two types.  In the grammar of expressions the builder of
a binary operator is the category of the nodes that it builds, and all prefix operators have one builder.
-/

namespace Fixity

/-! ### Associativity -/

inductive Assoc where
  | left
  | right
  | none
  /-- A code that names no way of grouping.  Such operators are rendered like `none` and parsed
  like `left`. -/
  | other (code : Int) (unnamed : code < 0 ∨ 2 < code)
deriving DecidableEq

namespace Assoc

def code : Assoc → Int
  | left => 0
  | right => 1
  | none => 2
  | other code _ => code

def ofCode (code : Int) : Assoc :=
  if h : code < 0 ∨ 2 < code then other code h
  else if code = 0 then left
  else if code = 1 then right
  else none

def name : Assoc → Bytes
  | left => "left"
  | right => "right"
  | none => "none"
  | other code _ => "Assoc(" ++ Bytes.ofInt code ++ ")"

def ofWord? (word : Bytes) : Option Assoc :=
  let w := Text.foldedWord word
  if w = Bytes.of "left" then some left
  else if w = Bytes.of "right" then some right
  else if w = Bytes.of "none" ∨ w = Bytes.of "nonassoc" then some none
  else Option.none

@[simp] theorem code_ofCode (c : Int) : (ofCode c).code = c := by
  unfold ofCode
  split
  · rfl
  · split
    · simp_all [code]
    · split
      · simp_all [code]
      · simp only [code]; omega

@[simp] theorem ofCode_code (a : Assoc) : ofCode a.code = a := by
  cases a with
  | other code h => simp [ofCode, Assoc.code, h]
  | _ => decide

end Assoc

def Assoc.unknownMessage (word : Bytes) : Bytes := "unknown associativity " ++ Text.quote word

/-! ### Precedence -/

namespace Precedence

/-- The precedence of operators that a table does not have. -/
def lowest : Int := 0

/-- The precedence of calls; every entry of a table is below it. -/
def call : Int := 1000

def primary : Int := 1001

end Precedence

structure Binding where
  precedence : Int
  assoc : Assoc
deriving DecidableEq

/-! ### Entries -/

/-- An operator that joins two operands, with the builder of its nodes. -/
structure BinaryOp (β : Type := Category) where
  type : TokenType
  precedence : Int
  assoc : Assoc
  builder : β
deriving DecidableEq

/-- An operator that stands before its operand. -/
structure UnaryOp (γ : Type := Unit) where
  type : TokenType
  precedence : Int
  builder : γ
deriving DecidableEq

/-- A proposed binary entry, which may lack its builder. -/
structure BinaryDraft (β : Type := Category) where
  type : TokenType
  precedence : Int
  assoc : Assoc
  builder : Option β
deriving DecidableEq

structure UnaryDraft (γ : Type := Unit) where
  type : TokenType
  precedence : Int
  builder : Option γ
deriving DecidableEq

section

variable {β γ : Type}

def BinaryOp.draft (op : BinaryOp β) : BinaryDraft β :=
  ⟨op.type, op.precedence, op.assoc, some op.builder⟩

def UnaryOp.draft (op : UnaryOp γ) : UnaryDraft γ := ⟨op.type, op.precedence, some op.builder⟩

end

inductive Arity where
  | binary
  | unary
deriving DecidableEq, Repr

def Arity.name : Arity → Bytes
  | binary => "binary"
  | unary => "unary"

inductive TableError where
  | definedTwice (arity : Arity) (type : TokenType)
  | outside (type : TokenType) (precedence : Int)
  | noBuilder (arity : Arity) (type : TokenType)
  | mixed (type : TokenType) (assoc : Assoc) (other : TokenType) (otherAssoc : Assoc)
  | shared (type : TokenType) (precedence : Int) (binary : TokenType)
deriving DecidableEq

namespace TableError

def detail : TableError → Bytes
  | definedTwice arity type =>
    arity.name ++ " operator '" ++ type.name ++ "' is defined twice"
  | outside type precedence =>
    "precedence " ++ Bytes.ofInt precedence ++ " of '" ++ type.name ++ "' is outside (" ++
      Bytes.ofInt Precedence.lowest ++ ", " ++ Bytes.ofInt Precedence.call ++ ")"
  | noBuilder arity type =>
    arity.name ++ " operator '" ++ type.name ++ "' has no builder"
  | mixed type assoc other otherAssoc =>
    "'" ++ type.name ++ "' is " ++ assoc.name ++ "-associative but '" ++ other.name ++
      "' at the same precedence is " ++ otherAssoc.name ++ "-associative"
  | shared type precedence binary =>
    "unary '" ++ type.name ++ "' shares precedence " ++ Bytes.ofInt precedence ++
      " with binary '" ++ binary.name ++ "'"

def message (e : TableError) : Bytes := "invalid operator table: " ++ e.detail

end TableError

/-! ### Tables -/

/-- The operators of a grammar and how they bind. -/
structure Table (β : Type := Category) (γ : Type := Unit) where
  binary : List (BinaryOp β)
  unary : List (UnaryOp γ)
deriving DecidableEq

namespace Table

section

variable {β γ : Type}

def isLevel (precedence : Int) : Bool :=
  Precedence.lowest < precedence && precedence < Precedence.call

/-- Accepts one more binary entry after those in `done`, of which the last accepted comes first. -/
def addBinary (done : List (BinaryOp β)) (d : BinaryDraft β) :
    Except TableError (List (BinaryOp β)) :=
  if done.any (·.type = d.type) then .error (.definedTwice .binary d.type)
  else if !isLevel d.precedence then .error (.outside d.type d.precedence)
  else match d.builder with
    | none => .error (.noBuilder .binary d.type)
    | some builder =>
      let accepted := ⟨d.type, d.precedence, d.assoc, builder⟩ :: done
      match done.find? (·.precedence = d.precedence) with
      | some other =>
        if other.assoc = d.assoc then .ok accepted
        else .error (.mixed d.type d.assoc other.type other.assoc)
      | none => .ok accepted

/-- Accepts one more prefix entry after those in `done`, beside the binary ones. -/
def addUnary (binary : List (BinaryOp β)) (done : List (UnaryOp γ)) (d : UnaryDraft γ) :
    Except TableError (List (UnaryOp γ)) :=
  if done.any (·.type = d.type) then .error (.definedTwice .unary d.type)
  else if !isLevel d.precedence then .error (.outside d.type d.precedence)
  else match d.builder with
    | none => .error (.noBuilder .unary d.type)
    | some builder =>
      match binary.find? (·.precedence = d.precedence) with
      | some other => .error (.shared d.type d.precedence other.type)
      | none => .ok (⟨d.type, d.precedence, builder⟩ :: done)

def ofDrafts (binary : List (BinaryDraft β)) (unary : List (UnaryDraft γ)) :
    Except TableError (Table β γ) := do
  let binary ← binary.foldlM addBinary []
  let unary ← unary.foldlM (addUnary binary) []
  return ⟨binary.reverse, unary.reverse⟩

/-! ### Looking up -/

def binary? (t : Table β γ) (type : TokenType) : Option (BinaryOp β) :=
  t.binary.find? (·.type = type)

def unary? (t : Table β γ) (type : TokenType) : Option (UnaryOp γ) :=
  t.unary.find? (·.type = type)

/-- The binary operator of a type.  One that the table does not have binds loosest of all and does
not associate, so that it is never rendered ambiguously; it has no builder. -/
def operatorOf (t : Table β γ) (type : TokenType) : BinaryDraft β :=
  match t.binary? type with
  | some op => op.draft
  | none => ⟨type, Precedence.lowest, .none, none⟩

/-- How a binary operator binds, whether the table has it or not. -/
def binding (t : Table β γ) (type : TokenType) : Binding :=
  ⟨(t.operatorOf type).precedence, (t.operatorOf type).assoc⟩

/-! ### Listing -/

def listedBefore (a b : Int × Bytes) : Bool :=
  a.1 < b.1 || (a.1 == b.1 && !Bytes.before b.2 a.2)

def binaryOperators (t : Table β γ) : List (BinaryOp β) :=
  t.binary.mergeSort fun a b => listedBefore (a.precedence, a.type.name) (b.precedence, b.type.name)

def unaryOperators (t : Table β γ) : List (UnaryOp γ) :=
  t.unary.mergeSort fun a b => listedBefore (a.precedence, a.type.name) (b.precedence, b.type.name)

end

/-! ### The standard grammar -/

/-- The binary operators of the standard grammar, from the loosest to the tightest. -/
def standardBinary : List BinaryOp :=
  [⟨.op .or, 1, .left, .logical⟩,
   ⟨.op .and, 2, .left, .logical⟩,
   ⟨.op .pipe, 3, .left, .bitwise⟩,
   ⟨.op .caret, 4, .left, .bitwise⟩,
   ⟨.op .ampersand, 5, .left, .bitwise⟩,
   ⟨.op .equalEqual, 6, .left, .comparison⟩,
   ⟨.op .bangEqual, 6, .left, .comparison⟩,
   ⟨.op .less, 7, .none, .comparison⟩,
   ⟨.op .lessEqual, 7, .none, .comparison⟩,
   ⟨.op .greater, 7, .none, .comparison⟩,
   ⟨.op .greaterEqual, 7, .none, .comparison⟩,
   ⟨.op .lessLess, 8, .left, .bitwise⟩,
   ⟨.op .greaterGreater, 8, .left, .bitwise⟩,
   ⟨.op .plus, 9, .left, .arithmetic⟩,
   ⟨.op .minus, 9, .left, .arithmetic⟩,
   ⟨.op .star, 10, .left, .arithmetic⟩,
   ⟨.op .slash, 10, .left, .arithmetic⟩,
   ⟨.op .percent, 10, .left, .arithmetic⟩,
   ⟨.op .starStar, 11, .right, .arithmetic⟩]

def standardUnary : List UnaryOp :=
  [⟨.op .minus, 12, ()⟩, ⟨.op .bang, 12, ()⟩, ⟨.op .tilde, 12, ()⟩]

def standard : Table := ⟨standardBinary, standardUnary⟩

theorem ofDrafts_standard :
    ofDrafts (standardBinary.map BinaryOp.draft) (standardUnary.map UnaryOp.draft) =
      .ok standard := by
  rfl

end Table

end Fixity
