import Fixity.Table

/-!
# Configurations

A configuration lists the operators whose binding differs from the standard grammar.  Each override
names an operator by its symbol and arity and may change its precedence and its associativity; what
it leaves out stays as it is, and of several overrides the last one counts.
-/

namespace Fixity

inductive Format where
  | toml
  | yaml
deriving DecidableEq, Repr

namespace Format

def code : Format → Nat
  | toml => 0
  | yaml => 1

def ofCode? (n : Int) : Option Format :=
  if n = 0 then some toml else if n = 1 then some yaml else none

def name : Format → Bytes
  | toml => "toml"
  | yaml => "yaml"

/-- What follows the last dot (46) of the last part of a path, with the dot; nothing when there is
none.  Parts end at a slash (47). -/
def extension (path : Bytes) : Bytes :=
  let base := (path.reverse.takeWhile (· != 47)).reverse
  if base.contains 46 then 46 :: (base.reverse.takeWhile (· != 46)).reverse else []

def ofPath (path : Bytes) : Format :=
  let e := Text.folded (extension path)
  if e = Bytes.of ".yaml" ∨ e = Bytes.of ".yml" then yaml else toml

end Format

/-- A change to one operator.  A precedence of zero and an empty associativity keep what was
there. -/
structure Override where
  symbol : Bytes
  unary : Bool
  precedence : Int64
  assoc : Bytes
deriving DecidableEq, Repr

structure Config where
  grammar : Bytes
  operators : List Override
deriving DecidableEq, Repr

/-- Why a text is no configuration. -/
inductive ConfigReadError where
  | toml
  | unknownKey (key : Bytes)
  | yaml
  | unsupported
deriving DecidableEq, Repr

def ConfigReadError.message : ConfigReadError → Bytes
  | toml => "TOML parse error: ..."
  | unknownKey key => "TOML parse error: unknown key " ++ Text.quote key
  | yaml => "YAML parse error: ..."
  | unsupported => "unsupported format: unknown"

/-- Why a configuration makes no table. -/
inductive ConfigError where
  | unknownOperator (symbol : Bytes)
  | notOfArity (arity : Arity) (symbol : Bytes)
  | unknownAssoc (symbol word : Bytes)
  | unaryAssoc (symbol : Bytes)
  | table (error : TableError)
deriving DecidableEq

def ConfigError.message : ConfigError → Bytes
  | unknownOperator symbol => "unknown operator: '" ++ symbol ++ "'"
  | notOfArity arity symbol =>
    "unknown operator: '" ++ symbol ++ "' is not a " ++ arity.name ++ " operator"
  | unknownAssoc symbol word => "operator '" ++ symbol ++ "': " ++ Assoc.unknownMessage word
  | unaryAssoc symbol => "operator '" ++ symbol ++ "': prefix operators have no associativity"
  | table error => error.message

namespace Override

def precedenceOr (o : Override) (was : Int) : Int :=
  if o.precedence = 0 then was else o.precedence.toInt

def assocOr (o : Override) (was : Assoc) : Except ConfigError Assoc :=
  if o.assoc.isEmpty then .ok was
  else match Assoc.ofWord? o.assoc with
    | some assoc => .ok assoc
    | none => .error (.unknownAssoc o.symbol o.assoc)

def applyBinary (o : Override) (type : TokenType) :
    List BinaryOp → Except ConfigError (List BinaryOp)
  | [] => .error (.notOfArity .binary o.symbol)
  | op :: ops =>
    if op.type = type then do
      let assoc ← o.assocOr op.assoc
      return { op with precedence := o.precedenceOr op.precedence, assoc } :: ops
    else (applyBinary o type ops).map (op :: ·)

def applyUnary (o : Override) (type : TokenType) :
    List UnaryOp → Except ConfigError (List UnaryOp)
  | [] => .error (.notOfArity .unary o.symbol)
  | op :: ops =>
    if op.type = type then
      .ok ({ op with precedence := o.precedenceOr op.precedence } :: ops)
    else (applyUnary o type ops).map (op :: ·)

def apply (t : Table) (o : Override) : Except ConfigError Table :=
  match Operator.ofSymbol? o.symbol with
  | none => .error (.unknownOperator o.symbol)
  | some operator =>
    if o.unary then
      if o.assoc.isEmpty then
        (o.applyUnary (.op operator) t.unary).map fun unary => { t with unary }
      else .error (.unaryAssoc o.symbol)
    else (o.applyBinary (.op operator) t.binary).map fun binary => { t with binary }

end Override

/-- The table of a configuration: the standard entries with the overrides applied in order.  Only
the outcome has to be consistent. -/
def Config.table (c : Config) : Except ConfigError Table := do
  let t ← c.operators.foldlM Override.apply Table.standard
  (Table.ofDrafts (t.binary.map BinaryOp.draft) (t.unary.map UnaryOp.draft)).mapError .table

end Fixity
