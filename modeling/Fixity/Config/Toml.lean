import Fixity.Config
import Fixity.Toml.Tree

/-!
# Configurations in TOML

    grammar = "strict"

    [[operator]]
    symbol = "**"
    assoc = "left"

Keys are recognised in any case.  A value of the wrong type is refused, and so is a key that has no
place in a configuration; the first such key of the text is named.
-/

namespace Fixity.Config.Toml

open Fixity.Toml

/-- A character as one that differs from it only in case: the long s and the Kelvin sign count as
letters of the alphabet. -/
def foldKeyChar (c : Char) : Char :=
  if 'A' ≤ c ∧ c ≤ 'Z' then Char.ofNat (c.toNat + 32)
  else if c = '\u017F' then 's'
  else if c = '\u212A' then 'k'
  else c

/-- The key names the field, in any case. -/
def names (key field : Bytes) : Bool :=
  (Utf8.decode key).map foldKeyChar == Utf8.decode field

def string? : Item → Option Bytes
  | .scalar (.string s) => some s
  | _ => none

/-- An override with one of its fields set; other keys have no effect. -/
def setField? (o : Override) (key : Bytes) (v : Item) : Option Override :=
  if names key "symbol" then (string? v).map fun symbol => { o with symbol }
  else if names key "unary" then
    match v with
    | .scalar (.boolean unary) => some { o with unary }
    | _ => none
  else if names key "precedence" then
    match v with
    | .scalar (.integer precedence) => some { o with precedence }
    | _ => none
  else if names key "assoc" then (string? v).map fun assoc => { o with assoc }
  else some o

def override? : Item → Option Override
  | .table entries => entries.foldlM (fun o (key, v) => setField? o key v) ⟨[], false, 0, []⟩
  | _ => none

def overrides? : Item → Option (List Override)
  | .array items => items.mapM override?
  | .tables last before => ((last :: before).reverse.map .table).mapM override?
  | _ => none

def ofTree? (t : Tree) : Option Config :=
  t.root.foldlM (fun (c : Config) (key, v) =>
    if names key "grammar" then (string? v).map fun grammar => { c with grammar }
    else if names key "operator" then (overrides? v).map fun operators => { c with operators }
    else some c) ⟨[], []⟩

def isKnown : Key → Bool
  | [key] => names key "grammar" || names key "operator"
  | [outer, key] =>
    names outer "operator" &&
      (names key "symbol" || names key "unary" || names key "precedence" || names key "assoc")
  | _ => false

def read (bs : Bytes) : Except ConfigReadError Config :=
  match (Tree.read? bs).bind fun t => (ofTree? t).map (t, ·) with
  | none => .error .toml
  | some (t, c) =>
    match t.keys.find? fun key => !isKnown key with
    | some key => .error (.unknownKey (showKey key))
    | none => .ok c

end Fixity.Config.Toml
