import Fixity.Decimal.Word
import Fixity.Text.Quoted

/-!
# JSON values

Values of the JSON format as documents use them.  A number is the text it was written with, and the
names in an object are kept as they were written, so that both can be read leniently.

A string without quotes, backslashes and control bytes is written as it is; any other one is
written like quoted text (`Text.quote`).
-/

namespace Fixity

inductive Json where
  | null
  | bool (b : Bool)
  /-- A number by its text. -/
  | number (text : Bytes)
  | string (s : Bytes)
  | array (items : List Json)
  /-- Names, as written, with their values. -/
  | object (members : List (Bytes × Json))

namespace Json

/-! ### Writing -/

/-- The byte has to be escaped in a string: a quote, a backslash or a control. -/
def isSpecial (b : UInt8) : Bool := b == 34 || b == 92 || b < 32

def writeString (s : Bytes) : Bytes := if s.any isSpecial then Text.quote s else 34 :: (s ++ [34])

mutual

/-- The text of a value, without any white space: brackets are 91 and 93, braces 123 and 125, a
comma is 44 and a colon 58. -/
def write : Json → Bytes
  | null => "null"
  | bool true => "true"
  | bool false => "false"
  | number text => text
  | string s => writeString s
  | array items => 91 :: (writeItems items ++ [93])
  | object members => 123 :: (writeMembers members ++ [125])

def writeItems : List Json → Bytes
  | [] => []
  | [v] => v.write
  | v :: vs => v.write ++ 44 :: writeItems vs

def writeMembers : List (Bytes × Json) → Bytes
  | [] => []
  | [(name, v)] => writeString name ++ 58 :: v.write
  | (name, v) :: rest => writeString name ++ 58 :: (v.write ++ 44 :: writeMembers rest)

end

def ofInt (n : Int) : Json := number (Bytes.ofInt n)

/-! ### Reading values -/

/-- The number that decimal digits write; there must be one at least. -/
def magnitude? (digits : Bytes) : Option Nat :=
  if digits.isEmpty || !digits.all (fun b => 48 ≤ b && b ≤ 57) then none
  else some (digits.foldl (fun n b => n * 10 + (b.toNat - 48)) 0)

def whole? : Json → Option Int
  | number (45 :: digits) => (magnitude? digits).map fun n => -(n : Int)
  | number digits => (magnitude? digits).map fun n => (n : Int)
  | _ => none

/-- A whole number written in decimal digits that fits 64 bits. -/
def toInt? (v : Json) : Option Int64 := v.whole?.bind word?

/-- The items of an array; none for any other value. -/
def items : Json → List Json
  | array items => items
  | _ => []

def content : Json → Bytes
  | string s => s
  | _ => []

end Json

end Fixity
