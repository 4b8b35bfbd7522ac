import Fixity.Decimal.Numeral
import Fixity.Decimal.Word
import Fixity.Text.Utf8
import Fixity.Yaml.Node

/-!
# What YAML scalars mean

A scalar with no tag is what its text looks like: null, a boolean, a number, or else a string.  A
tag has to agree with that, except that anything can be a string and a whole number can be a float.

In a number underscores mean nothing.  Whole numbers may be written in hexadecimal, octal and binary
after `0x`, `0o` and `0b`, and a number that begins with `0` is octal if it can be.
-/

namespace Fixity.Yaml

inductive Scalar where
  | null
  | boolean (b : Bool)
  | integer (n : Int)
  /-- A floating-point number by its bits. -/
  | float (bits : UInt64)
  | string (text : List Char)
deriving DecidableEq, Repr

namespace Scalar

/-! ### Numbers -/

/-- The base of a whole number without sign, and its digits. -/
def based : List Char → Nat × List Char
  | '0' :: cs =>
    match cs with
    | 'x' :: d :: ds | 'X' :: d :: ds => (16, d :: ds)
    | 'o' :: d :: ds | 'O' :: d :: ds => (8, d :: ds)
    | 'b' :: d :: ds | 'B' :: d :: ds => (2, d :: ds)
    | _ => (8, '0' :: cs)
  | cs => (10, cs)

def natural? (cs : List Char) : Option Nat :=
  let (base, digits) := based cs
  if !digits.isEmpty && digits.all (fun d => (Double.digitValue? base d).isSome) then
    some (Double.ofDigits base digits)
  else none

/-- Puts a sign that follows `0b` or `0o` in front of it. -/
def leadSign : List Char → List Char
  | '0' :: b :: sign :: cs =>
    if (b == 'b' || b == 'o') && (sign == '+' || sign == '-') then sign :: '0' :: b :: cs
    else '0' :: b :: sign :: cs
  | cs => cs

/-- A whole number.  With a sign it has to fit 64 bits that include the sign. -/
def integer? (cs : List Char) : Option Int :=
  match leadSign cs with
  | '+' :: cs => (natural? cs).bind fun n => if n ≤ greatestWord then some (n : Int) else none
  | '-' :: cs => (natural? cs).bind fun n => if leastWord ≤ -n then some (-n : Int) else none
  | cs => (natural? cs).bind fun n => if n < 18446744073709551616 then some (n : Int) else none

def float? : List Char → Option UInt64
  | '+' :: cs => Double.readDecimal? cs
  | '-' :: cs => (Double.readDecimal? cs).map (Double.signed true)
  | cs => Double.readDecimal? cs

/-! ### Texts -/

/-- The words that are no strings. -/
def words : List (String × Scalar) :=
  [("", null), ("~", null), ("null", null), ("Null", null), ("NULL", null),
   ("true", boolean true), ("True", boolean true), ("TRUE", boolean true),
   ("false", boolean false), ("False", boolean false), ("FALSE", boolean false),
   (".nan", float Double.notANumber), (".NaN", float Double.notANumber),
   (".NAN", float Double.notANumber),
   (".inf", float Double.infinity), (".Inf", float Double.infinity),
   (".INF", float Double.infinity), ("+.inf", float Double.infinity),
   ("+.Inf", float Double.infinity), ("+.INF", float Double.infinity),
   ("-.inf", float (Double.signed true Double.infinity)),
   ("-.Inf", float (Double.signed true Double.infinity)),
   ("-.INF", float (Double.signed true Double.infinity))]

def number? (text : List Char) : Option Scalar :=
  match text with
  | [] => none
  | c :: _ =>
    if c == '.' then (Double.readDecimal? text).map float
    else if c == '+' || c == '-' || ('0' ≤ c && c ≤ '9') then
      let digits := text.filter (· != '_')
      match integer? digits with
      | some n => some (integer n)
      | none => (float? digits).map float
    else none

def ofText (text : List Char) : Scalar :=
  match words.find? (·.1.toList == text) with
  | some (_, s) => s
  | none => (number? text).getD (string text)

/-- The meaning of a scalar with the given tag; nothing when they do not agree. -/
def ofTagged? (tag : Tag) (text : List Char) : Option Scalar :=
  match tag, ofText text with
  | .unspecified, s => some s
  | .string, _ | .other, _ => some (string text)
  | .null, null => some null
  | .boolean, boolean b => some (boolean b)
  | .integer, integer n => some (integer n)
  | .float, float bits => some (float bits)
  | .float, integer n =>
    if n ≤ greatestWord then
      (Double.nearest? n.natAbs 1).map fun bits => float (Double.signed (n < 0) bits)
    else none
  | _, _ => none

/-- A scalar as a whole number of 64 bits.  What stands after the point of a float is dropped, and
floats further down than the least whole number become that. -/
def toInt64? : Scalar → Option Int64
  | integer n => word? n
  | float bits =>
    if bits = Double.signed true Double.infinity then some (Int64.ofInt leastWord)
    else if Double.infinity ≤ bits &&& 0x7fffffffffffffff then none
    else
      let n := Double.whole bits
      -- one more than the greatest word wraps around
      if greatestWord + 1 < n then none else some (Int64.ofInt (max n leastWord))
  | _ => none

/-- A scalar as a boolean.  A string may be one of the words for yes and no. -/
def toBool? : Scalar → Option Bool
  | boolean b => some b
  | string text =>
    let word := String.ofList text
    if ["y", "Y", "yes", "Yes", "YES", "on", "On", "ON"].contains word then some true
    else if ["n", "N", "no", "No", "NO", "off", "Off", "OFF"].contains word then some false
    else none
  | _ => none

end Scalar

end Fixity.Yaml
