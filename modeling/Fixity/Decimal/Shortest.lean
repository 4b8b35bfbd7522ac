import Fixity.Bytes
import Fixity.Decimal.Double

/-!
# The shortest decimal of a floating-point number

The decimal shown for a number is the one with the fewest digits that reads back as that number,
and of those the one nearest to it.  Around `m * 2 ^ q` lies an interval of reals that read back as
it; its ends belong to it when `m` is even.  For each count of digits only the two decimals next
to the number can lie in the interval, and seventeen digits always suffice.
-/

namespace Fixity.Double

/-- A decimal `d.ddd * 10 ^ exponent` by its digits. -/
structure Digits where
  digits : List Char
  exponent : Int
deriving DecidableEq, Repr

def atLeastPower (num den : Nat) (x : Int) : Bool :=
  if 0 ≤ x then den * Nat.pow 10 x.toNat ≤ num else den ≤ num * Nat.pow 10 (-x).toNat

/-- The exponent of the first digit of `num / den`. -/
def leadingExponent (num den : Nat) : Int :=
  -- one decimal digit is about 3.32 binary ones
  let guess := Int.fdiv (((num.log2 : Int) - den.log2) * 30103) 100000
  ([guess + 1, guess].find? (atLeastPower num den)).getD (guess - 1)

/-- The decimal with `count` digits that reads back as the number between `low / den` and
`high / den` around `num / den`, if there is one. -/
def withDigits? (low num high den : Nat) (closed : Bool) (first : Int) (count : Nat) :
    Option Digits :=
  let shift := first - count + 1
  let up := if shift < 0 then Nat.pow 10 (-shift).toNat else 1
  let down := if 0 ≤ shift then Nat.pow 10 shift.toNat else 1
  let unit := den * down
  let inside (d : Nat) : Bool :=
    if closed then low * up ≤ d * unit && d * unit ≤ high * up
    else low * up < d * unit && d * unit < high * up
  let below := num * up / unit
  let above := below + 1
  let finish (d : Nat) : Digits :=
    let ds := Nat.toDigits 10 d
    ⟨ds, shift + ds.length - 1⟩
  match inside below, inside above with
  | true, true =>
    if num * up - below * unit ≤ above * unit - num * up then some (finish below)
    else some (finish above)
  | true, false => some (finish below)
  | false, true => some (finish above)
  | false, false => none

/-- The shortest decimal of the finite number with the given magnitude bits, which are not zero. -/
def shortest (magnitude : Nat) : Digits :=
  let (m, q) := split magnitude
  -- the interval in quarters of the last place; below a power of two the numbers are twice as dense
  let low := if m = hiddenBit ∧ -1074 < q then 4 * m - 1 else 4 * m - 2
  let high := 4 * m + 2
  let up := if 0 ≤ q - 2 then Nat.pow 2 (q - 2).toNat else 1
  let den := if q - 2 < 0 then Nat.pow 2 (2 - q).toNat else 1
  let first := leadingExponent (4 * m * up) den
  ((List.range 17).findSome? fun n =>
    withDigits? (low * up) (4 * m * up) (high * up) den (m % 2 = 0) first (n + 1)).getD ⟨['0'], 0⟩

def Digits.trimmed (d : Digits) : Digits :=
  ⟨(d.digits.reverse.dropWhile (· = '0')).reverse, d.exponent⟩

/-- A decimal as it is shown: with an exponent of at least two digits when the first digit stands
for less than 10^-4 or for a million or more, else with a point in its place. -/
def Digits.show (d : Digits) : Bytes :=
  let ds := d.digits
  if d.exponent < -4 ∨ 6 ≤ d.exponent then
    let e := Nat.toDigits 10 d.exponent.natAbs
    let mantissa := match ds with
      | [] => []
      | [c] => [c]
      | c :: cs => c :: '.' :: cs
    Bytes.of (String.ofList (mantissa ++ ['e', if d.exponent < 0 then '-' else '+'] ++
      List.replicate (2 - e.length) '0' ++ e))
  else if d.exponent < 0 then
    Bytes.of (String.ofList ('0' :: '.' :: List.replicate (-d.exponent - 1).toNat '0' ++ ds))
  else
    let whole := d.exponent.toNat + 1
    if ds.length ≤ whole then
      Bytes.of (String.ofList (ds ++ List.replicate (whole - ds.length) '0'))
    else Bytes.of (String.ofList (ds.take whole ++ '.' :: ds.drop whole))

def toBytes (bits : UInt64) : Bytes :=
  let n := bits.toNat
  let negative := signBit ≤ n
  let magnitude := n % signBit
  if infinity.toNat < magnitude then "NaN"
  else
    let sign : Bytes := if negative then "-" else ""
    if magnitude = infinity.toNat then if negative then "-Inf" else "+Inf"
    else if magnitude = 0 then sign ++ "0"
    else sign ++ (shortest magnitude).trimmed.show

end Fixity.Double
