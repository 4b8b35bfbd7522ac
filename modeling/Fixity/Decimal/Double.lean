/-!
# Binary floating-point numbers

A 64-bit floating-point number is given by its bits: a sign, eleven bits of exponent and 52 of
fraction.  A finite one without its sign is `m * 2 ^ q` for natural `m` and integer `q`, and

    magnitude bits = (q + 1074) * 2 ^ 52 + m

both for normal numbers, where `2 ^ 52 ≤ m`, and for the small ones with `q = -1074`.  A rounding
that carries `m` up to `2 ^ 53` therefore lands on the next number without any further care.
-/

namespace Fixity.Double

/-- The bit in front of the fraction, which a normal number does not write: `2 ^ 52`. -/
def hiddenBit : Nat := 4503599627370496

/-- The bit of the sign: `2 ^ 63`. -/
def signBit : Nat := 9223372036854775808

def infinity : UInt64 := 0x7ff0000000000000

def notANumber : UInt64 := 0x7ff8000000000001

/-- The bits with the sign set when `negative`. -/
def signed (negative : Bool) (magnitude : UInt64) : UInt64 :=
  if negative then magnitude ||| 0x8000000000000000 else magnitude

/-- The `m` and the `q` of a finite number without its sign. -/
def split (magnitude : Nat) : Nat × Int :=
  let biased : Nat := magnitude / hiddenBit
  let fraction : Nat := magnitude % hiddenBit
  if biased = 0 then (fraction, -1074) else (hiddenBit + fraction, (biased : Int) - 1075)

/-- A finite number without what stands after its point. -/
def whole (bits : UInt64) : Int :=
  let (m, q) := split (bits.toNat % signBit)
  let n := if 0 ≤ q then m * Nat.pow 2 q.toNat else m / Nat.pow 2 (-q).toNat
  if bits.toNat < signBit then n else -n

/-- `num / den` to the nearest whole number, the even one when two are equally near. -/
def roundDiv (num den : Nat) : Nat :=
  let q := num / den
  let r := num % den
  if den < 2 * r ∨ (2 * r = den ∧ q % 2 = 1) then q + 1 else q

/-- The fraction `num / den` divided by `2 ^ e`, as a numerator and a denominator. -/
def scaled (num den : Nat) (e : Int) : Nat × Nat :=
  if 0 ≤ e then (num, den * Nat.pow 2 e.toNat) else (num * Nat.pow 2 (-e).toNat, den)

/-- The number nearest to the fraction `num / den`, or nothing when that lies beyond the largest
finite number. -/
def nearest? (num den : Nat) : Option UInt64 :=
  if num = 0 then some 0
  else
    -- the fraction lies between 2 ^ (k - 1) and 2 ^ (k + 1)
    let k : Int := num.log2 - den.log2
    let low := max (k - 53) (-1074)
    let atLow := scaled num den low
    let e := if 2 * hiddenBit ≤ atLow.1 / atLow.2 then low + 1 else low
    let s := scaled num den e
    let bits := (e + 1074).toNat * hiddenBit + roundDiv s.1 s.2
    if bits < infinity.toNat then some (UInt64.ofNat bits) else none

/-- The number nearest to `digits * 10 ^ exponent`.  Exponents so far out that the answer cannot
depend on the digits are settled before the power is formed. -/
def ofDecimal? (digits : Nat) (exponent : Int) : Option UInt64 :=
  if digits = 0 then some 0
  else
    let point := (Nat.toDigits 10 digits).length + exponent
    if 310 < point then none
    else if point < -330 then some 0
    else if 0 ≤ exponent then nearest? (digits * Nat.pow 10 exponent.toNat) 1
    else nearest? digits (Nat.pow 10 (-exponent).toNat)

def ofBinary? (digits : Nat) (exponent : Int) : Option UInt64 :=
  if digits = 0 then some 0
  else
    let top := digits.log2 + exponent
    if 1030 < top then none
    else if top < -1100 then some 0
    else if 0 ≤ exponent then nearest? (digits * Nat.pow 2 exponent.toNat) 1
    else nearest? digits (Nat.pow 2 (-exponent).toNat)

end Fixity.Double
