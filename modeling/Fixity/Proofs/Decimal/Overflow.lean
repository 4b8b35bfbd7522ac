import Fixity.Decimal.Double
import Mathlib.Algebra.Group.Nat.Defs

/-!
# Numbers that are too large

The largest finite number is `(2 ^ 53 - 1) * 2 ^ 971`, and the next one would be `2 ^ 1024`.  What
lies halfway between them or beyond rounds up to it: a fraction has no nearest finite number exactly
when it is at least `overflowBound`, which is `(2 ^ 54 - 1) * 2 ^ 970` (`nearest?_eq_none_iff`), and
the same holds of decimals (`ofDecimal?_eq_none_iff`).
-/

namespace Fixity.Double

/-- The least number that is rounded beyond the largest finite one. -/
def overflowBound : Nat := (2 ^ 54 - 1) * 2 ^ 970

/-! ### Scaling and rounding -/

theorem scaled_of_nonneg (num den : Nat) (e : Nat) :
    scaled num den e = (num, den * 2 ^ e) := by
  rw [scaled, if_pos (Int.natCast_nonneg e), Int.toNat_natCast]
  rfl

theorem scaled_of_neg (num den : Nat) (e : Nat) :
    scaled num den (-(e : Int)) = (num * 2 ^ e, den) := by
  rcases Nat.eq_zero_or_pos e with rfl | he
  · rw [scaled, if_pos (by omega)]
    simp
  · rw [scaled, if_neg (by omega), Int.neg_neg, Int.toNat_natCast]
    rfl

theorem scaled_snd_pos {num den : Nat} (hden : den ≠ 0) (e : Int) :
    0 < (scaled num den e).2 := by
  obtain ⟨k, rfl | rfl⟩ := Int.eq_nat_or_neg e
  · rw [scaled_of_nonneg]
    exact Nat.mul_pos (Nat.pos_of_ne_zero hden) (Nat.two_pow_pos k)
  · rw [scaled_of_neg]
    exact Nat.pos_of_ne_zero hden

/-- A fraction below `2 ^ (e + j)` by its logarithms is below `2 ^ j` when it is divided by
`2 ^ e`. -/
theorem scaled_lt {num den : Nat} (hden : den ≠ 0) {e : Int} {j : Nat}
    (h : (num.log2 : Int) - den.log2 + 1 ≤ e + j) :
    (scaled num den e).1 < 2 ^ j * (scaled num den e).2 := by
  have hnum : num < 2 ^ (num.log2 + 1) := Nat.lt_log2_self
  have hden' : 2 ^ den.log2 ≤ den := Nat.log2_self_le hden
  obtain ⟨k, rfl | rfl⟩ := Int.eq_nat_or_neg e
  · rw [scaled_of_nonneg]
    calc num < 2 ^ (num.log2 + 1) := hnum
      _ ≤ 2 ^ (j + (den.log2 + k)) := Nat.pow_le_pow_right (by omega) (by omega)
      _ = 2 ^ j * (2 ^ den.log2 * 2 ^ k) := by rw [Nat.pow_add, Nat.pow_add]
      _ ≤ 2 ^ j * (den * 2 ^ k) :=
        Nat.mul_le_mul_left _ (Nat.mul_le_mul_right _ hden')
  · rw [scaled_of_neg]
    calc num * 2 ^ k < 2 ^ (num.log2 + 1) * 2 ^ k :=
          Nat.mul_lt_mul_of_pos_right hnum (Nat.two_pow_pos k)
      _ = 2 ^ (num.log2 + 1 + k) := (Nat.pow_add ..).symm
      _ ≤ 2 ^ (j + den.log2) := Nat.pow_le_pow_right (by omega) (by omega)
      _ = 2 ^ j * 2 ^ den.log2 := Nat.pow_add ..
      _ ≤ 2 ^ j * den := Nat.mul_le_mul_left _ hden'

/-- A fraction that is at least `2 ^ (e + j)` by its logarithms is at least `2 ^ j` when it is
divided by `2 ^ e`. -/
theorem le_scaled {num den : Nat} (hnum : num ≠ 0) {e j : Nat}
    (h : (e : Int) + j + 1 ≤ (num.log2 : Int) - den.log2) :
    2 ^ j * (den * 2 ^ e) ≤ num := by
  have hden : den < 2 ^ (den.log2 + 1) := Nat.lt_log2_self
  calc 2 ^ j * (den * 2 ^ e) ≤ 2 ^ j * (2 ^ (den.log2 + 1) * 2 ^ e) :=
        Nat.mul_le_mul_left _ (Nat.mul_le_mul_right _ (Nat.le_of_lt hden))
    _ = 2 ^ (j + (den.log2 + 1 + e)) := by rw [Nat.pow_add 2 j, Nat.pow_add 2 (den.log2 + 1)]
    _ ≤ 2 ^ num.log2 := Nat.pow_le_pow_right (by omega) (by omega)
    _ ≤ num := Nat.log2_self_le hnum

theorem roundDiv_le {a b n : Nat} (h : a < n * b) : roundDiv a b ≤ n := by
  have hdiv : a / b < n := Nat.div_lt_of_lt_mul (by rwa [Nat.mul_comm])
  simp only [roundDiv]
  split <;> omega

theorem le_roundDiv {a b n : Nat} (hb : 0 < b) (h : n * b ≤ a) : n ≤ roundDiv a b := by
  have hdiv : n ≤ a / b := (Nat.le_div_iff_mul_le hb).mpr h
  simp only [roundDiv]
  split <;> omega

/-- A fraction below an even number is rounded up to it when it is at most a half away. -/
theorem roundDiv_ge_iff {a b n : Nat} (hb : 0 < b) (hn : n % 2 = 1) (h : a < (n + 1) * b) :
    n + 1 ≤ roundDiv a b ↔ (2 * n + 1) * b ≤ 2 * a := by
  have hdiv : a / b < n + 1 := Nat.div_lt_of_lt_mul (by rwa [Nat.mul_comm])
  have ha : b * (a / b) + a % b = a := Nat.div_add_mod a b
  have hr : a % b < b := Nat.mod_lt _ hb
  have hodd : (2 * n + 1) * b = 2 * (b * n) + b := by
    rw [Nat.add_mul, Nat.one_mul, Nat.mul_assoc, Nat.mul_comm n b]
  simp only [roundDiv]
  rcases Nat.lt_or_ge (a / b) n with hlt | hge
  · -- the fraction is not even half a unit below `n`
    have hstep : b * (a / b) + b ≤ b * n := by
      rw [← Nat.mul_succ]
      exact Nat.mul_le_mul_left b hlt
    constructor
    · intro hround
      split at hround <;> omega
    · intro hhalf
      omega
  · have hq : a / b = n := by omega
    rw [hq] at ha
    rw [hq, hn, hodd]
    constructor
    · intro hround
      split at hround <;> omega
    · intro hhalf
      exact Nat.le_of_eq (if_pos (by omega)).symm

/-! ### The nearest number -/

/-- The bits of a number whose last place is `2 ^ e`. -/
def bitsAt (num den : Nat) (e : Int) : Nat :=
  (e + 1074).toNat * hiddenBit + roundDiv (scaled num den e).1 (scaled num den e).2

/-- The last place is chosen so that the quotient has at most 53 bits, and exactly 53 where the
number is large. -/
theorem exists_place {num den : Nat} (hnum : num ≠ 0) (hden : den ≠ 0) :
    ∃ e : Int, (nearest? num den = none ↔ infinity.toNat ≤ bitsAt num den e) ∧
      (scaled num den e).1 < 2 ^ 53 * (scaled num den e).2 ∧
      (971 ≤ e → 2 ^ 52 * (scaled num den e).2 ≤ (scaled num den e).1) := by
  have hbit : 2 * hiddenBit = 2 ^ 53 := by decide
  generalize hk : (num.log2 : Int) - den.log2 = k
  generalize hlow : max (k - 53) (-1074) = low
  have hnearest : ∀ e, (if 2 * hiddenBit ≤ (scaled num den low).1 / (scaled num den low).2
      then low + 1 else low) = e →
      (nearest? num den = none ↔ infinity.toNat ≤ bitsAt num den e) := by
    intro e he
    simp only [nearest?, if_neg hnum, hk, hlow, he]
    rw [← bitsAt]
    split <;> simp <;> omega
  by_cases hcarry : 2 * hiddenBit ≤ (scaled num den low).1 / (scaled num den low).2
  · refine ⟨low + 1, hnearest _ (if_pos hcarry), scaled_lt hden (by omega), fun hlarge => ?_⟩
    obtain ⟨m, rfl⟩ : ∃ m : Nat, low = m := ⟨low.toNat, by omega⟩
    rw [scaled_of_nonneg, hbit, Nat.le_div_iff_mul_le
      (Nat.mul_pos (Nat.pos_of_ne_zero hden) (Nat.two_pow_pos m))] at hcarry
    have hnext : ((m : Int) + 1) = (m + 1 : Nat) := rfl
    rw [hnext, scaled_of_nonneg]
    calc 2 ^ 52 * (den * 2 ^ (m + 1)) = 2 ^ 53 * (den * 2 ^ m) := by
          rw [Nat.pow_succ 2 m, Nat.pow_succ 2 52, ← Nat.mul_assoc den, Nat.mul_assoc (2 ^ 52) 2,
            Nat.mul_comm 2]
      _ ≤ num := hcarry
  · refine ⟨low, hnearest _ (if_neg hcarry), ?_, fun hlarge => ?_⟩
    · rw [hbit, Nat.not_le] at hcarry
      exact (Nat.div_lt_iff_lt_mul (scaled_snd_pos hden low)).mp hcarry
    · obtain ⟨m, rfl⟩ : ∃ m : Nat, low = m := ⟨low.toNat, by omega⟩
      rw [scaled_of_nonneg]
      exact le_scaled hnum (by omega)

/-- A number with a last place up to `2 ^ p` is less than half a unit below `2 ^ (p + 54)`. -/
theorem lt_of_scaled_lt {num den p : Nat} {e : Int} (he : e ≤ p)
    (h : (scaled num den e).1 < 2 ^ 53 * (scaled num den e).2) :
    num < (2 ^ 54 - 1) * (den * 2 ^ p) := by
  have hmono : ∀ {d : Nat}, d ≤ den * 2 ^ p → 2 ^ 53 * d ≤ (2 ^ 54 - 1) * (den * 2 ^ p) := by
    intro d hd
    omega
  obtain ⟨k, rfl | rfl⟩ := Int.eq_nat_or_neg e
  · rw [scaled_of_nonneg] at h
    have hpow : 2 ^ k ≤ 2 ^ p := Nat.pow_le_pow_right (by omega) (by omega)
    exact Nat.lt_of_lt_of_le h (hmono (Nat.mul_le_mul_left den hpow))
  · rw [scaled_of_neg] at h
    have hnum : num ≤ num * 2 ^ k := Nat.le_mul_of_pos_right num (Nat.two_pow_pos k)
    have hle : den ≤ den * 2 ^ p := Nat.le_mul_of_pos_right den (Nat.two_pow_pos p)
    exact Nat.lt_of_le_of_lt hnum (Nat.lt_of_lt_of_le h (hmono hle))

/-- A number with a full quotient and a last place from `2 ^ (p + 2)` on is at least
`2 ^ (p + 54)`. -/
theorem le_of_le_scaled {num den p k : Nat} (hk : p + 2 ≤ k) (h : 2 ^ 52 * (den * 2 ^ k) ≤ num) :
    (2 ^ 54 - 1) * (den * 2 ^ p) ≤ num := by
  have hpow : 2 ^ p * 2 ^ 2 ≤ 2 ^ k := by
    rw [← Nat.pow_add]
    exact Nat.pow_le_pow_right (by omega) hk
  have hmul : den * (2 ^ p * 2 ^ 2) ≤ den * 2 ^ k := Nat.mul_le_mul_left den hpow
  rw [← Nat.mul_assoc] at hmul
  omega

/-- **Fractions without a nearest finite number.** -/
theorem nearest?_eq_none_iff {num den : Nat} (hden : den ≠ 0) :
    nearest? num den = none ↔ overflowBound * den ≤ num := by
  have hden' : 0 < den := Nat.pos_of_ne_zero hden
  -- the power stays a variable, so that it is never evaluated
  obtain ⟨p, hp⟩ : ∃ p, p = 970 := ⟨970, rfl⟩
  have hbound : overflowBound * den = (2 ^ 54 - 1) * (den * 2 ^ p) := by
    rw [overflowBound, ← hp, Nat.mul_assoc, Nat.mul_comm (2 ^ p)]
  have hpower : 0 < den * 2 ^ p := Nat.mul_pos hden' (Nat.two_pow_pos p)
  rw [hbound]
  by_cases hnum : num = 0
  · rw [nearest?, if_pos hnum, hnum]
    simp only [reduceCtorEq, false_iff]
    omega
  obtain ⟨e, hnone, hlt, hge⟩ := exists_place hnum hden
  have hinf : infinity.toNat = 2047 * hiddenBit := by decide
  have hhidden : hiddenBit = 2 ^ 52 := by decide
  rw [hnone, bitsAt, hinf, hhidden]
  -- below the last binade, in it, or beyond it
  rcases Int.lt_trichotomy e (p + 1 : Nat) with hsmall | rfl | hlarge
  · have hround := roundDiv_le hlt
    have hbelow := lt_of_scaled_lt (Int.le_of_lt_add_one hsmall) hlt
    constructor
    · intro hbits
      omega
    · intro hover
      omega
  · rw [scaled_of_nonneg] at hlt ⊢
    have hdouble : den * 2 ^ (p + 1) = 2 * (den * 2 ^ p) := by
      rw [Nat.pow_succ, ← Nat.mul_assoc, Nat.mul_comm]
    rw [hdouble] at hlt ⊢
    have hround := roundDiv_ge_iff (n := 2 ^ 53 - 1) (by omega) (by decide) hlt
    generalize roundDiv num (2 * (den * 2 ^ p)) = r at hround ⊢
    omega
  · obtain ⟨k, rfl⟩ : ∃ k : Nat, e = k := ⟨e.toNat, by omega⟩
    have hfull := hge (by omega)
    have hround := le_roundDiv (scaled_snd_pos hden _) hfull
    rw [scaled_of_nonneg] at hfull
    have hbeyond := le_of_le_scaled (p := p) (by omega) hfull
    constructor
    · intro _
      exact hbeyond
    · intro _
      omega

/-! ### Decimals -/

theorem length_toDigits_ten_le {n len : Nat} (h : (Nat.toDigits 10 n).length ≤ len) (hlen : 0 < len) :
    n < 10 ^ len := (Nat.length_toDigits_le_iff (by omega) hlen).mp h

theorem le_of_length_toDigits {n len : Nat} (hlen : 0 < len)
    (h : len < (Nat.toDigits 10 n).length) : 10 ^ len ≤ n := by
  rw [← Nat.not_lt, ← Nat.length_toDigits_le_iff (by omega) hlen]
  omega

theorem overflowBound_le {p : Nat} (hp : p = 310) : overflowBound ≤ 10 ^ p := by
  rw [hp]
  decide +kernel

/-- **Decimals that are too large**, given by their digits and how many stand after the point. -/
theorem ofDecimal?_eq_none_iff (digits places : Nat) :
    ofDecimal? digits (-(places : Int)) = none ↔ overflowBound * 10 ^ places ≤ digits := by
  have hpos : 0 < overflowBound * 10 ^ places :=
    Nat.mul_pos (by decide +kernel) (Nat.pow_pos (by omega))
  obtain ⟨p, hp⟩ : ∃ p, p = 310 := ⟨310, rfl⟩
  have hbound := overflowBound_le hp
  have hten : 0 < 10 ^ places := Nat.pow_pos (by omega)
  simp only [ofDecimal?]
  by_cases hzero : digits = 0
  · rw [if_pos hzero]
    simp only [reduceCtorEq, false_iff]
    omega
  rw [if_neg hzero]
  by_cases hlarge : (310 : Int) < (Nat.toDigits 10 digits).length + -(places : Int)
  · rw [if_pos hlarge]
    have hle : 10 ^ (p + places) ≤ digits := le_of_length_toDigits (by omega) (by omega)
    rw [Nat.pow_add] at hle
    exact iff_of_true rfl (Nat.le_trans (Nat.mul_le_mul_right _ hbound) hle)
  rw [if_neg hlarge]
  by_cases hsmall : (Nat.toDigits 10 digits).length + -(places : Int) < -330
  · rw [if_pos hsmall]
    have hlt : digits < 10 ^ places := length_toDigits_ten_le (by omega) (by omega)
    have hle : 10 ^ places ≤ overflowBound * 10 ^ places :=
      Nat.le_mul_of_pos_left _ (by decide +kernel)
    simp only [reduceCtorEq, false_iff]
    omega
  rw [if_neg hsmall]
  by_cases hwhole : 0 ≤ -(places : Int)
  · obtain rfl : places = 0 := by omega
    have hone : digits * Nat.pow 10 (-((0 : Nat) : Int)).toNat = digits := Nat.mul_one digits
    rw [if_pos hwhole, hone, nearest?_eq_none_iff Nat.one_ne_zero, Nat.pow_zero]
  · rw [if_neg hwhole, Int.neg_neg, Int.toNat_natCast]
    exact nearest?_eq_none_iff (Nat.ne_of_gt hten)

end Fixity.Double
