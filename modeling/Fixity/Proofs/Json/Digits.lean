import Fixity.Json.Read

/-!
# Digits are read as they were written

Decimal and hexadecimal digits are written from the last one back, so what is written for `n` ends
with the digit of `n % 10` or `n % 16` after what is written for the quotient.

* `Json.whole?_ofInt`: a whole number is read back, whatever its size.
* `Json.toInt?_ofInt`: a word is read back.
* `Json.hex4?_ofHex`: four hexadecimal digits are read back.
-/

namespace Fixity

namespace Bytes

/-! ### Decimal digits -/

def decimalDigit (d : Nat) : UInt8 := UInt8.ofNat (48 + d)

theorem utf8EncodeChar_decimalDigit :
    ∀ d < 10, String.utf8EncodeChar (Nat.digitChar d) = [decimalDigit d] := by
  decide

theorem ofNat_of_lt {n : Nat} (h : n < 10) : ofNat n = [decimalDigit n] := by
  rw [ofNat, Nat.toDigits_of_lt_base h, List.flatMap_singleton, utf8EncodeChar_decimalDigit n h]

theorem ofNat_of_le {n : Nat} (h : 10 ≤ n) :
    ofNat n = ofNat (n / 10) ++ [decimalDigit (n % 10)] := by
  have hlt : n % 10 < 10 := Nat.mod_lt _ (by omega)
  rw [ofNat, Nat.toDigits_of_base_le (by omega) h, List.flatMap_append, List.flatMap_singleton,
    utf8EncodeChar_decimalDigit _ hlt, ofNat]

theorem ofNat_induct {motive : Nat → Prop} (digit : ∀ n < 10, motive n)
    (step : ∀ n, 10 ≤ n → motive (n / 10) → motive n) (n : Nat) : motive n := by
  induction n using Nat.strongRecOn with
  | ind n ih =>
    rcases Nat.lt_or_ge n 10 with h | h
    · exact digit n h
    · exact step n h (ih _ (Nat.div_lt_self (by omega) (by omega)))

theorem ofNat_ne_nil (n : Nat) : ofNat n ≠ [] := by
  rcases Nat.lt_or_ge n 10 with h | h
  · simp [ofNat_of_lt h]
  · simp [ofNat_of_le h]

def isDecimal (b : UInt8) : Bool := 48 ≤ b && b ≤ 57

theorem isDecimal_decimalDigit : ∀ d < 10, isDecimal (decimalDigit d) = true := by decide

theorem isDecimal_of_mem_ofNat (n : Nat) : ∀ b ∈ ofNat n, isDecimal b = true := by
  induction n using ofNat_induct with
  | digit n h =>
    intro b hb
    rw [ofNat_of_lt h, List.mem_singleton] at hb
    rw [hb, isDecimal_decimalDigit n h]
  | step n h ih =>
    intro b hb
    rw [ofNat_of_le h, List.mem_append, List.mem_singleton] at hb
    rcases hb with hb | rfl
    · exact ih b hb
    · exact isDecimal_decimalDigit _ (Nat.mod_lt _ (by omega))

/-! ### Hexadecimal digits -/

def hexDigit (d : Nat) : UInt8 := UInt8.ofNat (if d < 10 then 48 + d else 87 + d)

def isHex (b : UInt8) : Bool := isDecimal b || (97 ≤ b && b ≤ 102)

theorem utf8EncodeChar_hexDigit :
    ∀ d < 16, String.utf8EncodeChar (Nat.digitChar d) = [hexDigit d] := by
  decide

theorem isHex_hexDigit : ∀ d < 16, isHex (hexDigit d) = true := by decide

theorem ofHex_of_lt {n : Nat} (width : Nat) (h : n < 16) :
    ofHex (width + 1) n = List.replicate width 48 ++ [hexDigit n] := by
  rw [ofHex, Nat.toDigits_of_lt_base h, List.flatMap_singleton, utf8EncodeChar_hexDigit n h]
  rfl

/-- The last digit is that of the remainder, and the others are those of the quotient. -/
theorem ofHex_succ (width n : Nat) :
    ofHex (width + 2) n = ofHex (width + 1) (n / 16) ++ [hexDigit (n % 16)] := by
  rcases Nat.lt_or_ge n 16 with h | h
  · have hzero : hexDigit 0 = 48 := rfl
    rw [ofHex_of_lt _ h, Nat.div_eq_of_lt h, Nat.mod_eq_of_lt h, ofHex_of_lt _ (by omega), hzero,
      ← List.replicate_succ']
  · have hlt : n % 16 < 16 := Nat.mod_lt _ (by omega)
    have hfill : ∀ k : Nat, width + 2 - (k + 1) = width + 1 - k := by omega
    simp only [ofHex]
    rw [Nat.toDigits_of_base_le (by omega) h, List.flatMap_append, List.flatMap_singleton,
      utf8EncodeChar_hexDigit _ hlt, List.length_append, List.length_singleton, hfill,
      List.append_assoc]

theorem isHex_of_mem_ofHex (width n : Nat) : ∀ b ∈ ofHex width n, isHex b = true := by
  have hdigits : ∀ n : Nat, ∀ b ∈ (Nat.toDigits 16 n).flatMap String.utf8EncodeChar,
      isHex b = true := by
    intro n
    induction n using Nat.strongRecOn with
    | ind n ih =>
      intro b hb
      rcases Nat.lt_or_ge n 16 with h | h
      · rw [Nat.toDigits_of_lt_base h, List.flatMap_singleton, utf8EncodeChar_hexDigit n h,
          List.mem_singleton] at hb
        rw [hb, isHex_hexDigit n h]
      · have hlt : n % 16 < 16 := Nat.mod_lt _ (by omega)
        rw [Nat.toDigits_of_base_le (by omega) h, List.flatMap_append, List.flatMap_singleton,
          utf8EncodeChar_hexDigit _ hlt, List.mem_append, List.mem_singleton] at hb
        rcases hb with hb | rfl
        · exact ih _ (Nat.div_lt_self (by omega) (by omega)) b hb
        · exact isHex_hexDigit _ hlt
  intro b hb
  simp only [ofHex, List.mem_append, List.mem_replicate] at hb
  rcases hb with ⟨-, rfl⟩ | hb
  · rfl
  · exact hdigits n b hb

theorem le_length_ofHex (width n : Nat) : width ≤ (ofHex width n).length := by
  simp only [ofHex, List.length_append, List.length_replicate]
  omega

theorem ofHex_four {n : Nat} (h : n < 65536) :
    ofHex 4 n = [hexDigit (n / 4096), hexDigit (n / 256 % 16), hexDigit (n / 16 % 16),
      hexDigit (n % 16)] := by
  have h256 : n / 16 / 16 = n / 256 := Nat.div_div_eq_div_mul n 16 16
  have h4096 : n / 256 / 16 = n / 4096 := Nat.div_div_eq_div_mul n 256 16
  rw [ofHex_succ, ofHex_succ, ofHex_succ, h256, h4096, ofHex_of_lt 0 (by omega)]
  rfl

end Bytes

namespace Json

open Bytes

/-! ### Reading digits -/

theorem magnitude?_ofNat (n : Nat) : magnitude? (Bytes.ofNat n) = some n := by
  have hall : (Bytes.ofNat n).all (fun b => 48 ≤ b && b ≤ 57) = true :=
    List.all_eq_true.mpr (isDecimal_of_mem_ofNat n)
  have hne : (Bytes.ofNat n).isEmpty = false := by
    rw [List.isEmpty_eq_false_iff]
    exact ofNat_ne_nil n
  have hvalue : ∀ d < 10, (decimalDigit d).toNat - 48 = d := by decide
  have hfold : (Bytes.ofNat n).foldl (fun n b => n * 10 + (b.toNat - 48)) 0 = n := by
    clear hall hne
    induction n using ofNat_induct with
    | digit n h =>
      rw [ofNat_of_lt h, List.foldl_cons, List.foldl_nil, hvalue n h]
      omega
    | step n h ih =>
      have hlt : n % 10 < 10 := Nat.mod_lt _ (by omega)
      rw [ofNat_of_le h, List.foldl_append, ih, List.foldl_cons, List.foldl_nil, hvalue _ hlt]
      omega
  rw [magnitude?, hall, hne, hfold]
  rfl

/-- **A whole number is read back**, whatever its size. -/
theorem whole?_ofInt (i : Int) : (ofInt i).whole? = some i := by
  cases i with
  | ofNat n =>
    have hread : (ofInt (.ofNat n)).whole? = (magnitude? (Bytes.ofNat n)).map fun n => (n : Int) := by
      have hsign : ∀ digits, Bytes.ofNat n ≠ 45 :: digits := by
        intro digits hd
        have h45 := isDecimal_of_mem_ofNat n 45 (by rw [hd]; exact List.mem_cons_self)
        exact absurd h45 (by decide)
      rw [ofInt, Bytes.ofInt, whole?]
      exact hsign
    rw [hread, magnitude?_ofNat]
    rfl
  | negSucc n =>
    have hread : (ofInt (.negSucc n)).whole? =
        (magnitude? (Bytes.ofNat (n + 1))).map fun n => -(n : Int) := rfl
    rw [hread, magnitude?_ofNat]
    rfl

/-- **A word is read back.** -/
theorem toInt?_ofInt (i : Int64) : (ofInt i.toInt).toInt? = some i := by
  have hle : leastWord ≤ i.toInt := i.le_toInt
  have hlt : i.toInt ≤ greatestWord := Int.le_of_lt_add_one i.toInt_lt
  rw [toInt?, whole?_ofInt, Option.bind_some, word?, if_pos ⟨hle, hlt⟩, Int64.ofInt_toInt]

/-- **Four hexadecimal digits are read back**, whatever follows them. -/
theorem hex4?_ofHex {n : Nat} (h : n < 65536) (rest : Bytes) :
    hex4? (ofHex 4 n ++ rest) = some n := by
  have hvalue : ∀ d < 16, hexValue? (hexDigit d) = some d := by decide
  have hmod : ∀ m : Nat, m % 16 < 16 := fun m => Nat.mod_lt _ (by omega)
  rw [ofHex_four h]
  simp only [List.cons_append, hex4?, hvalue _ (show n / 4096 < 16 by omega), hvalue _ (hmod _)]
  show some _ = some n
  congr 1
  omega

end Json

end Fixity
