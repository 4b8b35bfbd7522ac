import Fixity.Text.Blank
import Fixity.Text.DigitChar
import Fixity.Text.Letter

/-!
# Classes of characters

Letters, decimal digits and white space are lists of intervals of code points.  In ASCII these are the
intervals that everybody knows (`isLetter_iff_of_ascii`, `isDigitChar_iff_of_ascii`), and white space
shares no character with the other two classes, since no two of their intervals overlap.
-/

namespace Fixity.Text

variable {c : Char}

theorem isBlank_iff : isBlank c = true ↔ ∃ p ∈ blankRanges, p.1 ≤ c.toNat ∧ c.toNat ≤ p.2 := by
  simp [isBlank]

theorem isLetter_iff : isLetter c = true ↔ ∃ p ∈ letterRanges, p.1 ≤ c.toNat ∧ c.toNat ≤ p.2 := by
  simp [isLetter]

theorem isDigitChar_iff :
    isDigitChar c = true ↔ ∃ p ∈ digitRanges, p.1 ≤ c.toNat ∧ c.toNat ≤ p.2 := by
  simp [isDigitChar]

/-! ### ASCII -/

theorem not_exists_of_lt {ranges : List (Nat × Nat)} {n bound : Nat} (hn : n < bound)
    (h : ∀ p ∈ ranges, bound ≤ p.1) : ¬ ∃ p ∈ ranges, p.1 ≤ n ∧ n ≤ p.2 := by
  rintro ⟨p, hp, hlo, -⟩
  have hbound := h p hp
  omega

theorem isLetter_iff_of_ascii (h : c.toNat < 128) : isLetter c = true ↔
    65 ≤ c.toNat ∧ c.toNat ≤ 90 ∨ 97 ≤ c.toNat ∧ c.toNat ≤ 122 := by
  have hsplit : letterRanges = (65, 90) :: (97, 122) :: letterRanges.drop 2 := rfl
  have hrest : ¬ ∃ p ∈ letterRanges.drop 2, p.1 ≤ c.toNat ∧ c.toNat ≤ p.2 :=
    not_exists_of_lt h (by decide +kernel)
  rw [isLetter_iff, hsplit]
  simp only [List.mem_cons, exists_eq_or_imp, or_iff_left hrest]

theorem isDigitChar_iff_of_ascii (h : c.toNat < 128) :
    isDigitChar c = true ↔ 48 ≤ c.toNat ∧ c.toNat ≤ 57 := by
  have hsplit : digitRanges = (48, 57) :: digitRanges.drop 1 := rfl
  have hrest : ¬ ∃ p ∈ digitRanges.drop 1, p.1 ≤ c.toNat ∧ c.toNat ≤ p.2 :=
    not_exists_of_lt h (by decide +kernel)
  rw [isDigitChar_iff, hsplit]
  simp only [List.mem_cons, exists_eq_or_imp, or_iff_left hrest]

/-! ### White space -/

theorem not_exists_of_apart {ps qs : List (Nat × Nat)} {n : Nat}
    (h : ∀ p ∈ ps, ∀ q ∈ qs, p.2 < q.1 ∨ q.2 < p.1) (hps : ∃ p ∈ ps, p.1 ≤ n ∧ n ≤ p.2) :
    ¬ ∃ q ∈ qs, q.1 ≤ n ∧ n ≤ q.2 := by
  obtain ⟨p, hp, hplo, hphi⟩ := hps
  rintro ⟨q, hq, hqlo, hqhi⟩
  have hapart := h p hp q hq
  omega

theorem isLetter_eq_false_of_isBlank (h : isBlank c = true) : isLetter c = false := by
  rw [← Bool.not_eq_true, isLetter_iff]
  exact not_exists_of_apart (by decide +kernel) (isBlank_iff.mp h)

theorem isDigitChar_eq_false_of_isBlank (h : isBlank c = true) : isDigitChar c = false := by
  rw [← Bool.not_eq_true, isDigitChar_iff]
  exact not_exists_of_apart (by decide +kernel) (isBlank_iff.mp h)

end Fixity.Text
