import Fixity.Command.Format
import Mathlib.Data.List.TakeWhile

/-!
# Lines

A file is cut into lines where line ends stand (`Bytes.splitAt_eq_splitOn`), without one carriage
return at the end of each.  Cutting undoes writing lines one below the other, when none of them holds
a line end or ends in a carriage return (`Format.lines_unlines`).  What is typed is cut into the lines
of a file with the same content, if they are short enough (`Format.typedLines_of_short`).
-/

namespace Fixity

namespace Bytes

/-! ### Splitting -/

/-- What is done comes first, and what was read since the last separator begins the next piece. -/
theorem foldl_split_eq (sep : UInt8) (bs : Bytes) : ∀ p : List Bytes × Bytes,
    (let p := bs.foldl (fun p b =>
        if b == sep then (p.2.reverse :: p.1, []) else (p.1, b :: p.2)) p;
      (p.2.reverse :: p.1).reverse) = p.1.reverse ++ List.splitOnPPrepend (· == sep) bs p.2 := by
  induction bs with
  | nil => simp
  | cons b bs ih =>
    intro p
    rw [List.foldl_cons, List.splitOnPPrepend_cons_eq_if]
    refine (ih _).trans ?_
    split
    · simp
    · rfl

theorem splitAt_eq_splitOn (sep : UInt8) (bs : Bytes) : splitAt sep bs = bs.splitOn sep :=
  foldl_split_eq sep bs ([], [])

theorem splitAt_ne_nil (sep : UInt8) (bs : Bytes) : splitAt sep bs ≠ [] := by
  rw [splitAt_eq_splitOn]
  exact List.splitOn_ne_nil sep bs

theorem not_mem_of_mem_splitAt {sep : UInt8} {bs piece : Bytes} (h : piece ∈ splitAt sep bs) :
    sep ∉ piece := by
  have hpieces : ∀ (bs last : Bytes), sep ∉ last →
      ∀ piece ∈ List.splitOnPPrepend (· == sep) bs last, sep ∉ piece := by
    intro bs
    induction bs with
    | nil => simp
    | cons b bs ih =>
      intro last hlast
      rw [List.splitOnPPrepend_cons_eq_if]
      split
      · exact List.forall_mem_cons.mpr ⟨by simpa using hlast, ih [] List.not_mem_nil⟩
      · rename_i hb
        refine ih (b :: last) fun hmem => ?_
        rcases List.mem_cons.mp hmem with rfl | hmem
        · simp at hb
        · exact hlast hmem
  rw [splitAt_eq_splitOn] at h
  exact hpieces bs [] List.not_mem_nil piece h

/-! ### Tails -/

theorem dropTail_append (tail bs : Bytes) : dropTail tail (bs ++ tail) = bs := by
  have hsuffix : tail.isSuffixOf (bs ++ tail) = true := by simp
  rw [dropTail, if_pos hsuffix, List.length_append, Nat.add_sub_cancel, List.take_left]

theorem dropTail_of_not_suffix {tail bs : Bytes} (h : ¬ tail <:+ bs) : dropTail tail bs = bs :=
  if_neg (by simpa using h)

theorem mem_of_mem_dropTail {tail bs : Bytes} {b : UInt8} (h : b ∈ dropTail tail bs) : b ∈ bs := by
  unfold dropTail at h
  split at h
  · exact List.mem_of_mem_take h
  · exact h

end Bytes

namespace Format

/-! ### Lines of a file -/

def unlines (ls : List Bytes) : Bytes := ls.flatMap (· ++ [10])

theorem unlines_eq_intercalate {ls : List Bytes} (h : ls ≠ []) :
    unlines ls = [10].intercalate ls ++ [10] := by
  induction ls with
  | nil => exact absurd rfl h
  | cons l ls ih =>
    cases ls with
    | nil => simp [unlines]
    | cons l' ls =>
      have hrest := ih (List.cons_ne_nil _ _)
      rw [unlines, List.flatMap_cons, ← unlines, hrest, List.intercalate_cons_cons]
      simp

/-- A line has no line end in it and no carriage return at its end. -/
structure IsLine (l : Bytes) : Prop where
  noEnd : 10 ∉ l
  noReturn : l.getLast? ≠ some 13

theorem isLine_nil : IsLine [] := ⟨by simp, by simp⟩

theorem IsLine.dropTail_eq {l : Bytes} (h : IsLine l) : Bytes.dropTail [13] l = l := by
  refine Bytes.dropTail_of_not_suffix ?_
  rintro ⟨more, rfl⟩
  exact h.noReturn List.getLast?_concat

/-- **Cutting undoes writing lines one below the other.** -/
theorem lines_unlines {ls : List Bytes} (hne : ls ≠ []) (h : ∀ l ∈ ls, IsLine l) :
    lines (unlines ls) = ls := by
  have hsplit : Bytes.splitAt 10 ([10].intercalate ls) = ls := by
    rw [Bytes.splitAt_eq_splitOn]
    exact List.splitOn_intercalate 10 (fun l hl => (h l hl).noEnd) hne
  have hreturn : ls.map (Bytes.dropTail [13]) = ls := by
    rw [List.map_congr_left fun l hl => (h l hl).dropTail_eq, List.map_id']
  rw [lines, unlines_eq_intercalate hne, Bytes.dropTail_append, hsplit, hreturn]

theorem lines_ne_nil (content : Bytes) : lines content ≠ [] := by
  rw [lines, Ne, List.map_eq_nil_iff]
  exact Bytes.splitAt_ne_nil _ _

def rawLines (content : Bytes) : List Bytes := Bytes.splitAt 10 (Bytes.dropTail [10] content)

theorem lines_eq_map (content : Bytes) :
    lines content = (rawLines content).map (Bytes.dropTail [13]) := rfl

theorem not_mem_of_mem_lines {content l : Bytes} (h : l ∈ lines content) : 10 ∉ l := by
  obtain ⟨piece, hpiece, rfl⟩ := List.mem_map.mp h
  exact fun hmem => Bytes.not_mem_of_mem_splitAt hpiece (Bytes.mem_of_mem_dropTail hmem)

/-! ### Typed lines -/

theorem unlines_eq_intercalate_concat (ls : List Bytes) :
    unlines ls = [10].intercalate (ls ++ [[]]) := by
  have hne : ls ++ [[]] ≠ [] := by simp
  have hends := unlines_eq_intercalate hne
  rw [unlines, List.flatMap_append, ← unlines, List.flatMap_singleton, List.nil_append] at hends
  exact List.append_cancel_right hends

theorem splitAt_unlines {ls : List Bytes} (h : ∀ l ∈ ls, 10 ∉ l) :
    Bytes.splitAt 10 (unlines ls) = ls ++ [[]] := by
  rw [unlines_eq_intercalate_concat, Bytes.splitAt_eq_splitOn]
  refine List.splitOn_intercalate 10 (fun l hl => ?_) (by simp)
  rcases List.mem_append.mp hl with hl | hl
  · exact h l hl
  · obtain rfl := List.mem_singleton.mp hl
    exact List.not_mem_nil

theorem intercalate_splitAt (bs : Bytes) : [10].intercalate (Bytes.splitAt 10 bs) = bs := by
  rw [Bytes.splitAt_eq_splitOn]
  exact List.intercalate_splitOn 10

/-- **Typed lines are the lines of a file**: a last line that is empty does not count.  Only where
nothing is typed there is no line, while a file has one. -/
theorem dropLast_splitAt (content : Bytes) :
    (if (Bytes.splitAt 10 content).getLast? = some [] then (Bytes.splitAt 10 content).dropLast
      else Bytes.splitAt 10 content) = if content = [] then [] else rawLines content := by
  have hends : ∀ l ∈ Bytes.splitAt 10 content, 10 ∉ l := fun l => Bytes.not_mem_of_mem_splitAt
  split
  case isTrue hlast =>
    obtain ⟨ls, hls⟩ := List.getLast?_eq_some_iff.mp hlast
    have hcontent := intercalate_splitAt content
    rw [hls, ← unlines_eq_intercalate_concat] at hcontent
    rw [hls, List.dropLast_concat, ← hcontent]
    cases ls with
    | nil => rfl
    | cons l ls =>
      have hne : l :: ls ≠ [] := List.cons_ne_nil _ _
      have hnil : unlines (l :: ls) ≠ [] := by simp [unlines]
      rw [if_neg hnil, rawLines, unlines_eq_intercalate hne, Bytes.dropTail_append,
        Bytes.splitAt_eq_splitOn]
      refine (List.splitOn_intercalate 10 (fun l' hl' => hends l' ?_) hne).symm
      rw [hls]
      exact List.mem_append_left _ hl'
  case isFalse hlast =>
    have hnil : content ≠ [] := by
      rintro rfl
      exact hlast rfl
    have hend : ¬ [10] <:+ content := by
      rintro ⟨before, rfl⟩
      refine hlast ?_
      have hunlines : unlines (Bytes.splitAt 10 before) = before ++ [10] := by
        rw [unlines_eq_intercalate (Bytes.splitAt_ne_nil 10 before), intercalate_splitAt]
      rw [← hunlines, splitAt_unlines fun l => Bytes.not_mem_of_mem_splitAt, List.getLast?_concat]
    rw [if_neg hnil, rawLines, Bytes.dropTail_of_not_suffix hend]

theorem typedLines_of_short {content : Bytes} (h : ∀ l ∈ rawLines content, l.length < lineLimit) :
    typedLines content = (if content = [] then [] else lines content, false) := by
  have hfits : ∀ l ∈ (if content = [] then [] else rawLines content),
      decide (l.length < lineLimit) = true := by
    intro l hl
    split at hl
    · cases hl
    · exact decide_eq_true (h l hl)
  rw [typedLines]
  simp only [dropLast_splitAt]
  rw [List.takeWhile_eq_self_iff.mpr hfits, List.all_eq_true.mpr hfits, apply_ite (List.map _),
    lines_eq_map]
  rfl

end Format

end Fixity
