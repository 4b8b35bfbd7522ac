import Fixity.Segment

/-!
# Cutting in front of a rest

How a cut begins when the first stretch is known, and how a cut goes along with a map of the
elements.
-/

namespace Fixity.Segment

variable {α β γ : Type}

/-- A stretch that the rule takes whole is the first segment, whatever follows it. -/
theorem cut_of_lead (lead : α → List α → β × Nat) {x : α} {xs rest : List α} {label : β}
    (h : lead x (xs ++ rest) = (label, xs.length)) :
    cut lead (x :: (xs ++ rest)) = ⟨x :: xs, label⟩ :: cut lead rest := by
  rw [cut_cons, h, List.take_left, List.drop_left]

/-- Each segment is the one that the rule finds where it begins, and those after it are the cut of what
follows. -/
theorem exists_lead_of_cut {lead : α → List α → β × Nat} {xs : List α}
    {before after : List (Segment α β)} {s : Segment α β}
    (h : cut lead xs = before ++ s :: after) : ∃ y ys,
      s = ⟨y :: ys.take (lead y ys).2, (lead y ys).1⟩ ∧ after = cut lead (ys.drop (lead y ys).2) := by
  induction before generalizing xs with
  | nil =>
    cases xs with
    | nil => cases h
    | cons x xs =>
      rw [cut_cons, List.nil_append] at h
      obtain ⟨rfl, rfl⟩ := List.cons.inj h
      exact ⟨x, xs, rfl, rfl⟩
  | cons b before ih =>
    cases xs with
    | nil => cases h
    | cons x xs =>
      rw [cut_cons, List.cons_append] at h
      exact ih (List.cons.inj h).2

/-- Cutting the image of a list is cutting the list by the rule on images. -/
theorem cut_map (f : γ → α) (lead : α → List α → β × Nat) (xs : List γ) :
    cut lead (xs.map f) =
      (cut (fun x rest => lead (f x) (rest.map f)) xs).map fun s => ⟨s.text.map f, s.label⟩ := by
  induction hn : xs.length using Nat.strongRecOn generalizing xs with
  | ind n ih =>
    cases xs with
    | nil => rfl
    | cons x xs =>
      subst hn
      rw [List.map_cons, cut_cons, cut_cons, List.map_cons, ← List.map_drop,
        ih _ (by rw [List.length_drop, List.length_cons]; omega) _ rfl, List.map_cons,
        List.map_take]

end Fixity.Segment
