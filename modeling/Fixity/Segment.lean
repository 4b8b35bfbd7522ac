/-!
# Cutting a list into segments

A rule that looks at the first element `x` of a list and at what follows it, names what begins
there and says how many of the following elements belong to it.  `cut` applies the rule until
the list is used up.  Nothing is lost and nothing is read twice:

    (cut lead xs).flatMap Segment.text = xs
-/

namespace Fixity

/-- A stretch of a list and what it was recognised as. -/
structure Segment (α : Type) (β : Type) where
  text : List α
  label : β
deriving DecidableEq, Repr

namespace Segment

variable {α β : Type}

/-- The segments of the list after its first `skip` elements, put in front of `done`, the last one
first. -/
def cutOnto (lead : α → List α → β × Nat) (done : List (Segment α β)) : Nat → List α →
    List (Segment α β)
  | _, [] => done
  | skip + 1, _ :: xs => cutOnto lead done skip xs
  | 0, x :: xs =>
    let found := lead x xs
    cutOnto lead (⟨x :: xs.take found.2, found.1⟩ :: done) found.2 xs

/-- Cuts a list into segments: `lead x xs` names the segment that begins with `x` and says how many
elements of `xs` belong to it. -/
def cut (lead : α → List α → β × Nat) (xs : List α) : List (Segment α β) :=
  (cutOnto lead [] 0 xs).reverse

/-! ### What a cut consists of -/

theorem cutOnto_skip (lead : α → List α → β × Nat) (done : List (Segment α β)) :
    ∀ (n : Nat) (xs : List α), cutOnto lead done n xs = cutOnto lead done 0 (xs.drop n)
  | 0, xs => by simp
  | n + 1, [] => by simp [cutOnto]
  | n + 1, _ :: xs => by rw [cutOnto, cutOnto_skip lead done n xs, List.drop_succ_cons]

theorem cutOnto_append (lead : α → List α → β × Nat) :
    ∀ (xs : List α) (n : Nat) (done : List (Segment α β)),
      cutOnto lead done n xs = cutOnto lead [] n xs ++ done
  | [], _, done => by simp [cutOnto]
  | _ :: xs, n + 1, done => by rw [cutOnto, cutOnto, cutOnto_append lead xs n done]
  | x :: xs, 0, done => by
    simp only [cutOnto]
    rw [cutOnto_append lead xs _ (_ :: done), cutOnto_append lead xs _ [_]]
    simp

@[simp] theorem cut_nil (lead : α → List α → β × Nat) : cut lead [] = [] := rfl

/-- The first segment is the one that `lead` finds, and the rest is cut in the same way. -/
theorem cut_cons (lead : α → List α → β × Nat) (x : α) (xs : List α) :
    cut lead (x :: xs) =
      ⟨x :: xs.take (lead x xs).2, (lead x xs).1⟩ :: cut lead (xs.drop (lead x xs).2) := by
  simp only [cut, cutOnto]
  rw [cutOnto_append, cutOnto_skip]
  simp

/-- **Nothing is lost**: the segments, one after the other, are the list. -/
theorem flatMap_text_cut (lead : α → List α → β × Nat) (xs : List α) :
    (cut lead xs).flatMap Segment.text = xs := by
  induction h : xs.length using Nat.strongRecOn generalizing xs with
  | ind n ih =>
    cases xs with
    | nil => simp
    | cons x xs =>
      subst h
      have hshort : ∀ k : Nat, (xs.drop k).length < (x :: xs).length := by
        intro k
        rw [List.length_drop, List.length_cons]
        omega
      rw [cut_cons, List.flatMap_cons, ih _ (hshort _) _ rfl]
      simp

end Segment

end Fixity
