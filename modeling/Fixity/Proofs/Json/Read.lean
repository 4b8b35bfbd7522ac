import Fixity.Proofs.Json.Escape
import Mathlib.Data.List.Forall2

/-!
# Written values are read back

`Json.Rereads d v v'` says that `v'` is read where `v` was written, whatever follows it, by a reader
that allows `d` levels.  Strings change as `Json.reread` says; whole numbers do not change, arrays
and objects are read item by item.  So the value that a written document is read as is put together
from the values that its parts are read as (`Rereads.read?`).
-/

namespace Fixity.Json

def isBlank (b : UInt8) : Bool := b == 32 || b == 10 || b == 9 || b == 13

theorem skipBlank_cons {b : UInt8} (h : isBlank b = false) (bs : Bytes) :
    skipBlank (b :: bs) = b :: bs := by
  rw [skipBlank, List.dropWhile_cons, if_neg]
  show ¬isBlank b = true
  simp [h]

def EndsNumber (rest : Bytes) : Prop := ∀ b ∈ rest.head?, isNumberByte b = false

/-- Where `v` was written, `v'` is read by a reader that allows `d` levels. -/
structure Rereads (d : Nat) (v v' : Json) : Prop where
  /-- The text of `v` begins neither with white space nor with a closing bracket. -/
  begins : ∃ b bs, v.write = b :: bs ∧ isBlank b = false ∧ b ≠ 93
  reads : ∀ {bound depth : Nat} {rest : Bytes}, v.write.length ≤ bound → d ≤ depth →
    EndsNumber rest → readValue? bound depth (v.write ++ rest) = some (v', rest)

theorem Rereads.mono {d d' : Nat} {v v' : Json} (h : Rereads d v v') (hd : d ≤ d') :
    Rereads d' v v' := ⟨h.begins, fun hb hdepth hrest => h.reads hb (Nat.le_trans hd hdepth) hrest⟩

theorem Rereads.skipBlank {d : Nat} {v v' : Json} (h : Rereads d v v') (rest : Bytes) :
    skipBlank (v.write ++ rest) = v.write ++ rest := by
  obtain ⟨b, bs, hw, hb, -⟩ := h.begins
  rw [hw, List.cons_append, skipBlank_cons hb]

theorem Rereads.one_le_length {d : Nat} {v v' : Json} (h : Rereads d v v') :
    1 ≤ v.write.length := by
  obtain ⟨b, bs, hw, -, -⟩ := h.begins
  rw [hw, List.length_cons]
  omega

/-! ### Strings and numbers -/

theorem rereads_string (s : Bytes) : Rereads 1 (.string s) (.string (reread s)) := by
  refine ⟨⟨34, rawOf s ++ [34], by rw [write, writeString_eq], by decide, by decide⟩, ?_⟩
  intro bound depth rest _ hdepth _
  obtain ⟨depth, rfl⟩ : ∃ k, depth = k + 1 := ⟨depth - 1, by omega⟩
  rw [write, writeString_eq, List.cons_append, List.append_assoc, List.singleton_append, readValue?,
    readRaw?_rawOf, Option.map_some]
  simp only [unescape_rawOf]

theorem readValue?_number {b : UInt8} (h : isNumberByte b = true) (bound depth : Nat) (bs : Bytes) :
    readValue? bound (depth + 1) (b :: bs) = readNumber? (b :: bs) := by
  have hne : ∀ b' : UInt8, isNumberByte b' = false → ∀ bs', b :: bs = b' :: bs' → False := by
    rintro b' hb' bs' heq
    obtain rfl := (List.cons.inj heq).1
    rw [h] at hb'
    cases hb'
  rw [readValue?]
  · exact List.cons_ne_nil b bs
  · exact hne 123 (by decide)
  · exact hne 91 (by decide)
  · exact hne 34 (by decide)
  · exact hne 116 (by decide)
  · exact hne 102 (by decide)
  · exact hne 110 (by decide)

theorem isBlank_of_isNumberByte {b : UInt8} (h : isNumberByte b = true) : isBlank b = false := by
  refine Bool.eq_false_iff.mpr fun hblank => ?_
  simp only [isBlank, Bool.or_eq_true, beq_iff_eq] at hblank
  rcases hblank with ((rfl | rfl) | rfl) | rfl
  all_goals exact absurd h (by decide)

theorem takeWhile_isNumberByte {text rest : Bytes} (h : ∀ b ∈ text, isNumberByte b = true)
    (hrest : EndsNumber rest) : (text ++ rest).takeWhile isNumberByte = text := by
  have hstop : rest.takeWhile isNumberByte = [] := by
    cases rest with
    | nil => rfl
    | cons b bs => rw [List.takeWhile_cons, if_neg (by simp [hrest b rfl])]
  rw [List.takeWhile_append_of_pos h, hstop, List.append_nil]

theorem isNumberByte_of_mem_ofInt (i : Int) : ∀ b ∈ Bytes.ofInt i, isNumberByte b = true := by
  have hdecimal : ∀ n : Nat, ∀ b ∈ Bytes.ofNat n, isNumberByte b = true := by
    intro n b hb
    have hd := Bytes.isDecimal_of_mem_ofNat n b hb
    rw [Bytes.isDecimal] at hd
    simp only [isNumberByte, hd, Bool.true_or]
  cases i with
  | ofNat n => exact hdecimal n
  | negSucc n =>
    intro b hb
    rcases List.mem_append.mp hb with hb | hb
    · obtain rfl := List.mem_singleton.mp hb
      decide
    · exact hdecimal _ b hb

theorem exists_isDecimal_of_ofInt (i : Int) : ∃ b ∈ Bytes.ofInt i, Bytes.isDecimal b = true := by
  have hdigit : ∀ n : Nat, ∃ b ∈ Bytes.ofNat n, Bytes.isDecimal b = true := by
    intro n
    obtain ⟨b, hb⟩ := List.exists_mem_of_ne_nil _ (Bytes.ofNat_ne_nil n)
    exact ⟨b, hb, Bytes.isDecimal_of_mem_ofNat n b hb⟩
  cases i with
  | ofNat n => exact hdigit n
  | negSucc n =>
    obtain ⟨b, hb, hd⟩ := hdigit (n + 1)
    exact ⟨b, List.mem_append_right _ hb, hd⟩

theorem rereads_ofInt (i : Int) : Rereads 1 (ofInt i) (ofInt i) := by
  obtain ⟨d, hd, hdecimal⟩ := exists_isDecimal_of_ofInt i
  have hall := isNumberByte_of_mem_ofInt i
  have hne : ∀ text : Bytes, (∀ b ∈ text, Bytes.isDecimal b = false) → Bytes.ofInt i ≠ text := by
    intro text htext heq
    rw [heq] at hd
    rw [htext d hd] at hdecimal
    cases hdecimal
  obtain ⟨b, bs, htext⟩ : ∃ b bs, Bytes.ofInt i = b :: bs :=
    List.exists_cons_of_ne_nil (hne [] (by simp))
  have hb : isNumberByte b = true := hall b (by rw [htext]; exact List.mem_cons_self)
  refine ⟨⟨b, bs, htext, isBlank_of_isNumberByte hb, ?_⟩, ?_⟩
  · rintro rfl
    exact absurd hb (by decide)
  · intro bound depth rest _ hdepth hrest
    obtain ⟨depth, rfl⟩ : ∃ k, depth = k + 1 := ⟨depth - 1, by omega⟩
    show readValue? bound (depth + 1) (Bytes.ofInt i ++ rest) = _
    have hread : readValue? bound (depth + 1) (Bytes.ofInt i ++ rest) =
        readNumber? (Bytes.ofInt i ++ rest) := by
      rw [htext, List.cons_append]
      exact readValue?_number hb bound depth _
    have hempty : (Bytes.ofInt i).isEmpty = false := by rw [htext]; rfl
    have hsign : ∀ s : UInt8, Bytes.isDecimal s = false → Bytes.ofInt i ≠ [s] :=
      fun s hs => hne [s] (List.forall_mem_singleton.mpr hs)
    have hminus : (Bytes.ofInt i == Bytes.of "-") = false := beq_false_of_ne (hsign 45 (by decide))
    have hplus : (Bytes.ofInt i == Bytes.of "+") = false := beq_false_of_ne (hsign 43 (by decide))
    rw [hread, readNumber?, takeWhile_isNumberByte hall hrest, List.drop_left]
    simp only [hempty, hminus, hplus, Bool.or_false, Bool.false_and, Bool.false_eq_true, if_false]
    rfl

/-! ### Arrays -/

theorem endsNumber_cons {b : UInt8} (h : isNumberByte b = false) (rest : Bytes) :
    EndsNumber (b :: rest) := by
  intro b' hb'
  obtain rfl := Option.some.inj hb'
  exact h

theorem writeItems_cons_cons (v w : Json) (vs : List Json) :
    writeItems (v :: w :: vs) = v.write ++ 44 :: writeItems (w :: vs) := by
  rw [writeItems]
  exact List.cons_ne_nil w vs

theorem readItems?_writeItems {d bound depth : Nat} (hdepth : d ≤ depth) (rest : Bytes) :
    ∀ {vs vs' : List Json} (read : List Json) {k : Nat}, List.Forall₂ (Rereads d) vs vs' →
      vs ≠ [] → vs.length ≤ k → (writeItems vs).length ≤ bound →
      readItems? (readValue? bound depth) read k (writeItems vs ++ 93 :: rest) =
        some (.array (read.reverse ++ vs'), rest) := by
  intro vs vs' read k hvs
  induction hvs generalizing read k with
  | nil => exact fun hne => absurd rfl hne
  | @cons v v' vs vs' hv hvs ih =>
    intro _ hk hbound
    obtain ⟨k, rfl⟩ : ∃ m, k = m + 1 := ⟨k - 1, by rw [List.length_cons] at hk; omega⟩
    cases hvs with
    | nil =>
      have hend : EndsNumber (93 :: rest) := endsNumber_cons (by decide) rest
      rw [writeItems] at hbound ⊢
      rw [readItems?, hv.skipBlank, hv.reads hbound hdepth hend]
      simp only [skipBlank_cons (show isBlank 93 = false by decide), List.reverse_cons]
    | @cons w w' ws ws' hw hws =>
      have hend : ∀ bs, EndsNumber (44 :: bs) := endsNumber_cons (by decide)
      rw [writeItems_cons_cons, List.length_append, List.length_cons] at hbound
      rw [writeItems_cons_cons, List.append_assoc, List.cons_append, readItems?, hv.skipBlank,
        hv.reads (by omega) hdepth (hend _)]
      simp only [skipBlank_cons (show isBlank 44 = false by decide)]
      rw [ih _ (List.cons_ne_nil _ _) (by simpa using hk) (by omega), List.reverse_cons,
        List.append_assoc]
      rfl

theorem writeItems_begins {d : Nat} {v : Json} {vs vs' : List Json}
    (h : List.Forall₂ (Rereads d) (v :: vs) vs') :
    ∃ b bs, writeItems (v :: vs) = b :: bs ∧ isBlank b = false ∧ b ≠ 93 := by
  cases h with
  | @cons _ v' _ vs' hv hvs =>
    obtain ⟨b, bs, hw, hblank, hb⟩ := hv.begins
    cases vs with
    | nil => exact ⟨b, bs, by rw [writeItems, hw], hblank, hb⟩
    | cons w ws =>
      refine ⟨b, bs ++ 44 :: writeItems (w :: ws), ?_, hblank, hb⟩
      rw [writeItems_cons_cons, hw, List.cons_append]

theorem length_le_length_writeItems {d : Nat} {vs vs' : List Json}
    (h : List.Forall₂ (Rereads d) vs vs') : vs.length ≤ (writeItems vs).length := by
  induction h with
  | nil => exact Nat.le_refl _
  | @cons v v' vs vs' hv hvs ih =>
    have hone := hv.one_le_length
    cases hvs with
    | nil =>
      rw [writeItems]
      exact hone
    | @cons w w' ws ws' hw hws =>
      rw [writeItems_cons_cons, List.length_append, List.length_cons (a := v),
        List.length_cons (a := 44)]
      omega

theorem readValue?_array {b : UInt8} (hblank : isBlank b = false) (hb : b ≠ 93)
    (bound depth : Nat) (bs : Bytes) :
    readValue? bound (depth + 1) (91 :: b :: bs) =
      readItems? (readValue? bound depth) [] bound (b :: bs) := by
  rw [readValue?, skipBlank_cons hblank]
  split
  case h_1 heq => exact absurd (List.cons.inj heq).1 hb
  case h_2 => rfl

theorem rereads_array {d : Nat} {vs vs' : List Json} (h : List.Forall₂ (Rereads d) vs vs') :
    Rereads (d + 1) (.array vs) (.array vs') := by
  refine ⟨⟨91, writeItems vs ++ [93], by rw [write], by decide, by decide⟩, ?_⟩
  intro bound depth rest hbound hdepth _
  obtain ⟨depth, rfl⟩ : ∃ k, depth = k + 1 := ⟨depth - 1, by omega⟩
  have hlen := length_le_length_writeItems h
  rw [write, List.length_cons, List.length_append] at hbound
  rw [write, List.cons_append, List.append_assoc, List.singleton_append]
  cases vs with
  | nil =>
    cases h
    rw [writeItems, List.nil_append, readValue?, skipBlank_cons (by decide)]
    rfl
  | cons v vs =>
    obtain ⟨b, bs, hw, hblank, hb⟩ := writeItems_begins h
    have hitems := readItems?_writeItems (Nat.le_of_succ_le_succ hdepth) rest [] h
      (List.cons_ne_nil _ _) (by omega : _ ≤ bound) (by omega : _ ≤ bound)
    rw [hw, List.cons_append] at hitems ⊢
    rw [readValue?_array hblank hb, hitems]
    rfl

/-! ### Objects -/

def MemberRereads (d : Nat) (m m' : Bytes × Json) : Prop :=
  m.1.any isSpecial = false ∧ m'.1 = m.1 ∧ Rereads d m.2 m'.2

theorem Rereads.member {d : Nat} {v v' : Json} (h : Rereads d v v') {name : Bytes}
    (hname : name.any isSpecial = false) : MemberRereads d (name, v) (name, v') := ⟨hname, rfl, h⟩

theorem rawOf_of_plain {name : Bytes} (h : name.any isSpecial = false) : rawOf name = name := by
  rw [rawOf, if_neg (by simp [h])]

theorem writeMembers_cons_cons (name : Bytes) (v : Json) (m : Bytes × Json)
    (ms : List (Bytes × Json)) :
    writeMembers ((name, v) :: m :: ms) =
      writeString name ++ 58 :: (v.write ++ 44 :: writeMembers (m :: ms)) := by
  rw [writeMembers]
  exact List.cons_ne_nil m ms

theorem writeMembers_begins (m : Bytes × Json) (ms : List (Bytes × Json)) :
    ∃ bs, writeMembers (m :: ms) = 34 :: bs := by
  obtain ⟨name, v⟩ := m
  cases ms with
  | nil =>
    rw [writeMembers, writeString_eq]
    exact ⟨_, rfl⟩
  | cons m' ms =>
    rw [writeMembers_cons_cons, writeString_eq]
    exact ⟨_, rfl⟩

theorem readMembers?_member {d bound depth : Nat} (hdepth : d ≤ depth) {name : Bytes} {v v' : Json}
    (hname : name.any isSpecial = false) (hv : Rereads d v v') (hbound : v.write.length ≤ bound)
    (read : List (Bytes × Json)) (k : Nat) {b : UInt8} (hb : isNumberByte b = false)
    (hblank : isBlank b = false) (rest : Bytes) :
    readMembers? (readValue? bound depth) read (k + 1)
        (writeString name ++ 58 :: (v.write ++ b :: rest)) =
      match b :: rest with
      | 44 :: rest => readMembers? (readValue? bound depth) ((name, v') :: read) k rest
      | 125 :: rest => some (.object ((name, v') :: read).reverse, rest)
      | _ => none := by
  have hraw : ∀ rest, readRaw? [] (name ++ 34 :: rest) = some (name, rest) := by
    intro rest
    have h := readRaw?_rawOf name rest
    rwa [rawOf_of_plain hname] at h
  rw [writeString_eq, rawOf_of_plain hname, List.cons_append, List.append_assoc,
    List.singleton_append, readMembers?, skipBlank_cons (by decide)]
  simp only [hraw, skipBlank_cons (show isBlank 58 = false by decide)]
  rw [hv.skipBlank, hv.reads hbound hdepth (endsNumber_cons hb rest)]
  simp only [skipBlank_cons hblank]
  rfl

theorem readMembers?_writeMembers {d bound depth : Nat} (hdepth : d ≤ depth) (rest : Bytes) :
    ∀ {ms ms' : List (Bytes × Json)} (read : List (Bytes × Json)) {k : Nat},
      List.Forall₂ (MemberRereads d) ms ms' → ms ≠ [] → ms.length ≤ k →
      (writeMembers ms).length ≤ bound →
      readMembers? (readValue? bound depth) read k (writeMembers ms ++ 125 :: rest) =
        some (.object (read.reverse ++ ms'), rest) := by
  intro ms ms' read k hms
  induction hms generalizing read k with
  | nil => exact fun hne => absurd rfl hne
  | @cons m m' ms ms' hm hms ih =>
    intro _ hk hbound
    obtain ⟨k, rfl⟩ : ∃ n, k = n + 1 := ⟨k - 1, by rw [List.length_cons] at hk; omega⟩
    obtain ⟨name, v⟩ := m
    obtain ⟨name', v'⟩ := m'
    obtain ⟨hname, rfl, hv⟩ : name.any isSpecial = false ∧ name' = name ∧ Rereads d v v' := hm
    cases hms with
    | nil =>
      rw [writeMembers, List.length_append, List.length_cons] at hbound
      rw [writeMembers, List.append_assoc, List.cons_append,
        readMembers?_member hdepth hname hv (by omega) read k (by decide) (by decide)]
      simp only [List.reverse_cons]
    | @cons n n' ns ns' hn hns =>
      rw [writeMembers_cons_cons] at hbound
      simp only [List.length_append, List.length_cons] at hbound
      rw [writeMembers_cons_cons, List.append_assoc, List.cons_append, List.append_assoc,
        List.cons_append,
        readMembers?_member hdepth hname hv (by omega) read k (by decide) (by decide)]
      show readMembers? _ _ k _ = _
      rw [ih _ (List.cons_ne_nil _ _) (by simpa using hk) (by omega), List.reverse_cons,
        List.append_assoc]
      rfl

theorem length_le_length_writeMembers (ms : List (Bytes × Json)) :
    ms.length ≤ (writeMembers ms).length := by
  induction ms with
  | nil => exact Nat.zero_le _
  | cons m ms ih =>
    obtain ⟨name, v⟩ := m
    cases ms with
    | nil =>
      rw [writeMembers, List.length_append, List.length_cons, List.length_cons, List.length_nil]
      omega
    | cons n ns =>
      rw [writeMembers_cons_cons, List.length_cons]
      simp only [List.length_append, List.length_cons] at ih ⊢
      omega

theorem rereads_object {d : Nat} {ms ms' : List (Bytes × Json)}
    (h : List.Forall₂ (MemberRereads d) ms ms') (hne : ms ≠ []) :
    Rereads (d + 1) (.object ms) (.object ms') := by
  refine ⟨⟨123, writeMembers ms ++ [125], by rw [write], by decide, by decide⟩, ?_⟩
  intro bound depth rest hbound hdepth _
  obtain ⟨depth, rfl⟩ : ∃ k, depth = k + 1 := ⟨depth - 1, by omega⟩
  have hlen := length_le_length_writeMembers ms
  rw [write, List.length_cons, List.length_append] at hbound
  have hmembers := readMembers?_writeMembers (Nat.le_of_succ_le_succ hdepth) rest [] h hne
    (by omega : _ ≤ bound) (by omega : _ ≤ bound)
  obtain ⟨m, ms, rfl⟩ := List.exists_cons_of_ne_nil hne
  obtain ⟨bs, hw⟩ := writeMembers_begins m ms
  rw [write, List.cons_append, List.append_assoc, List.singleton_append]
  rw [hw, List.cons_append] at hmembers ⊢
  rw [readValue?, skipBlank_cons (by decide)]
  exact hmembers

/-! ### Whole texts -/

/-- **What is read from the text of a value.** -/
theorem Rereads.read? {d : Nat} {v v' : Json} (h : Rereads d v v') (hd : d ≤ maxNesting) :
    Json.read? v.write = some v' := by
  have hend : EndsNumber [] := fun b hb => by cases hb
  have hread := h.reads (Nat.le_refl _) hd hend
  have hskip := h.skipBlank []
  rw [List.append_nil] at hread hskip
  rw [Json.read?, hskip, hread]
  rfl

end Fixity.Json
