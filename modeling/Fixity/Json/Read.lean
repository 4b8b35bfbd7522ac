import Fixity.Json
import Fixity.Json.Unescape

/-!
# Reading JSON

A lenient reader: numbers are not checked beyond the characters they may consist of, and strings may
hold any bytes.  Values nest at most `maxNesting` deep.

Bytes are matched by their codes: quote 34, comma 44, colon 58, brackets 91 and 93, backslash 92,
braces 123 and 125.

The readers of items and members take a bound on how many there can be.  Every item takes at least
one byte, so the length of the whole text is always enough.
-/

namespace Fixity.Json

/-- How deep values may nest; a value that holds no other has depth one. -/
def maxNesting : Nat := 300

def skipBlank (bs : Bytes) : Bytes := bs.dropWhile fun b => b == 32 || b == 10 || b == 9 || b == 13

/-- The text up to the quote that ends a string, and what follows it.  A byte after a backslash does
not end the string. -/
def readRaw? (read : Bytes) : Bytes → Option (Bytes × Bytes)
  | [] => none
  | 34 :: rest => some (read.reverse, rest)
  | 92 :: b :: rest => readRaw? (b :: 92 :: read) rest
  | b :: rest => readRaw? (b :: read) rest

def isNumberByte (b : UInt8) : Bool :=
  (48 ≤ b && b ≤ 57) || b == 46 || b == 45 || b == 43 || b == 101 || b == 69

def beginsSpecial (bs : Bytes) : Bool :=
  let word := (bs.take 3).map fun b => if 65 ≤ b && b ≤ 90 then b + 32 else b
  word == Bytes.of "inf" || word == Bytes.of "nan"

/-- Reads a number: a run of the characters of numbers, or infinity or no number with an optional
sign.  A sign alone is no number unless it ends the text. -/
def readNumber? (bs : Bytes) : Option (Json × Bytes) :=
  let run := bs.takeWhile isNumberByte
  let rest := bs.drop run.length
  if run.isEmpty || (run == Bytes.of "-" || run == Bytes.of "+") && !rest.isEmpty then
    if beginsSpecial rest then some (.number (run ++ rest.take 3), rest.drop 3) else none
  else some (.number run, rest)

def readItems? (value : Bytes → Option (Json × Bytes)) (read : List Json) :
    Nat → Bytes → Option (Json × Bytes)
  | 0, _ => none
  | bound + 1, bs =>
    match value (skipBlank bs) with
    | none => none
    | some (v, rest) =>
      match skipBlank rest with
      | 44 :: rest => readItems? value (v :: read) bound rest
      | 93 :: rest => some (.array (v :: read).reverse, rest)
      | _ => none

def readMembers? (value : Bytes → Option (Json × Bytes)) (read : List (Bytes × Json)) :
    Nat → Bytes → Option (Json × Bytes)
  | 0, _ => none
  | bound + 1, bs =>
    match skipBlank bs with
    | 34 :: rest =>
      match readRaw? [] rest with
      | none => none
      | some (name, rest) =>
        match skipBlank rest with
        | 58 :: rest =>
          match value (skipBlank rest) with
          | none => none
          | some (v, rest) =>
            match skipBlank rest with
            | 44 :: rest => readMembers? value ((name, v) :: read) bound rest
            | 125 :: rest => some (.object ((name, v) :: read).reverse, rest)
            | _ => none
        | _ => none
    | _ => none

/-- Reads one value that nests at most `depth` deep, and leaves what follows it. -/
def readValue? (bound : Nat) : Nat → Bytes → Option (Json × Bytes)
  | 0, _ => none
  | depth + 1, bs =>
    match bs with
    | [] => none
    | 123 :: rest =>
      match skipBlank rest with
      | 125 :: rest => some (.object [], rest)
      | rest => readMembers? (readValue? bound depth) [] bound rest
    | 91 :: rest =>
      match skipBlank rest with
      | 93 :: rest => some (.array [], rest)
      | rest => readItems? (readValue? bound depth) [] bound rest
    | 34 :: rest => (readRaw? [] rest).map fun (raw, rest) => (.string (unescape raw), rest)
    -- the first letters of true, false and null
    | 116 :: _ => (Bytes.after? "true" bs).map (.bool true, ·)
    | 102 :: _ => (Bytes.after? "false" bs).map (.bool false, ·)
    | 110 :: _ =>
      match Bytes.after? "null" bs with
      | some rest => some (.null, rest)
      | none => if beginsSpecial bs then some (.number (bs.take 3), bs.drop 3) else none
    | _ => readNumber? bs

def read? (bs : Bytes) : Option Json :=
  match readValue? bs.length maxNesting (skipBlank bs) with
  | some (v, rest) => if (skipBlank rest).isEmpty then some v else none
  | none => none

/-! ### Looking up names -/

/-- An object whose members are looked up one after the other. -/
structure Members where
  members : List (Bytes × Json)
  /-- The escapes in the names have been undone. -/
  plain : Bool

namespace Members

def of : Json → Members
  | .object members => ⟨members, false⟩
  | _ => ⟨[], true⟩

/-- Looks up a name.  Names are first compared as they were written; when none matches, their
escapes are undone for this look-up and all later ones.  The first match counts. -/
def find (m : Members) (name : Bytes) : Option Json × Members :=
  let first (members : List (Bytes × Json)) := (members.find? (·.1 == name)).map (·.2)
  if m.plain then (first m.members, m)
  else match first m.members with
    | some v => (some v, m)
    | none =>
      let members := m.members.map fun (n, v) => (unescape n, v)
      (first members, ⟨members, true⟩)

end Members

end Fixity.Json
