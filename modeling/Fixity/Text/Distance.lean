import Fixity.Bytes

/-!
# How far two words are apart

The distance of two words is the least number of bytes to insert, to erase and to replace in order
to get from one to the other.  It is found row by row: the row of a beginning of one word holds its
distance to every beginning of the other.
-/

namespace Fixity.Text

/-- The rest of a row, for one more byte `b`, from the row above it and from what stands to the
left. -/
def distanceRow (b : UInt8) : Bytes → List Nat → Nat → List Nat
  | a :: word, diagonal :: above :: row, left =>
    let here := if a = b then diagonal else min (min above left) diagonal + 1
    here :: distanceRow b word (above :: row) here
  | _, _, _ => []

def distance (word other : Bytes) : Nat :=
  let first := List.range (word.length + 1)
  let last := other.foldl (fun row b =>
    let left := row.headD 0 + 1
    left :: distanceRow b word row left) first
  last.getLastD 0

end Fixity.Text
