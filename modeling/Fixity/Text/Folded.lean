import Fixity.Text.Blank
import Fixity.Text.Utf8

/-!
# Words without regard to case

Words of a fixed vocabulary are recognised in any mixture of capitals.  The vocabulary is ASCII, so
only the characters whose lower-case form is an ASCII letter matter: the capitals `A` to `Z`, the
dotted capital I (U+0130) and the Kelvin sign (U+212A).
-/

namespace Fixity.Text

/-- The lower-case form of a character, where that form is ASCII; other characters stay. -/
def foldCase (c : Char) : Char :=
  if 'A' ≤ c ∧ c ≤ 'Z' then Char.ofNat (c.toNat + 32)
  else if c = '\u0130' then 'i'
  else if c = '\u212A' then 'k'
  else c

def trim (cs : List Char) : List Char :=
  ((cs.dropWhile isBlank).reverse.dropWhile isBlank).reverse

def folded (bs : Bytes) : Bytes := Utf8.encode ((Utf8.decode bs).map foldCase)

def foldedWord (bs : Bytes) : Bytes := Utf8.encode ((trim (Utf8.decode bs)).map foldCase)

def isBlankText (bs : Bytes) : Bool := (trim (Utf8.decode bs)).isEmpty

end Fixity.Text
