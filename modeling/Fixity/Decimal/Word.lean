/-!
# Whole numbers of 64 bits

The whole numbers that fit 64 bits with a sign reach from `leastWord` to `greatestWord`.
-/

namespace Fixity

def leastWord : Int := -9223372036854775808

def greatestWord : Int := 9223372036854775807

def word? (n : Int) : Option Int64 :=
  if leastWord ≤ n ∧ n ≤ greatestWord then some (Int64.ofInt n) else none

end Fixity
