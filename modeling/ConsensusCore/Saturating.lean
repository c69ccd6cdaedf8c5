/-!
# Saturating counters

Sizes, indices and delays are counted in 64 bits, by counters that stop at the
largest number instead of starting anew.
-/

namespace ConsensusCore.Saturating

/-- The largest number that a counter holds. -/
def ceiling : Nat := UInt64.size - 1

/-- The sum of two numbers, or the largest number. -/
def add (a b : Nat) : Nat := min (a + b) ceiling

/-- The product of two numbers, or the largest number. -/
def mul (a b : Nat) : Nat := min (a * b) ceiling

end ConsensusCore.Saturating
