/-!
# Sets of code points

A `CodeSet` is a set of code points given by its boundaries: the ascending points at which
membership flips, starting from "outside" at zero. A code point belongs to the set exactly when
an odd number of boundaries lie at or below it. Unicode property tables are runs of code
points, so a few hundred boundaries describe a property over all 1,114,112 points, and one
search over them answers a lookup.

`countUpTo` finds how many boundaries lie at or below a point by halving the range of indices.
-/

namespace Concatenative

/-- A set of code points given by the ascending points at which membership flips. -/
structure CodeSet where
  bounds : Array Nat

namespace CodeSet

/-- The number of boundaries at or below `n`, assuming they ascend: the first index whose
boundary exceeds `n`, found by halving `[lo, hi)`. -/
def countUpTo (s : CodeSet) (n : Nat) : Nat :=
  let rec loop (lo hi : Nat) (hlohi : lo ≤ hi) (hhi : hi ≤ s.bounds.size) : Nat :=
    if h : lo < hi then
      let mid := lo + (hi - lo) / 2
      have hmidhi : mid < hi := by omega
      have hmid : mid < s.bounds.size := Nat.lt_of_lt_of_le hmidhi hhi
      if s.bounds[mid] ≤ n then loop (mid + 1) hi (by omega) hhi
      else loop lo mid (by omega) (by omega)
    else lo
  termination_by hi - lo
  loop 0 s.bounds.size (Nat.zero_le _) (Nat.le_refl _)

/-- `c` belongs to the set: an odd number of boundaries lie at or below it. -/
def contains (s : CodeSet) (c : Char) : Bool :=
  s.countUpTo c.toNat % 2 == 1

end CodeSet

end Concatenative
