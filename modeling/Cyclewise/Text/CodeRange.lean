/-!
# Ranges of code points

A class of characters is given as a list of closed ranges of code points.  Lists are kept `tidy`:
the ranges ascend and there is a gap between any two of them, so that a class has one list.
-/

namespace Cyclewise

namespace Text

/-- All code points from `first` to `last`. -/
structure CodeRange where
  first : Nat
  last : Nat
deriving DecidableEq

namespace CodeRange

/-- Whether a character is in the range. -/
def contains (r : CodeRange) (c : Char) : Bool := r.first ≤ c.toNat && c.toNat ≤ r.last

/-- The number of code points in the range. -/
def size (r : CodeRange) : Nat := r.last + 1 - r.first

/-- Whether a character is in one of the ranges. -/
def anyContains (rs : List CodeRange) (c : Char) : Bool := rs.any (·.contains c)

/-- Ranges from pairs of ends. -/
def ofPairs (ends : List (Nat × Nat)) : List CodeRange := ends.map fun (a, b) => ⟨a, b⟩

/-- The ranges are not empty, ascend, and have gaps between them. -/
def tidy : List CodeRange → Bool
  | [] => true
  | [r] => r.first ≤ r.last
  | r :: s :: rest => r.first ≤ r.last && r.last + 1 < s.first && tidy (s :: rest)

/-- The number of code points in tidy ranges. -/
def total : List CodeRange → Nat
  | [] => 0
  | r :: rs => r.size + total rs

end CodeRange

end Text

end Cyclewise
