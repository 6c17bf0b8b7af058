/-!
# Sets of code points

A class of characters is kept as the list of its code point ranges, ends included and
ascending. Membership is a scan of that list, so a statement about a class is a statement
about finitely many ranges.
-/

namespace ApiCatalog.Text

/-- The code point of `c` lies in one of the ranges. -/
def inRanges (ranges : List (Nat × Nat)) (c : Char) : Bool :=
  ranges.any fun r => r.1 ≤ c.toNat && c.toNat ≤ r.2

end ApiCatalog.Text
