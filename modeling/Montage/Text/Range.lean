/-!
Character classes given as tables of code point ranges.
-/

namespace Montage.Text

def inRanges (ranges : List (Nat × Nat)) (c : Char) : Bool :=
  ranges.any fun r => r.1 ≤ c.toNat && c.toNat ≤ r.2

end Montage.Text
