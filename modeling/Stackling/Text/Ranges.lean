/-!
# Code point ranges

A character class beyond ASCII is data: a list of inclusive ranges of code points, in increasing
order. The classes themselves (letters, digits, printable characters) are modules of their own
that hold nothing but such a list and the test it decides. ASCII characters never reach a list,
because every class decides them directly; that keeps the common case cheap and lets closed terms
about ASCII text reduce without opening a table.
-/

namespace Stackling.Text

/-- Is `n` inside one of the inclusive ranges? -/
def inRanges (ranges : List (Nat × Nat)) (n : Nat) : Bool :=
  ranges.any fun r => r.1 ≤ n && n ≤ r.2

end Stackling.Text
