import Stackling.Text.Utf8

/-!
# UTF-16

Bytes read as sixteen-bit units in either order. A surrogate that a low surrogate follows takes
that unit with it, and the pair is a character if the first is a high surrogate; any other
surrogate, and a last byte without a partner, reads as U+FFFD.
-/

namespace Stackling.Utf16

/-- Which byte of a unit comes first. -/
inductive Order where
  | little
  | big
  deriving DecidableEq, Repr

/-- The unit that two bytes form. -/
def unit : Order → UInt8 → UInt8 → Nat
  | .little, a, b => a.toNat + b.toNat * 256
  | .big, a, b => a.toNat * 256 + b.toNat

/-- Is `u` either half of a pair? -/
def isSurrogate (u : Nat) : Bool := 0xD800 ≤ u && u < 0xE000

/-- Is `u` the second half of a pair? -/
def isLow (u : Nat) : Bool := 0xDC00 ≤ u && u < 0xE000

/-- The character of a surrogate and a low surrogate after it. -/
def pair (u v : Nat) : Char :=
  if u < 0xDC00 then Char.ofNat (0x10000 + (u - 0xD800) * 0x400 + (v - 0xDC00))
  else Utf8.replacement

/-- A unit that stands alone. -/
def single (u : Nat) : Char :=
  if isSurrogate u then Utf8.replacement else Char.ofNat u

/-- The characters of a sequence of units. -/
def decode (o : Order) : Bytes → List Char
  | [] => []
  | [_] => [Utf8.replacement]
  | a :: b :: c :: d :: rest =>
    let u := unit o a b
    let v := unit o c d
    if isSurrogate u && isLow v then pair u v :: decode o rest
    else single u :: decode o (c :: d :: rest)
  | a :: b :: rest => single (unit o a b) :: decode o rest

end Stackling.Utf16
