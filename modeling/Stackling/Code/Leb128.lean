import Stackling.Text.Utf8

/-!
# LEB128 numbers

Unsigned numbers as groups of seven bits, lowest first; every byte but the last has its high bit
set. A reader takes at most ten bytes.
-/

namespace Stackling.Leb128

/-- The bytes of a number. -/
def encode (n : Nat) : Bytes :=
  if n < 128 then [UInt8.ofNat n] else UInt8.ofNat (n % 128 + 128) :: encode (n / 128)
termination_by n
decreasing_by omega

/-- Takes a number of at most `limit` bytes off the front. -/
def decode? : (limit : Nat) → Bytes → Option (Nat × Bytes)
  | 0, _ => none
  | _ + 1, [] => none
  | limit + 1, b :: rest =>
    if b < 128 then some (b.toNat, rest)
    else (decode? limit rest).map fun r => (b.toNat % 128 + 128 * r.1, r.2)

/-- The longest form that is read. -/
def maxBytes : Nat := 10

end Stackling.Leb128
