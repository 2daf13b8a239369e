import Stackling.Text.Utf8

/-!
# Hexadecimal

Fixed-width hexadecimal with lower-case digits, as escapes, digests and byte dumps are written.
-/

namespace Stackling.Text

/-- The hexadecimal digit for a number below sixteen. -/
def hexDigit (n : Nat) : Char :=
  if n < 10 then Char.ofNat (n + '0'.toNat) else Char.ofNat (n - 10 + 'a'.toNat)

/-- The number that a hexadecimal digit stands for. -/
def hexValue? (c : Char) : Option Nat :=
  if c.isDigit then some (c.toNat - '0'.toNat)
  else if 'a' ≤ c && c ≤ 'f' then some (c.toNat - 'a'.toNat + 10)
  else none

/-- The last `width` hexadecimal digits of `n`. -/
def hexDigits : (width : Nat) → (n : Nat) → List Char
  | 0, _ => []
  | w + 1, n => hexDigits w (n / 16) ++ [hexDigit (n % 16)]

end Stackling.Text

namespace Stackling

/-- Two hexadecimal digits for every byte. -/
def Bytes.toHex (bs : Bytes) : String :=
  String.ofList (bs.flatMap fun b => Text.hexDigits 2 b.toNat)

/-- The bytes that pairs of hexadecimal digits write. -/
def Bytes.ofHexDigits? : List Char → Option Bytes
  | [] => some []
  | [_] => none
  | h :: l :: rest => do
    let high ← Text.hexValue? h
    let low ← Text.hexValue? l
    let bs ← ofHexDigits? rest
    return UInt8.ofNat (16 * high + low) :: bs

/-- The bytes that a string of hexadecimal digits writes. -/
def Bytes.ofHex? (s : String) : Option Bytes := ofHexDigits? s.toList

end Stackling
