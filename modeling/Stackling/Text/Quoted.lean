import Stackling.Text.Hex
import Stackling.Text.Printable

/-!
# Quoted text

Messages and listings show text between quotes with everything unreadable escaped: the delimiter
and the backslash after a backslash, the seven control characters that have a letter, other ASCII
controls and stray bytes as `\xNN`, and other characters that are not printable as `\uNNNN` or
`\UNNNNNNNN`. The result is always well-formed text.
-/

namespace Stackling.Quoted

open Text

/-- The letter that follows the backslash for a control character that has one. -/
def controlLetter? (c : Char) : Option Char :=
  match c.toNat with
  | 0x07 => some 'a'
  | 0x08 => some 'b'
  | 0x09 => some 't'
  | 0x0A => some 'n'
  | 0x0B => some 'v'
  | 0x0C => some 'f'
  | 0x0D => some 'r'
  | _ => none

/-- A byte as an escape. -/
def escapeByte (b : UInt8) : List Char := '\\' :: 'x' :: hexDigits 2 b.toNat

/-- One character between quotes of the kind `delimiter`. -/
def escapeChar (delimiter c : Char) : List Char :=
  if c = delimiter || c = '\\' then ['\\', c]
  else if isPrintable c then [c]
  else match controlLetter? c with
    | some l => ['\\', l]
    | none =>
      if c.toNat < 0x80 then '\\' :: 'x' :: hexDigits 2 c.toNat
      else if c.toNat < 0x10000 then '\\' :: 'u' :: hexDigits 4 c.toNat
      else '\\' :: 'U' :: hexDigits 8 c.toNat

/-- One character of a text, or a stray byte of it, between double quotes. -/
def escapeAtom : Utf8.Atom → List Char
  | .char c => escapeChar '"' c
  | .stray b => escapeByte b

/-- A character in single quotes. -/
def char (c : Char) : String :=
  String.ofList ('\'' :: escapeChar '\'' c ++ ['\''])

/-- Bytes in double quotes. -/
def bytes (bs : Bytes) : String :=
  String.ofList ('"' :: (Utf8.split bs).flatMap escapeAtom ++ ['"'])

/-- A string in double quotes. -/
def string (s : String) : String :=
  String.ofList ('"' :: s.toList.flatMap (escapeChar '"') ++ ['"'])

end Stackling.Quoted
