/-!
# Numbers on the command line

An integer is written with an optional sign, in decimal, or with `0x`, `0o`, `0b` or a leading zero
in hexadecimal, octal, binary or octal. An underscore may stand between two digits and after the
letter of a base. It has to fit into 64 bits. Where only decimal is read (`decimal`), a leading zero
is a digit like others and an underscore is none.
-/

namespace Stackling.Command

/-- Why a text is not the value that a flag takes. -/
inductive ValueError where
  | malformed
  | outOfRange
  deriving DecidableEq, Repr

/-- The message of a fault. -/
def ValueError.message : ValueError → String
  | malformed => "parse error"
  | outOfRange => "value out of range"

namespace Number

/-- The number of values of a word of 64 bits. -/
def wordLimit : Nat := 0x10000000000000000

/-- The value of a digit in a base up to 36. -/
def digit? (c : Char) : Option Nat :=
  if c.isDigit then some (c.toNat - '0'.toNat)
  else if c.isLower then some (c.toNat - 'a'.toNat + 10)
  else if c.isUpper then some (c.toNat - 'A'.toNat + 10)
  else none

/-- The base of a number without its sign, and its digits. -/
def splitBase : List Char → Nat × List Char
  | '0' :: c :: d :: rest =>
    if c = 'x' || c = 'X' then (16, d :: rest)
    else if c = 'o' || c = 'O' then (8, d :: rest)
    else if c = 'b' || c = 'B' then (2, d :: rest)
    else (8, c :: d :: rest)
  | '0' :: rest => (8, rest)
  | cs => (10, cs)

/-- The value of digits after others that are worth `n`. Underscores count for nothing. -/
def magnitude (base n : Nat) : List Char → Except ValueError Nat
  | [] => .ok n
  | c :: cs =>
    if c = '_' then magnitude base n cs
    else
      match digit? c with
      | none => .error .malformed
      | some d =>
        if base ≤ d then .error .malformed
        else if wordLimit ≤ n * base + d then .error .outOfRange
        else magnitude base (n * base + d) cs

/-- Does every underscore stand after a digit and before one? `afterDigit` tells whether a digit
comes before the text. -/
def underscoresFit (afterDigit : Bool) : List Char → Bool
  | [] => true
  | c :: cs =>
    if c = '_' then afterDigit && !cs.isEmpty && underscoresFit false cs
    else underscoresFit true cs

/-- Is there a minus in front, and what is behind the sign. -/
def splitSign : List Char → Bool × List Char
  | '-' :: cs => (true, cs)
  | '+' :: cs => (false, cs)
  | cs => (false, cs)

/-- A number with its sign, if it fits. -/
def withSign (negative : Bool) (n : Nat) : Except ValueError Int :=
  if negative then
    if wordLimit < 2 * n then .error .outOfRange else .ok (-Int.ofNat n)
  else if wordLimit ≤ 2 * n then .error .outOfRange
  else .ok (Int.ofNat n)

/-- The integer that a text writes. -/
def parse (s : String) : Except ValueError Int := do
  let (negative, body) := splitSign s.toList
  if body.isEmpty then throw .malformed
  let (base, digits) := splitBase body
  let n ← magnitude base 0 digits
  -- Whatever announces another base than ten counts as a digit.
  if !underscoresFit (base != 10) digits then throw .malformed
  withSign negative n

/-- The integer that a text writes in decimal, where an underscore is no digit. -/
def decimal (cs : List Char) : Except ValueError Int := do
  let (negative, body) := splitSign cs
  if body.isEmpty then throw .malformed
  let (digits, rest) := body.span (· ≠ '_')
  let n ← magnitude 10 0 digits
  if !rest.isEmpty then throw .malformed
  withSign negative n

end Number

/-- The truth value that a text writes. -/
def parseSwitch (s : String) : Except ValueError Bool :=
  if ["1", "t", "T", "TRUE", "true", "True"].contains s then .ok true
  else if ["0", "f", "F", "FALSE", "false", "False"].contains s then .ok false
  else .error .malformed

end Stackling.Command
