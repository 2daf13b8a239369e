/-!
# Decimal layouts

Numbers as listings and reports lay them out: padded to a width, grouped by thousands, or as a
size in powers of a thousand.
-/

namespace Stackling.Text

/-- A text with `fill` in front of it up to `width` characters. -/
def padLeft (fill : Char) (width : Nat) (s : String) : String :=
  String.ofList (List.replicate (width - s.length) fill) ++ s

/-- A text with blanks after it up to `width` characters. -/
def padRight (width : Nat) (s : String) : String :=
  s ++ String.ofList (List.replicate (width - s.length) ' ')

/-- Digits, last first, with a comma after every third of them that another follows. -/
def groupReversed : List Char → List Char
  | a :: b :: c :: d :: rest => a :: b :: c :: ',' :: groupReversed (d :: rest)
  | ds => ds

/-- A number with its digits in groups of three. -/
def grouped (n : Nat) : String :=
  String.ofList (groupReversed (toString n).toList.reverse).reverse

/-- The units of a size, each a thousand of the one before. -/
def sizeUnits : List String := ["B", "kB", "MB", "GB", "TB", "PB", "EB"]

/-- The bytes of the unit with index `e`. -/
def unitBytes : (e : Nat) → Nat
  | 0 => 1
  | e + 1 => 1000 * unitBytes e

/-- Counts how often a thousand goes into `n`, up to the last unit. -/
def sizeExponent : (limit : Nat) → (n : Nat) → Nat
  | 0, _ => 0
  | limit + 1, n => if n < 1000 then 0 else sizeExponent limit (n / 1000) + 1

/-- Tenths rounded to whole units, a half going to the even neighbour. -/
def roundTenths (tenths : Nat) : Nat :=
  let whole := tenths / 10
  let part := tenths % 10
  if 5 < part || (part == 5 && whole % 2 == 1) then whole + 1 else whole

/-- A number of bytes in the largest unit that leaves at least one of it. The value is rounded to
tenths, halves up, and shows them below ten units; fewer than ten bytes are written as they are. -/
def size (n : Nat) : String :=
  if n < 10 then toString n ++ " B"
  else
    let e := sizeExponent 6 n
    let unit := unitBytes e
    let tenths := (n * 10 + unit / 2) / unit
    let suffix := sizeUnits.getD e ""
    if tenths < 100 then toString (tenths / 10) ++ "." ++ toString (tenths % 10) ++ " " ++ suffix
    else toString (roundTenths tenths) ++ " " ++ suffix

end Stackling.Text
