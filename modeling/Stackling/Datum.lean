/-!
# Data

S-expression data as patterns and tree dumps are written: symbols, quoted strings, integers, the
ellipsis, lists in parentheses and arrays in brackets. Integers keep their digits as text, so that
a number of any size and script is read and written unchanged.

`Datum.chars` is the one written form of a datum; items are separated by a single blank.
-/

namespace Stackling

/-- A datum. -/
inductive Datum where
  | symbol (text : String)
  | string (text : String)
  | integer (text : String)
  | ellipsis
  | list (items : List Datum)
  | array (items : List Datum)
  deriving Repr, Inhabited

namespace Datum

/-- The sorts of datum. -/
inductive Shape where
  | symbol
  | string
  | integer
  | ellipsis
  | list
  | array
  deriving DecidableEq, Repr

/-- The name of a sort of datum. -/
def Shape.name : Shape → String
  | symbol => "symbol"
  | string => "string"
  | integer => "integer"
  | ellipsis => "ellipsis"
  | list => "list"
  | array => "array"

/-- The sort of a datum. -/
def shape : Datum → Shape
  | symbol _ => .symbol
  | string _ => .string
  | integer _ => .integer
  | ellipsis => .ellipsis
  | list _ => .list
  | array _ => .array

/-- Has the datum no items? -/
def isAtom : Datum → Bool
  | list _ | array _ => false
  | _ => true

/-- The text of an atom. -/
def atomText : Datum → String
  | symbol s | string s | integer s => s
  | _ => ""

/-- The items of a list or an array. -/
def items : Datum → List Datum
  | list xs | array xs => xs
  | _ => []

/-- The symbol that a list starts with, or nothing. -/
def head : Datum → String
  | list (symbol s :: _) => s
  | _ => ""

/-- One character inside a quoted string. -/
def escapeChar (c : Char) : List Char :=
  if c = '\\' || c = '"' then ['\\', c] else [c]

mutual

/-- The written form of a datum. -/
def chars : Datum → List Char
  | symbol s => s.toList
  | integer s => s.toList
  | string s => '"' :: s.toList.flatMap escapeChar ++ ['"']
  | ellipsis => ['.', '.', '.']
  | list xs => '(' :: charsAll xs ++ [')']
  | array xs => '[' :: charsAll xs ++ [']']

/-- The written forms of items, one blank between neighbours. -/
def charsAll : List Datum → List Char
  | [] => []
  | [d] => chars d
  | d :: e :: ds => chars d ++ ' ' :: charsAll (e :: ds)

end

/-- The written form of a datum as a string. -/
def text (d : Datum) : String := String.ofList d.chars

end Datum

end Stackling
