/-!
# Positions in source text

Lines and columns count from 1 and columns count characters. A line number that is not positive
means that a thing has no place in the source.
-/

namespace Stackling

/-- A place in source text. -/
structure Position where
  /-- line, from 1 -/
  line : Int
  /-- column in characters, from 1 -/
  column : Int
  deriving DecidableEq, Repr, Inhabited

namespace Position

/-- Where a text begins. -/
def start : Position := ⟨1, 1⟩

/-- The position of what has no place in the source. -/
def nowhere : Position := ⟨0, 0⟩

/-- Does the position point into source text? -/
def isKnown (p : Position) : Bool := 0 < p.line

/-- The position after reading `c` at `p`. -/
def next (p : Position) (c : Char) : Position :=
  if c = '\n' then ⟨p.line + 1, 1⟩ else ⟨p.line, p.column + 1⟩

/-- The position after reading the text `cs` from `p`. -/
def after (p : Position) (cs : List Char) : Position := cs.foldl next p

@[simp] theorem after_nil (p : Position) : p.after [] = p := rfl

@[simp] theorem after_cons (p : Position) (c : Char) (cs : List Char) :
    p.after (c :: cs) = (p.next c).after cs := rfl

/-- Texts move a position one after the other. -/
@[simp] theorem after_append (p : Position) (cs ds : List Char) :
    p.after (cs ++ ds) = (p.after cs).after ds := by
  simp [after]

/-- The position as messages write it. -/
def text (p : Position) : String := toString p.line ++ ":" ++ toString p.column

end Position

end Stackling
