import Stackling.Datum

/-!
# Matching data against patterns

A pattern is itself a datum. An ellipsis fits anything; among the items of a list or an array it
fits any run of items, the empty one included. A bare integer also fits the list `(integer n)`, so
that a pattern need not spell out how a tree dump wraps its literals. Everything else fits what
looks the same.

`fits` decides the relation; `mismatch?` finds where it fails first.
-/

namespace Stackling.Datum

/-- What an integer pattern looks at: the `n` of `(integer n)`, or the datum itself. -/
def unwrapInteger : Datum → Datum
  | .list [.symbol "integer", d] => d
  | d => d

/-- What the pattern `p` looks at in a datum. -/
def facing (p d : Datum) : Datum :=
  match p with
  | .integer _ => d.unwrapInteger
  | _ => d

mutual

/-- Does a datum fit a pattern? -/
def fits : Datum → Datum → Bool
  | .ellipsis, _ => true
  | .symbol s, d => match d with
    | .symbol t => s == t
    | _ => false
  | .string s, d => match d with
    | .string t => s == t
    | _ => false
  | .integer s, d => match d.unwrapInteger with
    | .integer t => s == t
    | _ => false
  | .list ps, d => match d with
    | .list ds => fitsAll ps ds
    | _ => false
  | .array ps, d => match d with
    | .array ds => fitsAll ps ds
    | _ => false

/-- Do the items fit the patterns in order, an ellipsis taking a run of them? -/
def fitsAll : List Datum → List Datum → Bool
  | [], ds => ds.isEmpty
  | .ellipsis :: ps, ds => (List.range (ds.length + 1)).any fun n => fitsAll ps (ds.drop n)
  | p :: ps, ds => match ds with
    | [] => false
    | d :: ds => fits p d && fitsAll ps ds

end

/-- A place where a datum does not fit its pattern. -/
structure Mismatch where
  /-- the item numbers that lead there, from the outermost list inwards -/
  path : List Nat
  /-- the pattern there -/
  expected : Datum
  /-- what the pattern looks at there -/
  actual : Datum
  deriving Repr

namespace Mismatch

/-- The mismatch as seen from the list whose item `i` it lies in. -/
def within (i : Nat) (m : Mismatch) : Mismatch := { m with path := i :: m.path }

/-- The path as text. -/
def place (m : Mismatch) : String :=
  m.path.foldl (fun s i => s ++ "." ++ toString i) "root"

/-- The message. The sorts of the two data are named if they differ. -/
def message (m : Mismatch) : String :=
  let shown (d : Datum) : String :=
    if m.expected.shape = m.actual.shape then d.text else d.shape.name ++ " " ++ d.text
  "at " ++ m.place ++ ": expected " ++ shown m.expected ++ ", got " ++ shown m.actual

end Mismatch

mutual

/-- The first place where a datum does not fit a pattern. -/
def mismatch? (p d : Datum) : Option Mismatch :=
  if fits p d then none
  else
    let here : Mismatch := ⟨[], p, facing p d⟩
    match p, d with
    | .list ps, .list ds => some ((mismatchIn? 0 ps ds).getD here)
    | .array ps, .array ds => some ((mismatchIn? 0 ps ds).getD here)
    | _, _ => some here
termination_by structural p

/-- The first of the items, numbered from `i`, that does not fit its pattern. Past an ellipsis no
item has a pattern of its own. -/
def mismatchIn? (i : Nat) (ps ds : List Datum) : Option Mismatch :=
  match ps, ds with
  | .ellipsis :: _, _ => none
  | p :: ps, d :: ds =>
    match mismatch? p d with
    | some m => some (m.within i)
    | none => mismatchIn? (i + 1) ps ds
  | _, _ => none
termination_by structural ps

end

/-- Nothing is amiss exactly when the datum fits. -/
theorem mismatch?_eq_none_iff (p d : Datum) : mismatch? p d = none ↔ fits p d = true := by
  cases h : fits p d
  · unfold mismatch?
    simp only [h, Bool.false_eq_true, if_false, iff_false]
    split <;> simp
  · unfold mismatch?
    simp [h]

end Stackling.Datum
