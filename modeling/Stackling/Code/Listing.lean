import Stackling.Code
import Stackling.Text.Decimal
import Stackling.Text.Quoted

/-!
# Listings

A listing shows the pool of texts, one a line, then the instructions with their addresses, the
name of a function in front of its first instruction, and what a call or a text argument names.
If several functions start at one address, the last one names it.
-/

namespace Stackling.Code

/-- The name that stands in front of instruction `pc`. -/
def Program.label? (p : Program) (pc : Nat) : Option Bytes :=
  (p.functions.reverse.find? fun f => f.entry == Int.ofNat pc).map (·.name)

/-- The element that an argument names. -/
def lookupArg? {α : Type} (xs : List α) (arg : Int32) : Option α :=
  if 0 ≤ arg.toInt then xs[arg.toInt.toNat]? else none

/-- What an instruction's argument names. -/
def Program.remark (p : Program) (i : Instruction) : Bytes :=
  match i.op? with
  | some .call =>
    match lookupArg? p.functions i.arg with
    | some f => Bytes.ofString "  ; " ++ f.name
    | none => []
  | some .pushStr =>
    match lookupArg? p.strings i.arg with
    | some s => Bytes.ofString ("  ; " ++ Quoted.bytes s)
    | none => []
  | _ => []

/-- The line for the text number `i`. -/
def stringLine (i : Nat) (s : Bytes) : Bytes :=
  Bytes.ofString ("string " ++ toString i ++ " " ++ Quoted.bytes s)

/-- The lines for instruction `pc`. -/
def Program.instructionLines (p : Program) (pc : Nat) (i : Instruction) : List Bytes :=
  let label := (p.label? pc).toList.map fun name => name ++ Bytes.ofString ":"
  let line := "  " ++ Text.padLeft '0' 4 (toString pc) ++ "  " ++ i.text
  label ++ [Bytes.ofString line ++ p.remark i]

/-- The lines of a program's listing. -/
def Program.listing (p : Program) : List Bytes :=
  (p.strings.zipIdx.map fun (s, i) => stringLine i s) ++
    p.code.zipIdx.flatMap fun (ins, pc) => p.instructionLines pc ins

/-- Lines as text, each with a line end. -/
def unlines (lines : List Bytes) : Bytes := lines.flatMap fun l => l ++ Bytes.ofString "\n"

/-- The text of a listing. -/
def Program.listingText (p : Program) : Bytes := unlines p.listing

/-- A listing written line by line to an output that takes only so many lines: the text it took,
and whether it refused a line. -/
def Program.writeListing (p : Program) (accepts : Nat) : Bytes × Bool :=
  (unlines (p.listing.take accepts), accepts < p.listing.length)

end Stackling.Code
