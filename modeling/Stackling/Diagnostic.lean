import Stackling.Code.Image
import Stackling.Machine
import Stackling.Token.Scan
import Stackling.Tree.Parse
import Stackling.Ty

/-!
# Diagnostics

Everything that can go wrong, as a message for people. A `Diagnostic` is a fault of one of the
four phases that know a place: reading tokens, reading trees and giving meaning point into the
source, a machine fault points to an instruction. A `Report` is any failure with what was being
done when it happened, outermost first.

`Report.render` shows a report and, if it points into the source, the line it points to with a
caret below the column. Tabs in front of the column are kept, so that the caret stands under its
character whatever a tab's width is.
-/

namespace Stackling

/-- A fault with a place. -/
inductive Diagnostic where
  | lexical (pos : Position) (text : Bytes)
  /-- a `text` that is not empty replaces the sentence about what was expected and found -/
  | grammatical (pos : Position) (expected found text : Bytes)
  | semantic (pos : Position) (text : Bytes)
  /-- the name `op` may be empty; `cause` is the stack's error if it was one -/
  | runtime (pc : Int) (op text : Bytes) (cause : Option Machine.StackError)
  deriving DecidableEq, Repr

namespace Diagnostic

/-- Where the fault lies; nowhere for a machine fault. -/
def pos : Diagnostic → Position
  | lexical p _ => p
  | grammatical p _ _ _ => p
  | semantic p _ => p
  | runtime _ _ _ _ => .nowhere

/-- The message without the place. -/
def bare : Diagnostic → Bytes
  | lexical _ text => text
  | grammatical _ expected found text =>
    if text = [] then Bytes.ofString "expected " ++ expected ++ Bytes.ofString ", found " ++ found
    else text
  | semantic _ text => text
  | runtime _ _ text _ => text

/-- The message with the place. A semantic fault may have none. -/
def message (d : Diagnostic) : Bytes :=
  let located (phase : String) (p : Position) : Bytes :=
    Bytes.ofString (phase ++ " Error at " ++ p.text ++ ": ")
  match d with
  | lexical p _ => located "Lex" p ++ d.bare
  | grammatical p _ _ _ => located "Syntax" p ++ d.bare
  | semantic p _ =>
    if p.isKnown then located "Semantic" p ++ d.bare
    else Bytes.ofString "Semantic Error: " ++ d.bare
  | runtime pc op _ _ =>
    let place := if op = [] then [] else Bytes.ofString " (" ++ op ++ Bytes.ofString ")"
    Bytes.ofString ("Runtime Error at pc " ++ toString pc) ++ place ++ Bytes.ofString ": " ++ d.bare

/-- A text that is no token. -/
def ofLex (e : LexError) : Diagnostic := .lexical e.pos (Bytes.ofString e.cause.message)

/-- Tokens that form no tree. -/
def ofParse : ParseError → Diagnostic
  | .unexpected expected found =>
    .grammatical found.pos (Bytes.ofString expected.describe) (Bytes.ofString found.describe) []
  | .outOfRange literal =>
    .grammatical literal.pos [] [] (Bytes.ofString (ParseError.outOfRange literal).message)

/-- A program without meaning. -/
def ofSemantic (e : SemanticError) : Diagnostic := .semantic e.pos (Bytes.ofString e.cause.message)

/-- A failed instruction. -/
def ofFault (f : Machine.Fault) : Diagnostic :=
  let cause := match f.cause with
    | .stack e => some e
    | _ => none
  .runtime f.pc (Bytes.ofString (Code.Instruction.codeName f.code)) f.cause.message cause

end Diagnostic

/-- Anything that can fail. -/
inductive Failure where
  | diagnostic (d : Diagnostic)
  | stack (e : Machine.StackError)
  | format (e : Code.FormatError)
  | other (text : Bytes)
  deriving DecidableEq, Repr

/-- The message of a failure. -/
def Failure.message : Failure → Bytes
  | diagnostic d => d.message
  | stack e => Bytes.ofString e.message
  | format e => Bytes.ofString e.message
  | other text => text

/-- A failure and what was being done, outermost first. -/
structure Report where
  context : List Bytes
  failure : Failure
  deriving DecidableEq, Repr

namespace Report

/-- A failure out of context. -/
def of (failure : Failure) : Report := ⟨[], failure⟩

/-- The same failure while something was being done. -/
def within (what : Bytes) (r : Report) : Report := { r with context := what :: r.context }

/-- The full message: what was being done, then the failure. -/
def message (r : Report) : Bytes :=
  r.context.foldr (fun c rest => c ++ Bytes.ofString ": " ++ rest) r.failure.message

/-- The failure alone. -/
def cause (r : Report) : Report := ⟨[], r.failure⟩

/-- Where the failure points to. -/
def pos (r : Report) : Position :=
  match r.failure with
  | .diagnostic d => d.pos
  | _ => .nowhere

end Report

/-! ## Rendering -/

/-- The lines of a text, without their line ends. A text that ends in a line end has an empty last
line. -/
def Bytes.lines : Bytes → List Bytes
  | [] => [[]]
  | b :: rest =>
    if b = 0x0A then [] :: lines rest
    else
      match lines rest with
      | [] => [[b]]
      | l :: ls => (b :: l) :: ls

/-- A line without the blanks at its end. -/
def Bytes.trimEnd (line : Bytes) : Bytes :=
  (line.reverse.dropWhile fun b => b == 0x0D || b == 0x0A || b == 0x09 || b == 0x20).reverse

/-- What stands in front of a caret under the given column of a line: a tab under every tab and a
blank under everything else. -/
def caretPadding (line : Bytes) (column : Int) : Bytes :=
  ((Utf8.decode line).take (column - 1).toNat).map fun c => if c = '\t' then 0x09 else 0x20

/-- Text in a colour, if colours are wanted. -/
def paint (color : Bool) (code : String) (text : Bytes) : Bytes :=
  if color then Bytes.ofString ("\x1b[" ++ code ++ "m") ++ text ++ Bytes.ofString "\x1b[0m"
  else text

/-- The report as people see it. -/
def Report.render (source : Bytes) (color : Bool) (r : Report) : Bytes :=
  let newline := Bytes.ofString "\n"
  let head := paint color "31" r.message ++ newline
  if r.pos.isKnown then
    match source.lines[(r.pos.line - 1).toNat]? with
    | none => head
    | some line =>
      let line := line.trimEnd
      let indent := Bytes.ofString "  "
      head ++ indent ++ line ++ newline ++
        indent ++ caretPadding line r.pos.column ++ paint color "1" (Bytes.ofString "^") ++ newline
  else head

end Stackling
