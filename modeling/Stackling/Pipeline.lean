import Stackling.Code.Emit
import Stackling.Diagnostic

/-!
# From source text to a result

`compile` takes a source text through every phase: tokens, tree, symbols, types, code. `execute`
runs a program, and `evaluate` compiles and runs a text that is an expression, by wrapping it in a
function.
-/

namespace Stackling

/-- What compiling a source text produces. -/
structure Compiled where
  tokens : List Token
  tree : Tree.Program
  symbols : Symbols.Table
  program : Code.Program
  deriving Repr

/-- The phase in which compiling fails, and why. -/
inductive CompileError where
  | lexing (e : LexError)
  | parsing (e : ParseError)
  | collecting (e : SemanticError)
  | checking (e : SemanticError)
  | emitting (e : SemanticError)
  deriving DecidableEq, Repr

namespace CompileError

/-- What was being done. -/
def phase : CompileError → String
  | lexing _ => "lexing"
  | parsing _ => "parsing"
  | collecting _ => "collecting symbols"
  | checking _ => "checking"
  | emitting _ => "emitting"

/-- The fault. -/
def diagnostic : CompileError → Diagnostic
  | lexing e => .ofLex e
  | parsing e => .ofParse e
  | collecting e => .ofSemantic e
  | checking e => .ofSemantic e
  | emitting e => .ofSemantic e

/-- The fault with the phase it belongs to. -/
def report (e : CompileError) : Report :=
  ⟨[Bytes.ofString e.phase], .diagnostic e.diagnostic⟩

end CompileError

/-- The entry function that a name asks for: no name asks for the default. -/
def entryName (entry : String) : String := if entry = "" then Symbols.defaultEntry else entry

/-- Compiles a source text to a program that starts in the function called `entry`. -/
def compile (source : Bytes) (entry : String) : Except CompileError Compiled := do
  let tokens ← (Token.ofText (Utf8.decode source)).mapError .lexing
  let tree ← (Tree.Program.ofTokens tokens).mapError .parsing
  let symbols ← (Symbols.collect tree).mapError .collecting
  (Typing.check symbols (entryName entry) tree).mapError .checking
  let program ← (Code.emit symbols (entryName entry) tree).mapError .emitting
  return ⟨tokens, tree, symbols, program⟩

/-! ## Running -/

/-- The limits of a run. A number that is not positive means the default capacity and no limit on
the steps. -/
structure Limits where
  stack : Int
  steps : Int
  deriving DecidableEq, Repr

/-- What running a program produces. -/
structure Ran where
  /-- the printed text -/
  output : Bytes
  /-- the instructions that were begun -/
  steps : Nat
  /-- the value on top of the stack after a run without a fault -/
  value : Option Machine.Value
  /-- number of values on the stack -/
  depth : Nat
  /-- the fault that ended the run -/
  fault : Option Machine.Fault
  deriving DecidableEq, Repr

/-- The result of a run that has ended. -/
def Ran.ofEnding (e : Machine.Ending) : Ran where
  output := e.state.printed
  steps := e.steps
  value := match e.fault with
    | some _ => none
    | none => e.state.stack.peek.toOption
  depth := e.state.stack.count
  fault := e.fault

/-- Runs a program, looking at no more than `fuel` steps; `none` if it is still running then. -/
def execute (p : Code.Program) (limits : Limits) (fuel : Nat) : Option Ran :=
  (Machine.run (.ofProgram p) limits.steps (.empty limits.stack) fuel).map .ofEnding

/-- A machine fault with what was being done. -/
def faultReport (f : Machine.Fault) : Report :=
  ⟨[Bytes.ofString "executing"], .diagnostic (.ofFault f)⟩

/-- The source text that returns the value of an expression. -/
def evaluationSource (expr : Bytes) : Bytes :=
  Bytes.ofString "function main() -> int \x7b return " ++ expr ++ Bytes.ofString "; \x7d"

/-- Compiles and runs a source text. -/
def compileAndRun (source : Bytes) (entry : String) (limits : Limits) (fuel : Nat) :
    Except CompileError (Option Ran) := do
  let unit ← compile source entry
  return execute unit.program limits fuel

/-- The value of an expression. -/
def evaluate (expr : Bytes) (limits : Limits) (fuel : Nat) : Except CompileError (Option Ran) :=
  compileAndRun (evaluationSource expr) Symbols.defaultEntry limits fuel

end Stackling
