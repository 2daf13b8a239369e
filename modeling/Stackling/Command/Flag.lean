import Stackling.Command.Number
import Stackling.Machine.Stack
import Stackling.Text.Quoted

/-!
# Verbs and flags

Every verb of the command line has flags of its own, in front of its operands. A flag is written
`-name value`, `-name=value` or, if it is a switch, `-name`; a second dash changes nothing. Flags
end at the first argument that is none, at a lone dash, or after `--`. Reading the arguments gives
the options that the flags set and the operands.
-/

namespace Stackling.Command

/-- What can be asked for. -/
inductive Verb where
  | run
  | build
  | eval
  | check
  | disasm
  deriving DecidableEq, Repr

/-- The flags. -/
inductive Flag where
  | cache
  | entry
  | maxSteps
  | output
  | stack
  | trace
  | verbose
  deriving DecidableEq, Repr

namespace Verb

/-- The word that asks for a verb. -/
def name : Verb → String
  | run => "run"
  | build => "build"
  | eval => "eval"
  | check => "check"
  | disasm => "disasm"

/-- All verbs. -/
def all : List Verb := [run, build, eval, check, disasm]

/-- The verb that a word asks for. -/
def ofName? (s : String) : Option Verb := all.find? fun v => v.name == s

/-- What is written after the word. -/
def synopsis : Verb → String
  | run => "[flags] <file>"
  | build => "[-o output] <file>"
  | eval => "<expr>"
  | check => "[-v] <file>..."
  | disasm => "<file>"

/-- What the verb does. -/
def summary : Verb → String
  | run => "Compile and execute a .wad or .wbc file"
  | build => "Compile a .wad file to bytecode"
  | eval => "Evaluate an integer expression"
  | check => "Parse and type-check .wad files"
  | disasm => "Print a bytecode listing of a .wbc or .wad file"

/-- The flags of a verb, in the order of their names. -/
def flags : Verb → List Flag
  | run => [.cache, .entry, .maxSteps, .stack, .trace, .verbose]
  | build => [.entry, .output, .trace, .verbose]
  | eval => [.maxSteps, .stack, .trace]
  | check => [.entry, .trace, .verbose]
  | disasm => [.entry, .trace]

end Verb

/-- What the flags set. -/
structure Options where
  /-- the entry function; empty for the usual one -/
  entry : String
  /-- the capacity of the machine's stack -/
  stack : Int
  /-- the number of steps allowed; zero for any number -/
  maxSteps : Int
  /-- where the cache is; empty for none -/
  cache : String
  /-- where to write to; empty for the usual place -/
  output : String
  /-- the level of the trace -/
  trace : String
  /-- tell more? -/
  verbose : Bool
  deriving DecidableEq, Repr

/-- The options when no flag is given. The level of the trace is taken from the environment, where
an empty one stands for none. -/
def Options.initial (level : String) : Options :=
  ⟨"", Machine.Stack.defaultCapacity, 0, "", "", if level = "" then "Error" else level, false⟩

namespace Flag

/-- The sorts of value that flags take. -/
inductive Takes where
  | text
  | integer
  | nothing
  deriving DecidableEq, Repr

/-- The value that a flag takes. -/
def takes : Flag → Takes
  | cache | entry | output | trace => .text
  | maxSteps | stack => .integer
  | verbose => .nothing

/-- The name of a flag. -/
def name : Flag → String
  | cache => "cache"
  | entry => "entry"
  | maxSteps => "max-steps"
  | output => "o"
  | stack => "stack"
  | trace => "trace"
  | verbose => "v"

/-- What a flag is for. -/
def purpose (v : Verb) : Flag → String
  | cache => "SQLite database caching compiled bytecode"
  | entry => "Name of the entry point function (default \"main\")"
  | maxSteps => "Abort after this many instructions (0 means no limit)"
  | output => "Output file (default: input name with .wbc extension)"
  | stack => "Runtime stack capacity"
  | trace => "Trace level (Error, Info or Debug)"
  | verbose =>
    match v with
    | .check => "Dump the symbol table of every file"
    | .build => "Show verbose compilation details"
    | _ => "Show verbose execution details"

/-- The value of a flag that is not given, unless it is zero or empty. -/
def shownDefault (o : Options) : Flag → String
  | stack => " (default " ++ toString o.stack ++ ")"
  | trace => " (default " ++ Quoted.string o.trace ++ ")"
  | _ => ""

/-- The lines that explain a flag. A switch with a one-letter name needs only one. -/
def help (v : Verb) (initial : Options) (f : Flag) : String :=
  let head := "  -" ++ f.name ++
    match f.takes with
    | .text => " string\n    \t"
    | .integer => " int\n    \t"
    | .nothing => "\t"
  head ++ f.purpose v ++ f.shownDefault initial ++ "\n"

/-- Sets a flag to the value that a text writes. -/
def set (f : Flag) (value : String) (o : Options) : Except ValueError Options :=
  match f with
  | cache => .ok { o with cache := value }
  | entry => .ok { o with entry := value }
  | maxSteps => (Number.parse value).map fun n => { o with maxSteps := n }
  | output => .ok { o with output := value }
  | stack => (Number.parse value).map fun n => { o with stack := n }
  | trace => .ok { o with trace := value }
  | verbose => (parseSwitch value).map fun b => { o with verbose := b }

end Flag

/-- The page that explains a verb. -/
def Verb.help (v : Verb) (initial : Options) : String :=
  "Usage: waddle " ++ v.name ++ " " ++ v.synopsis ++ "\n" ++ v.summary ++ "\n\nFlags:\n" ++
    String.join (v.flags.map (Flag.help v initial))

/-! ## Reading arguments -/

/-- Why arguments cannot be read. -/
inductive FlagError where
  | badSyntax (arg : String)
  | undefined (name : String)
  | noValue (f : Flag)
  | badValue (f : Flag) (value : String) (e : ValueError)
  deriving DecidableEq, Repr

/-- The message of a fault. -/
def FlagError.message : FlagError → String
  | badSyntax arg => "bad flag syntax: " ++ arg
  | undefined name => "flag provided but not defined: -" ++ name
  | noValue f => "flag needs an argument: -" ++ f.name
  | badValue f value e =>
    match f.takes with
    | .nothing =>
      "invalid boolean value " ++ Quoted.string value ++ " for -" ++ f.name ++ ": " ++ e.message
    | _ => "invalid value " ++ Quoted.string value ++ " for flag -" ++ f.name ++ ": " ++ e.message

/-- What an argument looks like. -/
inductive Argument where
  | operand
  | endOfFlags
  | badSyntax
  | flag (name : String) (value : Option String)
  deriving DecidableEq, Repr

/-- A flag's name and its value, from what follows the dashes. -/
def Argument.ofFlag : List Char → Argument
  | [] => .badSyntax
  | c :: cs =>
    if c = '-' || c = '=' then .badSyntax
    else
      let name := String.ofList (c :: cs.takeWhile (· ≠ '='))
      match cs.dropWhile (· ≠ '=') with
      | [] => .flag name none
      | _ :: value => .flag name (some (String.ofList value))

/-- What an argument is. -/
def Argument.ofString (s : String) : Argument :=
  match s.toList with
  | '-' :: '-' :: rest => if rest.isEmpty then .endOfFlags else .ofFlag rest
  | '-' :: c :: rest => .ofFlag (c :: rest)
  | _ => .operand

/-- What reading arguments came to. -/
inductive Reading where
  /-- the options and the operands -/
  | ready (o : Options) (operands : List String)
  /-- an explanation was asked for -/
  | help
  | failed (e : FlagError)
  deriving DecidableEq, Repr

/-- Reads the arguments of a verb. -/
def Verb.read (v : Verb) (o : Options) : List String → Reading
  | [] => .ready o []
  | arg :: rest =>
    match Argument.ofString arg with
    | .operand => .ready o (arg :: rest)
    | .endOfFlags => .ready o rest
    | .badSyntax => .failed (.badSyntax arg)
    | .flag name value =>
      match v.flags.find? fun f => f.name == name with
      | none => if name = "help" || name = "h" then .help else .failed (.undefined name)
      | some f =>
        match value, f.takes, rest with
        | some s, _, rest =>
          match f.set s o with
          | .ok o => v.read o rest
          | .error e => .failed (.badValue f s e)
        | none, .nothing, rest =>
          match f.set "true" o with
          | .ok o => v.read o rest
          | .error e => .failed (.badValue f "true" e)
        | none, _, s :: rest =>
          match f.set s o with
          | .ok o => v.read o rest
          | .error e => .failed (.badValue f s e)
        | none, _, [] => .failed (.noValue f)

end Stackling.Command
