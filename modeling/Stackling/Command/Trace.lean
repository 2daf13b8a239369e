import Stackling.Batch
import Stackling.Cache

/-!
# Traces

While it works, a command tells what it does on the error stream, in as much detail as the level of
the trace asks for. An `Event` is one such remark. The events of each piece of work are functions of
its input, next to the functions that do the work and in the same order.
-/

namespace Stackling.Command

/-- How much a trace tells; each level tells what those before it do. -/
inductive Level where
  | error
  | info
  | debug
  deriving DecidableEq, Repr

namespace Level

/-- The level that a word asks for. Any word but the three asks for the middle one. -/
def ofName (s : String) : Level :=
  match String.ofList (s.toList.map Char.toLower) with
  | "error" => error
  | "debug" => debug
  | _ => info

/-- Does a trace of level `l` tell what belongs to level `e`? -/
def tells (l e : Level) : Bool :=
  match e with
  | error => true
  | info => l != error
  | debug => l == debug

/-- What a remark starts with. -/
def label : Level → String
  | error => "ERROR"
  | info => "INFO "
  | debug => "DEBUG"

end Level

/-- A remark. -/
structure Event where
  level : Level
  text : Bytes
  deriving DecidableEq, Repr

namespace Event

/-- A remark in detail. -/
def debug (s : String) : Event := ⟨.debug, .ofString s⟩

/-- A remark of interest. -/
def info (s : String) : Event := ⟨.info, .ofString s⟩

/-- The line that a remark made at a time of day is written as. -/
def line (time : String) (e : Event) : Bytes :=
  Bytes.ofString (e.level.label ++ " " ++ time ++ " ") ++ e.text ++ Bytes.ofString "\n"

end Event

/-- A number and what it counts. -/
def counted (n : Nat) (what : String) : String := toString n ++ " " ++ what

/-- What is told about compiling a source. Tokens are counted where they are read and where they are
used. -/
def compileEvents (source : Bytes) (entry : String) : List Event :=
  match Token.ofText (Utf8.decode source) with
  | .error _ => []
  | .ok tokens =>
    let lexed := Event.debug ("lexed " ++ counted tokens.length "tokens")
    lexed :: lexed ::
      match Tree.Program.ofTokens tokens with
      | .error _ => []
      | .ok tree =>
        let size := counted tree.functions.length "functions"
        .debug ("parsed " ++ size) ::
          match Symbols.collect tree with
          | .error _ => []
          | .ok symbols =>
            .debug ("collected " ++ counted symbols.length "functions") ::
              match Typing.check symbols (entryName entry) tree with
              | .error e =>
                [⟨.info, .ofString "check failed: " ++ (Diagnostic.ofSemantic e).message⟩]
              | .ok () =>
                .debug ("checked " ++ size ++ ", " ++
                    counted (Tree.Node.program tree).exprCount "expressions typed") ::
                  match Code.emit symbols (entryName entry) tree with
                  | .error _ => []
                  | .ok p =>
                    let functions := counted p.functions.length "functions"
                    let code := counted p.code.length "instructions"
                    [.debug ("emitted " ++ code ++ " for " ++ functions),
                     .info ("compiled " ++ functions ++ " into " ++ code)]

/-- What is told about compiling several sources one after the other. -/
def batchEvents (sources : List NamedSource) (entry : String) : List Event :=
  let each := sources.flatMap fun s => compileEvents s.text entry
  match compileAll false sources entry with
  | .error _ => each
  | .ok _ => each ++ [.info ("compiled " ++ counted sources.length "sources")]

/-- What is told about running a program: every instruction before it is executed, and the end. Runs
are long, so nothing is computed for a trace that tells none of it. -/
def runEvents (level : Level) (p : Code.Program) (limits : Limits) (ran : Ran) : List Event :=
  if level.tells .debug then
    let lines := Machine.traceFrom (.ofProgram p) limits.steps Machine.horizon 0
      (Machine.start (.empty limits.stack)) #[]
    let steps := lines.toList.map Event.debug
    match ran.fault with
    | some _ => steps
    | none =>
      steps ++ [.debug ("executed " ++ counted ran.steps "steps, stack depth " ++
        toString ran.depth)]
  else []

/-- What is told about looking for a program in a cache; nothing if that failed. -/
def lookupEvents (key : String) : Option Cache.Lookup → List Event
  | some (.otherVersion v) =>
    [.debug ("cache entry " ++ short ++ " has version " ++ toString v ++ ", want " ++
      toString Cache.formatVersion)]
  | some (.unreadable e) => [.info ("dropping corrupt cache entry " ++ short ++ ": " ++ e.message)]
  | none | some .absent | some (.found _) => []
where
  /-- The start of the key. -/
  short : String := String.ofList (key.toList.take 12)

end Stackling.Command
