import Stackling.Code.Listing
import Stackling.Command.Dialogue
import Stackling.Command.Flag
import Stackling.Source

/-!
# The command line

Each verb as a dialogue that ends in an exit code, and `command`, which reads the arguments and
picks the verb. Results go to the output; faults go to the error stream, with the file they belong
to in front and, if they point into a source, the line they point to.
-/

namespace Stackling.Command

open Dialogue

/-- The page that explains the whole program. -/
def helpPage : String :=
  "Waddle - A small language compiled to stack machine bytecode

Usage:
    waddle <command> [arguments]

Commands:
    run <file>      Compile and execute a .wad or .wbc file
    build <file>    Compile a .wad file to bytecode
    eval <expr>     Evaluate an integer expression
    check <files>   Parse and type-check .wad files
    disasm <file>   Print a bytecode listing
    help            Show this help message

Examples:
    waddle run examples/fact.wad
    waddle build -o program.wbc hello.wad
    waddle eval '6 * (3 + 4)'
    waddle check a.wad b.wad

Use \"waddle <command> -h\" for more information about a command.
The default trace level is read from $WADDLE_TRACE.
"

/-! ## File names -/

/-- The extension of program images. -/
def imageExtension : String := ".wbc"

/-- The last dot of a file name and what follows it; nothing if the name has no dot. -/
def extension (path : String) : String :=
  let name := path.toList.reverse.takeWhile (· ≠ '/')
  if name.contains '.' then String.ofList ('.' :: (name.takeWhile (· ≠ '.')).reverse) else ""

/-- Does a path name a program image? The case of its extension does not matter. -/
def isImagePath (path : String) : Bool :=
  String.ofList ((extension path).toList.map Char.toLower) == imageExtension

/-- The path of the image that is built from a source. -/
def imagePath (path : String) : String :=
  String.ofList (path.toList.take (path.length - (extension path).length)) ++ imageExtension

/-! ## Faults -/

/-- A line of text. -/
def textLine (s : String) : Bytes := .ofString (s ++ "\n")

/-- Writes a fault to the error stream, without what was being done. -/
def blame (path : String) (source : Bytes) (r : Report) : Dialogue Unit :=
  warn (.ofString (path ++ ": ") ++ r.cause.render source false)

/-- A message out of context. -/
def plainReport (s : String) : Report := .of (.other (.ofString s))

/-! ## Loading programs -/

/-- Reads a source file. -/
def readSource (path : String) : Dialogue (Except String Bytes) := do
  match ← readFile path with
  | .error e => return .error (e.readMessage path)
  | .ok bytes => return Source.read Source.standard bytes

/-- A program, or why there is none, and the source that a fault may point into. -/
structure Loading where
  source : Bytes
  result : Except Report Code.Program

/-- Compiles a source. -/
def compileSource (level : Level) (source : Bytes) (entry : String) : Dialogue Loading := do
  tell level (compileEvents source entry)
  return ⟨source, match compile source entry with
    | .error e => .error e.report
    | .ok unit => .ok unit.program⟩

/-- Compiles a source unless its program is in the cache. -/
def compileCached (level : Level) (path : String) (source : Bytes) (entry cachePath : String) :
    Dialogue Loading :=
  openCache cachePath fun opened now => do
    match opened with
    | .error fault => return ⟨source, .error (plainReport fault.message)⟩
    | .ok c =>
      let key := Bytes.ofString (entryName entry)
      tell level (lookupEvents (cacheKey source key) (c.lookup source key).toOption)
      let loaded := c.load now source key fun c =>
        ((compile source entry).map (·.program), c)
      if loaded.compiled then tell level (compileEvents source entry)
      if loaded.hit then tell level [.info ("using cached bytecode for " ++ path)]
      storeCache cachePath loaded.cache (done ())
      return ⟨source, loaded.result.mapError (·.report)⟩

/-- Loads the program of a file: an image is read, a source is compiled. -/
def loadProgram (level : Level) (path entry cachePath : String) : Dialogue Loading := do
  if isImagePath path then
    match ← readFile path with
    | .error e => return ⟨[], .error (plainReport (e.readMessage path))⟩
    | .ok bytes => return ⟨[], (Code.Image.decode bytes).mapError fun e => .of (.format e)⟩
  else
    match ← readSource path with
    | .error message => return ⟨[], .error (plainReport message)⟩
    | .ok source =>
      if cachePath = "" then compileSource level source entry
      else compileCached level path source entry cachePath

/-! ## Verbs -/

/-- Runs a program; its output goes to the output. Nothing comes back if it does not end. -/
def runProgram (level : Level) (p : Code.Program) (limits : Limits) : Dialogue (Option Ran) := do
  match execute p limits Machine.horizon with
  | none => return none
  | some ran =>
    say ran.output
    tell level (runEvents level p limits ran)
    return some ran

/-- The limits that options set. -/
def Options.limits (o : Options) : Limits := ⟨o.stack, o.maxSteps⟩

/-- Runs a file. The value of the first function is printed if it returns one. -/
def run (o : Options) (path : String) : Dialogue Nat := do
  let level := Level.ofName o.trace
  if o.verbose then say (textLine ("Compiling " ++ path ++ "..."))
  let loading ← loadProgram level path o.entry o.cache
  match loading.result with
  | .error r =>
    blame path loading.source r
    return 1
  | .ok p =>
    match ← runProgram level p o.limits with
    | none => return 1
    | some ran =>
      if o.verbose then say (textLine ("Executed " ++ Text.grouped ran.steps ++ " instructions"))
      match ran.fault with
      | some f =>
        blame path loading.source (faultReport f)
        return 1
      | none =>
        if p.functions.head?.any (·.returns) then
          match ran.value with
          | some v => say (v.text ++ textLine "")
          | none => pure ()
        return 0

/-- Builds the image of a source. -/
def build (o : Options) (path : String) : Dialogue Nat := do
  let output := if o.output = "" then imagePath path else o.output
  match ← readSource path with
  | .error message =>
    warn (textLine ("Error reading file " ++ path ++ ": " ++ message))
    return 1
  | .ok source =>
    let loading ← compileSource (.ofName o.trace) source o.entry
    match loading.result with
    | .error r =>
      blame path loading.source r
      return 1
    | .ok p =>
      let image := Code.Image.encode p
      match ← writeFile output image with
      | .error e =>
        warn (textLine ("Error writing output file: " ++ e.writeMessage output))
        return 1
      | .ok () =>
        if o.verbose then
          say (textLine ("Functions: " ++ toString p.functions.length ++ ", instructions: " ++
            toString p.code.length ++ ", strings: " ++ toString p.strings.length))
        say (textLine ("Built " ++ output ++ " (" ++ Text.size image.length ++ ")"))
        return 0

/-- Evaluates an expression. -/
def eval (o : Options) (expr : String) : Dialogue Nat := do
  let level := Level.ofName o.trace
  let name := "<eval>"
  let source := evaluationSource (.ofString expr)
  let loading ← compileSource level source Symbols.defaultEntry
  match loading.result with
  | .error r =>
    blame name source r
    return 1
  | .ok p =>
    match ← runProgram level p o.limits with
    | none => return 1
    | some ran =>
      match ran.fault with
      | some f =>
        blame name source (faultReport f)
        return 1
      | none =>
        say ((ran.value.getD .zero).text ++ textLine "")
        return 0

/-- Reads the sources that are to be checked. Stops at the first that cannot be read. -/
def readSources : List String → Dialogue (Except String (List NamedSource))
  | [] => return .ok []
  | path :: paths => do
    match ← readSource path with
    | .error message => return .error ("Error reading file " ++ path ++ ": " ++ message)
    | .ok source =>
      let rest ← readSources paths
      return rest.map (⟨.ofString path, source⟩ :: ·)

/-- The names and signatures of what a source declares. -/
def symbolLines (t : Symbols.Table) : Bytes :=
  (t.names.filterMap t.find?).flatMap fun f => textLine f.display

/-- Checks sources. A fault belongs to the first source whose name its message starts with. -/
def check (o : Options) (paths : List String) : Dialogue Nat := do
  match ← readSources paths with
  | .error message =>
    warn (textLine message)
    return 1
  | .ok sources =>
    tell (.ofName o.trace) (batchEvents sources o.entry)
    match compileAll false sources o.entry with
    | .ok units =>
      say (units.flatMap fun u =>
        u.1 ++ textLine ": ok" ++ if o.verbose then symbolLines u.2.symbols else [])
      return 0
    | .error e =>
      let r := e.report
      match sources.find? fun s => (s.name ++ Bytes.ofString ": ").isPrefixOf r.message with
      | some s => warn (s.name ++ .ofString ": " ++ r.cause.render s.text false)
      | none => warn (.ofString "Check failed: " ++ r.message ++ textLine "")
      return 1

/-- Lists the instructions of a file. -/
def disasm (o : Options) (path : String) : Dialogue Nat := do
  let loading ← loadProgram (.ofName o.trace) path o.entry ""
  match loading.result with
  | .error r =>
    blame path loading.source r
    return 1
  | .ok p =>
    say (textLine ("; " ++ path ++ ": " ++ toString p.functions.length ++ " functions, " ++
      toString p.code.length ++ " instructions, " ++
      Text.size (Code.Image.encode p).length ++ " encoded"))
    say p.listingText
    return 0

/-! ## The whole -/

/-- Refuses operands: the message, then how the verb is used. -/
def refuse (v : Verb) (initial : Options) (message : String) : Dialogue Nat := do
  warn (textLine ("Error: " ++ message))
  warn (.ofString (v.help initial))
  return 1

/-- Carries out a verb. -/
def perform (v : Verb) (initial o : Options) (operands : List String) : Dialogue Nat :=
  let onFile (f : Options → String → Dialogue Nat) : Dialogue Nat :=
    match operands with
    | [path] => f o path
    | _ => refuse v initial "expected exactly one file argument"
  match v with
  | .run => onFile run
  | .build => onFile build
  | .disasm => onFile disasm
  | .eval =>
    if operands.isEmpty then refuse v initial "expected an expression argument"
    else eval o (" ".intercalate operands)
  | .check =>
    if operands.isEmpty then refuse v initial "expected at least one file argument"
    else check o operands

/-- What the program does with its arguments. `level` is the level of the trace that the environment
asks for. -/
def command (level : String) (args : List String) : Dialogue Nat := do
  match args with
  | [] =>
    warn (.ofString helpPage)
    return 1
  | word :: rest =>
    match Verb.ofName? word with
    | some v =>
      let initial := Options.initial level
      match v.read initial rest with
      | .ready o operands => perform v initial o operands
      | .help =>
        warn (.ofString (v.help initial))
        return 0
      | .failed e =>
        warn (textLine e.message)
        warn (.ofString (v.help initial))
        return 2
    | none =>
      if word = "help" || word = "-h" || word = "--help" then
        warn (.ofString helpPage)
        return 0
      else
        warn (textLine ("Unknown command: " ++ word ++ "\n"))
        warn (.ofString helpPage)
        return 1

end Stackling.Command
