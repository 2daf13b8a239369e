import Stackling.Code
import Stackling.Machine.Stack
import Stackling.Text.Decimal
import Stackling.Text.Quoted

/-!
# The stack machine

A machine runs code on a stack, with a function table and a pool of texts beside it. `step`
executes one instruction and says what comes next; `run` repeats it under a limit on the number of
instructions. Both are total: `run` takes the number of steps it may look at (`fuel`) and answers
`none` if the code is still running then.

A call opens a frame: the address to return to, and the base, which is the index of the callee's
first argument on the stack. Code and tables may come from outside, so every access is checked,
and what fails is a fault that names the instruction.

A fault leaves the stack as the instruction left it when it failed: a value that was popped before
the failure is gone.
-/

namespace Stackling.Machine

open Code

/-! ## Faults -/

/-- Why an instruction fails. -/
inductive FaultCause where
  | stack (e : StackError)
  | stepLimit (limit : Int)
  | noString (arg : Int32)
  | notInteger (s : Bytes)
  | divisionByZero
  | badTarget (arg : Int32)
  | noFunction (arg : Int32)
  | badEntry (entry : Int) (name : Bytes)
  | unknownOpcode (code : UInt8)
  deriving DecidableEq, Repr

/-- The message. It may hold a function name, which can be any bytes. -/
def FaultCause.message : FaultCause → Bytes
  | stack e => Bytes.ofString e.message
  | stepLimit limit => Bytes.ofString ("step limit " ++ toString limit ++ " exceeded")
  | noString arg => Bytes.ofString ("string " ++ toString arg.toInt ++ " not in pool")
  | notInteger s => Bytes.ofString ("expected integer operand, found string " ++ Quoted.bytes s)
  | divisionByZero => Bytes.ofString "division by zero"
  | badTarget arg => Bytes.ofString ("branch target " ++ toString arg.toInt ++ " out of range")
  | noFunction arg => Bytes.ofString ("function " ++ toString arg.toInt ++ " not defined")
  | badEntry entry name =>
    Bytes.ofString ("entry " ++ toString entry ++ " of function ") ++ name ++
      Bytes.ofString " out of range"
  | unknownOpcode code => Bytes.ofString ("unknown opcode " ++ toString code.toNat)

/-- A failed instruction: its address, its code and what is wrong. -/
structure Fault where
  pc : Nat
  code : UInt8
  cause : FaultCause
  deriving DecidableEq, Repr

/-! ## States -/

/-- An open call. -/
structure Frame where
  /-- where the caller goes on -/
  returnTo : Nat
  /-- index of the callee's first argument -/
  base : Nat
  deriving DecidableEq, Repr

/-- What a machine executes: code, and the tables that calls and texts refer to. -/
structure Task where
  code : Array Instruction
  functions : Array Function
  strings : Array Bytes

/-- The task of running a program. -/
def Task.ofProgram (p : Program) : Task := ⟨p.code.toArray, p.functions.toArray, p.strings.toArray⟩

/-- The state of a machine between two instructions. The frame that the code starts in is not
listed: it has base 0, and returning from it ends the run. -/
structure State where
  /-- index of the next instruction -/
  pc : Nat
  /-- open calls, innermost first -/
  frames : List Frame
  stack : Stack
  /-- printed lines -/
  output : Array Bytes
  deriving DecidableEq, Repr

/-- The base of the innermost frame. -/
def baseOf : List Frame → Nat
  | [] => 0
  | f :: _ => f.base

/-- The base of the innermost frame. -/
def State.base (s : State) : Nat := baseOf s.frames

/-- What an instruction leads to. -/
inductive Outcome where
  /-- go on in this state -/
  | next (s : State)
  /-- the outermost frame returned -/
  | halt (s : State)
  /-- the instruction failed, leaving this state -/
  | fault (s : State) (cause : FaultCause)

/-! ## Instructions -/

/-- Arithmetic and comparison. Results wrap to 32 bits, division goes toward zero, and a
comparison gives 0 or 1. -/
def arithmetic (op : Opcode) (l r : Int32) : Int32 :=
  let truth (b : Bool) : Int32 := if b then 1 else 0
  match op with
  | .add => l + r
  | .sub => l - r
  | .mul => l * r
  | .div => l / r
  | .eq => truth (l == r)
  | .ne => truth (l != r)
  | .gt => truth (r < l)
  | .ge => truth (r ≤ l)
  | .lt => truth (l < r)
  | _ => truth (l ≤ r)

/-- An element of a table that an argument names. -/
def argument? {α : Type} (xs : Array α) (arg : Int32) : Option α :=
  if 0 ≤ arg.toInt then xs[arg.toInt.toNat]? else none

/-- The instruction that a jump goes to; it may be the one right after the code. -/
def target? (task : Task) (arg : Int32) : Option Nat :=
  if 0 ≤ arg.toInt ∧ arg.toInt ≤ task.code.size then some arg.toInt.toNat else none

/-- A step that pushes a value and goes on at `next`. -/
@[inline] def pushThen (s : State) (next : Nat) (v : Value) : Outcome :=
  match s.stack.push v with
  | .ok stack => .next { s with pc := next, stack := stack }
  | .error e => .fault s (.stack e)

/-- Takes an integer off the stack; a text is taken off too, and is a fault. -/
@[inline] def popInt (s : State) : Except (State × FaultCause) (Int32 × State) :=
  match s.stack.pop with
  | .error e => .error (s, .stack e)
  | .ok (v, stack) =>
    let s := { s with stack := stack }
    match v with
    | .int i => .ok (i, s)
    | .str t => .error (s, .notInteger t)

/-- A step that needs two integers. -/
@[inline] def binaryStep (s : State) (op : Opcode) : Outcome :=
  match popInt s with
  | .error (s, cause) => .fault s cause
  | .ok (right, s) =>
    match popInt s with
    | .error (s, cause) => .fault s cause
    | .ok (left, s) =>
      if op = .div ∧ right = 0 then .fault s .divisionByZero
      else pushThen s (s.pc + 1) (.int (arithmetic op left right))

/-- Opens a frame for a function. In a table from outside the number of arguments can be negative,
which puts the base above the stack; a base that 64 bits cannot hold counts as one below it. -/
@[inline] def callStep (task : Task) (s : State) (arg : Int32) : Outcome :=
  match argument? task.functions arg with
  | none => .fault s (.noFunction arg)
  | some f =>
    if f.entry < 0 ∨ (task.code.size : Int) ≤ f.entry then .fault s (.badEntry f.entry f.name)
    else
      let base : Int := s.stack.count - f.params
      if base < s.base ∨ (f.params < 0 ∧ 0x8000000000000000 ≤ base) then
        .fault s (.stack .underflow)
      else .next { s with pc := f.entry.toNat, frames := ⟨s.pc + 1, base.toNat⟩ :: s.frames }

/-- Closes the innermost frame: drops its values and goes back to the caller, with or without a
result. -/
@[inline] def returnStep (s : State) (arg : Int32) : Outcome :=
  match s.frames with
  | [] => .halt s
  | frame :: outer =>
    if arg = 0 then
      match s.stack.truncate frame.base with
      | .error e => .fault s (.stack e)
      | .ok stack => .next { s with pc := frame.returnTo, frames := outer, stack := stack }
    else
      match s.stack.pop with
      | .error e => .fault s (.stack e)
      | .ok (result, stack) =>
        match stack.truncate frame.base with
        | .error e => .fault { s with stack := stack } (.stack e)
        | .ok stack =>
          match stack.push result with
          | .error e => .fault { s with stack := stack } (.stack e)
          | .ok stack => .next { s with pc := frame.returnTo, frames := outer, stack := stack }

/-- A printed line: the values with a blank between neighbours. -/
def lineOf (vs : List Value) : Bytes :=
  List.intercalate (Bytes.ofString " ") (vs.map Value.text)

/-- Prints values of the innermost frame. -/
@[inline] def printStep (s : State) (arg : Int32) : Outcome :=
  match s with
  | ⟨pc, frames, stack, output⟩ =>
    let n := arg.toInt
    if n < 0 ∨ (stack.count : Int) - baseOf frames < n then
      .fault ⟨pc, frames, stack, output⟩ (.stack .underflow)
    else
      let (vs, stack) := stack.takeTop n.toNat
      .next ⟨pc + 1, frames, stack, output.push (lineOf vs)⟩

/-- Moves the top value to a slot of the innermost frame. -/
@[inline] def storeStep (s : State) (arg : Int32) : Outcome :=
  match s with
  | ⟨pc, frames, stack, output⟩ =>
    match stack.pop with
    | .error e => .fault ⟨pc, frames, stack, output⟩ (.stack e)
    | .ok (v, stack) =>
      match stack.set (baseOf frames + arg.toInt) v with
      | .error e => .fault ⟨pc, frames, stack, output⟩ (.stack e)
      | .ok stack => .next ⟨pc + 1, frames, stack, output⟩

/-- Executes an instruction. -/
def execute (task : Task) (s : State) (i : Instruction) : Outcome :=
  match i.op? with
  | none => .fault s (.unknownOpcode i.code)
  | some .pushInt => pushThen s (s.pc + 1) (.int i.arg)
  | some .pushStr =>
    match argument? task.strings i.arg with
    | none => .fault s (.noString i.arg)
    | some t => pushThen s (s.pc + 1) (.str t)
  | some .loadLocal =>
    match s.stack.get (s.base + i.arg.toInt) with
    | .error e => .fault s (.stack e)
    | .ok v => pushThen s (s.pc + 1) v
  | some .storeLocal => storeStep s i.arg
  | some .pop =>
    match s.stack.pop with
    | .error e => .fault s (.stack e)
    | .ok (_, stack) => .next { s with pc := s.pc + 1, stack := stack }
  | some .branch =>
    match target? task i.arg with
    | none => .fault s (.badTarget i.arg)
    | some pc => .next { s with pc := pc }
  | some .branchZero =>
    match target? task i.arg with
    | none => .fault s (.badTarget i.arg)
    | some pc =>
      match popInt s with
      | .error (s, cause) => .fault s cause
      | .ok (v, s) => .next { s with pc := if v = 0 then pc else s.pc + 1 }
  | some .call => callStep task s i.arg
  | some .ret => returnStep s i.arg
  | some .print => printStep s i.arg
  | some op => binaryStep s op

/-! ## Runs -/

/-- How a run ended. -/
structure Ending where
  /-- the state it ended in -/
  state : State
  /-- the instructions that were begun, a refused one included -/
  steps : Nat
  /-- the fault that ended it, if one did -/
  fault : Option Fault

/-- The state in which code starts on a stack. -/
def start (stack : Stack) : State := ⟨0, [], stack, #[]⟩

/-- Runs from `s` after `steps` instructions, looking at no more than `fuel` further ones. A limit
that is not positive means no limit; the instruction beyond the limit is refused. -/
def runFrom (task : Task) (limit : Int) : (fuel : Nat) → (steps : Nat) → State → Option Ending
  | 0, _, _ => none
  | fuel + 1, steps, s =>
    match task.code[s.pc]? with
    | none => some ⟨s, steps, none⟩
    | some i =>
      if 0 < limit ∧ limit < steps + 1 then
        some ⟨s, steps + 1, some ⟨s.pc, i.code, .stepLimit limit⟩⟩
      else
        match execute task s i with
        | .next s' => runFrom task limit fuel (steps + 1) s'
        | .halt s' => some ⟨s', steps + 1, none⟩
        | .fault s' cause => some ⟨s', steps + 1, some ⟨s'.pc, i.code, cause⟩⟩

/-- Runs a task on a stack. -/
def run (task : Task) (limit : Int) (stack : Stack) (fuel : Nat) : Option Ending :=
  runFrom task limit fuel 0 (start stack)

/-- The fuel that is given to a run which has no limit of its own. No run that ends in practice
needs as much. -/
def horizon : Nat := 0x4000000000000000

/-- The line that traces an instruction about to be executed in `s`. -/
def traceLine (s : State) (i : Instruction) : String :=
  Text.padLeft '0' 4 (toString s.pc) ++ " " ++ Text.padRight 16 i.text ++
    " depth=" ++ toString s.stack.count ++ " frames=" ++ toString (s.frames.length + 1)

/-- The trace of a run: a line for every instruction that was executed. -/
def traceFrom (task : Task) (limit : Int) :
    (fuel : Nat) → (steps : Nat) → State → Array String → Array String
  | 0, _, _, lines => lines
  | fuel + 1, steps, s, lines =>
    match task.code[s.pc]? with
    | none => lines
    | some i =>
      if 0 < limit ∧ limit < steps + 1 then lines
      else
        let lines := lines.push (traceLine s i)
        match execute task s i with
        | .next s' => traceFrom task limit fuel (steps + 1) s' lines
        | .halt _ => lines
        | .fault _ _ => lines

/-- The printed text of a run. -/
def State.printed (s : State) : Bytes :=
  s.output.toList.flatMap fun line => line ++ Bytes.ofString "\n"

end Stackling.Machine
