import Stackling.Text.Utf8

/-!
# Stack machine code

A program is a list of instructions with a table of functions and a pool of texts; it starts at
its first instruction. An instruction is a byte and a 32-bit argument. Not every byte is the code
of an operation, because code may come from outside; the machine refuses such an instruction when
it reaches it. Names and texts are bytes for the same reason, and so are the numbers of a function
table entry unchecked integers.
-/

namespace Stackling.Code

/-- The operations, in the order of their codes. -/
inductive Opcode where
  /-- push the argument -/
  | pushInt
  /-- push a copy of the frame slot that the argument names -/
  | loadLocal
  /-- pop into the frame slot that the argument names -/
  | storeLocal
  /-- drop the top value -/
  | pop
  | add
  | sub
  | mul
  | div
  /-- return from a call; the argument is 0 if no result is returned -/
  | ret
  /-- call the function that the argument names -/
  | call
  /-- go on at the instruction that the argument names -/
  | branch
  /-- pop, and go on at the instruction that the argument names if the value was zero -/
  | branchZero
  | eq
  | ne
  | gt
  | ge
  | lt
  | le
  /-- push the text that the argument names -/
  | pushStr
  /-- pop as many values as the argument says and print them in the order they were pushed -/
  | print
  deriving DecidableEq, Repr

namespace Opcode

/-- Every operation, in the order of the codes. -/
def all : List Opcode :=
  [pushInt, loadLocal, storeLocal, pop, add, sub, mul, div, ret, call, branch, branchZero,
    eq, ne, gt, ge, lt, le, pushStr, print]

/-- The code of an operation. -/
def toByte : Opcode → UInt8
  | pushInt => 0
  | loadLocal => 1
  | storeLocal => 2
  | pop => 3
  | add => 4
  | sub => 5
  | mul => 6
  | div => 7
  | ret => 8
  | call => 9
  | branch => 10
  | branchZero => 11
  | eq => 12
  | ne => 13
  | gt => 14
  | ge => 15
  | lt => 16
  | le => 17
  | pushStr => 18
  | print => 19

/-- The operation with code `b`. -/
def ofByte? (b : UInt8) : Option Opcode := all[b.toNat]?

/-- An operation is told by its byte. -/
@[simp] theorem ofByte?_toByte (op : Opcode) : ofByte? op.toByte = some op := by
  cases op <;> rfl

/-- The name of an operation in listings and messages. -/
def name : Opcode → String
  | pushInt => "PushI32"
  | loadLocal => "LoadLocalI32"
  | storeLocal => "StoreLocalI32"
  | pop => "Pop"
  | add => "AddI32"
  | sub => "SubI32"
  | mul => "MulI32"
  | div => "DivI32"
  | ret => "Ret"
  | call => "Call"
  | branch => "Branch"
  | branchZero => "BranchZero"
  | eq => "EqI32"
  | ne => "NeI32"
  | gt => "GtI32"
  | ge => "GeI32"
  | lt => "LtI32"
  | le => "LeI32"
  | pushStr => "PushStr"
  | print => "Print"

/-- The operation called `n`. -/
def ofName? (n : String) : Option Opcode := all.find? fun op => op.name == n

/-- Does the argument mean anything? -/
def hasArg : Opcode → Bool
  | pushInt | loadLocal | storeLocal | ret | call | branch | branchZero | pushStr | print => true
  | _ => false

/-- Is the argument the index of an instruction? -/
def isJump : Opcode → Bool
  | branch | branchZero => true
  | _ => false

end Opcode

/-- An instruction: the code of its operation and its argument. -/
structure Instruction where
  code : UInt8
  arg : Int32
  deriving DecidableEq, Repr

namespace Instruction

/-- An operation with an argument. -/
def withArg (op : Opcode) (arg : Int32) : Instruction := ⟨op.toByte, arg⟩

/-- An operation without an argument. -/
def plain (op : Opcode) : Instruction := ⟨op.toByte, 0⟩

/-- The operation of an instruction, if its code is one. -/
def op? (i : Instruction) : Option Opcode := Opcode.ofByte? i.code

/-- An instruction that was made from an operation has it. -/
@[simp] theorem op?_withArg (op : Opcode) (arg : Int32) : (withArg op arg).op? = some op :=
  Opcode.ofByte?_toByte op

@[simp] theorem op?_plain (op : Opcode) : (plain op).op? = some op :=
  Opcode.ofByte?_toByte op

/-- The name of the operation that a byte stands for. -/
def codeName (code : UInt8) : String :=
  match Opcode.ofByte? code with
  | some op => op.name
  | none => "OpCode(" ++ toString code.toNat ++ ")"

/-- The instruction as listings write it. -/
def text (i : Instruction) : String :=
  match i.op? with
  | some op => if op.hasArg then op.name ++ " " ++ toString i.arg.toInt else op.name
  | none => codeName i.code

end Instruction

/-- An entry of the function table. -/
structure Function where
  name : Bytes
  /-- index of the first instruction -/
  entry : Int
  /-- number of arguments -/
  params : Int
  /-- number of slots beyond the arguments -/
  locals : Int
  /-- does a call leave a result? -/
  returns : Bool
  deriving DecidableEq, Repr

/-- A program. -/
structure Program where
  code : List Instruction
  functions : List Function
  strings : List Bytes
  deriving DecidableEq, Repr

namespace Program

/-- The function whose code holds instruction `pc`: the one with the greatest entry that is not
beyond it, and the last of several. -/
def functionAt? (p : Program) (pc : Int) : Option Function :=
  p.functions.foldl (fun found f =>
    if f.entry ≤ pc ∧ (found.all fun g => g.entry ≤ f.entry) then some f else found) none

end Program

end Stackling.Code
