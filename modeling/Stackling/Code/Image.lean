import Stackling.Code
import Stackling.Code.Leb128

/-!
# Program images

A program as bytes: a magic word, a version, the pool of texts, the function table and the code.
Counts and lengths are LEB128 numbers of 32 bits, texts are preceded by their length, and an
instruction takes five bytes, its code and its argument with the lowest byte first.

Reading is strict: an image ends with its last instruction, no number is above `maxCount`, and
every instruction has the code of an operation. It is lenient in two places: a number may be
written longer than necessary, and a function leaves a result only if its flag byte is exactly 1.
-/

namespace Stackling.Code

/-- The parts of an image that hold a number. -/
inductive CountField where
  | stringCount
  | stringLength
  | functionCount
  | functionNameLength
  | functionEntry
  | functionParams
  | functionLocals
  | instructionCount
  deriving DecidableEq, Repr

/-- The parts of an image that hold other bytes. -/
inductive DataField where
  | version
  | string
  | functionName
  | functionFlags
  | instruction (i : Nat)
  deriving DecidableEq, Repr

/-- Why bytes are no image. -/
inductive FormatError where
  | badMagic
  | unsupportedVersion (version : UInt8)
  | bad (field : CountField)
  | truncated (field : DataField)
  | unknownOpcode (code : UInt8) (i : Nat)
  | trailingData
  deriving DecidableEq, Repr

/-- How a message names a part. -/
def CountField.describe : CountField → String
  | stringCount => "string count"
  | stringLength => "string length"
  | functionCount => "function count"
  | functionNameLength => "function name length"
  | functionEntry => "function entry"
  | functionParams => "function params"
  | functionLocals => "function locals"
  | instructionCount => "instruction count"

/-- How a message names a part. -/
def DataField.describe : DataField → String
  | version => "version"
  | string => "string"
  | functionName => "function name"
  | functionFlags => "function flags"
  | instruction i => "instruction " ++ toString i

/-- The message. -/
def FormatError.message (e : FormatError) : String :=
  "invalid bytecode format: " ++
    match e with
    | badMagic => "bad magic"
    | unsupportedVersion v => "unsupported version " ++ toString v.toNat
    | bad field => "bad " ++ field.describe
    | truncated field => "truncated " ++ field.describe
    | unknownOpcode code i => "unknown opcode " ++ toString code.toNat ++ " at " ++ toString i
    | trailingData => "trailing data"

namespace Image

/-- The magic word. -/
def magic : Bytes := Bytes.ofString "WADL"

/-- The version that is written and read. -/
def version : UInt8 := 1

/-- The greatest number that is read. -/
def maxCount : Nat := 0x1000000

/-! ## Writing -/

/-- A number, cut to 32 bits. -/
def encodeCount (n : Int) : Bytes := Leb128.encode (n % 0x100000000).toNat

/-- A text with its length in front. -/
def encodeString (s : Bytes) : Bytes := encodeCount s.length ++ s

/-- An entry of the function table. -/
def encodeFunction (f : Function) : Bytes :=
  encodeString f.name ++ encodeCount f.entry ++ encodeCount f.params ++ encodeCount f.locals ++
    [if f.returns then 1 else 0]

/-- The four bytes of an argument. -/
def encodeArg (a : Int32) : Bytes :=
  let n := a.toUInt32.toNat
  [UInt8.ofNat n, UInt8.ofNat (n / 0x100), UInt8.ofNat (n / 0x10000), UInt8.ofNat (n / 0x1000000)]

/-- The five bytes of an instruction. -/
def encodeInstruction (i : Instruction) : Bytes := i.code :: encodeArg i.arg

/-- The image of a program. -/
def encode (p : Program) : Bytes :=
  magic ++ [version] ++
    encodeCount p.strings.length ++ p.strings.flatMap encodeString ++
    encodeCount p.functions.length ++ p.functions.flatMap encodeFunction ++
    encodeCount p.code.length ++ p.code.flatMap encodeInstruction

/-! ## Reading -/

/-- A reader takes bytes off the front. -/
abbrev Reader (α : Type) := StateT Bytes (Except FormatError) α

/-- Takes a number. -/
def readCount (field : CountField) : Reader Nat := fun bs =>
  match Leb128.decode? Leb128.maxBytes bs with
  | some (n, rest) => if n ≤ maxCount then .ok (n, rest) else .error (.bad field)
  | none => .error (.bad field)

/-- Takes one byte. -/
def readByte (field : DataField) : Reader UInt8
  | [] => .error (.truncated field)
  | b :: rest => .ok (b, rest)

/-- Takes `n` bytes. -/
def readBytes (field : DataField) (n : Nat) : Reader Bytes := fun bs =>
  if n ≤ bs.length then .ok (bs.take n, bs.drop n) else .error (.truncated field)

/-- Takes a text with its length in front. -/
def readString (length : CountField) (field : DataField) : Reader Bytes := do
  readBytes field (← readCount length)

/-- Takes an entry of the function table. -/
def readFunction : Reader Function := do
  let name ← readString .functionNameLength .functionName
  let entry ← readCount .functionEntry
  let params ← readCount .functionParams
  let locals ← readCount .functionLocals
  let flags ← readByte .functionFlags
  return ⟨name, entry, params, locals, flags == 1⟩

/-- The argument that four bytes hold. -/
def decodeArg (a b c d : UInt8) : Int32 :=
  (UInt32.ofNat (a.toNat + b.toNat * 0x100 + c.toNat * 0x10000 + d.toNat * 0x1000000)).toInt32

/-- Takes instruction number `i`. -/
def readInstruction (i : Nat) : Reader Instruction
  | code :: a :: b :: c :: d :: rest =>
    match Opcode.ofByte? code with
    | some _ => .ok (⟨code, decodeArg a b c d⟩, rest)
    | none => .error (.unknownOpcode code i)
  | _ => .error (.truncated (.instruction i))

/-- Takes `n` things, numbered from `i`. -/
def readMany {α : Type} (read : Nat → Reader α) : (n i : Nat) → Reader (List α)
  | 0, _ => pure []
  | n + 1, i => do
    let a ← read i
    let more ← readMany read n (i + 1)
    return a :: more

/-- Takes everything after the magic word. -/
def readBody : Reader Program := do
  let v ← readByte .version
  if v ≠ version then throw (.unsupportedVersion v)
  let strings ← readMany (fun _ => readString .stringLength .string) (← readCount .stringCount) 0
  let functions ← readMany (fun _ => readFunction) (← readCount .functionCount) 0
  let code ← readMany readInstruction (← readCount .instructionCount) 0
  return ⟨code, functions, strings⟩

/-- The program of an image. -/
def decode (bs : Bytes) : Except FormatError Program :=
  if magic.isPrefixOf bs then
    match readBody (bs.drop magic.length) with
    | .error e => .error e
    | .ok (p, []) => .ok p
    | .ok (_, _ :: _) => .error .trailingData
  else .error .badMagic

end Image

end Stackling.Code
