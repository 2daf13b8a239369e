import Stackling.Text.Utf8

/-!
# The machine's stack

A stack that holds no more than a fixed number of values. It holds operands and local variables
alike, so values below the top can be read and written by their index.

`Stack.toList` is what a stack means: its values, bottom first.
-/

namespace Stackling.Machine

/-- A value: an integer or a text. Truth values are the integers 0 and 1. -/
inductive Value where
  | int (v : Int32)
  | str (s : Bytes)
  deriving DecidableEq, Repr

namespace Value

/-- The value of a variable that nothing was stored in. -/
def zero : Value := int 0

instance : Inhabited Value := ⟨zero⟩

/-- Is the value an integer? -/
def isInt : Value → Bool
  | int _ => true
  | str _ => false

/-- The integer; zero for a text. -/
def toInt : Value → Int32
  | int v => v
  | str _ => 0

/-- The text; empty for an integer. -/
def toStr : Value → Bytes
  | int _ => []
  | str s => s

/-- The value as it is printed. -/
def text : Value → Bytes
  | int v => Bytes.ofString (toString v.toInt)
  | str s => s

end Value

/-- What a stack operation can fail with. -/
inductive StackError where
  | overflow
  | underflow
  | badSlot (i : Int) (count : Nat)
  deriving DecidableEq, Repr

/-- The message. An index is shown as a number of 64 bits. -/
def StackError.message : StackError → String
  | overflow => "stack overflow"
  | underflow => "stack underflow"
  | badSlot i count =>
    "slot out of range: " ++ toString (i.bmod 0x10000000000000000) ++ " of " ++ toString count

/-- A stack: its values, bottom first, and how many it may hold. -/
structure Stack where
  values : Array Value
  capacity : Nat
  deriving DecidableEq, Repr

namespace Stack

/-- The capacity of a stack unless another is asked for. -/
def defaultCapacity : Nat := 1024

/-- An empty stack. A capacity that is not positive means the default. -/
def empty (capacity : Int) : Stack :=
  ⟨#[], if capacity ≤ 0 then defaultCapacity else capacity.toNat⟩

/-- Number of values. -/
@[inline] def count (s : Stack) : Nat := s.values.size

/-- The values, bottom first. -/
def toList (s : Stack) : List Value := s.values.toList

/-- Puts a value on top. -/
@[inline] def push (s : Stack) (v : Value) : Except StackError Stack :=
  if s.count < s.capacity then .ok { s with values := s.values.push v } else .error .overflow

/-- Takes the top value. -/
@[inline] def pop (s : Stack) : Except StackError (Value × Stack) :=
  match s.values.back? with
  | none => .error .underflow
  | some v => .ok (v, { s with values := s.values.pop })

/-- The top value. -/
@[inline] def peek (s : Stack) : Except StackError Value :=
  match s.values.back? with
  | none => .error .underflow
  | some v => .ok v

/-- The value with index `i`, counted from the bottom. -/
@[inline] def get (s : Stack) (i : Int) : Except StackError Value :=
  if 0 ≤ i ∧ i < s.count then .ok (s.values.getD i.toNat .zero) else .error (.badSlot i s.count)

/-- Writes the value with index `i`. -/
@[inline] def set (s : Stack) (i : Int) (v : Value) : Except StackError Stack :=
  if 0 ≤ i ∧ i < s.count then .ok { s with values := s.values.setIfInBounds i.toNat v }
  else .error (.badSlot i s.count)

/-- Drops values until `n` are left. -/
@[inline] def truncate (s : Stack) (n : Int) : Except StackError Stack :=
  if 0 ≤ n ∧ n ≤ s.count then .ok { s with values := s.values.shrink n.toNat }
  else .error .underflow

/-- Takes the top `n` values, in the order they were pushed. It takes all if there are fewer. -/
def takeTop (s : Stack) (n : Nat) : List Value × Stack :=
  let rest := s.count - n
  ((s.values.extract rest s.count).toList, { s with values := s.values.shrink rest })

end Stack

end Stackling.Machine
