import Mathlib.Data.List.Induction
import Stackling.Diagnostic
import Stackling.Proofs.Except
import Stackling.Proofs.Machine.Outcome

/-!
# The machine on bare memory

The machine's tables answer `none` for an index that they do not hold, and its numbers cannot be
negative. So its own text does not show that its checks suffice. Here it runs once more on memory
that has no such manners: indices are integers, the stack is a row of cells with a count beside it,
the frames are a list with the outermost at its front, and an access out of range is the end of
everything (`Stop.stray`). Each operation makes the checks of the machine and no other, and then
touches memory.

`execute_bare` says that the two machines do the same, and so the bare one never strays.
-/

namespace Stackling.Machine

open Code

namespace Bare

/-! ## Memory -/

/-- What is addressed by an index. -/
inductive Region where
  | code
  | functions
  | strings
  | frames
  | cells
  deriving DecidableEq, Repr

/-- An open call. -/
structure Frame where
  returnTo : Int
  base : Int
  deriving DecidableEq, Repr

/-- A state of the bare machine. -/
structure State where
  pc : Int
  /-- open calls, outermost first -/
  frames : List Frame
  /-- all cells of the stack, used or not -/
  cells : List Value
  /-- number of cells in use -/
  count : Int
  output : Array Bytes
  deriving DecidableEq, Repr

/-- Why there is no next state. -/
inductive Stop where
  /-- the code has ended, or the outermost frame returned -/
  | halt (s : State)
  /-- a check failed -/
  | fault (s : State) (cause : FaultCause)
  /-- an access out of range -/
  | stray (region : Region) (index : Int)

/-- Reads an entry. -/
def fetch {α : Type} (region : Region) (xs : List α) (i : Int) : Except Stop α :=
  if h : 0 ≤ i ∧ i.toNat < xs.length then .ok (xs.get ⟨i.toNat, h.2⟩) else .error (.stray region i)

/-- Writes an entry. -/
def write {α : Type} (region : Region) (xs : List α) (i : Int) (x : α) : Except Stop (List α) :=
  if 0 ≤ i ∧ i.toNat < xs.length then .ok (xs.set i.toNat x) else .error (.stray region i)

/-- Writes zero to `n` cells from number `i` on. -/
def clear (cells : List Value) (i : Int) : (n : Nat) → Except Stop (List Value)
  | 0 => .ok cells
  | n + 1 => do
    let cells ← write .cells cells i .zero
    clear cells (i + 1) n

namespace State

/-! ## The stack -/

/-- A failed check. -/
def fail {α : Type} (s : State) (cause : FaultCause) : Except Stop α := .error (.fault s cause)

/-- Puts a value on top. -/
def push (s : State) (v : Value) : Except Stop State :=
  if s.count ≥ s.cells.length then s.fail (.stack .overflow)
  else do
    let cells ← write .cells s.cells s.count v
    return { s with cells := cells, count := s.count + 1 }

/-- Takes the top value; its cell is cleared. -/
def pop (s : State) : Except Stop (Value × State) :=
  if s.count = 0 then s.fail (.stack .underflow)
  else do
    let v ← fetch .cells s.cells (s.count - 1)
    let cells ← write .cells s.cells (s.count - 1) .zero
    return (v, { s with cells := cells, count := s.count - 1 })

/-- Takes `n` values one after the other; the last one taken comes first. -/
def popMany (s : State) : (n : Nat) → Except Stop (List Value × State)
  | 0 => .ok ([], s)
  | n + 1 => do
    let (v, s) ← s.pop
    let (vs, s) ← s.popMany n
    return (vs ++ [v], s)

/-- Takes an integer. -/
def popInt (s : State) : Except Stop (Int32 × State) := do
  let (v, s) ← s.pop
  match v with
  | .int i => return (i, s)
  | .str t => s.fail (.notInteger t)

/-- The value in a cell that is in use. -/
def get (s : State) (i : Int) : Except Stop Value :=
  if i < 0 ∨ i ≥ s.count then s.fail (.stack (.badSlot i s.count.toNat))
  else fetch .cells s.cells i

/-- Writes a cell that is in use. -/
def set (s : State) (i : Int) (v : Value) : Except Stop State :=
  if i < 0 ∨ i ≥ s.count then s.fail (.stack (.badSlot i s.count.toNat))
  else do
    let cells ← write .cells s.cells i v
    return { s with cells := cells }

/-- Drops values until `n` are left; their cells are cleared. -/
def truncate (s : State) (n : Int) : Except Stop State :=
  if n < 0 ∨ n > s.count then s.fail (.stack .underflow)
  else do
    let cells ← clear s.cells n (s.count - n).toNat
    return { s with cells := cells, count := n }

end State

/-! ## Instructions -/

/-- Arithmetic and comparison. -/
def binary (s : State) (op : Opcode) : Except Stop State := do
  let (right, s) ← s.popInt
  let (left, s) ← s.popInt
  if op = .div ∧ right = 0 then s.fail .divisionByZero
  else
    let s ← s.push (.int (arithmetic op left right))
    return { s with pc := s.pc + 1 }

/-- Opens a frame for a function. -/
def call (task : Task) (s : State) (frame : Frame) (arg : Int32) : Except Stop State := do
  if arg.toInt < 0 ∨ arg.toInt ≥ task.functions.size then s.fail (.noFunction arg)
  else
    let f ← fetch .functions task.functions.toList arg.toInt
    if f.entry < 0 ∨ f.entry ≥ task.code.size then s.fail (.badEntry f.entry f.name)
    else
      let base := s.count - f.params
      if base < frame.base ∨ (f.params < 0 ∧ base ≥ 0x8000000000000000) then
        s.fail (.stack .underflow)
      else return { s with pc := f.entry, frames := s.frames ++ [⟨s.pc + 1, base⟩] }

/-- Closes the innermost frame. -/
def ret (s : State) (frame : Frame) (arg : Int32) : Except Stop State := do
  if s.frames.length = 1 then .error (.halt s)
  else if arg = 0 then
    let s ← s.truncate frame.base
    return { s with pc := frame.returnTo, frames := s.frames.dropLast }
  else
    let (result, s) ← s.pop
    let s ← s.truncate frame.base
    let s ← s.push result
    return { s with pc := frame.returnTo, frames := s.frames.dropLast }

/-- Prints values of the innermost frame. -/
def print (s : State) (frame : Frame) (arg : Int32) : Except Stop State := do
  if arg.toInt < 0 ∨ arg.toInt > s.count - frame.base then s.fail (.stack .underflow)
  else
    let (vs, s) ← s.popMany arg.toInt.toNat
    return { s with pc := s.pc + 1, output := s.output.push (lineOf vs) }

/-- Executes an instruction. -/
def execute (task : Task) (s : State) (i : Instruction) : Except Stop State := do
  let frame ← fetch .frames s.frames (s.frames.length - 1)
  let arg := i.arg.toInt
  match i.op? with
  | none => s.fail (.unknownOpcode i.code)
  | some .pushInt =>
    let s ← s.push (.int i.arg)
    return { s with pc := s.pc + 1 }
  | some .pushStr =>
    if arg < 0 ∨ arg ≥ task.strings.size then s.fail (.noString i.arg)
    else
      let t ← fetch .strings task.strings.toList arg
      let s ← s.push (.str t)
      return { s with pc := s.pc + 1 }
  | some .loadLocal =>
    let v ← s.get (frame.base + arg)
    let s ← s.push v
    return { s with pc := s.pc + 1 }
  | some .storeLocal =>
    let (v, s) ← s.pop
    let s ← s.set (frame.base + arg) v
    return { s with pc := s.pc + 1 }
  | some .pop =>
    let (_, s) ← s.pop
    return { s with pc := s.pc + 1 }
  | some .branch =>
    if arg < 0 ∨ arg > task.code.size then s.fail (.badTarget i.arg)
    else return { s with pc := arg }
  | some .branchZero =>
    if arg < 0 ∨ arg > task.code.size then s.fail (.badTarget i.arg)
    else
      let (v, s) ← s.popInt
      return { s with pc := if v = 0 then arg else s.pc + 1 }
  | some .call => call task s frame i.arg
  | some .ret => ret s frame i.arg
  | some .print => print s frame i.arg
  | some op => binary s op

/-- Executes the next instruction, unless the code has ended. -/
def step (task : Task) (s : State) : Except Stop State :=
  if s.pc ≥ task.code.size then .error (.halt s)
  else do
    let i ← fetch .code task.code.toList s.pc
    execute task s i

/-! ## Runs -/

/-- The states that a run goes through, starting in `s₀`. -/
inductive Reachable (task : Task) (s₀ : State) : State → Prop where
  | refl : Reachable task s₀ s₀
  | next {s s' : State} (h : Reachable task s₀ s) (hs : step task s = .ok s') :
      Reachable task s₀ s'

/-- A failed instruction. -/
structure Fault where
  pc : Int
  code : UInt8
  cause : FaultCause

/-- How a run ended. -/
structure Ending where
  state : State
  steps : Nat
  fault : Option Fault

/-- Runs from `s` after `steps` instructions, looking at no more than `fuel` further ones. -/
def runFrom (task : Task) (limit : Int) :
    (fuel : Nat) → (steps : Nat) → State → Except Stop (Option Ending)
  | 0, _, _ => .ok none
  | fuel + 1, steps, s =>
    if s.pc ≥ task.code.size then .ok (some ⟨s, steps, none⟩)
    else do
      let i ← fetch .code task.code.toList s.pc
      if 0 < limit ∧ limit < steps + 1 then
        return some ⟨s, steps + 1, some ⟨s.pc, i.code, .stepLimit limit⟩⟩
      else match execute task s i with
        | .ok s' => runFrom task limit fuel (steps + 1) s'
        | .error (.halt s') => return some ⟨s', steps + 1, none⟩
        | .error (.fault s' cause) => return some ⟨s', steps + 1, some ⟨s'.pc, i.code, cause⟩⟩
        | .error (.stray region index) => .error (.stray region index)

end Bare

/-! ## States on bare memory -/

/-- The open calls on bare memory. The outermost frame has an entry of its own there. -/
def bareFrames (frames : List Frame) : List Bare.Frame :=
  ⟨-1, 0⟩ :: (frames.map fun f => ⟨f.returnTo, f.base⟩).reverse

/-- The cells of a stack: its values, and zero in all others. -/
def Stack.cells (s : Stack) : List Value :=
  s.toList ++ List.replicate (s.capacity - s.count) .zero

/-- A state on bare memory. -/
def State.bare (s : State) : Bare.State where
  pc := s.pc
  frames := bareFrames s.frames
  cells := s.stack.cells
  count := s.stack.count
  output := s.output

@[simp] theorem State.bare_pc (s : State) : s.bare.pc = s.pc := rfl

@[simp] theorem State.bare_frames (s : State) : s.bare.frames = bareFrames s.frames := rfl

@[simp] theorem State.bare_cells (s : State) : s.bare.cells = s.stack.cells := rfl

@[simp] theorem State.bare_count (s : State) : s.bare.count = s.stack.count := rfl

/-- An ending on bare memory. -/
def Ending.bare (e : Ending) : Bare.Ending where
  state := e.state.bare
  steps := e.steps
  fault := e.fault.map fun f => ⟨f.pc, f.code, f.cause⟩

/-- An outcome on bare memory. -/
def Outcome.bare : Outcome → Except Bare.Stop Bare.State
  | .next s => .ok s.bare
  | .halt s => .error (.halt s.bare)
  | .fault s cause => .error (.fault s.bare cause)

section Bare

variable {α : Type}

/-- Fetching what is there succeeds. -/
theorem fetch_of_getElem? {region : Bare.Region} {xs : List α} {n : Nat} {x : α}
    (h : xs[n]? = some x) : Bare.fetch region xs n = .ok x := by
  obtain ⟨hlt, hx⟩ := List.getElem?_eq_some_iff.mp h
  have hn : 0 ≤ (n : Int) ∧ (n : Int).toNat < xs.length := by simpa using hlt
  rw [Bare.fetch, dif_pos hn]
  simpa using hx

/-- Writing to a cell that is there succeeds. -/
theorem write_of_lt {region : Bare.Region} {xs : List α} {n : Nat} (h : n < xs.length) (x : α) :
    Bare.write region xs n x = .ok (xs.set n x) := by
  have hn : 0 ≤ (n : Int) ∧ (n : Int).toNat < xs.length := by simpa using h
  rw [Bare.write, if_pos hn, Int.toNat_natCast]

/-- The cells between two others are cleared. -/
theorem clear_append (vs ws us : List Value) : Bare.clear (vs ++ ws ++ us) vs.length ws.length =
    .ok (vs ++ List.replicate ws.length Value.zero ++ us) := by
  induction ws generalizing vs with
  | nil => simp [Bare.clear]
  | cons w ws ih =>
    have hlt : vs.length < (vs ++ w :: ws ++ us).length := by simp
    have hset : (vs ++ w :: ws ++ us).set vs.length .zero = vs ++ [Value.zero] ++ ws ++ us := by
      simp
    have hnext : (vs.length : Int) + 1 = (vs ++ [Value.zero]).length := by simp
    rw [List.length_cons, Bare.clear, write_of_lt hlt, ok_bind, hset, hnext, ih]
    simp [List.replicate_succ]

/-! ## Operations on bare memory -/

namespace Stack

variable {s : Stack} {vs : List Value} {v : Value}

/-- A stack is its values and its capacity. -/
theorem eq_of_toList {s' : Stack} (h : s.toList = s'.toList) (hcap : s.capacity = s'.capacity) :
    s = s' := by
  rcases s with ⟨values, capacity⟩
  rcases s' with ⟨values', capacity'⟩
  rw [mk.injEq]
  exact ⟨Array.toList_inj.mp h, hcap⟩

/-- The cells are the values, and zeros up to the capacity. -/
theorem cells_of_toList (h : s.toList = vs) :
    s.cells = vs ++ List.replicate (s.capacity - vs.length) Value.zero := by
  rw [cells, ← length_toList, h]

/-- There are as many cells as the capacity says. -/
theorem length_cells (h : s.count ≤ s.capacity) : s.cells.length = s.capacity := by
  rw [cells, List.length_append, length_toList, List.length_replicate]
  omega

/-- Taking the last value leaves zero in its cell. -/
theorem cells_concat (h : s.toList = vs ++ [v]) (hs : s.count ≤ s.capacity) :
    s.cells.set vs.length .zero = vs ++ List.replicate (s.capacity - vs.length) Value.zero := by
  have hcount : s.count = vs.length + 1 := by rw [← length_toList, h]; simp
  have hcap : s.capacity - vs.length = (s.capacity - (vs ++ [v]).length) + 1 := by
    simp
    omega
  rw [cells_of_toList h, hcap, List.replicate_succ]
  simp

end Stack

/-- What a stack operation comes to on bare memory. -/
def State.onStack (s : State) : Except StackError Stack → Except Bare.Stop Bare.State
  | .ok stack => .ok { s with stack := stack }.bare
  | .error e => .error (.fault s.bare (.stack e))

variable {s : State}

/-- Pushing writes into the cell above the top. It is there, since the machine asks first whether
the stack is full. -/
theorem push_bare (hs : s.Fits) (v : Value) : s.bare.push v = s.onStack (s.stack.push v) := by
  have hlen := Stack.length_cells hs
  by_cases h : s.stack.count < s.stack.capacity
  · obtain ⟨stack, hpush, hlist, hcap⟩ := s.stack.push_of_lt v h
    have hcells : stack.cells = s.stack.cells.set s.stack.count v := by
      have hroom : s.stack.capacity - s.stack.count =
          (s.stack.capacity - (s.stack.toList ++ [v]).length) + 1 := by
        simp
        omega
      rw [Stack.cells_of_toList hlist, hcap, Stack.cells, hroom, List.replicate_succ]
      simp [Stack.count, Stack.toList]
    have hcount : (stack.count : Int) = s.stack.count + 1 := by
      rw [← Stack.length_toList, hlist]
      simp
    have hnot : ¬(s.bare.count ≥ s.bare.cells.length) := by
      simp only [State.bare, hlen]
      omega
    have hwrite : Bare.write .cells s.stack.cells s.stack.count v = _ := write_of_lt (hlen ▸ h) v
    rw [Bare.State.push, if_neg hnot, hpush]
    simp only [State.onStack, State.bare, hwrite, ok_bind, hcells, hcount]
    rfl
  · have hfull : s.bare.count ≥ s.bare.cells.length := by
      simp only [State.bare, hlen]
      omega
    rw [Bare.State.push, if_pos hfull, s.stack.push_of_le v (by omega)]
    rfl

/-- The value on top is taken, and its cell cleared. -/
theorem pop_bare_of_toList (hs : s.Fits) {vs : List Value} {v : Value}
    (h : s.stack.toList = vs ++ [v]) {stack : Stack} (hlist : stack.toList = vs)
    (hcap : stack.capacity = s.stack.capacity) :
    s.bare.pop = .ok (v, { s with stack := stack }.bare) := by
  have hcount : s.stack.count = vs.length + 1 := by rw [← Stack.length_toList, h]; simp
  have hstack : stack.count = vs.length := by rw [← Stack.length_toList, hlist]
  have htop : s.stack.cells[vs.length]? = some v := by
    rw [Stack.cells_of_toList h, List.append_assoc]
    simp
  have hlt : vs.length < s.stack.cells.length := (List.getElem?_eq_some_iff.mp htop).1
  have hindex : s.bare.count - 1 = (vs.length : Int) := by
    simp only [State.bare, hcount]
    omega
  rw [Bare.State.pop, if_neg (by omega), hindex]
  simp only [State.bare, fetch_of_getElem? htop, write_of_lt hlt, ok_bind,
    Stack.cells_concat h hs, Stack.cells_of_toList hlist, hcap, hstack]
  rfl

/-- Popping reads the top cell and clears it. -/
theorem pop_bare (hs : s.Fits) : s.bare.pop =
    match s.stack.pop with
    | .ok (v, stack) => .ok (v, { s with stack := stack }.bare)
    | .error e => .error (.fault s.bare (.stack e)) := by
  rcases s.stack.toList.eq_nil_or_concat with hnil | ⟨vs, v, hlist⟩
  · have hvalues : s.stack.values = #[] := by simpa [Stack.toList] using hnil
    have hcount : s.bare.count = 0 := by simp [State.bare, Stack.count, hvalues]
    rw [Bare.State.pop, if_pos hcount, Stack.pop, hvalues]
    rfl
  · rw [List.concat_eq_append] at hlist
    obtain ⟨stack, hpop, hlist', hcap⟩ := Stack.pop_of_toList hlist
    rw [hpop]
    exact pop_bare_of_toList hs hlist hlist' hcap

/-- Popping an integer, with the value that is no integer gone from the stack as well. -/
theorem popInt_bare (hs : s.Fits) : s.bare.popInt =
    match popInt s with
    | .ok (i, s') => .ok (i, s'.bare)
    | .error (s', cause) => .error (.fault s'.bare cause) := by
  rw [Bare.State.popInt, pop_bare hs, popInt]
  rcases s.stack.pop with e | ⟨v, stack⟩
  · rfl
  · rcases v with i | t <;> rfl

/-- Popping one value after the other takes the top of the list in its order. -/
theorem popMany_bare (hs : s.Fits) {vs ws : List Value} (h : s.stack.toList = vs ++ ws)
    {stack : Stack} (hlist : stack.toList = vs) (hcap : stack.capacity = s.stack.capacity) :
    s.bare.popMany ws.length = .ok (ws, { s with stack := stack }.bare) := by
  -- values are taken from the end of `ws`
  induction ws using List.reverseRecOn generalizing s with
  | nil =>
    rw [List.append_nil] at h
    rw [Stack.eq_of_toList (hlist.trans h.symm) hcap]
    rfl
  | append_singleton ws w ih =>
    rw [← List.append_assoc] at h
    obtain ⟨stack₁, hpop, hlist₁, hcap₁⟩ := Stack.pop_of_toList h
    have hfits : { s with stack := stack₁ }.Fits := (Stack.pop_within hpop).2 hs
    have hmany := ih hfits hlist₁ (hcap.trans hcap₁.symm)
    rw [List.length_append, List.length_singleton, Bare.State.popMany,
      pop_bare_of_toList hs h hlist₁ hcap₁, ok_bind]
    dsimp only
    rw [hmany]
    rfl

/-- Reading a cell. The machine asks first whether the index is that of a value. -/
theorem get_bare (i : Int) : s.bare.get i =
    match s.stack.get i with
    | .ok v => .ok v
    | .error e => .error (.fault s.bare (.stack e)) := by
  rw [Bare.State.get, Stack.get]
  by_cases h : 0 ≤ i ∧ i < s.stack.count
  · obtain ⟨n, rfl⟩ := Int.eq_ofNat_of_zero_le h.1
    have hlt : n < s.stack.values.size := by simpa [Stack.count] using h.2
    have hcell : s.stack.cells[n]? = some (s.stack.values.getD n .zero) := by
      rw [Stack.cells, List.getElem?_append_left (by simpa [Stack.toList] using hlt)]
      simp [Stack.toList, hlt]
    rw [if_pos h, if_neg (by simp only [State.bare]; omega)]
    exact fetch_of_getElem? hcell
  · rw [if_neg h, if_pos (by simp only [State.bare]; omega)]
    rfl

/-- Writing a cell. The machine asks first whether the index is that of a value. -/
theorem set_bare (i : Int) (v : Value) : s.bare.set i v = s.onStack (s.stack.set i v) := by
  rw [Bare.State.set, Stack.set]
  by_cases h : 0 ≤ i ∧ i < s.stack.count
  · obtain ⟨n, rfl⟩ := Int.eq_ofNat_of_zero_le h.1
    have hlt : n < s.stack.toList.length := by simpa using h.2
    have hwrite : n < s.stack.cells.length := by
      rw [Stack.cells, List.length_append]
      omega
    have hcells : s.stack.cells.set n v =
        Stack.cells ⟨s.stack.values.setIfInBounds n v, s.stack.capacity⟩ := by
      rw [Stack.cells, List.set_append_left _ _ hlt]
      simp [Stack.cells, Stack.toList, Stack.count]
    rw [if_pos h, if_neg (by simp only [State.bare]; omega)]
    simp only [State.bare, write_of_lt hwrite, ok_bind, hcells, State.onStack, Int.toNat_natCast]
    simp [Stack.count, pure, Except.pure]
  · rw [if_neg h, if_pos (by simp only [State.bare]; omega)]
    rfl

/-- Truncating clears the cells that are no longer in use. -/
theorem truncate_bare (hs : s.Fits) (n : Nat) :
    s.bare.truncate n = s.onStack (s.stack.truncate n) := by
  by_cases h : n ≤ s.stack.count
  · have hsplit := (s.stack.toList.take_append_drop n).symm
    have hlen : (s.stack.toList.take n).length = n := by simp [h]
    obtain ⟨stack, htrunc, hlist, hcap⟩ := Stack.truncate_of_toList hsplit
    rw [hlen] at htrunc
    have hcount : stack.count = n := by rw [← Stack.length_toList, hlist, hlen]
    have hclear := clear_append (s.stack.toList.take n) (s.stack.toList.drop n)
      (List.replicate (s.stack.capacity - s.stack.count) .zero)
    rw [hlen, List.length_drop, Stack.length_toList, List.take_append_drop] at hclear
    have hcells : s.stack.toList.take n ++ List.replicate (s.stack.count - n) Value.zero ++
        List.replicate (s.stack.capacity - s.stack.count) Value.zero = stack.cells := by
      have hroom : s.stack.count - n + (s.stack.capacity - s.stack.count) =
          stack.capacity - (s.stack.toList.take n).length := by
        rw [hlen, hcap]
        unfold State.Fits at hs
        omega
      rw [List.append_assoc, List.replicate_append_replicate, hroom, ← Stack.cells_of_toList hlist]
    have hnat : (s.bare.count - (n : Int)).toNat = s.stack.count - n := by
      simp only [State.bare]
      omega
    rw [Bare.State.truncate, if_neg (by simp only [State.bare]; omega), htrunc, hnat]
    simp only [State.bare, Stack.cells] at hclear ⊢
    simp only [hclear, ok_bind, hcells, State.onStack, State.bare, hcount]
    rfl
  · rw [Bare.State.truncate, if_pos (by simp only [State.bare]; omega), Stack.truncate,
      if_neg (by omega)]
    rfl

/-! ## Instructions on bare memory -/

/-- The innermost frame on bare memory. -/
def innermost : List Frame → Bare.Frame
  | [] => ⟨-1, 0⟩
  | f :: _ => ⟨f.returnTo, f.base⟩

theorem base_innermost (frames : List Frame) : (innermost frames).base = baseOf frames := by
  cases frames <;> rfl

/-- There is always a frame: that of the program, below all calls. -/
theorem fetch_innermost (frames : List Frame) : Bare.fetch .frames (bareFrames frames)
    ((bareFrames frames).length - 1) = .ok (innermost frames) := by
  cases frames with
  | nil => rfl
  | cons f outer =>
    have hlast : (bareFrames (f :: outer))[outer.length + 1]? = some (innermost (f :: outer)) := by
      simp [bareFrames, innermost]
    have hindex : ((bareFrames (f :: outer)).length : Int) - 1 = (outer.length + 1 : Nat) := by
      simp [bareFrames]
    rw [hindex]
    exact fetch_of_getElem? hlast

/-- A return leaves the outer frames. -/
theorem dropLast_bareFrames (f : Frame) (outer : List Frame) :
    (bareFrames (f :: outer)).dropLast = bareFrames outer := by
  simp [bareFrames, List.dropLast_cons_of_ne_nil]

/-- An argument that names no entry is caught by the check, and any other is in range. -/
theorem argument?_bare (region : Bare.Region) (xs : Array α) (arg : Int32) :
    (argument? xs arg = none ∧ (arg.toInt < 0 ∨ arg.toInt ≥ xs.size)) ∨
      ∃ x, argument? xs arg = some x ∧ ¬(arg.toInt < 0 ∨ arg.toInt ≥ xs.size) ∧
        Bare.fetch region xs.toList arg.toInt = .ok x := by
  rw [argument?]
  by_cases hneg : arg.toInt < 0
  · exact .inl ⟨if_neg (by omega), .inl hneg⟩
  obtain ⟨n, hn⟩ := Int.eq_ofNat_of_zero_le (Int.not_lt.mp hneg)
  rw [hn, if_pos (by omega), Int.toNat_natCast]
  rcases hx : xs[n]? with _ | x
  · have := Array.getElem?_eq_none_iff.mp hx
    exact .inl ⟨rfl, by omega⟩
  · have := (Array.getElem?_eq_some_iff.mp hx).1
    exact .inr ⟨x, rfl, by omega, fetch_of_getElem? (by simpa using hx)⟩

/-- Whether a branch is allowed is asked before the address is used. -/
theorem target?_bare (task : Task) (arg : Int32) :
    (target? task arg = none ∧ (arg.toInt < 0 ∨ arg.toInt > task.code.size)) ∨
      ∃ dest : Nat, target? task arg = some dest ∧ arg.toInt = dest ∧
        ¬(arg.toInt < 0 ∨ arg.toInt > task.code.size) := by
  rw [target?]
  by_cases h : 0 ≤ arg.toInt ∧ arg.toInt ≤ task.code.size
  · exact .inr ⟨arg.toInt.toNat, if_pos h, (Int.toNat_of_nonneg h.1).symm, by omega⟩
  · exact .inl ⟨if_neg h, by omega⟩

/-- Pushing and going on. -/
theorem pushThen_bare (hs : s.Fits) (v : Value) :
    (s.bare.push v >>= fun b => pure { b with pc := b.pc + 1 }) =
      (pushThen s (s.pc + 1) v).bare := by
  rw [push_bare hs, pushThen]
  rcases s.stack.push v with e | stack <;> rfl

/-- An operation on two integers. -/
theorem binary_bare (hs : s.Fits) (op : Opcode) :
    Bare.binary s.bare op = (binaryStep s op).bare := by
  rw [Bare.binary, popInt_bare hs, binaryStep]
  obtain ⟨stack, cause, hpop, -⟩ | ⟨stack, right, hpop, hstack⟩ := popInt_within s
  · rw [hpop]
    rfl
  have hs₁ : { s with stack := stack }.Fits := hstack.2 hs
  simp only [hpop, ok_bind, popInt_bare hs₁]
  obtain ⟨stack', cause, hpop', -⟩ | ⟨stack', left, hpop', hstack'⟩ :=
    popInt_within { s with stack := stack }
  · rw [hpop']
    rfl
  simp only [hpop', ok_bind]
  split
  · rfl
  · exact pushThen_bare (s := { s with stack := stack' }) (hstack'.2 hs₁) _

/-- A call. The function number is compared with the table before the table is read. -/
theorem call_bare (task : Task) (arg : Int32) :
    Bare.call task s.bare (innermost s.frames) arg = (callStep task s arg).bare := by
  rw [Bare.call, callStep, base_innermost, State.base, State.bare_count]
  obtain ⟨hnone, hout⟩ | ⟨f, hsome, hin, hfetch⟩ := argument?_bare .functions task.functions arg
  · rw [hnone, if_pos hout]
    rfl
  rw [hsome, if_neg hin, hfetch, ok_bind]
  dsimp only
  by_cases hentry : f.entry < 0 ∨ f.entry ≥ task.code.size
  · rw [if_pos hentry, if_pos hentry]
    rfl
  rw [if_neg hentry, if_neg hentry]
  by_cases hbase : (s.stack.count : Int) - f.params < baseOf s.frames ∨
      f.params < 0 ∧ (s.stack.count : Int) - f.params ≥ 0x8000000000000000
  · rw [if_pos hbase, if_pos hbase]
    rfl
  · -- the base is not negative, so it is a frame's
    obtain ⟨base, hb⟩ := Int.eq_ofNat_of_zero_le (show 0 ≤ s.stack.count - f.params by omega)
    obtain ⟨entry, he⟩ := Int.eq_ofNat_of_zero_le (show 0 ≤ f.entry by omega)
    rw [if_neg hbase, if_neg hbase, hb, he]
    simp [Outcome.bare, State.bare, bareFrames, pure, Except.pure]

/-- A return, with or without a result. -/
theorem ret_bare (hs : s.Fits) (arg : Int32) :
    Bare.ret s.bare (innermost s.frames) arg = (returnStep s arg).bare := by
  obtain ⟨pc, _ | ⟨frame, outer⟩, stack, output⟩ := s
  · rfl
  have hopen : ¬(bareFrames (frame :: outer)).length = 1 := by simp [bareFrames]
  rw [Bare.ret, State.bare_frames, if_neg hopen, returnStep]
  dsimp only [innermost]
  by_cases harg : arg = 0
  · rw [if_pos harg, if_pos harg, truncate_bare hs]
    dsimp only
    rcases stack.truncate frame.base with e | stack₁
    · rfl
    · simp only [State.onStack, ok_bind, State.bare, Outcome.bare, dropLast_bareFrames]
      rfl
  · rw [if_neg harg, if_neg harg, pop_bare hs]
    dsimp only
    rcases hpop : stack.pop with e | ⟨result, stack₁⟩
    · rfl
    have hs₁ : State.Fits ⟨pc, frame :: outer, stack₁, output⟩ := (Stack.pop_within hpop).2 hs
    simp only [ok_bind, truncate_bare hs₁]
    rcases htrunc : stack₁.truncate frame.base with e | stack₂
    · rfl
    have hs₂ : State.Fits ⟨pc, frame :: outer, stack₂, output⟩ :=
      (Stack.truncate_within htrunc).2 hs₁
    simp only [State.onStack, ok_bind, push_bare hs₂]
    rcases stack₂.push result with e | stack₃
    · rfl
    · simp only [ok_bind, State.bare, Outcome.bare, dropLast_bareFrames]
      rfl

/-- Printing. The number of values is compared with the frame before any of them is popped. -/
theorem print_bare (hs : s.Fits) (arg : Int32) :
    Bare.print s.bare (innermost s.frames) arg = (printStep s arg).bare := by
  rw [Bare.print, printStep, base_innermost, State.bare_count]
  dsimp only
  by_cases h : arg.toInt < 0 ∨ arg.toInt > (s.stack.count : Int) - baseOf s.frames
  · rw [if_pos h, if_pos h]
    rfl
  obtain ⟨n, hn⟩ := Int.eq_ofNat_of_zero_le (show 0 ≤ arg.toInt by omega)
  rw [if_neg h, if_neg h, hn, Int.toNat_natCast]
  have hsplit := (s.stack.toList.take_append_drop (s.stack.count - n)).symm
  have hlen : (s.stack.toList.drop (s.stack.count - n)).length = n := by
    rw [List.length_drop, Stack.length_toList]
    omega
  obtain ⟨stack, htake, hlist, hcap⟩ := Stack.takeTop_of_toList hsplit
  have hmany := popMany_bare hs hsplit hlist hcap
  rw [hlen] at htake hmany
  rw [htake, hmany]
  rfl

/-- **The machine and the bare machine do the same.** -/
theorem execute_bare {task : Task} (hs : s.Fits) (i : Instruction) :
    Bare.execute task s.bare i = (execute task s i).bare := by
  have hframe : Bare.fetch .frames s.bare.frames (s.bare.frames.length - 1) =
      .ok (innermost s.frames) := fetch_innermost s.frames
  rcases hop : i.op? with _ | op
  · simp only [Bare.execute, hframe, ok_bind, hop, execute]
    rfl
  cases op with
  | pushInt =>
    simp only [Bare.execute, hframe, ok_bind, hop, execute]
    exact pushThen_bare hs _
  | pushStr =>
    simp only [Bare.execute, hframe, ok_bind, hop, execute]
    obtain ⟨hnone, hout⟩ | ⟨t, hsome, hin, hfetch⟩ :=
      argument?_bare .strings task.strings i.arg
    · rw [hnone, if_pos hout]
      rfl
    · rw [hsome, if_neg hin, hfetch]
      exact pushThen_bare hs _
  | loadLocal =>
    simp only [Bare.execute, hframe, ok_bind, hop, execute, base_innermost, get_bare, State.base]
    rcases s.stack.get (baseOf s.frames + i.arg.toInt) with e | v
    · rfl
    · exact pushThen_bare hs _
  | storeLocal =>
    simp only [Bare.execute, hframe, ok_bind, hop, execute, base_innermost, storeStep, pop_bare hs]
    rcases s.stack.pop with e | ⟨v, stack⟩
    · rfl
    · simp only [ok_bind, set_bare]
      rcases stack.set (baseOf s.frames + i.arg.toInt) v with e | stack' <;> rfl
  | pop =>
    simp only [Bare.execute, hframe, ok_bind, hop, execute, pop_bare hs]
    rcases s.stack.pop with e | ⟨v, stack⟩ <;> rfl
  | branch =>
    simp only [Bare.execute, hframe, ok_bind, hop, execute]
    obtain ⟨hnone, hout⟩ | ⟨dest, hsome, harg, hin⟩ := target?_bare task i.arg
    · rw [hnone, if_pos hout]
      rfl
    · rw [hsome, if_neg hin, harg]
      rfl
  | branchZero =>
    simp only [Bare.execute, hframe, ok_bind, hop, execute]
    obtain ⟨hnone, hout⟩ | ⟨dest, hsome, harg, hin⟩ := target?_bare task i.arg
    · rw [hnone, if_pos hout]
      rfl
    · rw [hsome, if_neg hin, harg, popInt_bare hs]
      rcases popInt s with ⟨s', cause⟩ | ⟨v, s'⟩
      · rfl
      · by_cases hv : v = 0 <;> simp only [ok_bind, hv, if_true, if_false] <;> rfl
  | call =>
    simp only [Bare.execute, hframe, ok_bind, hop, execute]
    exact call_bare task i.arg
  | ret =>
    simp only [Bare.execute, hframe, ok_bind, hop, execute]
    exact ret_bare hs i.arg
  | print =>
    simp only [Bare.execute, hframe, ok_bind, hop, execute]
    exact print_bare hs i.arg
  | add | sub | mul | div | eq | ne | gt | ge | lt | le =>
    simp only [Bare.execute, hframe, ok_bind, hop, execute]
    exact binary_bare hs _

end Bare

end Stackling.Machine
