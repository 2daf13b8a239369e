import Stackling.Machine

/-!
# Steps of the machine

What an instruction does when nothing goes wrong, as a relation: `Step task c c'`. A `Config` is a
state with the stack as a list and without a capacity, so the rules read values off the end of a
list and never mention limits.

`Step.follows` ties the relation to the machine: where a step is possible, the instruction leads
to that configuration, or it is a push and the stack is full. Everything that is proved later
about code is proved about steps. `Runs` counts them, and `Runs.runFrom` and `Runs.ending` say
what that means for a run under limits.
-/

namespace Stackling.Machine

open Code

/-! ## Configurations -/

/-- A state without the limits: the stack is a list, bottom first, and the output one text. -/
structure Config where
  pc : Nat
  /-- open calls, innermost first -/
  frames : List Frame
  values : List Value
  output : Bytes

/-- The configuration that a state is in. -/
def State.config (s : State) : Config := ⟨s.pc, s.frames, s.stack.toList, s.printed⟩

/-- The configuration after the instruction that is not a jump, with these values. -/
def Config.next (c : Config) (values : List Value) : Config :=
  { c with pc := c.pc + 1, values := values }

/-- The instruction at `pc` is the operation `op` with argument `arg`. -/
def Task.At (task : Task) (pc : Nat) (op : Opcode) (arg : Int32) : Prop :=
  task.code[pc]? = some (.withArg op arg)

theorem Task.At.lt_size {task : Task} {pc : Nat} {op : Opcode} {arg : Int32}
    (h : task.At pc op arg) : pc < task.code.size :=
  (Array.getElem?_eq_some_iff.mp h).1

/-- An address has one operation and one argument. -/
theorem Task.At.inj {task : Task} {pc : Nat} {op op' : Opcode} {arg arg' : Int32}
    (h : task.At pc op arg) (h' : task.At pc op' arg') : op = op' ∧ arg = arg' := by
  have hi : Instruction.withArg op arg = .withArg op' arg' := Option.some.inj (h.symm.trans h')
  have hop := congrArg Instruction.op? hi
  rw [Instruction.op?_withArg, Instruction.op?_withArg] at hop
  exact ⟨Option.some.inj hop, congrArg Instruction.arg hi⟩

/-- The operations on two integers. -/
def arithmeticOps : List Opcode := [.add, .sub, .mul, .div, .eq, .ne, .gt, .ge, .lt, .le]

/-- `Step task c c'`: the instruction of `c` leads to `c'`. -/
inductive Step (task : Task) (c : Config) : Config → Prop where
  | pushInt {arg : Int32} (hi : task.At c.pc .pushInt arg) :
      Step task c (c.next (c.values ++ [.int arg]))
  | pushStr {arg : Int32} {t : Bytes} (hi : task.At c.pc .pushStr arg)
      (ht : argument? task.strings arg = some t) : Step task c (c.next (c.values ++ [.str t]))
  | load {arg : Int32} {slot : Nat} {v : Value} (hi : task.At c.pc .loadLocal arg)
      (harg : arg.toInt = slot) (hv : c.values[baseOf c.frames + slot]? = some v) :
      Step task c (c.next (c.values ++ [v]))
  | store {arg : Int32} {slot : Nat} {vs : List Value} {v : Value}
      (hi : task.At c.pc .storeLocal arg) (harg : arg.toInt = slot) (hv : c.values = vs ++ [v])
      (hslot : baseOf c.frames + slot < vs.length) :
      Step task c (c.next (vs.set (baseOf c.frames + slot) v))
  | pop {arg : Int32} {vs : List Value} {v : Value} (hi : task.At c.pc .pop arg)
      (hv : c.values = vs ++ [v]) : Step task c (c.next vs)
  | operate {op : Opcode} {arg l r : Int32} {vs : List Value} (hi : task.At c.pc op arg)
      (hop : op ∈ arithmeticOps) (hv : c.values = vs ++ [.int l, .int r])
      (hr : ¬(op = .div ∧ r = 0)) : Step task c (c.next (vs ++ [.int (arithmetic op l r)]))
  | branch {arg : Int32} {dest : Nat} (hi : task.At c.pc .branch arg)
      (hto : target? task arg = some dest) : Step task c { c with pc := dest }
  | branchZero {arg i : Int32} {dest : Nat} {vs : List Value} (hi : task.At c.pc .branchZero arg)
      (hto : target? task arg = some dest) (hv : c.values = vs ++ [.int i]) :
      Step task c { c with pc := if i = 0 then dest else c.pc + 1, values := vs }
  /-- the arguments stay where they are and become the first slots of the callee -/
  | call {arg : Int32} {f : Code.Function} {entry : Nat} {vs args : List Value}
      (hi : task.At c.pc .call arg) (hf : argument? task.functions arg = some f)
      (hentry : f.entry = entry) (hlt : entry < task.code.size) (hv : c.values = vs ++ args)
      (hargs : f.params = args.length) (hbase : baseOf c.frames ≤ vs.length) :
      Step task c { c with pc := entry, frames := ⟨c.pc + 1, vs.length⟩ :: c.frames }
  | ret {dest : Nat} {outer : List Frame} {vs locals : List Value} (hi : task.At c.pc .ret 0)
      (hf : c.frames = ⟨dest, vs.length⟩ :: outer) (hv : c.values = vs ++ locals) :
      Step task c { c with pc := dest, frames := outer, values := vs }
  | retValue {arg : Int32} {dest : Nat} {outer : List Frame} {vs locals : List Value} {v : Value}
      (hi : task.At c.pc .ret arg) (harg : arg ≠ 0) (hf : c.frames = ⟨dest, vs.length⟩ :: outer)
      (hv : c.values = vs ++ locals ++ [v]) :
      Step task c { c with pc := dest, frames := outer, values := vs ++ [v] }
  | print {arg : Int32} {vs line : List Value} (hi : task.At c.pc .print arg)
      (harg : arg.toInt = line.length) (hv : c.values = vs ++ line)
      (hbase : baseOf c.frames ≤ vs.length) :
      Step task c { c.next vs with output := c.output ++ (lineOf line ++ Bytes.ofString "\n") }

/-! ## Stack operations on lists -/

namespace Stack

variable {s : Stack}

@[simp] theorem length_toList (s : Stack) : s.toList.length = s.count := by
  simp [toList, count]

/-- Pushing succeeds if there is room, and puts the value at the end of the list. -/
theorem push_of_lt (v : Value) (h : s.count < s.capacity) :
    ∃ s', s.push v = .ok s' ∧ s'.toList = s.toList ++ [v] ∧ s'.capacity = s.capacity := by
  rw [push, if_pos h]
  exact ⟨_, rfl, by simp [toList], rfl⟩

/-- Pushing fails if there is none. -/
theorem push_of_le (v : Value) (h : s.capacity ≤ s.count) : s.push v = .error .overflow := by
  rw [push, if_neg (by omega)]

theorem back?_of_toList {vs : List Value} {v : Value} (h : s.toList = vs ++ [v]) :
    s.values.back? = some v := by
  simp only [toList] at h
  rw [← Array.getLast?_toList, h, List.getLast?_concat]

/-- The last value of the list is popped. -/
theorem pop_of_toList {vs : List Value} {v : Value} (h : s.toList = vs ++ [v]) :
    ∃ s', s.pop = .ok (v, s') ∧ s'.toList = vs ∧ s'.capacity = s.capacity := by
  rw [pop, back?_of_toList h]
  refine ⟨_, rfl, ?_, rfl⟩
  simp only [toList] at h ⊢
  simp [h]

/-- The last value of the list is on top. -/
theorem peek_of_toList {vs : List Value} {v : Value} (h : s.toList = vs ++ [v]) :
    s.peek = .ok v := by
  rw [peek, back?_of_toList h]

/-- A cell is read by its index in the list. -/
theorem get_of_getElem? {i : Nat} {v : Value} (h : s.toList[i]? = some v) :
    s.get i = .ok v := by
  obtain ⟨hlt, hv⟩ := List.getElem?_eq_some_iff.mp h
  rw [length_toList] at hlt
  rw [get, if_pos ⟨by omega, by omega⟩, Int.toNat_natCast]
  simp only [toList] at h
  simp [Array.getD_eq_getD_getElem?, ← Array.getElem?_toList, h]

/-- A cell is written by its index in the list. -/
theorem set_of_lt {i : Nat} (v : Value) (h : i < s.toList.length) :
    ∃ s', s.set i v = .ok s' ∧ s'.toList = s.toList.set i v ∧ s'.capacity = s.capacity := by
  rw [length_toList] at h
  rw [set, if_pos ⟨by omega, by omega⟩, Int.toNat_natCast]
  exact ⟨_, rfl, by simp [toList], rfl⟩

/-- Truncating keeps the front of the list. -/
theorem truncate_of_toList {vs ws : List Value} (h : s.toList = vs ++ ws) :
    ∃ s', s.truncate vs.length = .ok s' ∧ s'.toList = vs ∧ s'.capacity = s.capacity := by
  have hlen : s.count = vs.length + ws.length := by rw [← length_toList, h, List.length_append]
  rw [truncate, if_pos ⟨by omega, by omega⟩, Int.toNat_natCast]
  refine ⟨_, rfl, ?_, rfl⟩
  simp only [toList] at h ⊢
  simp [h]

/-- Values are taken off the end of the list, in their order. -/
theorem takeTop_of_toList {vs ws : List Value} (h : s.toList = vs ++ ws) :
    ∃ s', s.takeTop ws.length = (ws, s') ∧ s'.toList = vs ∧ s'.capacity = s.capacity := by
  have hcount : s.count = vs.length + ws.length := by rw [← length_toList, h, List.length_append]
  rw [takeTop, hcount, Nat.add_sub_cancel]
  refine ⟨_, Prod.ext ?_ rfl, ?_, rfl⟩
  all_goals
    simp only [toList] at h ⊢
    simp [h]

end Stack

/-! ## What the machine does -/

/-- A state whose stack holds no more than it may. -/
def State.Fits (s : State) : Prop := s.stack.count ≤ s.stack.capacity

/-- The outcome of an instruction that goes on in `c`, or fails for want of room. -/
def Follows (s : State) (c : Config) (o : Outcome) : Prop :=
  (∃ s', o = .next s' ∧ s'.config = c ∧ s'.stack.capacity = s.stack.capacity ∧ s'.Fits) ∨
    (s.stack.capacity < c.values.length ∧ o = .fault s (.stack .overflow))

/-- A push goes on with the value on top, or fails for want of room. -/
theorem pushThen_follows (s : State) (next : Nat) (v : Value) :
    Follows s { s.config with pc := next, values := s.config.values ++ [v] }
      (pushThen s next v) := by
  by_cases h : s.stack.count < s.stack.capacity
  · obtain ⟨stack, hpush, hlist, hcap⟩ := s.stack.push_of_lt v h
    refine .inl ⟨{ s with pc := next, stack := stack }, by rw [pushThen, hpush], ?_, hcap, ?_⟩
    · simp only [State.config, State.printed, hlist]
    · have := congrArg List.length hlist
      simp at this
      simp only [State.Fits]
      omega
  · refine .inr ⟨?_, ?_⟩
    · simp [State.config]
      omega
    · rw [pushThen, s.stack.push_of_le v (by omega)]

/-- An integer on top is popped. -/
theorem popInt_of_values {s : State} {vs : List Value} {i : Int32}
    (h : s.config.values = vs ++ [Value.int i]) :
    ∃ s', popInt s = .ok (i, s') ∧ s'.config = { s.config with values := vs } ∧
      s'.stack.capacity = s.stack.capacity := by
  obtain ⟨stack, hpop, hlist, hcap⟩ := Stack.pop_of_toList h
  rw [popInt, hpop]
  refine ⟨_, rfl, ?_, hcap⟩
  simp only [State.config, State.printed, hlist]

/-- An operation pops its two operands. If it does not divide by zero it pushes the result, for
which there is room. -/
theorem binaryStep_of_values {s : State} {vs : List Value} {l r : Int32} (op : Opcode)
    (h : s.config.values = vs ++ [Value.int l, Value.int r]) :
    ∃ s', s'.config = { s.config with values := vs } ∧
      s'.stack.capacity = s.stack.capacity ∧ s'.stack.count + 2 = s.stack.count ∧
      binaryStep s op = if op = .div ∧ r = 0 then .fault s' .divisionByZero
        else pushThen s' (s.pc + 1) (.int (arithmetic op l r)) := by
  have h₂ : s.config.values = vs ++ [Value.int l] ++ [Value.int r] := by simp [h]
  obtain ⟨s₁, hpop₁, hs₁, hcap₁⟩ := popInt_of_values h₂
  have h₁ : s₁.config.values = vs ++ [Value.int l] := by rw [hs₁]
  obtain ⟨s₂, hpop₂, hs₂, hcap₂⟩ := popInt_of_values h₁
  have hpc : s₂.pc = s.pc := by
    have := congrArg Config.pc hs₂
    rw [hs₁] at this
    exact this
  have hcount : s₂.stack.count + 2 = s.stack.count := by
    have hv := congrArg (fun c => c.values.length) hs₂
    have hw := congrArg List.length h
    simp [State.config] at hv hw
    omega
  refine ⟨s₂, by rw [hs₂, hs₁], hcap₂.trans hcap₁, hcount, ?_⟩
  simp only [binaryStep, hpop₁, hpop₂, hpc]

/-- An instruction that goes on in a state with no more values. -/
theorem Follows.of_next {s : State} {c : Config} {o : Outcome} (s' : State) (hs : s.Fits)
    (ho : o = .next s') (hc : s'.config = c) (hcap : s'.stack.capacity = s.stack.capacity)
    (hlen : c.values.length ≤ s.config.values.length) : Follows s c o := by
  refine .inl ⟨s', ho, hc, hcap, ?_⟩
  rw [← hc] at hlen
  simp only [State.config, Stack.length_toList] at hlen
  unfold State.Fits at hs ⊢
  omega

/-- An argument that is not negative is an index. -/
theorem argument?_natCast {α : Type} {xs : Array α} {arg : Int32} {n : Nat} (h : arg.toInt = n) :
    argument? xs arg = xs[n]? := by
  rw [argument?, if_pos (by omega), h, Int.toNat_natCast]

@[simp] theorem arg_withArg (op : Opcode) (arg : Int32) : (Instruction.withArg op arg).arg = arg :=
  rfl

/-- All operations on two integers are executed alike. -/
theorem execute_arithmetic {task : Task} {s : State} {op : Opcode} {arg : Int32}
    (hop : op ∈ arithmeticOps) : execute task s (.withArg op arg) = binaryStep s op := by
  simp only [arithmeticOps, List.mem_cons, List.not_mem_nil, or_false] at hop
  rcases hop with rfl | rfl | rfl | rfl | rfl | rfl | rfl | rfl | rfl | rfl <;> rfl

/-- Storing pops a value and puts it into a slot below. It cannot fail here, since the slot is a
cell that exists. -/
theorem storeStep_follows {s : State} {arg : Int32} {slot : Nat} {vs : List Value} {v : Value}
    (hs : s.Fits) (harg : arg.toInt = slot) (hv : s.config.values = vs ++ [v])
    (hslot : baseOf s.frames + slot < vs.length) :
    Follows s (s.config.next (vs.set (baseOf s.frames + slot) v)) (storeStep s arg) := by
  obtain ⟨stack₁, hpop, hlist₁, hcap₁⟩ := Stack.pop_of_toList hv
  rw [← hlist₁] at hslot
  obtain ⟨stack₂, hset, hlist₂, hcap₂⟩ := Stack.set_of_lt v hslot
  refine .of_next { s with pc := s.pc + 1, stack := stack₂ } hs ?_ ?_ (hcap₂.trans hcap₁) ?_
  · simp only [storeStep, hpop, harg, ← Int.natCast_add, hset]
  · simp only [State.config, State.printed, Config.next, hlist₂, hlist₁]
  · simp [Config.next, hv]

/-- An operation that does not divide by zero follows its rule, without a push that could overflow.
-/
theorem binaryStep_follows {s : State} {op : Opcode} {vs : List Value} {l r : Int32}
    (hs : s.Fits) (hv : s.config.values = vs ++ [Value.int l, Value.int r])
    (hr : ¬(op = .div ∧ r = 0)) :
    Follows s (s.config.next (vs ++ [Value.int (arithmetic op l r)])) (binaryStep s op) := by
  obtain ⟨s₁, hc₁, hcap₁, hcount, hstep⟩ := binaryStep_of_values op hv
  rw [hstep, if_neg hr]
  -- two values are gone, so there is room for the result
  rcases pushThen_follows s₁ (s.pc + 1) (.int (arithmetic op l r)) with
    ⟨s₂, ho, hc₂, hcap₂, hfits⟩ | ⟨hlt, -⟩
  · refine .inl ⟨s₂, ho, ?_, hcap₂.trans hcap₁, hfits⟩
    rw [hc₂, hc₁]
    rfl
  · rw [hc₁] at hlt
    have hlen := congrArg List.length hv
    simp [State.config] at hlt hlen
    unfold State.Fits at hs
    omega

/-- A call opens a frame below its arguments, which stay where they are. -/
theorem callStep_follows {task : Task} {s : State} {arg : Int32} {f : Code.Function} {entry : Nat}
    {vs args : List Value} (hs : s.Fits) (hf : argument? task.functions arg = some f)
    (hentry : f.entry = entry) (hlt : entry < task.code.size)
    (hv : s.config.values = vs ++ args) (hargs : f.params = args.length)
    (hbase : baseOf s.frames ≤ vs.length) :
    Follows s { s.config with pc := entry, frames := ⟨s.pc + 1, vs.length⟩ :: s.frames }
      (callStep task s arg) := by
  have hcount : s.stack.count = vs.length + args.length := by
    have hlen := congrArg List.length hv
    simpa [State.config] using hlen
  have hin : ¬((entry : Int) < 0 ∨ (task.code.size : Int) ≤ entry) := by omega
  have hdepth : (s.stack.count : Int) - (args.length : Nat) = (vs.length : Nat) := by omega
  have hroom : ¬(((vs.length : Nat) : Int) < s.base ∨
      ((args.length : Nat) : Int) < 0 ∧ 0x8000000000000000 ≤ ((vs.length : Nat) : Int)) := by
    simp only [State.base]
    omega
  refine .of_next { s with pc := entry, frames := ⟨s.pc + 1, vs.length⟩ :: s.frames } hs ?_ rfl rfl
    (Nat.le_refl _)
  simp only [callStep, hf, hentry, if_neg hin, hargs, hdepth, if_neg hroom, Int.toNat_natCast]

/-- A return drops the frame and everything in it. -/
theorem returnStep_follows {s : State} {dest : Nat} {outer : List Frame} {vs locals : List Value}
    (hs : s.Fits) (hf : s.frames = ⟨dest, vs.length⟩ :: outer)
    (hv : s.config.values = vs ++ locals) :
    Follows s { s.config with pc := dest, frames := outer, values := vs } (returnStep s 0) := by
  obtain ⟨stack, htrunc, hlist, hcap⟩ := Stack.truncate_of_toList hv
  refine .of_next { s with pc := dest, frames := outer, stack := stack } hs ?_ ?_ hcap ?_
  · simp only [returnStep, hf, if_pos, htrunc]
  · simp only [State.config, State.printed, hlist]
  · simp [hv]

/-- With a result, the stack has room for it: it was on the stack before. -/
theorem returnStep_value_follows {s : State} {arg : Int32} {dest : Nat} {outer : List Frame}
    {vs locals : List Value} {v : Value} (hs : s.Fits) (harg : arg ≠ 0)
    (hf : s.frames = ⟨dest, vs.length⟩ :: outer)
    (hv : s.config.values = vs ++ locals ++ [v]) :
    Follows s { s.config with pc := dest, frames := outer, values := vs ++ [v] }
      (returnStep s arg) := by
  obtain ⟨stack₁, hpop, hlist₁, hcap₁⟩ := Stack.pop_of_toList hv
  obtain ⟨stack₂, htrunc, hlist₂, hcap₂⟩ := Stack.truncate_of_toList hlist₁
  have hroom : stack₂.count < stack₂.capacity := by
    have hlen := congrArg List.length hv
    have hlen₂ := congrArg List.length hlist₂
    simp [State.config] at hlen hlen₂
    unfold State.Fits at hs
    omega
  obtain ⟨stack₃, hpush, hlist₃, hcap₃⟩ := Stack.push_of_lt v hroom
  refine .of_next { s with pc := dest, frames := outer, stack := stack₃ } hs ?_ ?_
    (hcap₃.trans (hcap₂.trans hcap₁)) ?_
  · simp only [returnStep, hf, if_neg harg, hpop, htrunc, hpush]
  · simp only [State.config, State.printed, hlist₃, hlist₂]
  · simp [hv]

/-- Printing takes its values off the stack, in the order in which they were pushed. -/
theorem printStep_follows {s : State} {arg : Int32} {vs line : List Value} (hs : s.Fits)
    (harg : arg.toInt = line.length) (hv : s.config.values = vs ++ line)
    (hbase : baseOf s.frames ≤ vs.length) :
    Follows s { s.config.next vs with output := s.printed ++ (lineOf line ++ Bytes.ofString "\n") }
      (printStep s arg) := by
  obtain ⟨stack, htake, hlist, hcap⟩ := Stack.takeTop_of_toList hv
  have hcount : s.stack.count = vs.length + line.length := by
    have hlen := congrArg List.length hv
    simpa [State.config] using hlen
  have hroom : ¬((line.length : Int) < 0 ∨
      (s.stack.count : Int) - baseOf s.frames < line.length) := by
    omega
  refine .of_next { s with
    pc := s.pc + 1, stack := stack, output := s.output.push (lineOf line) } hs ?_ ?_ hcap ?_
  · simp only [printStep, harg, if_neg hroom, Int.toNat_natCast, htake]
  · simp [State.config, State.printed, Config.next, hlist]
  · simp [Config.next, hv]

/-- **What the machine does where a step is possible**: it takes the step, or the step is a push
and the stack is full. -/
theorem Step.follows {task : Task} {s : State} {c : Config} (h : Step task s.config c)
    (hs : s.Fits) : ∃ i, task.code[s.pc]? = some i ∧ Follows s c (execute task s i) := by
  cases h with
  | pushInt hi => exact ⟨_, hi, pushThen_follows s (s.pc + 1) _⟩
  | pushStr hi ht =>
    refine ⟨_, hi, ?_⟩
    simp only [execute, Instruction.op?_withArg, arg_withArg, ht]
    exact pushThen_follows s (s.pc + 1) _
  | load hi harg hv =>
    refine ⟨_, hi, ?_⟩
    have hget := Stack.get_of_getElem? hv
    simp only [State.config] at hget
    simp only [execute, Instruction.op?_withArg, arg_withArg, harg, State.base,
      ← Int.natCast_add, hget]
    exact pushThen_follows s (s.pc + 1) _
  | store hi harg hv hslot => exact ⟨_, hi, storeStep_follows hs harg hv hslot⟩
  | pop hi hv =>
    refine ⟨_, hi, ?_⟩
    obtain ⟨stack, hpop, hlist, hcap⟩ := Stack.pop_of_toList hv
    refine .of_next { s with pc := s.pc + 1, stack := stack } hs ?_ ?_ hcap ?_
    · simp only [execute, Instruction.op?_withArg, hpop]
    · simp only [State.config, State.printed, Config.next, hlist]
    · simp [Config.next, hv]
  | operate hi hop hv hr =>
    refine ⟨_, hi, ?_⟩
    rw [execute_arithmetic hop]
    exact binaryStep_follows hs hv hr
  | @branch arg dest hi hto =>
    refine ⟨_, hi, .of_next { s with pc := dest } hs ?_ rfl rfl (Nat.le_refl _)⟩
    simp only [execute, Instruction.op?_withArg, arg_withArg, hto]
  | @branchZero arg i dest vs hi hto hv =>
    refine ⟨_, hi, ?_⟩
    obtain ⟨s₁, hpop, hc₁, hcap⟩ := popInt_of_values hv
    have hpc : s₁.pc = s.pc := congrArg Config.pc hc₁
    refine .of_next { s₁ with pc := if i = 0 then dest else s.pc + 1 } hs ?_ ?_ hcap ?_
    · simp only [execute, Instruction.op?_withArg, arg_withArg, hto, hpop, hpc]
    · simp only [State.config, Config.mk.injEq] at hc₁ ⊢
      exact ⟨trivial, hc₁.2⟩
    · simp [hv]
  | call hi hf hentry hlt hv hargs hbase =>
    exact ⟨_, hi, callStep_follows hs hf hentry hlt hv hargs hbase⟩
  | ret hi hf hv => exact ⟨_, hi, returnStep_follows hs hf hv⟩
  | retValue hi harg hf hv => exact ⟨_, hi, returnStep_value_follows hs harg hf hv⟩
  | print hi harg hv hbase => exact ⟨_, hi, printStep_follows hs harg hv hbase⟩

/-! ## Where steps end -/

/-- The run is over: there is no instruction, or the outermost frame returns. -/
def Halts (task : Task) (c : Config) : Prop :=
  task.code[c.pc]? = none ∨ (c.frames = [] ∧ ∃ arg, task.At c.pc .ret arg)

/-- A return without an open call halts the machine. -/
theorem Halts.execute {task : Task} {s : State} (h : Halts task s.config) {i : Instruction}
    (hi : task.code[s.pc]? = some i) : Machine.execute task s i = .halt s := by
  obtain hnone | ⟨hframes, arg, hret⟩ := h
  · rw [show task.code[s.pc]? = none from hnone] at hi
    cases hi
  · rw [show task.code[s.pc]? = some (.withArg .ret arg) from hret] at hi
    cases hi
    have hframes : s.frames = [] := hframes
    simp only [Machine.execute, Instruction.op?_withArg, returnStep, hframes]

/-- The instruction divides by zero. -/
def DividesByZero (task : Task) (c : Config) : Prop :=
  ∃ arg vs l, task.At c.pc .div arg ∧ c.values = vs ++ [.int l, .int 0]

/-- Such an instruction is a fault that prints nothing. -/
theorem DividesByZero.execute {task : Task} {s : State} (h : DividesByZero task s.config) :
    ∃ i s', task.code[s.pc]? = some i ∧ i.code = Opcode.div.toByte ∧
      Machine.execute task s i = .fault s' .divisionByZero ∧ s'.pc = s.pc ∧
      s'.printed = s.printed := by
  obtain ⟨arg, vs, l, hi, hv⟩ := h
  obtain ⟨s', hc', -, -, hstep⟩ := binaryStep_of_values .div hv
  refine ⟨_, s', hi, rfl, ?_, congrArg Config.pc hc', congrArg Config.output hc'⟩
  rw [execute_arithmetic (by decide), hstep, if_pos ⟨rfl, rfl⟩]

/-! ## Runs -/

/-- `Runs task n c c'`: from `c` it takes `n` steps to `c'`. -/
inductive Runs (task : Task) : Nat → Config → Config → Prop where
  | refl (c : Config) : Runs task 0 c c
  | head {n : Nat} {c c₁ c₂ : Config} (h : Step task c c₁) (hr : Runs task n c₁ c₂) :
      Runs task (n + 1) c c₂

namespace Runs

variable {task : Task} {m n : Nat} {c c₁ c₂ : Config}

theorem one (h : Step task c c₁) : Runs task 1 c c₁ := .head h (.refl c₁)

/-- Runs are put together. -/
theorem trans (h : Runs task m c c₁) (h' : Runs task n c₁ c₂) : Runs task (m + n) c c₂ := by
  induction h with
  | refl => rwa [Nat.zero_add]
  | head hs _ ih =>
    rw [Nat.add_right_comm]
    exact .head hs (ih h')

end Runs

/-- A step adds one value at most. -/
theorem Step.length_values_le {task : Task} {c c' : Config} (h : Step task c c') :
    c'.values.length ≤ c.values.length + 1 := by
  cases h <;> simp_all [Config.next] <;> omega

/-- What was printed stays printed. -/
theorem Step.output_prefix {task : Task} {c c' : Config} (h : Step task c c') :
    c.output <+: c'.output := by
  cases h with
  | print => exact List.prefix_append _ _
  | _ => exact List.prefix_rfl

/-- What was printed stays printed. -/
theorem Runs.output_prefix {task : Task} {n : Nat} {c c' : Config} (h : Runs task n c c') :
    c.output <+: c'.output := by
  induction h with
  | refl => exact List.prefix_rfl
  | head hs _ ih => exact hs.output_prefix.trans ih

/-- A run that a limit put an end to: the stack was full, or no more steps were allowed. -/
def Ending.Exhausted (limit : Int) (e : Ending) : Prop :=
  ∃ f, e.fault = some f ∧ (f.cause = .stack .overflow ∨ f.cause = .stepLimit limit)

/-- Does the limit allow for so many instructions? -/
def Allows (limit : Int) (steps : Nat) : Prop := limit ≤ 0 ∨ (steps : Int) ≤ limit

section RunFrom

variable {task : Task} {limit : Int} {steps : Nat} {s : State} {i : Instruction}

theorem Allows.not_exceeded (hl : Allows limit (steps + 1)) :
    ¬(0 < limit ∧ limit < steps + 1) := by
  unfold Allows at hl
  omega

/-- An instruction that goes on takes one step of the run. -/
theorem runFrom_next (hi : task.code[s.pc]? = some i) (hl : Allows limit (steps + 1)) {s' : State}
    (ho : execute task s i = .next s') (fuel : Nat) :
    runFrom task limit (fuel + 1) steps s = runFrom task limit fuel (steps + 1) s' := by
  rw [runFrom, hi]
  simp only [if_neg hl.not_exceeded, ho]

/-- An instruction that halts ends the run without a fault. -/
theorem runFrom_halt (hi : task.code[s.pc]? = some i) (hl : Allows limit (steps + 1)) {s' : State}
    (ho : execute task s i = .halt s') (fuel : Nat) :
    runFrom task limit (fuel + 1) steps s = some ⟨s', steps + 1, none⟩ := by
  rw [runFrom, hi]
  simp only [if_neg hl.not_exceeded, ho]

/-- An instruction that fails ends the run. The fault names the address and the operation. -/
theorem runFrom_fault (hi : task.code[s.pc]? = some i) (hl : Allows limit (steps + 1)) {s' : State}
    {cause : FaultCause} (ho : execute task s i = .fault s' cause) (fuel : Nat) :
    runFrom task limit (fuel + 1) steps s =
      some ⟨s', steps + 1, some ⟨s'.pc, i.code, cause⟩⟩ := by
  rw [runFrom, hi]
  simp only [if_neg hl.not_exceeded, ho]

/-- An instruction beyond the limit. -/
theorem exhausted_of_not_allows (hi : task.code[s.pc]? = some i) (hl : ¬Allows limit (steps + 1))
    {fuel : Nat} {e : Ending} (he : runFrom task limit (fuel + 1) steps s = some e) :
    e.Exhausted limit ∧ e.state = s := by
  have hl : 0 < limit ∧ limit < steps + 1 := by
    unfold Allows at hl
    omega
  rw [runFrom, hi] at he
  simp only [if_pos hl] at he
  cases he
  exact ⟨⟨_, rfl, .inr rfl⟩, rfl⟩

/-- A run with room and steps enough goes through every step. -/
theorem Runs.runFrom {n : Nat} {c : Config} (h : Runs task n s.config c) (hs : s.Fits)
    (hroom : s.stack.count + n ≤ s.stack.capacity) (hl : Allows limit (steps + n)) :
    ∃ s', s'.config = c ∧ s'.stack.capacity = s.stack.capacity ∧
      ∀ fuel, Machine.runFrom task limit (n + fuel) steps s =
        Machine.runFrom task limit fuel (steps + n) s' := by
  generalize hc₀ : s.config = c₀ at h
  induction h generalizing s steps with
  | refl =>
    refine ⟨s, hc₀, rfl, ?_⟩
    intro fuel
    rw [Nat.zero_add, Nat.add_zero]
  | @head n c c₁ c₂ hstep _ ih =>
    subst hc₀
    obtain ⟨i, hi, hfol⟩ := hstep.follows hs
    obtain ⟨s₁, ho, hc₁, hcap₁, hs₁⟩ | ⟨hlt, -⟩ := hfol
    · have hlen := hstep.length_values_le
      rw [← hc₁] at hlen
      simp only [State.config, Stack.length_toList] at hlen
      have hl₁ : Allows limit (steps + 1) := by
        unfold Allows at hl ⊢
        omega
      have hl₂ : Allows limit (steps + 1 + n) := by rwa [Nat.add_assoc, Nat.add_comm 1]
      obtain ⟨s₂, hc₂, hcap₂, hrun⟩ := ih hs₁ (by omega) hl₂ hc₁
      refine ⟨s₂, hc₂, hcap₂.trans hcap₁, ?_⟩
      intro fuel
      rw [Nat.add_right_comm, runFrom_next hi hl₁ ho, hrun fuel, Nat.add_assoc, Nat.add_comm 1]
    · have := hstep.length_values_le
      simp only [State.config, Stack.length_toList] at this
      omega

/-- **A run that ends went through every step, or a limit put an end to it on the way.** -/
theorem Runs.ending {n fuel : Nat} {c : Config} {e : Ending} (h : Runs task n s.config c)
    (hs : s.Fits) (he : Machine.runFrom task limit fuel steps s = some e) :
    (∃ s' more, s'.config = c ∧ s'.Fits ∧ fuel = n + more ∧
      Machine.runFrom task limit more (steps + n) s' = some e) ∨
      (e.Exhausted limit ∧ e.state.printed <+: c.output) := by
  generalize hc₀ : s.config = c₀ at h
  induction h generalizing s steps fuel with
  | refl => exact .inl ⟨s, fuel, hc₀, hs, (Nat.zero_add fuel).symm, he⟩
  | @head n c c₁ c₂ hstep hruns ih =>
    subst hc₀
    obtain ⟨i, hi, hfol⟩ := hstep.follows hs
    have hout : s.printed <+: c₂.output := hstep.output_prefix.trans hruns.output_prefix
    rcases fuel with _ | fuel
    · cases he
    by_cases hl : Allows limit (steps + 1)
    · obtain ⟨s₁, ho, hc₁, -, hs₁⟩ | ⟨-, ho⟩ := hfol
      · rw [runFrom_next hi hl ho] at he
        obtain ⟨s₂, more, hc₂, hs₂, hfuel, hend⟩ | hend := ih hs₁ he hc₁
        · refine .inl ⟨s₂, more, hc₂, hs₂, by omega, ?_⟩
          rwa [← Nat.add_assoc, Nat.add_right_comm]
        · exact .inr hend
      · rw [runFrom_fault hi hl ho] at he
        cases he
        exact .inr ⟨⟨_, rfl, .inl rfl⟩, hout⟩
    · obtain ⟨hex, hstate⟩ := exhausted_of_not_allows hi hl he
      exact .inr ⟨hex, hstate ▸ hout⟩

/-- A run that is over ends here, unless the last instruction is beyond the limit. -/
theorem Halts.runFrom (h : Halts task s.config) (hl : Allows limit (steps + 1)) :
    ∃ more, ∀ fuel, Machine.runFrom task limit (fuel + 1) steps s =
      some ⟨s, steps + more, none⟩ := by
  rcases hi : task.code[s.pc]? with _ | i
  · refine ⟨0, fun fuel => ?_⟩
    rw [Machine.runFrom, hi]
    rfl
  · exact ⟨1, runFrom_halt hi hl (h.execute hi)⟩

/-- A division by zero ends the run with its fault, and nothing more is printed. -/
theorem DividesByZero.runFrom (h : DividesByZero task s.config) (hl : Allows limit (steps + 1)) :
    ∃ s', s'.printed = s.printed ∧ ∀ fuel, Machine.runFrom task limit (fuel + 1) steps s =
      some ⟨s', steps + 1, some ⟨s.pc, Opcode.div.toByte, .divisionByZero⟩⟩ := by
  obtain ⟨i, s', hi, hcode, ho, hpc, hout⟩ := h.execute
  refine ⟨s', hout, fun fuel => ?_⟩
  rw [runFrom_fault hi hl ho, hcode, hpc]

end RunFrom

end Stackling.Machine
