import Stackling.Proofs.Machine.Outcome

/-!
# Limits only cut runs off

A run has two limits: the capacity of its stack and the number of its steps. Code can see neither.
With looser limits a run does what it did before, step by step, up to the place where one of the old
limits put an end to it, and beyond that place it can only print more (`limits_cut_off`).

The argument compares an instruction on two stacks that differ in their capacity. Only a push looks
at it, so the outcomes differ in the capacity alone, or the instruction failed on the smaller stack
for want of room (`execute_withCapacity`).
-/

namespace Stackling.Machine

open Code

/-! ## Other capacities -/

/-- The stack with another capacity. -/
def Stack.withCapacity (c : Nat) (s : Stack) : Stack := { s with capacity := c }

/-- The state with another capacity of its stack. -/
def State.withCapacity (c : Nat) (s : State) : State := { s with stack := s.stack.withCapacity c }

/-- The same with an outcome's state. -/
def Outcome.withCapacity (c : Nat) : Outcome → Outcome
  | .next s => .next (s.withCapacity c)
  | .halt s => .halt (s.withCapacity c)
  | .fault s cause => .fault (s.withCapacity c) cause

/-- The same with the state that a run ended in. -/
def Ending.withCapacity (c : Nat) (e : Ending) : Ending :=
  { e with state := e.state.withCapacity c }

/-- The outcome `o'` is `o` on a stack of capacity `c`, unless `o` is a lack of room. -/
def Outcome.Widens (c : Nat) (o o' : Outcome) : Prop :=
  o' = o.withCapacity c ∨ ∃ s, o = .fault s (.stack .overflow)

namespace Stack

variable {s : Stack} {c : Nat}

theorem count_withCapacity : (s.withCapacity c).count = s.count := rfl

/-- A push is the only operation that looks at the capacity. -/
theorem push_withCapacity (hc : s.capacity ≤ c) (v : Value) :
    (s.withCapacity c).push v = (s.push v).map (withCapacity c) ∨ s.push v = .error .overflow := by
  by_cases h : s.count < s.capacity
  · refine .inl ?_
    have h' : (s.withCapacity c).count < (s.withCapacity c).capacity := Nat.lt_of_lt_of_le h hc
    rw [push, push, if_pos h, if_pos h']
    rfl
  · exact .inr (push_of_le v (Nat.not_lt.mp h))

theorem pop_withCapacity :
    (s.withCapacity c).pop = s.pop.map fun r => (r.1, r.2.withCapacity c) := by
  simp only [pop, withCapacity]
  rcases s.values.back? with _ | v <;> rfl

theorem set_withCapacity (i : Int) (v : Value) :
    (s.withCapacity c).set i v = (s.set i v).map (withCapacity c) := by
  by_cases h : 0 ≤ i ∧ i < s.count
  · rw [set, set, count_withCapacity, if_pos h, if_pos h]
    rfl
  · rw [set, set, count_withCapacity, if_neg h, if_neg h]
    rfl

theorem truncate_withCapacity (n : Int) :
    (s.withCapacity c).truncate n = (s.truncate n).map (withCapacity c) := by
  by_cases h : 0 ≤ n ∧ n ≤ s.count
  · rw [truncate, truncate, count_withCapacity, if_pos h, if_pos h]
    rfl
  · rw [truncate, truncate, count_withCapacity, if_neg h, if_neg h]
    rfl

end Stack

section Execute

variable {task : Task} {s : State} {c : Nat}

theorem pushThen_withCapacity (hc : s.stack.capacity ≤ c) (next : Nat) (v : Value) :
    (pushThen s next v).Widens c (pushThen (s.withCapacity c) next v) := by
  simp only [pushThen, State.withCapacity]
  obtain h | h := Stack.push_withCapacity hc v
  · refine .inl ?_
    rw [h]
    rcases s.stack.push v with e | stack <;> rfl
  · rw [h]
    exact .inr ⟨s, rfl⟩

theorem popInt_withCapacity : popInt (s.withCapacity c) =
    match popInt s with
    | .error (s', cause) => .error (s'.withCapacity c, cause)
    | .ok (i, s') => .ok (i, s'.withCapacity c) := by
  simp only [popInt, State.withCapacity, Stack.pop_withCapacity]
  rcases s.stack.pop with e | ⟨v, stack⟩
  · rfl
  · rcases v with i | t <;> rfl

theorem binaryStep_withCapacity (hc : s.stack.capacity ≤ c) (op : Opcode) :
    (binaryStep s op).Widens c (binaryStep (s.withCapacity c) op) := by
  simp only [binaryStep, popInt_withCapacity]
  obtain ⟨stack, cause, hpop, -⟩ | ⟨stack, right, hpop, hstack⟩ := popInt_within s
  · rw [hpop]
    exact .inl rfl
  simp only [hpop, popInt_withCapacity]
  obtain ⟨stack', cause, hpop', -⟩ | ⟨stack', left, hpop', hstack'⟩ :=
    popInt_within { s with stack := stack }
  · rw [hpop']
    exact .inl rfl
  simp only [hpop']
  split
  · exact .inl rfl
  · have hcap : stack'.capacity ≤ c := by
      rw [hstack'.1, hstack.1]
      exact hc
    exact pushThen_withCapacity (s := { s with stack := stack' }) hcap _ _

theorem storeStep_withCapacity (arg : Int32) :
    storeStep (s.withCapacity c) arg = (storeStep s arg).withCapacity c := by
  simp only [storeStep, State.withCapacity, Stack.pop_withCapacity]
  rcases s.stack.pop with e | ⟨v, stack⟩
  · rfl
  · simp only [Except.map, Stack.set_withCapacity]
    rcases stack.set (baseOf s.frames + arg.toInt) v with e | stack' <;> rfl

theorem callStep_withCapacity (arg : Int32) :
    callStep task (s.withCapacity c) arg = (callStep task s arg).withCapacity c := by
  have hbase : (s.withCapacity c).base = s.base := rfl
  have hcount : (s.withCapacity c).stack.count = s.stack.count := Stack.count_withCapacity
  simp only [callStep, hbase, hcount]
  rcases argument? task.functions arg with _ | f
  · rfl
  dsimp only
  split
  · rfl
  · split <;> rfl

theorem returnStep_withCapacity (hc : s.stack.capacity ≤ c) (arg : Int32) :
    (returnStep s arg).Widens c (returnStep (s.withCapacity c) arg) := by
  obtain ⟨pc, _ | ⟨frame, outer⟩, stack, output⟩ := s
  · exact .inl rfl
  simp only [returnStep, State.withCapacity]
  by_cases harg : arg = 0
  · simp only [if_pos harg, Stack.truncate_withCapacity]
    rcases stack.truncate frame.base with e | stack₁ <;> exact .inl rfl
  simp only [if_neg harg, Stack.pop_withCapacity]
  rcases hpop : stack.pop with e | ⟨result, stack₁⟩
  · exact .inl rfl
  simp only [Except.map, Stack.truncate_withCapacity]
  rcases htrunc : stack₁.truncate frame.base with e | stack₂
  · exact .inl rfl
  have hcap : stack₂.capacity ≤ c := by
    rw [(Stack.truncate_within htrunc).1, (Stack.pop_within hpop).1]
    exact hc
  obtain h | h := Stack.push_withCapacity hcap result
  · simp only [h]
    rcases stack₂.push result with e | stack₃ <;> exact .inl rfl
  · simp only [h]
    exact .inr ⟨_, rfl⟩

theorem printStep_withCapacity (arg : Int32) :
    printStep (s.withCapacity c) arg = (printStep s arg).withCapacity c := by
  rw [printStep, printStep]
  dsimp only
  by_cases h : arg.toInt < 0 ∨ (s.stack.count : Int) - baseOf s.frames < arg.toInt
  · have h' : arg.toInt < 0 ∨ ((s.withCapacity c).stack.count : Int) -
        baseOf (s.withCapacity c).frames < arg.toInt := h
    rw [if_pos h, if_pos h']
    rfl
  · have h' : ¬(arg.toInt < 0 ∨ ((s.withCapacity c).stack.count : Int) -
        baseOf (s.withCapacity c).frames < arg.toInt) := h
    rw [if_neg h, if_neg h']
    rfl

/-- **An instruction does not see the capacity**, unless there is no room for what it pushes. -/
theorem execute_withCapacity (hc : s.stack.capacity ≤ c) (i : Instruction) :
    (execute task s i).Widens c (execute task (s.withCapacity c) i) := by
  rcases hop : i.op? with _ | op
  · simp only [execute, hop]
    exact .inl rfl
  cases op with
  | pushInt =>
    simp only [execute, hop]
    exact pushThen_withCapacity hc _ _
  | pushStr =>
    simp only [execute, hop]
    rcases argument? task.strings i.arg with _ | t
    · exact .inl rfl
    · exact pushThen_withCapacity hc _ _
  | loadLocal =>
    have hget : (s.withCapacity c).stack.get ((s.withCapacity c).base + i.arg.toInt) =
        s.stack.get (s.base + i.arg.toInt) := rfl
    simp only [execute, hop, hget]
    rcases s.stack.get (s.base + i.arg.toInt) with e | v
    · exact .inl rfl
    · exact pushThen_withCapacity hc _ _
  | storeLocal =>
    simp only [execute, hop]
    exact .inl (storeStep_withCapacity _)
  | pop =>
    have hpop : (s.withCapacity c).stack.pop = _ := Stack.pop_withCapacity
    simp only [execute, hop, hpop]
    rcases s.stack.pop with e | ⟨v, stack⟩ <;> exact .inl rfl
  | branch =>
    simp only [execute, hop]
    rcases target? task i.arg with _ | dest <;> exact .inl rfl
  | branchZero =>
    simp only [execute, hop, popInt_withCapacity]
    rcases target? task i.arg with _ | dest
    · exact .inl rfl
    · rcases popInt s with ⟨s', cause⟩ | ⟨v, s'⟩ <;> exact .inl rfl
  | call =>
    simp only [execute, hop]
    exact .inl (callStep_withCapacity _)
  | ret =>
    simp only [execute, hop]
    exact returnStep_withCapacity hc _
  | print =>
    simp only [execute, hop]
    exact .inl (printStep_withCapacity _)
  | add | sub | mul | div | eq | ne | gt | ge | lt | le =>
    simp only [execute, hop]
    exact binaryStep_withCapacity hc _

end Execute

/-! ## Runs -/

/-- The limit `limit'` on the steps allows for all that `limit` does. -/
def Looser (limit limit' : Int) : Prop := limit' ≤ 0 ∨ 0 < limit ∧ limit ≤ limit'

/-- The state of a run after `n` further instructions, or the last one if it has ended by then. -/
def stateFrom (task : Task) (limit : Int) : (n : Nat) → (steps : Nat) → State → State
  | 0, _, s => s
  | n + 1, steps, s =>
    match task.code[s.pc]? with
    | none => s
    | some i =>
      if 0 < limit ∧ limit < steps + 1 then s
      else
        match execute task s i with
        | .next s' => stateFrom task limit n (steps + 1) s'
        | .halt s' => s'
        | .fault s' _ => s'

/-- The state of a run on a stack after `n` instructions. -/
def stateAfter (task : Task) (limit : Int) (stack : Stack) (n : Nat) : State :=
  stateFrom task limit n 0 (start stack)

section Runs

variable {task : Task} {limit limit' : Int} {fuel n steps c : Nat} {s : State} {e : Ending}

/-- An instruction that the looser limit refuses is refused by the other. -/
theorem Looser.not_exceeded (hl : Looser limit limit') (h : ¬(0 < limit ∧ limit < steps + 1)) :
    ¬(0 < limit' ∧ limit' < steps + 1) := by
  unfold Looser at hl
  omega

/-- Where a run ends, it stays. -/
theorem stateFrom_of_runFrom (he : runFrom task limit fuel steps s = some e) (more : Nat) :
    stateFrom task limit (fuel + more) steps s = e.state := by
  fun_induction runFrom task limit fuel steps s with
  | case1 => cases he
  | case2 fuel steps s hi =>
    cases he
    rw [Nat.succ_add, stateFrom, hi]
  | case3 fuel steps s i hi hl =>
    cases he
    rw [Nat.succ_add, stateFrom, hi]
    simp only [if_pos hl]
  | case4 fuel steps s i hi hl s' ho ih =>
    rw [Nat.succ_add, stateFrom, hi]
    simp only [if_neg hl, ho]
    exact ih he
  | case5 fuel steps s i hi hl s' ho =>
    cases he
    rw [Nat.succ_add, stateFrom, hi]
    simp only [if_neg hl, ho]
  | case6 fuel steps s i hi hl s' cause ho =>
    cases he
    rw [Nat.succ_add, stateFrom, hi]
    simp only [if_neg hl, ho]

/-- What was printed stays printed. -/
theorem printed_prefix_stateFrom : s.printed <+: (stateFrom task limit n steps s).printed := by
  fun_induction stateFrom task limit n steps s with
  | case1 => exact List.prefix_rfl
  | case2 => exact List.prefix_rfl
  | case3 => exact List.prefix_rfl
  | case4 n steps s i hi hl s' ho ih =>
    obtain ⟨-, -, hprinted⟩ := lawful_of_execute hi ho
    exact hprinted.trans ih
  | case5 n steps s i hi hl s' ho =>
    obtain rfl : s' = s := lawful_of_execute hi ho
    exact List.prefix_rfl
  | case6 n steps s i hi hl s' cause ho =>
    obtain ⟨-, hprinted, -⟩ := lawful_of_execute hi ho
    exact hprinted ▸ List.prefix_rfl

/-- What the instruction of a run leads to with more room. -/
theorem execute_widens {i : Instruction} (hi : task.code[s.pc]? = some i)
    (hc : s.stack.capacity ≤ c) {o : Outcome} (ho : execute task s i = o)
    (hroom : ∀ s', o ≠ .fault s' (.stack .overflow)) :
    task.code[(s.withCapacity c).pc]? = some i ∧
      execute task (s.withCapacity c) i = o.withCapacity c := by
  refine ⟨hi, ?_⟩
  obtain h | ⟨s', h⟩ : (execute task s i).Widens c _ := execute_withCapacity hc i
  · rw [h, ho]
  · exact absurd (ho.symm.trans h) (hroom s')

theorem capacity_of_next {i : Instruction} {s' : State} (hi : task.code[s.pc]? = some i)
    (ho : execute task s i = .next s') : s'.stack.capacity = s.stack.capacity := by
  obtain ⟨-, hstack, -⟩ := lawful_of_execute hi ho
  exact hstack.1

/-- A run that no limit put an end to goes the same way under looser limits. -/
theorem runFrom_withCapacity (hl : Looser limit limit') (hc : s.stack.capacity ≤ c)
    (he : runFrom task limit fuel steps s = some e) (hfree : ¬e.Exhausted limit) :
    runFrom task limit' fuel steps (s.withCapacity c) = some (e.withCapacity c) := by
  fun_induction runFrom task limit fuel steps s with
  | case1 => cases he
  | case2 fuel steps s hi =>
    cases he
    have hi' : task.code[(s.withCapacity c).pc]? = none := hi
    rw [runFrom, hi']
    rfl
  | case3 fuel steps s i hi =>
    cases he
    exact absurd ⟨_, rfl, .inr rfl⟩ hfree
  | case4 fuel steps s i hi hlim s' ho ih =>
    obtain ⟨hi', ho'⟩ := execute_widens hi hc ho (by simp)
    rw [runFrom, hi']
    simp only [if_neg (hl.not_exceeded hlim), ho']
    exact ih (capacity_of_next hi ho ▸ hc) he
  | case5 fuel steps s i hi hlim s' ho =>
    cases he
    obtain ⟨hi', ho'⟩ := execute_widens hi hc ho (by simp)
    rw [runFrom, hi']
    simp only [if_neg (hl.not_exceeded hlim), ho']
    rfl
  | case6 fuel steps s i hi hlim s' cause ho =>
    cases he
    obtain ⟨hi', ho'⟩ := execute_widens hi hc ho (by
      rintro s'' ⟨⟩
      exact hfree ⟨_, rfl, .inl rfl⟩)
    rw [runFrom, hi']
    simp only [if_neg (hl.not_exceeded hlim), ho']
    rfl

/-- Under looser limits a run is at every moment as far as it was, or further. -/
theorem printed_prefix_withCapacity (hl : Looser limit limit') (hc : s.stack.capacity ≤ c) :
    (stateFrom task limit n steps s).printed <+:
      (stateFrom task limit' n steps (s.withCapacity c)).printed := by
  fun_induction stateFrom task limit n steps s with
  | case1 => exact List.prefix_rfl
  | case2 => exact printed_prefix_stateFrom (s := State.withCapacity c _)
  | case3 => exact printed_prefix_stateFrom (s := State.withCapacity c _)
  | case4 n steps s i hi hlim s' ho ih =>
    obtain ⟨hi', ho'⟩ := execute_widens hi hc ho (by simp)
    rw [stateFrom, hi']
    simp only [if_neg (hl.not_exceeded hlim), ho']
    exact ih (capacity_of_next hi ho ▸ hc)
  | case5 n steps s i hi hlim s' ho =>
    obtain ⟨hi', ho'⟩ := execute_widens hi hc ho (by simp)
    rw [stateFrom, hi']
    simp only [if_neg (hl.not_exceeded hlim), ho']
    exact List.prefix_rfl
  | case6 n steps s i hi hlim s' cause ho =>
    -- a fault prints nothing
    obtain ⟨-, hprinted, -⟩ := lawful_of_execute hi ho
    rw [hprinted]
    exact printed_prefix_stateFrom (s := s.withCapacity c)

/-- The instruction that is refused is the one after the last that the limit allows for. -/
theorem steps_of_stepLimit {f : Fault} (hsteps : 0 < limit → steps ≤ limit)
    (he : runFrom task limit fuel steps s = some e) (hf : e.fault = some f)
    (hcause : f.cause = .stepLimit limit) : (e.steps : Int) = limit + 1 := by
  fun_induction runFrom task limit fuel steps s with
  | case1 => cases he
  | case2 =>
    cases he
    cases hf
  | case3 fuel steps s i hi hlim =>
    cases he
    have := hsteps hlim.1
    dsimp only
    omega
  | case4 fuel steps s i hi hlim s' ho ih => exact ih (by omega) he
  | case5 =>
    cases he
    cases hf
  | case6 fuel steps s i hi hlim s' cause ho =>
    cases he
    cases hf
    obtain ⟨-, -, hno⟩ := lawful_of_execute hi ho
    exact absurd hcause (hno limit)

end Runs

/-- How a run on `values` under the limits `m` and `c` compares with one under `m'` and `c'`. -/
structure CutOff (task : Task) (values : Array Value) (m m' : Int) (c c' : Nat) : Prop where
  /-- if no limit puts an end to the first run, the second ends in the same way -/
  same : ∀ {fuel : Nat} {e : Ending}, run task m ⟨values, c⟩ fuel = some e → ¬e.Exhausted m →
    ∃ e', run task m' ⟨values, c'⟩ fuel = some e' ∧ e'.state.printed = e.state.printed ∧
      e'.steps = e.steps ∧ e'.fault = e.fault ∧ e'.state.stack.toList = e.state.stack.toList
  /-- at any moment the first run has printed a prefix of what the second has -/
  printed : ∀ n, (stateAfter task m ⟨values, c⟩ n).printed <+:
    (stateAfter task m' ⟨values, c'⟩ n).printed
  /-- and so it is when both have ended -/
  ended : ∀ {fuel fuel' : Nat} {e e' : Ending}, run task m ⟨values, c⟩ fuel = some e →
    run task m' ⟨values, c'⟩ fuel' = some e' → e.state.printed <+: e'.state.printed
  /-- too many steps are one more than the limit -/
  refused : ∀ {fuel : Nat} {e : Ending} {f : Fault}, run task m ⟨values, c⟩ fuel = some e →
    e.fault = some f → f.cause = .stepLimit m → (e.steps : Int) = m + 1

/-- **Limits only cut runs off.** -/
theorem limits_cut_off (task : Task) (values : Array Value) {m m' : Int} {c c' : Nat}
    (hm : Looser m m') (hc : c ≤ c') : CutOff task values m m' c c' := by
  have hprinted : ∀ n, (stateAfter task m ⟨values, c⟩ n).printed <+:
      (stateAfter task m' ⟨values, c'⟩ n).printed := fun n =>
    printed_prefix_withCapacity (s := start ⟨values, c⟩) hm hc
  refine ⟨?_, hprinted, ?_, ?_⟩
  · intro fuel e he hfree
    exact ⟨_, runFrom_withCapacity (s := start ⟨values, c⟩) hm hc he hfree, rfl, rfl, rfl, rfl⟩
  · intro fuel fuel' e e' he he'
    have h := hprinted (fuel + fuel')
    rw [stateAfter, stateFrom_of_runFrom he, stateAfter, Nat.add_comm,
      stateFrom_of_runFrom he'] at h
    exact h
  · intro fuel e f he hf hcause
    exact steps_of_stepLimit (fun hpos => Int.le_of_lt hpos) he hf hcause

/-- Prints 7 again and again. -/
def sevens : Task where
  code := #[.withArg .pushInt 7, .withArg .print 1, .withArg .branch 0]
  functions := #[]
  strings := #[]

/-- Four steps print one line of `sevens`, and seven steps on a larger stack print two. -/
theorem limits_cut_off_sevens : CutOff sevens #[] 4 7 1 2 ∧
    (∃ e, run sevens 4 ⟨#[], 1⟩ 9 = some e ∧ e.steps = 5 ∧
      e.state.printed = Bytes.ofString "7\n") ∧
    ∃ e, run sevens 7 ⟨#[], 2⟩ 9 = some e ∧ e.steps = 8 ∧
      e.state.printed = Bytes.ofString "7\n7\n" := by
  refine ⟨limits_cut_off sevens #[] (.inr ⟨by decide, by decide⟩) (by decide), ?_, ?_⟩
  · exact ⟨_, rfl, rfl, by decide +kernel⟩
  · exact ⟨_, rfl, rfl, by decide +kernel⟩

end Stackling.Machine
