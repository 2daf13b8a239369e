import Stackling.Proofs.Machine.Invariant

/-!
# What any instruction can lead to

Code may come from outside, and then nothing is known of it but what the machine checks. `Lawful`
says what that comes to for one instruction, whatever it is and whatever state it finds:

* control goes on inside the innermost frame, into a new frame that does not lie below it, or back
  to where the innermost frame was opened (`Passes`);
* the stack keeps its capacity and does not outgrow it (`Stack.Within`);
* what was printed stays printed, and a failed instruction prints nothing;
* an instruction does not fail for too many steps, which is for the run to say.

`execute_lawful` is the only place where the operations are gone through. What holds of whole runs
follows from it by induction: `Reachable.sound` for the frames, `runFrom_ends` and `code_of_runFrom`
for how runs end.
-/

namespace Stackling.Machine

open Code

/-! ## Stacks -/

/-- A stack made from another by stack operations: it has the same capacity, and keeps to it if the
other did. -/
def Stack.Within (s' s : Stack) : Prop :=
  s'.capacity = s.capacity ∧ (s.count ≤ s.capacity → s'.count ≤ s'.capacity)

namespace Stack

variable {s s' s'' : Stack}

theorem Within.refl (s : Stack) : s.Within s := ⟨rfl, id⟩

theorem Within.trans (h : s''.Within s') (h' : s'.Within s) : s''.Within s :=
  ⟨h.1.trans h'.1, fun hs => h.2 (h'.2 hs)⟩

/-- Pushing does not go beyond the capacity. -/
theorem push_within {v : Value} (h : s.push v = .ok s') : s'.Within s := by
  rw [push] at h
  split at h
  · next hlt =>
    cases h
    refine ⟨rfl, fun _ => ?_⟩
    simp only [count, Array.size_push] at hlt ⊢
    omega
  · cases h

/-- Fewer values than before. -/
theorem Within.of_count_le (hcap : s'.capacity = s.capacity) (hle : s'.count ≤ s.count) :
    s'.Within s :=
  ⟨hcap, fun hs => by omega⟩

theorem pop_within {v : Value} (h : s.pop = .ok (v, s')) : s'.Within s := by
  rw [pop] at h
  split at h
  · cases h
  · cases h
    exact .of_count_le rfl (by simp [count])

theorem set_within {i : Int} {v : Value} (h : s.set i v = .ok s') : s'.Within s := by
  rw [set] at h
  split at h
  · cases h
    exact .of_count_le rfl (by simp [count])
  · cases h

/-- Truncating only drops values. -/
theorem truncate_within {n : Int} (h : s.truncate n = .ok s') : s'.Within s := by
  rw [truncate] at h
  split at h
  · cases h
    refine .of_count_le rfl ?_
    simp only [count, Array.size_shrink]
    omega
  · cases h

theorem takeTop_within (n : Nat) : (s.takeTop n).2.Within s :=
  .of_count_le rfl (by simp [takeTop, count])

end Stack

/-! ## Outcomes -/

/-- How control passes from a state to the next. -/
inductive Passes (task : Task) (s s' : State) : Prop where
  /-- inside the innermost frame -/
  | stay (hframes : s'.frames = s.frames) (hpc : s'.pc ≤ task.code.size)
  /-- into a new frame, not below the innermost -/
  | call {base : Nat} (hbase : s.base ≤ base) (hframes : s'.frames = ⟨s.pc + 1, base⟩ :: s.frames)
      (hpc : s'.pc ≤ task.code.size)
  /-- out of the innermost frame -/
  | ret {frame : Frame} (hframes : s.frames = frame :: s'.frames) (hpc : s'.pc = frame.returnTo)

/-- What an instruction in `s` may lead to. -/
def Outcome.Lawful (task : Task) (s : State) : Outcome → Prop
  | .next s' => Passes task s s' ∧ s'.stack.Within s.stack ∧ s.printed <+: s'.printed
  | .halt s' => s' = s
  | .fault s' cause => s'.pc = s.pc ∧ s'.printed = s.printed ∧ ∀ limit, cause ≠ .stepLimit limit

section Lawful

variable {task : Task} {s : State}

/-- An instruction that goes on in the same frame and prints nothing. -/
theorem lawful_next {pc : Nat} {stack : Stack} (hpc : pc ≤ task.code.size)
    (hstack : stack.Within s.stack) :
    Outcome.Lawful task s (.next { s with pc := pc, stack := stack }) :=
  ⟨.stay rfl hpc, hstack, List.prefix_rfl⟩

/-- A fault leaves everything but the stack as it was. -/
theorem lawful_fault (stack : Stack) {cause : FaultCause}
    (hcause : ∀ limit, cause ≠ .stepLimit limit) :
    Outcome.Lawful task s (.fault { s with stack := stack } cause) :=
  ⟨rfl, rfl, hcause⟩

/-- A push, after values were taken off. -/
theorem pushThen_lawful {stack : Stack} {next : Nat} (hnext : next ≤ task.code.size)
    (hstack : stack.Within s.stack) (v : Value) :
    (pushThen { s with stack := stack } next v).Lawful task s := by
  rw [pushThen]
  split
  · next hpush => exact lawful_next hnext ((Stack.push_within hpush).trans hstack)
  · exact lawful_fault stack (by simp)

/-- A branch goes to an address of the code or to its end. -/
theorem target?_le {arg : Int32} {dest : Nat} (h : target? task arg = some dest) :
    dest ≤ task.code.size := by
  rw [target?] at h
  split at h
  · cases h
    omega
  · cases h

/-- Taking an integer changes nothing but the stack. -/
theorem popInt_within (s : State) :
    (∃ stack cause, popInt s = .error ({ s with stack := stack }, cause) ∧
        ∀ limit, cause ≠ .stepLimit limit) ∨
      ∃ stack i, popInt s = .ok (i, { s with stack := stack }) ∧ stack.Within s.stack := by
  rw [popInt]
  rcases hpop : s.stack.pop with e | ⟨v, stack⟩
  · exact .inl ⟨s.stack, _, rfl, by simp⟩
  · rcases v with i | t
    · exact .inr ⟨stack, i, rfl, Stack.pop_within hpop⟩
    · exact .inl ⟨stack, _, rfl, by simp⟩

/-- An operation on two integers does what an instruction may. -/
theorem binaryStep_lawful (hpc : s.pc < task.code.size) (op : Opcode) :
    (binaryStep s op).Lawful task s := by
  rw [binaryStep]
  obtain ⟨stack, cause, hpop, hcause⟩ | ⟨stack, right, hpop, hstack⟩ := popInt_within s
  · simp only [hpop]
    exact lawful_fault stack hcause
  obtain ⟨stack', cause, hpop', hcause⟩ | ⟨stack', left, hpop', hstack'⟩ :=
    popInt_within { s with stack := stack }
  · simp only [hpop, hpop']
    exact lawful_fault stack' hcause
  · simp only [hpop, hpop']
    split
    · exact lawful_fault stack' (by simp)
    · exact pushThen_lawful hpc (hstack'.trans hstack) _

/-- Storing does what an instruction may. -/
theorem storeStep_lawful (hpc : s.pc < task.code.size) (arg : Int32) :
    (storeStep s arg).Lawful task s := by
  rw [storeStep]
  split
  · exact lawful_fault s.stack (by simp)
  · next hpop =>
    split
    · exact lawful_fault _ (by simp)
    · next hset => exact lawful_next hpc ((Stack.set_within hset).trans (Stack.pop_within hpop))

/-- A call does what an instruction may. Its base is not below that of the caller. -/
theorem callStep_lawful (arg : Int32) : (callStep task s arg).Lawful task s := by
  rw [callStep]
  split
  · exact lawful_fault s.stack (by simp)
  · dsimp only
    split
    · exact lawful_fault s.stack (by simp)
    · split
      · exact lawful_fault s.stack (by simp)
      · refine ⟨.call ?_ rfl ?_, .refl _, List.prefix_rfl⟩
        · omega
        · dsimp only
          omega

/-- A return does what an instruction may. -/
theorem returnStep_lawful (arg : Int32) : (returnStep s arg).Lawful task s := by
  obtain ⟨pc, _ | ⟨frame, outer⟩, stack, output⟩ := s
  · rfl
  rw [returnStep]
  dsimp only
  split
  · split
    · exact lawful_fault stack (by simp)
    · next htrunc => exact ⟨.ret rfl rfl, Stack.truncate_within htrunc, List.prefix_rfl⟩
  · split
    · exact lawful_fault stack (by simp)
    · next hpop =>
      split
      · exact lawful_fault _ (by simp)
      · next htrunc =>
        have hwithin := (Stack.truncate_within htrunc).trans (Stack.pop_within hpop)
        split
        · exact lawful_fault _ (by simp)
        · next hpush =>
          exact ⟨.ret rfl rfl, (Stack.push_within hpush).trans hwithin, List.prefix_rfl⟩

/-- Printing does what an instruction may. -/
theorem printStep_lawful (hpc : s.pc < task.code.size) (arg : Int32) :
    (printStep s arg).Lawful task s := by
  rw [printStep]
  dsimp only
  split
  · exact lawful_fault s.stack (by simp)
  · refine ⟨.stay rfl hpc, Stack.takeTop_within _, ?_⟩
    simp [State.printed]

/-- **What any instruction can lead to.** -/
theorem execute_lawful {i : Instruction} (hpc : s.pc < task.code.size) :
    (execute task s i).Lawful task s := by
  rcases hop : i.op? with _ | op
  · simp only [execute, hop]
    exact lawful_fault s.stack (by simp)
  cases op with
  | pushInt =>
    simp only [execute, hop]
    exact pushThen_lawful hpc (.refl s.stack) _
  | pushStr =>
    simp only [execute, hop]
    split
    · exact lawful_fault s.stack (by simp)
    · exact pushThen_lawful hpc (.refl s.stack) _
  | loadLocal =>
    simp only [execute, hop]
    split
    · exact lawful_fault s.stack (by simp)
    · exact pushThen_lawful hpc (.refl s.stack) _
  | storeLocal =>
    simp only [execute, hop]
    exact storeStep_lawful hpc _
  | pop =>
    simp only [execute, hop]
    split
    · exact lawful_fault s.stack (by simp)
    · next hpop => exact lawful_next hpc (Stack.pop_within hpop)
  | branch =>
    simp only [execute, hop]
    split
    · exact lawful_fault s.stack (by simp)
    · next hto => exact lawful_next (target?_le hto) (.refl s.stack)
  | branchZero =>
    simp only [execute, hop]
    split
    · exact lawful_fault s.stack (by simp)
    · next hto =>
      obtain ⟨stack, cause, hpop, hcause⟩ | ⟨stack, v, hpop, hstack⟩ := popInt_within s
      · simp only [hpop]
        exact lawful_fault stack hcause
      · simp only [hpop]
        refine lawful_next ?_ hstack
        split
        · exact target?_le hto
        · exact hpc
  | call =>
    simp only [execute, hop]
    exact callStep_lawful _
  | ret =>
    simp only [execute, hop]
    exact returnStep_lawful _
  | print =>
    simp only [execute, hop]
    exact printStep_lawful hpc _
  | add | sub | mul | div | eq | ne | gt | ge | lt | le =>
    simp only [execute, hop]
    exact binaryStep_lawful hpc _

/-- The same for the next instruction of a run. -/
theorem lawful_of_execute {i : Instruction} {o : Outcome} (hi : task.code[s.pc]? = some i)
    (ho : execute task s i = o) : o.Lawful task s :=
  ho ▸ execute_lawful (Array.getElem?_eq_some_iff.mp hi).1

end Lawful

/-! ## States -/

/-- What holds of every state of a run, whatever the code is. -/
structure State.Sound (task : Task) (s : State) : Prop where
  /-- the next instruction is one of the code, or the end of the code is reached -/
  pc_le : s.pc ≤ task.code.size
  /-- the stack holds no more than it may -/
  fits : s.Fits
  /-- so it is with the instructions that calls return to -/
  returns : ∀ frame ∈ s.frames, frame.returnTo ≤ task.code.size
  /-- no frame lies below one that was opened before -/
  bases : s.frames.Pairwise fun inner outer => outer.base ≤ inner.base

/-- Bases get no smaller towards the innermost frame. -/
theorem base_le_baseOf {frames : List Frame} {frame : Frame}
    (h : frames.Pairwise fun inner outer => outer.base ≤ inner.base) (hf : frame ∈ frames) :
    frame.base ≤ baseOf frames := by
  cases h with
  | nil => cases hf
  | cons hall _ =>
    rcases List.mem_cons.mp hf with rfl | hf
    · exact Nat.le_refl _
    · exact hall frame hf

section Runs

variable {task : Task} {limit : Int} {fuel steps : Nat} {s s' : State} {e : Ending}

/-- One step keeps the invariant of states. -/
theorem State.Sound.passes (h : s.Sound task) (hpc : s.pc < task.code.size)
    (hp : Passes task s s') (hstack : s'.stack.Within s.stack) : s'.Sound task := by
  have hfits : s'.Fits := hstack.2 h.fits
  cases hp with
  | stay hframes hpc' =>
    exact ⟨hpc', hfits, hframes ▸ h.returns, hframes ▸ h.bases⟩
  | call hbase hframes hpc' =>
    refine ⟨hpc', hfits, ?_, ?_⟩ <;> rw [hframes]
    · exact List.forall_mem_cons.mpr ⟨hpc, h.returns⟩
    · refine .cons (fun frame hf => ?_) h.bases
      exact Nat.le_trans (base_le_baseOf h.bases hf) hbase
  | ret hframes hpc' =>
    have hreturns := h.returns
    have hbases := h.bases
    rw [hframes] at hreturns hbases
    obtain ⟨hframe, houter⟩ := List.forall_mem_cons.mp hreturns
    exact ⟨hpc' ▸ hframe, hfits, houter, hbases.of_cons⟩

/-- One step. -/
theorem State.Sound.step (h : s.Sound task) {i : Instruction} (hi : task.code[s.pc]? = some i)
    (ho : execute task s i = .next s') : s'.Sound task := by
  obtain ⟨hp, hstack, -⟩ := lawful_of_execute hi ho
  exact h.passes (Array.getElem?_eq_some_iff.mp hi).1 hp hstack

/-- Whole runs. -/
theorem Reachable.sound {s₀ : State} (h₀ : s₀.Sound task) (h : Reachable task s₀ s) :
    s.Sound task := by
  induction h with
  | refl => exact h₀
  | next _ hi ho ih => exact ih.step hi ho

/-- The capacity never changes. -/
theorem Reachable.capacity_eq {s₀ : State} (h : Reachable task s₀ s) :
    s.stack.capacity = s₀.stack.capacity := by
  induction h with
  | refl => rfl
  | next _ hi ho ih =>
    obtain ⟨-, hstack, -⟩ := lawful_of_execute hi ho
    exact hstack.1.trans ih

theorem sound_start {stack : Stack} (h : stack.count ≤ stack.capacity) :
    (start stack).Sound task :=
  ⟨Nat.zero_le _, h, nofun, .nil⟩

/-! ## Endings -/

/-- A fault names the instruction that failed. -/
theorem code_of_runFrom {f : Fault} (he : runFrom task limit fuel steps s = some e)
    (hf : e.fault = some f) : ∃ i, task.code[f.pc]? = some i ∧ f.code = i.code := by
  fun_induction runFrom task limit fuel steps s with
  | case1 => cases he
  | case2 =>
    cases he
    cases hf
  | case3 fuel steps s i hi =>
    cases he
    cases hf
    exact ⟨i, hi, rfl⟩
  | case4 fuel steps s i hi hl s' ho ih => exact ih he
  | case5 =>
    cases he
    cases hf
  | case6 fuel steps s i hi hl s' cause ho =>
    cases he
    cases hf
    obtain ⟨hpc, -⟩ := lawful_of_execute hi ho
    exact ⟨i, hpc ▸ hi, rfl⟩

/-- More fuel does not change how a run ends. -/
theorem runFrom_mono {more : Nat} (he : runFrom task limit fuel steps s = some e) :
    runFrom task limit (fuel + more) steps s = some e := by
  fun_induction runFrom task limit fuel steps s with
  | case1 => cases he
  | case2 fuel steps s hi =>
    rw [Nat.succ_add, runFrom, hi]
    exact he
  | case3 fuel steps s i hi hl =>
    rw [Nat.succ_add, runFrom, hi]
    simp only [if_pos hl]
    exact he
  | case4 fuel steps s i hi hl s' ho ih =>
    rw [Nat.succ_add, runFrom, hi]
    simp only [if_neg hl, ho]
    exact ih he
  | case5 fuel steps s i hi hl s' ho =>
    rw [Nat.succ_add, runFrom, hi]
    simp only [if_neg hl, ho]
    exact he
  | case6 fuel steps s i hi hl s' cause ho =>
    rw [Nat.succ_add, runFrom, hi]
    simp only [if_neg hl, ho]
    exact he

/-- A limited run ends. -/
theorem runFrom_ends (hpos : 0 < limit) (hsteps : steps ≤ limit) (hfuel : limit < steps + fuel)
    (s : State) : ∃ e, runFrom task limit fuel steps s = some e ∧ e.steps ≤ limit + 1 := by
  fun_induction runFrom task limit fuel steps s with
  | case1 => omega
  | case2 => exact ⟨_, rfl, by dsimp only; omega⟩
  | case3 => exact ⟨_, rfl, by dsimp only; omega⟩
  | case4 fuel steps s i hi hl s' ho ih => exact ih (by omega) (by omega)
  | case5 => exact ⟨_, rfl, by dsimp only; omega⟩
  | case6 => exact ⟨_, rfl, by dsimp only; omega⟩

end Runs

end Stackling.Machine
