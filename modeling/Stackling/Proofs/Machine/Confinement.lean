import Stackling.Proofs.Machine.Bare

/-!
# Runs stay within memory

No code makes the machine read or write where nothing is: whatever the instructions and tables hold,
each check is made before the access that needs it (`run_confined`). It is stated of the bare
machine, whose accesses can go astray, and the two machines are shown to run alike.

Calls are the delicate part. A callee may take values off the stack that belong to its callers, a
table may ask for a negative number of arguments, and a return may find the stack lower than the
frame's base. What the checks rely on is only that bases do not fall from a frame to the next one
opened, and that no frame returns past the end of the code.
-/

namespace Stackling.Machine

open Code

/-- What holds of every state of the bare machine, on a stack of `capacity` cells. -/
structure Bare.State.Sound (task : Task) (capacity : Nat) (s : Bare.State) : Prop where
  /-- a frame is open -/
  frames_ne_nil : s.frames ≠ []
  /-- it starts in no cell below the first -/
  base_nonneg : ∀ frame ∈ s.frames, 0 ≤ frame.base
  /-- nor below the frames that were opened before -/
  base_le : s.frames.Pairwise fun outer inner => outer.base ≤ inner.base
  /-- calls return to instructions of the code, or to its end -/
  returnTo_le : ∀ frame ∈ s.frames, frame.returnTo ≤ task.code.size
  pc_nonneg : 0 ≤ s.pc
  pc_le : s.pc ≤ task.code.size
  length_cells : s.cells.length = capacity
  count_nonneg : 0 ≤ s.count
  count_le : s.count ≤ capacity

section Bare

variable {task : Task} {s : State}

theorem State.Sound.bare (h : s.Sound task) : s.bare.Sound task s.stack.capacity where
  frames_ne_nil := List.cons_ne_nil _ _
  base_nonneg := by
    intro frame hf
    simp only [State.bare_frames, bareFrames, List.mem_cons, List.mem_reverse, List.mem_map] at hf
    obtain rfl | ⟨f, -, rfl⟩ := hf
    · exact Int.le_refl 0
    · exact Int.natCast_nonneg f.base
  base_le := by
    simp only [State.bare_frames, bareFrames, List.pairwise_cons, List.pairwise_reverse,
      List.mem_reverse, List.mem_map, List.pairwise_map]
    refine ⟨?_, h.bases.imp fun hle => Int.ofNat_le.mpr hle⟩
    rintro _ ⟨f, -, rfl⟩
    exact Int.natCast_nonneg f.base
  returnTo_le := by
    intro frame hf
    simp only [State.bare_frames, bareFrames, List.mem_cons, List.mem_reverse, List.mem_map] at hf
    obtain rfl | ⟨f, hf, rfl⟩ := hf
    · exact Int.le_trans (by decide) (Int.natCast_nonneg task.code.size)
    · exact Int.ofNat_le.mpr (h.returns f hf)
  pc_nonneg := Int.natCast_nonneg s.pc
  pc_le := Int.ofNat_le.mpr h.pc_le
  length_cells := Stack.length_cells h.fits
  count_nonneg := Int.natCast_nonneg s.stack.count
  count_le := Int.ofNat_le.mpr h.fits

/-- The next instruction is found where the bare machine looks for it. -/
theorem fetch_code {i : Instruction} (hi : task.code[s.pc]? = some i) :
    ¬s.bare.pc ≥ task.code.size ∧ Bare.fetch .code task.code.toList s.bare.pc = .ok i := by
  have hlt := (Array.getElem?_eq_some_iff.mp hi).1
  exact ⟨by rw [State.bare_pc]; omega, fetch_of_getElem? (by simpa using hi)⟩

theorem pc_ge_of_none (hi : task.code[s.pc]? = none) : s.bare.pc ≥ task.code.size :=
  Int.ofNat_le.mpr (Array.getElem?_eq_none_iff.mp hi)

/-- One step of both machines. -/
theorem step_bare (hs : s.Fits) : Bare.step task s.bare =
    match task.code[s.pc]? with
    | none => .error (.halt s.bare)
    | some i => (execute task s i).bare := by
  rcases hi : task.code[s.pc]? with _ | i
  · rw [Bare.step, if_pos (pc_ge_of_none hi)]
  · obtain ⟨hpc, hfetch⟩ := fetch_code hi
    rw [Bare.step, if_neg hpc, hfetch, ok_bind, execute_bare hs]

/-- The bare machine goes through the states of the machine. -/
theorem exists_of_bareReachable {s₀ : State} (h₀ : s₀.Sound task) {b : Bare.State}
    (h : Bare.Reachable task s₀.bare b) : ∃ s, Reachable task s₀ s ∧ s.bare = b := by
  induction h with
  | refl => exact ⟨s₀, .refl, rfl⟩
  | next _ hs ih =>
    obtain ⟨s, hreach, rfl⟩ := ih
    rw [step_bare (hreach.sound h₀).fits] at hs
    split at hs
    · cases hs
    · next i hi =>
      rcases ho : execute task s i with s' | s' | ⟨s', cause⟩ <;> rw [ho] at hs <;> cases hs
      exact ⟨s', hreach.next hi ho, rfl⟩

/-- Both machines run alike. -/
theorem runFrom_bare {limit : Int} {fuel steps : Nat} (h : s.Sound task) :
    Bare.runFrom task limit fuel steps s.bare =
      .ok ((runFrom task limit fuel steps s).map Ending.bare) := by
  induction fuel generalizing s steps with
  | zero => rfl
  | succ fuel ih =>
    rcases hi : task.code[s.pc]? with _ | i
    · rw [Bare.runFrom, if_pos (pc_ge_of_none hi), runFrom, hi]
      rfl
    obtain ⟨hpc, hfetch⟩ := fetch_code hi
    rw [Bare.runFrom, if_neg hpc, hfetch, ok_bind, runFrom, hi]
    dsimp only
    split
    · rfl
    · rw [execute_bare h.fits]
      rcases ho : execute task s i with s' | s' | ⟨s', cause⟩
      · exact ih (h.step hi ho)
      · rfl
      · rfl

end Bare

/-- How runs of a task on a stack go, under a limit on the steps. -/
structure Confined (task : Task) (limit : Int) (stack : Stack) : Prop where
  /-- every state is sound, and no access from it is out of range -/
  states : ∀ {b : Bare.State}, Bare.Reachable task (start stack).bare b →
    b.Sound task stack.capacity ∧
      ∀ region index, Bare.step task b ≠ .error (.stray region index)
  /-- the run on bare memory is the run -/
  runs : ∀ fuel, Bare.runFrom task limit fuel 0 (start stack).bare =
    .ok ((run task limit stack fuel).map Ending.bare)
  /-- a fault is reported at an instruction of the code, and with its name -/
  faults : ∀ {fuel : Nat} {e : Ending} {f : Fault}, run task limit stack fuel = some e →
    e.fault = some f → ∃ i, task.code[f.pc]? = some i ∧ f.pc < task.code.size ∧
      ∃ text cause, Diagnostic.ofFault f =
        .runtime f.pc (Bytes.ofString (Instruction.codeName i.code)) text cause
  /-- a limited run ends, at the latest with the instruction beyond the limit -/
  ends : 0 < limit → ∃ e, (e.steps : Int) ≤ limit + 1 ∧
    ∀ fuel : Nat, limit < fuel → run task limit stack fuel = some e

/-- An outcome on bare memory is no access out of range. -/
theorem Outcome.bare_ne_stray (o : Outcome) (region : Bare.Region) (index : Int) :
    o.bare ≠ .error (.stray region index) := by
  rcases o with s | s | ⟨s, cause⟩ <;> nofun

/-- **Runs stay within memory**, whatever is run. -/
theorem run_confined (task : Task) (limit : Int) {stack : Stack}
    (hstack : stack.count ≤ stack.capacity) : Confined task limit stack := by
  have h₀ : (start stack).Sound task := sound_start hstack
  refine ⟨?_, fun fuel => runFrom_bare h₀, ?_, ?_⟩
  · intro b hb
    obtain ⟨s, hreach, rfl⟩ := exists_of_bareReachable h₀ hb
    have hs : s.Sound task := hreach.sound h₀
    have hcap : s.stack.capacity = stack.capacity := hreach.capacity_eq
    refine ⟨hcap ▸ hs.bare, fun region index => ?_⟩
    rw [step_bare hs.fits]
    split
    · nofun
    · exact Outcome.bare_ne_stray _ region index
  · intro fuel e f he hf
    obtain ⟨i, hi, hcode⟩ := code_of_runFrom he hf
    refine ⟨i, hi, (Array.getElem?_eq_some_iff.mp hi).1, ?_⟩
    rw [Diagnostic.ofFault, hcode]
    exact ⟨_, _, rfl⟩
  · intro hpos
    obtain ⟨e, he, hsteps⟩ : ∃ e, run task limit stack (limit.toNat + 1) = some e ∧
        (e.steps : Int) ≤ limit + 1 :=
      runFrom_ends hpos (Int.le_of_lt hpos) (by omega) (start stack)
    refine ⟨e, hsteps, fun fuel hlt => ?_⟩
    obtain ⟨more, rfl⟩ : ∃ more, fuel = limit.toNat + 1 + more :=
      Nat.exists_eq_add_of_le (by omega)
    exact runFrom_mono he

/-- A call with a negative number of arguments opens a frame above the stack, the callee takes the
value of its caller, and then looks for a cell below its base. -/
def hostile : Task where
  code := #[.withArg .call 0, .plain .pop, .withArg .loadLocal (-3)]
  functions := #[⟨Bytes.ofString "f", 1, -2, 0, false⟩]
  strings := #[]

/-- Even so its run is confined; it ends with a fault at the third instruction. -/
theorem run_confined_hostile : Confined hostile 5 ⟨#[.int 7], 4⟩ ∧
    ∃ e, run hostile 5 ⟨#[.int 7], 4⟩ 6 = some e ∧ e.steps = 3 ∧ e.state.base = 3 ∧
      e.fault = some ⟨2, Opcode.loadLocal.toByte, .stack (.badSlot 0 0)⟩ :=
  ⟨run_confined hostile 5 (by decide), _, rfl, rfl, rfl, rfl⟩

end Stackling.Machine
