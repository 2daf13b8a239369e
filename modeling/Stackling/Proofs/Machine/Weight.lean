import Mathlib.Algebra.Ring.Nat
import Stackling.Proofs.Machine.Invariant

/-!
# Runs that get lighter

The machine counts nothing down, and a call puts work on top of what is left to do. So that a run
ends has to be seen from the code. Here every address has a weight, which stands for the
instructions that are executed from there until the function returns. A configuration weighs what
its next instruction weighs, and all the instructions at which open calls will go on.

`Pays task w` is what the weights have to satisfy, instruction by instruction: each is heavier than
where it leads, and a call is heavier than the callee and the rest of the caller together. Then
every step makes the configuration lighter (`Pays.step`), and a run is over after as many
instructions as its start weighs (`Closed.runFrom_ends`).
-/

namespace Stackling.Machine

open Code

/-- Every instruction weighs more than what it leads to. -/
structure Pays (task : Task) (w : Nat → Nat) : Prop where
  /-- an instruction that can go on at the one behind it -/
  next : ∀ {pc : Nat} {op : Opcode} {arg : Int32}, task.At pc op arg → op ≠ .ret → op ≠ .branch →
    w (pc + 1) < w pc
  jump : ∀ {pc dest : Nat} {op : Opcode} {arg : Int32}, task.At pc op arg →
    op = .branch ∨ op = .branchZero → target? task arg = some dest → w dest < w pc
  /-- the caller goes on behind the call when the callee is done -/
  call : ∀ {pc entry : Nat} {arg : Int32} {f : Code.Function}, task.At pc .call arg →
    argument? task.functions arg = some f → f.entry = entry → w entry + w (pc + 1) < w pc
  ret : ∀ {pc : Nat} {arg : Int32}, task.At pc .ret arg → 0 < w pc

/-- The weight of a configuration. -/
def Config.weight (w : Nat → Nat) (c : Config) : Nat :=
  w c.pc + (c.frames.map fun frame => w frame.returnTo).sum

section Step

variable {task : Task} {w : Nat → Nat} {c c' : Config}

/-- **A step makes the configuration lighter.** -/
theorem Pays.step (h : Pays task w) (hs : Step task c c') : c'.weight w < c.weight w := by
  cases hs with
  | pushInt hi | pushStr hi | load hi | store hi | pop hi | print hi =>
    exact Nat.add_lt_add_right (h.next hi (by decide) (by decide)) _
  | operate hi hop =>
    refine Nat.add_lt_add_right (h.next hi ?_ ?_) _ <;> rintro rfl <;> revert hop <;> decide
  | branch hi hto => exact Nat.add_lt_add_right (h.jump hi (.inl rfl) hto) _
  | branchZero hi hto =>
    refine Nat.add_lt_add_right ?_ _
    dsimp only
    split
    · exact h.jump hi (.inr rfl) hto
    · exact h.next hi (by decide) (by decide)
  | call hi hf hentry =>
    have hcall := h.call hi hf hentry
    simp only [Config.weight, List.map_cons, List.sum_cons]
    omega
  | ret hi hf | retValue hi _ hf =>
    have hret := h.ret hi
    simp only [Config.weight, hf, List.map_cons, List.sum_cons]
    omega

end Step

/-- **A run that gets lighter is over** after as many instructions as its start weighs, and one more
for an instruction that ends it. -/
theorem Closed.runFrom_ends {task : Task} {I : Config → Prop} (hclosed : Closed task I)
    {w : Nat → Nat} (hw : Pays task w) {limit : Int} (hlimit : limit ≤ 0) {fuel steps : Nat}
    {s : State} (hI : I s.config) (hs : s.Fits) (hfuel : s.config.weight w < fuel) :
    ∃ e, runFrom task limit fuel steps s = some e ∧ e.steps ≤ steps + s.config.weight w + 1 := by
  induction fuel generalizing steps s with
  | zero => omega
  | succ fuel ih =>
    have hallows : Allows limit (steps + 1) := .inl hlimit
    rcases hi : task.code[s.pc]? with _ | i
    · rw [runFrom, hi]
      exact ⟨_, rfl, by dsimp only; omega⟩
    rcases ho : Machine.execute task s i with s' | s' | ⟨s', cause⟩
    · obtain ⟨hstep, hI', hs'⟩ := hclosed.step hI hs hi ho
      have hlt := hw.step hstep
      rw [runFrom_next hi hallows ho]
      obtain ⟨e, he, hsteps⟩ : ∃ e, runFrom task limit fuel (steps + 1) s' = some e ∧
          e.steps ≤ steps + 1 + s'.config.weight w + 1 := ih hI' hs' (by omega)
      exact ⟨e, he, by omega⟩
    · rw [runFrom_halt hi hallows ho]
      exact ⟨_, rfl, by dsimp only; omega⟩
    · rw [runFrom_fault hi hallows ho]
      exact ⟨_, rfl, by dsimp only; omega⟩

end Stackling.Machine
