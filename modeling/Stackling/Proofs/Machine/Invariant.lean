import Stackling.Proofs.Machine

/-!
# Invariants of runs

A set of configurations is `Closed` if the machine can always go on inside it, unless the run is
over or the instruction divides by zero. Then a run that starts in the set stays in it, whatever
the limits are (`Closed.reachable`), and ends with no other fault than a full stack, a division by
zero or too many steps (`Closed.cause_of_runFrom`).
-/

namespace Stackling.Machine

open Code

/-- The states that a run goes through, starting in `s₀`. -/
inductive Reachable (task : Task) (s₀ : State) : State → Prop where
  | refl : Reachable task s₀ s₀
  | next {s s' : State} {i : Instruction} (h : Reachable task s₀ s)
      (hi : task.code[s.pc]? = some i) (ho : execute task s i = .next s') : Reachable task s₀ s'

/-- A set of configurations that steps do not lead out of. -/
def Closed (task : Task) (I : Config → Prop) : Prop :=
  ∀ c, I c → Halts task c ∨ DividesByZero task c ∨ ∃ c', Step task c c' ∧ I c'

/-- An outcome that a closed set allows for. -/
def Outcome.Within (I : Config → Prop) : Outcome → Prop
  | .next s => I s.config ∧ s.Fits
  | .halt _ => True
  | .fault _ cause => cause = .stack .overflow ∨ cause = .divisionByZero

section Closed

variable {task : Task} {I : Config → Prop} (hclosed : Closed task I) {s : State}
include hclosed

/-- What an instruction can lead to inside a closed set. -/
theorem Closed.outcome (hI : I s.config) (hs : s.Fits) {i : Instruction}
    (hi : task.code[s.pc]? = some i) :
    Machine.execute task s i = .halt s ∨
      (∃ s', Machine.execute task s i = .fault s' .divisionByZero) ∨
      Machine.execute task s i = .fault s (.stack .overflow) ∨
      ∃ s', Machine.execute task s i = .next s' ∧ Step task s.config s'.config ∧
        I s'.config ∧ s'.Fits := by
  rcases hclosed _ hI with hhalts | hdiv | ⟨c, hstep, hc⟩
  · exact .inl (hhalts.execute hi)
  · obtain ⟨j, s', hj, -, ho, -⟩ := hdiv.execute
    rw [hi] at hj
    cases hj
    exact .inr (.inl ⟨s', ho⟩)
  · obtain ⟨j, hj, hfol⟩ := hstep.follows hs
    rw [hi] at hj
    cases hj
    obtain ⟨s', ho, rfl, -, hs'⟩ | ⟨-, ho⟩ := hfol
    · exact .inr (.inr (.inr ⟨s', ho, hstep, hc, hs'⟩))
    · exact .inr (.inr (.inl ho))

theorem Closed.execute (hI : I s.config) (hs : s.Fits) {i : Instruction}
    (hi : task.code[s.pc]? = some i) : (execute task s i).Within I := by
  obtain ho | ⟨s', ho⟩ | ho | ⟨s', ho, -, hI', hs'⟩ := hclosed.outcome hI hs hi <;> rw [ho]
  · trivial
  · exact .inr rfl
  · exact .inl rfl
  · exact ⟨hI', hs'⟩

/-- An instruction that goes on takes a step. -/
theorem Closed.step (hI : I s.config) (hs : s.Fits) {i : Instruction} {s' : State}
    (hi : task.code[s.pc]? = some i) (ho : Machine.execute task s i = .next s') :
    Step task s.config s'.config ∧ I s'.config ∧ s'.Fits := by
  obtain ho' | ⟨s₁, ho'⟩ | ho' | ⟨s₁, ho', hstep⟩ := hclosed.outcome hI hs hi <;>
    rw [ho] at ho' <;> cases ho'
  exact hstep

/-- **Runs stay inside.** -/
theorem Closed.reachable {s₀ : State} (hI : I s₀.config) (hs : s₀.Fits)
    (h : Reachable task s₀ s) : I s.config ∧ s.Fits := by
  induction h with
  | refl => exact ⟨hI, hs⟩
  | next _ hi ho ih =>
    have hout := hclosed.execute ih.1 ih.2 hi
    rw [ho] at hout
    exact hout

/-- **How runs end that do not end well.** -/
theorem Closed.cause_of_runFrom {limit : Int} {fuel steps : Nat} {e : Ending} {f : Fault}
    (hI : I s.config) (hs : s.Fits) (he : runFrom task limit fuel steps s = some e)
    (hf : e.fault = some f) : f.cause = .stack .overflow ∨ f.cause = .divisionByZero ∨
      f.cause = .stepLimit limit := by
  induction fuel generalizing steps s with
  | zero => cases he
  | succ fuel ih =>
    rcases hi : task.code[s.pc]? with _ | i
    · rw [runFrom, hi] at he
      cases he
      cases hf
    by_cases hl : Allows limit (steps + 1)
    · have hout := hclosed.execute hI hs hi
      rcases ho : Machine.execute task s i with s' | s' | ⟨s', cause⟩ <;> rw [ho] at hout
      · rw [runFrom_next hi hl ho] at he
        exact ih hout.1 hout.2 he
      · rw [runFrom_halt hi hl ho] at he
        cases he
        cases hf
      · rw [runFrom_fault hi hl ho] at he
        cases he
        cases hf
        exact hout.imp_right .inl
    · obtain ⟨f', hf', hcause⟩ := (exhausted_of_not_allows hi hl he).1
      rw [hf] at hf'
      cases hf'
      exact hcause.imp_right .inr

end Closed

end Stackling.Machine
