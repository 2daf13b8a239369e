import Stackling.Proofs.Code.Conformance
import Stackling.Proofs.Machine.Access

/-!
# Code keeps to its frame

The machine lets every instruction reach down to the bottom of the stack. Code that obeys the rules
of a stack map does not: what it reads, writes or pops lies in the innermost frame
(`Rule.base_le`). So whatever happens while a call is open, the values below its frame stay as they
were, and its return leaves them with the result on top.
-/

namespace Stackling.Machine

open Code

variable {task : Task}

/-- The states that a run goes through from `s₀` on, as long as no call that is open in `s₀`
returns. -/
inductive Inside (task : Task) (s₀ : State) : State → Prop where
  | refl : Inside task s₀ s₀
  | next {s s' : State} {i : Instruction} (h : Inside task s₀ s)
      (hi : task.code[s.pc]? = some i) (ho : execute task s i = .next s')
      (hopen : s₀.frames.length ≤ s'.frames.length) : Inside task s₀ s'

/-- A step opens a call, closes one, or leaves them as they are. -/
theorem Step.frames {c c' : Config} (h : Step task c c') :
    c'.frames = c.frames ∨ (∃ frame, c'.frames = frame :: c.frames) ∨
      ∃ frame arg, c.frames = frame :: c'.frames ∧ task.At c.pc .ret arg := by
  cases h with
  | call => exact .inr (.inl ⟨_, rfl⟩)
  | ret hi hf => exact .inr (.inr ⟨_, _, hf, hi⟩)
  | retValue hi _ hf => exact .inr (.inr ⟨_, _, hf, hi⟩)
  | _ => exact .inl rfl

/-- The open calls stay open until one of them returns. -/
theorem Step.suffix {c c' : Config} (h : Step task c c') {frames : List Frame}
    (hf : frames <:+ c.frames) (hopen : frames.length ≤ c'.frames.length) :
    frames <:+ c'.frames := by
  obtain heq | ⟨frame, heq⟩ | ⟨frame, arg, heq, -⟩ := h.frames
  · rwa [heq]
  · rw [heq]
    exact hf.trans (List.suffix_cons _ _)
  · rw [heq] at hf
    refine (List.suffix_cons_iff.mp hf).resolve_left ?_
    rintro rfl
    simp at hopen

/-- A step that adds no value is taken. -/
theorem Step.execute_eq {s : State} {c : Config} (h : Step task s.config c) (hs : s.Fits)
    (hlen : c.values.length ≤ s.stack.count) {i : Instruction} (hi : task.code[s.pc]? = some i) :
    ∃ s', execute task s i = .next s' ∧ s'.config = c := by
  obtain ⟨j, hj, hfol⟩ := h.follows hs
  obtain rfl := Option.some.inj (hi.symm.trans hj)
  obtain ⟨s', ho, hc, -⟩ | ⟨hfull, -⟩ := hfol
  · exact ⟨s', ho, hc⟩
  · unfold State.Fits at hs
    omega

end Stackling.Machine

namespace Stackling.Code

open Stackling.Symbols
open Machine (Task Config Frame State Value Accesses argument? baseOf)

variable {task : Task} {parts : List Part} {map : Nat → Option Spot}

/-- The frames of callers lie below. -/
theorem Callers.base_le {f : Symbols.Function} {frames outer : List Frame} {below : List Value}
    (h : Callers map f frames below) (ho : outer <:+ frames) : baseOf outer ≤ below.length := by
  induction h with
  | nil =>
    rw [List.suffix_nil.mp ho]
    exact Nat.zero_le _
  | cons hback hvs hrest ih =>
    rcases List.suffix_cons_iff.mp ho with rfl | ho
    · exact Nat.le_refl _
    · have := ih ho
      rw [List.length_append]
      omega

/-- **An instruction that obeys its rule keeps to the innermost frame.** -/
theorem Rule.base_le {s : State} {f : Symbols.Function} {types : List Ty}
    (h : Rule task parts map s.pc ⟨f, types⟩) (hlen : s.stack.count = s.base + types.length)
    {i : Instruction} (hi : task.code[s.pc]? = some i) {c : Int} (hc : Accesses s i c) :
    (s.base : Int) ≤ c := by
  cases h with
  | stop hnone =>
    rw [hnone] at hi
    cases hi
  | operate hi' hop =>
    obtain rfl := Option.some.inj (hi.symm.trans hi')
    rw [List.length_append, List.length_cons, List.length_singleton] at hlen
    have hc : c = s.stack.count - 1 ∨ c = s.stack.count - 2 := by
      simp only [Machine.arithmeticOps, List.mem_cons, List.not_mem_nil, or_false] at hop
      rcases hop with rfl | rfl | rfl | rfl | rfl | rfl | rfl | rfl | rfl | rfl <;> exact hc
    omega
  | pushInt hi' | pushStr hi' | branch hi' | call hi' =>
    obtain rfl := Option.some.inj (hi.symm.trans hi')
    simp [Accesses] at hc
  | load _ hi' harg hslot =>
    obtain rfl := Option.some.inj (hi.symm.trans hi')
    simp only [Accesses, Instruction.op?_withArg, Machine.arg_withArg, harg] at hc
    omega
  | store hi' harg hslot =>
    obtain rfl := Option.some.inj (hi.symm.trans hi')
    simp only [Accesses, Instruction.op?_withArg, Machine.arg_withArg, harg] at hc
    rw [List.length_append, List.length_singleton] at hlen
    omega
  | pop hi' | branchZero hi' =>
    obtain rfl := Option.some.inj (hi.symm.trans hi')
    simp only [Accesses, Instruction.op?_withArg] at hc
    rw [List.length_append, List.length_singleton] at hlen
    omega
  | ret hi' =>
    obtain rfl := Option.some.inj (hi.symm.trans hi')
    simp only [Accesses, Instruction.op?_withArg, Machine.arg_withArg, ne_eq, not_true_eq_false,
      false_and, or_false] at hc
    omega
  | retValue hi' =>
    obtain rfl := Option.some.inj (hi.symm.trans hi')
    simp only [Accesses, Instruction.op?_withArg, Machine.arg_withArg] at hc
    rw [List.length_append, List.length_singleton] at hlen
    omega
  | print hi' harg =>
    obtain rfl := Option.some.inj (hi.symm.trans hi')
    simp only [Accesses, Instruction.op?_withArg, Machine.arg_withArg, harg] at hc
    rw [List.length_append] at hlen
    omega

/-- Inversion for the rule of a call. -/
theorem Rule.of_call {pc : Nat} {f : Symbols.Function} {types : List Ty} {arg : Int32}
    (h : Rule task parts map pc ⟨f, types⟩) (hi : task.At pc .call arg) :
    ∃ g entry own, types = own ++ g.params.map (·.type) ∧
      argument? task.functions arg = some (describe g entry) ∧ entry < task.code.size ∧
      map (pc + 1) = some ⟨f, own ++ results g.returns⟩ := by
  cases h with
  | stop hnone =>
    rw [Task.At, hnone] at hi
    cases hi
  | call hi' hf hlt _ hnext =>
    obtain ⟨-, rfl⟩ := hi.inj hi'
    exact ⟨_, _, _, rfl, hf, hlt, hnext⟩
  | operate hi' hop =>
    obtain ⟨rfl, -⟩ := hi.inj hi'
    simp [Machine.arithmeticOps] at hop
  | pushInt hi' | pushStr hi' | load _ hi' | store hi' | pop hi' | branch hi' | branchZero hi'
  | ret hi' | retValue hi' | print hi' => cases (hi.inj hi').1

/-- Inversion for the rule of a return. -/
theorem Rule.of_ret {pc : Nat} {f : Symbols.Function} {types : List Ty} {arg : Int32}
    (h : Rule task parts map pc ⟨f, types⟩) (hi : task.At pc .ret arg) :
    (arg = 0 ∧ f.returns = .void) ∨
      (arg ≠ 0 ∧ f.returns ≠ .void ∧ ∃ own, types = own ++ [f.returns]) := by
  cases h with
  | stop hnone =>
    rw [Task.At, hnone] at hi
    cases hi
  | ret hi' hvoid =>
    obtain ⟨-, rfl⟩ := hi.inj hi'
    exact .inl ⟨rfl, hvoid⟩
  | retValue hi' harg hvalue =>
    obtain ⟨-, rfl⟩ := hi.inj hi'
    exact .inr ⟨harg, hvalue, _, rfl⟩
  | operate hi' hop =>
    obtain ⟨rfl, -⟩ := hi.inj hi'
    simp [Machine.arithmeticOps] at hop
  | pushInt hi' | pushStr hi' | load _ hi' | store hi' | pop hi' | branch hi' | branchZero hi'
  | call hi' | print hi' => cases (hi.inj hi').1

section Conforms

variable (hrules : ∀ {pc : Nat} {spot : Spot}, map pc = some spot → Rule task parts map pc spot)
  {s : State}
include hrules

/-- What an instruction accesses lies above the base of every open call. -/
theorem Conforms.base_le (h : Conforms map s.config) {frames : List Frame}
    (hf : frames <:+ s.frames) {i : Instruction} (hi : task.code[s.pc]? = some i) {c : Int}
    (hc : Accesses s i c) : (baseOf frames : Int) ≤ c := by
  obtain ⟨hspot, hvalues, hvs, hcallers⟩ := h
  have hbase : s.base = _ := hcallers.baseOf_eq
  have hlen := congrArg List.length hvalues
  simp only [State.config, Machine.Stack.length_toList, List.length_append, ← hbase,
    hvs.length_eq] at hlen
  have hle := (hrules hspot).base_le hlen hi hc
  have := hcallers.base_le hf
  omega

/-- A call opens a frame at its arguments. -/
theorem Conforms.call (h : Conforms map s.config) (hs : s.Fits) {arg : Int32}
    (hi : task.At s.pc .call arg) : ∃ f g entry own below args s',
      map (s.pc + 1) = some ⟨f, own ++ results g.returns⟩ ∧
      argument? task.functions arg = some (describe g entry) ∧
      s.stack.toList = below ++ args ∧ args.length = g.params.length ∧
      below.length = s.base + own.length ∧ Machine.execute task s (.withArg .call arg) = .next s' ∧
      s'.config =
        { s.config with pc := entry, frames := ⟨s.pc + 1, below.length⟩ :: s.frames } := by
  obtain @⟨f, _, outer, _, hspot, hvalues, hvs, hcallers⟩ := h
  obtain ⟨g, entry, own, rfl, hf, hlt, hnext⟩ := (hrules hspot).of_call hi
  obtain ⟨us, args, rfl, hus, hargs⟩ := hvs.split
  have hbase : s.base = outer.length := hcallers.baseOf_eq
  have hparams : args.length = g.params.length := by rw [hargs.length_eq, List.length_map]
  have hlen : (outer ++ us).length = s.base + own.length := by
    rw [List.length_append, hbase, hus.length_eq]
  rw [← List.append_assoc] at hvalues
  have hstep : Machine.Step task s.config
      { s.config with pc := entry, frames := ⟨s.pc + 1, (outer ++ us).length⟩ :: s.frames } := by
    refine .call hi hf rfl hlt hvalues ?_ ?_
    · rw [hparams]
      rfl
    · exact hlen ▸ Nat.le_add_right _ _
  obtain ⟨s', ho, hs'⟩ := hstep.execute_eq hs (Machine.Stack.length_toList _).le hi
  exact ⟨f, g, entry, own, outer ++ us, args, s', hnext, hf, hvalues, hparams, hlen, ho, hs'⟩

/-- A return closes the innermost frame and leaves a result of the type that its caller waits
for. -/
theorem Conforms.ret (h : Conforms map s.config) (hs : s.Fits) {arg : Int32}
    (hi : task.At s.pc .ret arg) {back base : Nat} {outer : List Frame}
    (hframes : s.frames = ⟨back, base⟩ :: outer) :
    ∃ (f g : Symbols.Function) (own : List Ty) (below result : List Value) (s' : State),
      map back = some ⟨g, own ++ results f.returns⟩ ∧ base = baseOf outer + own.length ∧
      below <+: s.stack.toList ∧ below.length = base ∧ FitsAll result (results f.returns) ∧
      Machine.execute task s (.withArg .ret arg) = .next s' ∧ s'.pc = back ∧ s'.frames = outer ∧
      s'.stack.toList = below ++ result := by
  obtain @⟨f, types, below, vs, hspot, hvalues, hvs, hcallers⟩ := h
  simp only [State.config, hframes] at hcallers
  cases hcallers with
  | @cons _ g _ _ below us own hback hus hrest =>
    have hlen : (below ++ us).length = baseOf outer + own.length := by
      rw [List.length_append, hrest.baseOf_eq, hus.length_eq]
    have hpre : below ++ us <+: s.stack.toList := ⟨vs, hvalues.symm⟩
    obtain ⟨result, hresult, hle, hstep⟩ : ∃ result, FitsAll result (results f.returns) ∧
        result.length ≤ vs.length ∧ Machine.Step task s.config
          { s.config with pc := back, frames := outer, values := below ++ us ++ result } := by
      rcases (hrules hspot).of_ret hi with ⟨rfl, hvoid⟩ | ⟨harg, hvalue, _, rfl⟩
      · refine ⟨[], ?_, Nat.zero_le _, ?_⟩
        · rw [hvoid]
          exact .nil
        · rw [List.append_nil]
          exact .ret hi hframes hvalues
      · obtain ⟨locals, v, rfl, -, hv⟩ := hvs.split_last
        refine ⟨[v], ?_, by simp, ?_⟩
        · rw [results_of_ne_void hvalue]
          exact .cons hv .nil
        · rw [← List.append_assoc] at hvalues
          exact .retValue hi harg hframes hvalues
    have hcount : s.stack.count = (below ++ us).length + vs.length := by
      rw [← Machine.Stack.length_toList, ← List.length_append]
      exact congrArg List.length hvalues
    obtain ⟨s', ho, hs'⟩ := hstep.execute_eq hs (by simp only [List.length_append] at *; omega) hi
    refine ⟨f, g, own, below ++ us, result, s', hback, hlen, hpre, rfl, hresult, ho,
      congrArg Config.pc hs', congrArg Config.frames hs', congrArg Config.values hs'⟩

end Conforms

end Stackling.Code
