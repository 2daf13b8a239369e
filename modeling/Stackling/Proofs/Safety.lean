import Stackling.Proofs.Code.Conformance
import Stackling.Proofs.Correctness

/-!
# Compiled programs are safe

No instruction of a compiled program ever misses its operands, in any run under any limits: the
only faults are a full stack, a division by zero and too many steps. What is on the stack is what
the types say, where the code of an expression ends and where a variable is loaded.

All of this comes from one stack map. `exists_mapped` makes it for a compiled program, and the
theorems read it off: `compile_safe` for faults and for truth values, `load_fits` for variables.
-/

namespace Stackling

open Machine (Reachable)

/-! ## The expressions of a compiled program -/

namespace Compiled

/-- The functions of a compiled program, in the order of their code. -/
def order (unit : Compiled) (entry : String) : List Symbols.Function :=
  match unit.symbols.find? (entryName entry) with
  | none => []
  | some f => (Code.reachable unit.symbols f).toOption.getD []

/-- The expressions of a compiled program, with the places of their code. -/
def parts (unit : Compiled) (entry : String) : List Code.Part :=
  Code.programParts unit.symbols (unit.order entry)

/-- The states that a run of a compiled program goes through, on a stack of any capacity. -/
def Reaches (unit : Compiled) (s : Machine.State) : Prop :=
  ∃ capacity, Reachable (.ofProgram unit.program) (Machine.start (.empty capacity)) s

/-- What is known of every run of a compiled program. -/
structure Safe (unit : Compiled) (entry : String) : Prop where
  /-- a run that fails has filled its stack, divided by zero or used up its steps -/
  faults : ∀ {limits : Limits} {fuel : Nat} {ran : Ran} {f : Machine.Fault},
    execute unit.program limits fuel = some ran → ran.fault = some f →
    f.cause = .stack .overflow ∨ f.cause = .divisionByZero ∨ f.cause = .stepLimit limits.steps
  /-- no instruction that is reached fails in another way -/
  instructions : ∀ {s s' : Machine.State} {i : Code.Instruction} {cause : Machine.FaultCause},
    unit.Reaches s → unit.program.code[s.pc]? = some i →
    Machine.execute (.ofProgram unit.program) s i = .fault s' cause →
    cause = .stack .overflow ∨ cause = .divisionByZero
  /-- every expression has its code at its place -/
  placed : ∀ p ∈ unit.parts entry, Code.ExprAt (.ofProgram unit.program)
    ⟨unit.symbols, unit.order entry, p.function⟩ p.start p.expr p.stop
  /-- at the end of the code of a truth value, 0 or 1 is on top of the stack -/
  truths : ∀ p ∈ unit.parts entry, Typing.HasType ⟨unit.symbols, p.function⟩ p.expr .bool →
    ∀ {s : Machine.State}, unit.Reaches s → s.pc = p.stop →
      s.stack.peek = .ok (.int 0) ∨ s.stack.peek = .ok (.int 1)

/-! ## The stack map -/

/-- A stack map for a compiled program: every spot obeys its rule, runs start in conformity, and
the code of every expression leads from spot to spot. -/
structure Mapped (unit : Compiled) (entry : String) (map : Nat → Option Code.Spot) : Prop where
  rules : ∀ {pc : Nat} {spot : Code.Spot}, map pc = some spot →
    Code.Rule (.ofProgram unit.program) (unit.parts entry) map pc spot
  start : ∀ capacity, Code.Conforms map (Machine.start (.empty capacity)).config
  placed : ∀ p ∈ unit.parts entry,
    p.Placed (.ofProgram unit.program) unit.symbols (unit.order entry) map

end Compiled

/-- **There is a stack map** for everything that compiles within the limits of 32-bit arguments. -/
theorem exists_mapped {source : Bytes} {entry : String} {unit : Compiled}
    (hc : compile source entry = .ok unit) (hcode : unit.program.code.length < 2 ^ 31)
    (hfuns : unit.program.functions.length < 2 ^ 31)
    (hstrs : unit.program.strings.length < 2 ^ 31) : ∃ map, unit.Mapped entry map := by
  obtain ⟨hcollect, hcheck, hemit⟩ := compile_eq_ok hc
  obtain ⟨ha, f, hname, hparams, -⟩ := Typing.accepted_of_check hcollect hcheck
  obtain ⟨order, horder, hlaid⟩ := Code.laid_of_emit ha hname hparams hemit hcode hfuns hstrs
  have hunit : unit.order entry = order := by
    simp [Compiled.order, hname, horder, Except.toOption]
  have hchecked := Code.spots_checked hlaid ha
  have hentry := (Code.charted hlaid ha).entries hlaid.first hlaid.entry
  rw [hparams] at hentry
  refine ⟨Code.programMap unit.symbols order, ?_, fun _ => .intro hentry rfl .nil .nil, ?_⟩
  · intro pc spot hspot
    rw [Compiled.parts, hunit]
    have hrule := hchecked.rules pc spot hspot
    rwa [Nat.zero_add] at hrule
  · rw [Compiled.parts, hunit]
    exact hchecked.placed

section Mapped

variable {unit : Compiled} {entry : String} {map : Nat → Option Code.Spot}
  (hm : unit.Mapped entry map)
include hm

theorem Compiled.Mapped.closed :
    Machine.Closed (.ofProgram unit.program) (Code.Conforms map) :=
  Code.closed_conforms hm.rules

theorem Compiled.Mapped.conforms {s : Machine.State} (h : unit.Reaches s) :
    Code.Conforms map s.config ∧ s.Fits := by
  obtain ⟨capacity, h⟩ := h
  exact hm.closed.reachable (hm.start capacity) (fits_start capacity) h

end Mapped

/-! ## Safety -/

/-- The expressions of `Sample.halving`: where their code starts and ends, and their types. -/
theorem Sample.parts_halving : ((compile Sample.halving "").toOption.map fun unit =>
    (unit.program, (unit.parts "").map fun p =>
      (p.start, p.stop, (Typing.typeOf ⟨unit.symbols, p.function⟩ p.expr).toOption))) =
    some (Sample.halvingProgram, [(0, 4, some .bool), (0, 2, some .int), (0, 1, some .int),
      (2, 3, some .int), (5, 6, some .int), (7, 10, some .int), (7, 8, some .int),
      (8, 9, some .int)]) := by
  rw [compile_of_tokens Sample.halving_tokens]
  cbv

/-- **Compiled programs are safe.** -/
theorem compile_safe {source : Bytes} {entry : String} {unit : Compiled}
    (hc : compile source entry = .ok unit) (hcode : unit.program.code.length < 2 ^ 31)
    (hfuns : unit.program.functions.length < 2 ^ 31)
    (hstrs : unit.program.strings.length < 2 ^ 31) : unit.Safe entry := by
  obtain ⟨map, hm⟩ := exists_mapped hc hcode hfuns hstrs
  refine ⟨?_, ?_, fun p hp => (hm.placed p hp).code, ?_⟩
  · intro limits fuel ran f hran hf
    simp only [execute, Machine.run, Option.map_eq_some_iff] at hran
    obtain ⟨e, he, rfl⟩ := hran
    exact hm.closed.cause_of_runFrom (hm.start _) (fits_start _) he hf
  · intro s s' i cause hs hi ho
    obtain ⟨hconf, hfits⟩ := hm.conforms hs
    have hout := hm.closed.execute hconf hfits (by simpa [Machine.Task.ofProgram] using hi)
    rw [ho] at hout
    exact hout
  · intro p hp hty s hs hpc
    obtain ⟨ty, types, hty', -, hstop⟩ := (hm.placed p hp).typed
    obtain rfl : ty = .bool := hty'.unique hty
    rw [← hpc] at hstop
    obtain ⟨vs, v, hvs, hfit⟩ := (hm.conforms hs).1.top hstop
    rw [Machine.Stack.peek_of_toList hvs]
    rcases fits_bool_iff.mp hfit with rfl | rfl
    · exact .inl rfl
    · exact .inr rfl

/-- `Sample.halving` is safe, and its comparison is an expression of type `bool`. -/
theorem compile_safe_halving : ∃ unit, compile Sample.halving "" = .ok unit ∧ unit.Safe "" ∧
    ∃ p ∈ unit.parts "", p.stop = 4 ∧
      Typing.HasType ⟨unit.symbols, p.function⟩ p.expr .bool := by
  obtain ⟨unit, hc, hfacts⟩ := map_toOption_eq_some.mp Sample.parts_halving
  obtain ⟨hprogram, hparts⟩ := Prod.mk.inj hfacts
  obtain ⟨hcode, hfuns, hstrs⟩ := Sample.small_halving hprogram
  refine ⟨unit, hc, compile_safe hc hcode hfuns hstrs, ?_⟩
  obtain ⟨p, hp, heq⟩ := List.mem_map.mp (hparts ▸ List.mem_cons_self)
  simp only [Prod.mk.injEq, toOption_eq_some, Typing.typeOf_eq_ok_iff] at heq
  exact ⟨p, hp, heq.2.1, heq.2.2⟩

/-! ## Variables -/

/-- **What a variable holds when it is loaded.** In every state of every run that is about to load
a variable, the load belongs to an occurrence of the variable in the source, and it pushes a value
that fits the declared type, unless the stack is full. -/
theorem load_fits {source : Bytes} {entry : String} {unit : Compiled}
    (hc : compile source entry = .ok unit) (hcode : unit.program.code.length < 2 ^ 31)
    (hfuns : unit.program.functions.length < 2 ^ 31)
    (hstrs : unit.program.strings.length < 2 ^ 31) {s : Machine.State} (hs : unit.Reaches s)
    {arg : Int32} (hi : unit.program.code[s.pc]? = some (.withArg .loadLocal arg)) :
    (∃ p ∈ unit.parts entry, p.start = s.pc ∧ ∃ name, p.expr = .var name) ∧
      ∀ p ∈ unit.parts entry, p.start = s.pc → ∀ name, p.expr = .var name →
        ∃ v, p.function.lookup? name.lexeme = some v ∧ arg = Code.index v.slot ∧
          ((∃ s' w, Machine.execute (.ofProgram unit.program) s (.withArg .loadLocal arg) =
              .next s' ∧ s'.stack.toList = s.stack.toList ++ [w] ∧ Fits w v.type) ∨
            Machine.execute (.ofProgram unit.program) s (.withArg .loadLocal arg) =
              .fault s (.stack .overflow)) := by
  obtain ⟨map, hm⟩ := exists_mapped hc hcode hfuns hstrs
  obtain ⟨hconf, hfits⟩ := hm.conforms hs
  have hat : (Machine.Task.ofProgram unit.program).At s.pc .loadLocal arg := by
    simpa [Machine.Task.At, Machine.Task.ofProgram] using hi
  obtain ⟨f, types, name, ty, hspot, hpart, hnext, w, hfit, hstep⟩ := hconf.load hm.rules hat
  refine ⟨⟨_, hpart, rfl, name, rfl⟩, ?_⟩
  rintro ⟨g, start, e⟩ hp rfl name' rfl
  obtain ⟨hcodeAt, ty', types', hty, hstart, hstop⟩ := hm.placed _ hp
  cases hcodeAt with
  | @var _ _ v hv hload =>
    obtain ⟨-, rfl⟩ := hat.inj hload
    obtain rfl : ty' = v.type := hty.unique (.var hv)
    -- both descriptions of the load lead to the same spot, so they agree on the type
    cases hstart.symm.trans hspot
    obtain rfl : v.type = ty := by
      have hstop : map (s.pc + 1) = some ⟨g, types ++ Code.results v.type⟩ := hstop
      have hspots := hstop.symm.trans hnext
      exact Code.eq_of_results (by simpa using hspots)
    refine ⟨v, hv, rfl, ?_⟩
    obtain ⟨i, hcode', hfol⟩ := hstep.follows hfits
    obtain rfl := Option.some.inj (hcode'.symm.trans hat)
    obtain ⟨s', ho, hconfig, -⟩ | ⟨-, ho⟩ := hfol
    · exact .inl ⟨s', w, ho, congrArg Machine.Config.values hconfig, hfit⟩
    · exact .inr ho

/-- In `Sample.halving` the parameter of `half` is loaded after two steps. -/
theorem load_fits_halving : ∃ unit s, compile Sample.halving "" = .ok unit ∧ unit.Reaches s ∧
    unit.program.code[s.pc]? = some (.withArg .loadLocal 0) ∧
    ∃ p ∈ unit.parts "", p.start = s.pc ∧ ∃ name v, p.expr = .var name ∧
      p.function.lookup? name.lexeme = some v ∧ Code.index v.slot = 0 ∧
      ∃ s' w, Machine.execute (.ofProgram unit.program) s (.withArg .loadLocal 0) = .next s' ∧
        s'.stack.toList = s.stack.toList ++ [w] ∧ Fits w v.type := by
  obtain ⟨unit, hc, hfacts⟩ := map_toOption_eq_some.mp Sample.parts_halving
  obtain ⟨hprogram, -⟩ := Prod.mk.inj hfacts
  obtain ⟨hcode, hfuns, hstrs⟩ := Sample.small_halving hprogram
  obtain ⟨s, s', hs, hi, ho⟩ : ∃ s s', unit.Reaches s ∧
      unit.program.code[s.pc]? = some (.withArg .loadLocal 0) ∧
      Machine.execute (.ofProgram unit.program) s (.withArg .loadLocal 0) = .next s' := by
    simp only [Compiled.Reaches, hprogram]
    exact ⟨_, _, ⟨0, .next (.next .refl rfl rfl) rfl rfl⟩, rfl, rfl⟩
  obtain ⟨⟨p, hp, hstart, name, hname⟩, hload⟩ := load_fits hc hcode hfuns hstrs hs hi
  obtain ⟨v, hv, hslot, hout⟩ := hload p hp hstart name hname
  refine ⟨unit, s, hc, hs, hi, p, hp, hstart, name, v, hname, hv, hslot.symm, ?_⟩
  exact hout.resolve_right (by simp [ho])

namespace Sample

/-- Returns a text variable before anything is stored in it. -/
def unset : Bytes := Bytes.ofString "function main() \x7b return s; var s: string = \"x\"; \x7d"

def unsetTokens : List Token :=
  [key .function 1, name "main" 10, mark .lparen 14, mark .rparen 15, mark .lbrace 17, key .ret 19,
    name "s" 26, mark .semicolon 27, key .var 29, name "s" 33, mark .colon 34, key .string 36,
    op .assign 43, ⟨.string, "x", ⟨1, 45⟩⟩, mark .semicolon 48, mark .rbrace 50]

set_option maxRecDepth 100000 in
theorem unset_tokens : Token.ofText (Utf8.decode unset) = .ok unsetTokens := by
  decide +kernel

def unsetProgram : Code.Program where
  code := [.withArg .pushInt 0, .withArg .loadLocal 0, .withArg .ret 0, .withArg .pushStr 0,
    .withArg .storeLocal 0]
  functions := [⟨Bytes.ofString "main", 0, 0, 1, false⟩]
  strings := [Bytes.ofString "x"]

/-- The expressions of `unset`: where their code starts, and the variables they are. -/
theorem parts_unset : ((compile unset "").toOption.map fun unit =>
    (unit.program, (unit.parts "").map fun p => (p.start, match p.expr with
      | .var name => p.function.lookup? name.lexeme
      | _ => none))) =
    some (unsetProgram, [(1, some ⟨"s", .string, 0, false⟩), (3, none)]) := by
  rw [compile_of_tokens unset_tokens]
  cbv

end Sample

/-- **A text variable need not hold a text**: in `Sample.unset` a variable declared `string` is
loaded, and the integer 0 is pushed. -/
theorem load_unset : ∃ unit, compile Sample.unset "" = .ok unit ∧ ∃ p ∈ unit.parts "",
    ∃ name v s s', p.expr = .var name ∧ p.function.lookup? name.lexeme = some v ∧
      v.type = .string ∧ unit.Reaches s ∧ s.pc = p.start ∧
      unit.program.code[s.pc]? = some (.withArg .loadLocal (Code.index v.slot)) ∧
      Machine.execute (.ofProgram unit.program) s (.withArg .loadLocal (Code.index v.slot)) =
        .next s' ∧ s'.stack.peek = .ok (.int 0) := by
  obtain ⟨unit, hc, hfacts⟩ := map_toOption_eq_some.mp Sample.parts_unset
  obtain ⟨hprogram, hparts⟩ := Prod.mk.inj hfacts
  obtain ⟨⟨f, start, e⟩, hp, heq⟩ := List.mem_map.mp (hparts ▸ List.mem_cons_self)
  obtain ⟨rfl, hvar⟩ := Prod.mk.inj heq
  obtain ⟨s, s', hs, hpc, hload⟩ : ∃ s s', unit.Reaches s ∧ s.pc = 1 ∧
      unit.program.code[s.pc]? = some (.withArg .loadLocal (Code.index 0)) ∧
      Machine.execute (.ofProgram unit.program) s (.withArg .loadLocal (Code.index 0)) =
        .next s' ∧ s'.stack.peek = .ok (.int 0) := by
    simp only [Compiled.Reaches, hprogram]
    exact ⟨_, _, ⟨0, .next .refl rfl rfl⟩, rfl, rfl, rfl, rfl⟩
  cases e with
  | var name => exact ⟨unit, hc, _, hp, name, _, s, s', rfl, hvar, rfl, hs, hpc, hload⟩
  | _ => cases hvar

end Stackling
