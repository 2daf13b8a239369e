import Mathlib.Algebra.Module.Submodule.Lattice
import Mathlib.Data.List.Permutation
import Stackling.Pipeline
import Stackling.Proofs.Code.Simulation

/-!
# Compiled programs do what their source means

The main theorem about the compiler. A program that compiles is compared with the evaluation of
its tree: what the evaluator prints and returns is what the machine prints and leaves on the stack,
a division by zero is the machine's fault, and an evaluation without end is a run without end.

A machine has limits and the evaluator has none, so each part says for which limits it holds:
finished and failed evaluations for all limits from some bound on, endless ones for any.
-/

namespace Stackling

open Meaning (Result Yields)
open Machine (Value)

/-- A text compiles if every phase succeeds. -/
theorem compile_eq_ok_iff {source : Bytes} {entry : String} {unit : Compiled} :
    compile source entry = .ok unit ↔
      Token.ofText (Utf8.decode source) = .ok unit.tokens ∧
      Tree.Program.ofTokens unit.tokens = .ok unit.tree ∧
      Symbols.collect unit.tree = .ok unit.symbols ∧
      Typing.check unit.symbols (entryName entry) unit.tree = .ok () ∧
      Code.emit unit.symbols (entryName entry) unit.tree = .ok unit.program := by
  simp only [compile, bind_eq_ok, mapError_eq_ok, pure_eq_ok]
  constructor
  · rintro ⟨tokens, hts, tree, htree, symbols, hcollect, ⟨⟩, hcheck, program, hemit, rfl⟩
    exact ⟨hts, htree, hcollect, hcheck, hemit⟩
  · rintro ⟨hts, htree, hcollect, hcheck, hemit⟩
    exact ⟨_, hts, _, htree, _, hcollect, (), hcheck, _, hemit, rfl⟩

/-- Inversion for `compile`, for the phases after parsing. -/
theorem compile_eq_ok {source : Bytes} {entry : String} {unit : Compiled}
    (h : compile source entry = .ok unit) : Symbols.collect unit.tree = .ok unit.symbols ∧
      Typing.check unit.symbols (entryName entry) unit.tree = .ok () ∧
      Code.emit unit.symbols (entryName entry) unit.tree = .ok unit.program :=
  (compile_eq_ok_iff.mp h).2.2

/-- What is left of compiling when the tokens are known. -/
theorem compile_of_tokens {source : Bytes} {ts : List Token}
    (hts : Token.ofText (Utf8.decode source) = .ok ts) (entry : String) :
    compile source entry = (do
      let tree ← (Tree.Program.ofTokens ts).mapError .parsing
      let symbols ← (Symbols.collect tree).mapError .collecting
      (Typing.check symbols (entryName entry) tree).mapError .checking
      let program ← (Code.emit symbols (entryName entry) tree).mapError .emitting
      return ⟨ts, tree, symbols, program⟩) := by
  rw [compile, hts]
  rfl

/-- The limits leave room for `n` values and `n` steps. -/
def Limits.Allow (limits : Limits) (n : Nat) : Prop :=
  n ≤ (Machine.Stack.empty limits.stack).capacity ∧ (limits.steps ≤ 0 ∨ (n : Int) ≤ limits.steps)

/-- The program `p` does what `tree` means when it is evaluated from the function `entry`. -/
structure Implements (p : Code.Program) (tree : Tree.Program) (entry : String) : Prop where
  /-- an evaluation that finishes: the run succeeds with the same text and the same value -/
  finished : ∀ {fuel : Nat} {r : Option Value} {out : Bytes},
    Meaning.evaluate tree entry fuel = .done r out →
    ∃ enough, ∀ limits, limits.Allow enough → ∀ steps ≥ enough, ∃ ran,
      execute p limits steps = some ran ∧ ran.fault = none ∧ ran.output = out ∧
      ∀ v, r = some v → ran.value = some v
  /-- an evaluation that divides by zero: so does the run, at a division, after the same text -/
  divided : ∀ {fuel : Nat} {out : Bytes},
    Meaning.evaluate tree entry fuel = .divisionByZero out →
    ∃ enough pc arg, p.code[pc]? = some (.withArg .div arg) ∧
      ∀ limits, limits.Allow enough → ∀ steps ≥ enough, ∃ ran,
        execute p limits steps = some ran ∧ ran.output = out ∧
        ran.fault = some ⟨pc, Code.Opcode.div.toByte, .divisionByZero⟩
  /-- an evaluation that never finishes: under no limits does the run succeed, and what it prints
  until a limit stops it is a beginning of what the evaluation prints -/
  diverged : (∀ fuel, ∃ out, Meaning.evaluate tree entry fuel = .unfinished out) →
    ∀ {limits : Limits} {steps : Nat} {ran : Ran}, execute p limits steps = some ran →
      (∃ f, ran.fault = some f ∧
        (f.cause = .stack .overflow ∨ f.cause = .stepLimit limits.steps)) ∧
      ∃ fuel out, Meaning.evaluate tree entry fuel = .unfinished out ∧ ran.output <+: out

/-! ## Runs of a program -/

theorem config_start (capacity : Int) :
    (Machine.start (.empty capacity)).config = Code.initial := rfl

theorem fits_start (capacity : Int) : (Machine.start (.empty capacity)).Fits :=
  Nat.zero_le _

/-- A program with room and steps enough goes on from where its first `n` steps lead. -/
theorem execute_of_runs {p : Code.Program} {n : Nat} {c : Machine.Config}
    (h : Machine.Runs (.ofProgram p) n Code.initial c) {limits : Limits}
    (hl : limits.Allow (n + 1)) : ∃ s, s.config = c ∧ Machine.Allows limits.steps (n + 1) ∧
      ∀ fuel, execute p limits (n + fuel) =
        (Machine.runFrom (.ofProgram p) limits.steps fuel n s).map .ofEnding := by
  obtain ⟨hroom, hsteps⟩ := hl
  rw [← config_start limits.stack] at h
  have hallows : Machine.Allows limits.steps (0 + n) := by
    unfold Machine.Allows
    omega
  obtain ⟨s, hc, -, hrun⟩ := h.runFrom (fits_start _)
    (by simp [Machine.start, Machine.Stack.count, Machine.Stack.empty] at hroom ⊢; omega) hallows
  refine ⟨s, hc, hsteps, fun fuel => ?_⟩
  rw [execute, Machine.run, hrun fuel, Nat.zero_add]

/-! ## Correctness -/

/-- A program that is laid out does what the tree means. -/
theorem implements_of_laid {tree : Tree.Program} {t : Symbols.Table} {name : String}
    {f : Symbols.Function} {p : Code.Program} {order : List Symbols.Function}
    (ha : Typing.Accepted tree t) (hname : t.find? name = some f) (hparams : f.params = [])
    (hlaid : Code.Laid (.ofProgram p) t order f) : Implements p tree name where
  finished := by
    intro fuel r out hdone
    have hfinal : ∀ out, Meaning.evaluate tree name fuel ≠ .unfinished out := by simp [hdone]
    obtain ⟨n, hn, hmin⟩ := Meaning.exists_least_fuel hfinal
    have hmeets := Code.evaluate_meets ha hlaid hname hparams hmin
    rw [hn, hdone] at hmeets
    obtain ⟨m, c, hruns, hout, hhalts, hval⟩ := hmeets
    refine ⟨m + 1, fun limits hl steps hsteps => ?_⟩
    obtain ⟨s, rfl, hallows, hrun⟩ := execute_of_runs hruns hl
    obtain ⟨more, hend⟩ := hhalts.runFrom hallows
    obtain ⟨k, rfl⟩ : ∃ k, steps = m + (k + 1) := ⟨steps - m - 1, by omega⟩
    refine ⟨_, by rw [hrun, hend]; rfl, rfl, hout, ?_⟩
    intro v hv
    obtain ⟨vs, hvs⟩ := hval v hv
    simp [Ran.ofEnding, Machine.Stack.peek_of_toList hvs, Except.toOption]
  divided := by
    intro fuel out hdiv
    have hfinal : ∀ out, Meaning.evaluate tree name fuel ≠ .unfinished out := by simp [hdiv]
    obtain ⟨n, hn, hmin⟩ := Meaning.exists_least_fuel hfinal
    have hmeets := Code.evaluate_meets ha hlaid hname hparams hmin
    rw [hn, hdiv] at hmeets
    obtain ⟨m, c, hruns, hout, hzero⟩ := hmeets
    obtain ⟨arg, hi⟩ : ∃ arg, (Machine.Task.ofProgram p).At c.pc .div arg := by
      obtain ⟨arg, -, -, hi, -⟩ := hzero
      exact ⟨arg, hi⟩
    refine ⟨m + 1, c.pc, arg, by simpa [Machine.Task.At, Machine.Task.ofProgram] using hi,
      fun limits hl steps hsteps => ?_⟩
    obtain ⟨s, rfl, hallows, hrun⟩ := execute_of_runs hruns hl
    obtain ⟨s', hprinted, hend⟩ := hzero.runFrom hallows
    obtain ⟨k, rfl⟩ : ∃ k, steps = m + (k + 1) := ⟨steps - m - 1, by omega⟩
    exact ⟨_, by rw [hrun, hend]; rfl, hprinted.trans hout, rfl⟩
  diverged := by
    intro hdiv limits steps ran hran
    -- enough fuel for more steps than the run looks at
    obtain ⟨out, hout⟩ := hdiv (steps + 1)
    have hmeets := Code.evaluate_meets ha hlaid hname hparams (n := steps + 1) fun m _ => hdiv m
    rw [hout] at hmeets
    obtain ⟨m, c, hruns, hprint, hle⟩ := hmeets
    rw [← config_start limits.stack] at hruns
    simp only [execute, Machine.run, Option.map_eq_some_iff] at hran
    obtain ⟨e, he, rfl⟩ := hran
    obtain ⟨s, more, -, -, hmore, -⟩ | ⟨hex, hpre⟩ := hruns.ending (fits_start _) he
    · omega
    · rw [hprint] at hpre
      exact ⟨hex, steps + 1, out, hout, hpre⟩

namespace Sample

/-! The tokens of a source text that is one line, by column. -/

def key (k : Keyword) (column : Nat) : Token := ⟨.keyword k, k.word, ⟨1, column⟩⟩
def op (o : Operator) (column : Nat) : Token := ⟨.operator o, o.symbol, ⟨1, column⟩⟩
def mark (d : Delimiter) (column : Nat) : Token := ⟨.delimiter d, d.symbol.toString, ⟨1, column⟩⟩
def name (word : String) (column : Nat) : Token := ⟨.ident, word, ⟨1, column⟩⟩
def number (digits : String) (column : Nat) : Token := ⟨.number, digits, ⟨1, column⟩⟩

/-- Prints whether half of 7 is less than 4, and returns 1. -/
def halving : Bytes :=
  Bytes.ofString "function main() -> int \x7b print(-> half(7) < 4); return 1; \x7d " ++
    Bytes.ofString "function half(n: int) -> int \x7b return n / 2; \x7d"

def halvingTokens : List Token :=
  [key .function 1, name "main" 10, mark .lparen 14, mark .rparen 15, op .arrow 17, key .int 20,
    mark .lbrace 24, key .print 26, mark .lparen 31, op .arrow 32, name "half" 35, mark .lparen 39,
    number "7" 40, mark .rparen 41, op .lt 43, number "4" 45, mark .rparen 46, mark .semicolon 47,
    key .ret 49, number "1" 56, mark .semicolon 57, mark .rbrace 59, key .function 61,
    name "half" 70, mark .lparen 74, name "n" 75, mark .colon 76, key .int 78, mark .rparen 81,
    op .arrow 83, key .int 86, mark .lbrace 90, key .ret 92, name "n" 99, op .divide 101,
    number "2" 103, mark .semicolon 104, mark .rbrace 106]

set_option maxRecDepth 100000 in
theorem halving_tokens : Token.ofText (Utf8.decode halving) = .ok halvingTokens := by
  decide +kernel

def halvingProgram : Code.Program where
  code := [.withArg .pushInt 7, .withArg .call 1, .withArg .pushInt 4, .plain .lt,
    .withArg .print 1, .withArg .pushInt 1, .withArg .ret 1, .withArg .loadLocal 0,
    .withArg .pushInt 2, .plain .div, .withArg .ret 1]
  functions := [⟨Bytes.ofString "main", 0, 0, 0, true⟩, ⟨Bytes.ofString "half", 7, 1, 0, true⟩]
  strings := []

theorem small_halving {p : Code.Program} (h : p = halvingProgram) :
    p.code.length < 2 ^ 31 ∧ p.functions.length < 2 ^ 31 ∧ p.strings.length < 2 ^ 31 := by
  rw [h]
  decide

def halvingTree : Tree.Program :=
  ⟨key .function 1,
    [⟨key .function 1, "main", [], some ⟨key .int 20⟩, mark .lbrace 24,
      [.print (key .print 26) [.binary .lt
        (.call (op .arrow 32) "half" [.int (number "7" 40) 7]) (.int (number "4" 45) 4)],
        .ret (key .ret 49) (.int (number "1" 56) 1)]⟩,
    ⟨key .function 61, "half", [⟨name "n" 75, ⟨key .int 78⟩⟩], some ⟨key .int 86⟩, mark .lbrace 90,
      [.ret (key .ret 92) (.binary .divide (.var (name "n" 99)) (.int (number "2" 103) 2))]⟩]⟩

theorem compile_halving : ((compile halving "").toOption.map fun unit =>
    (unit.tree, unit.program)) = some (halvingTree, halvingProgram) := by
  rw [compile_of_tokens halving_tokens]
  cbv

theorem evaluate_halving : Meaning.evaluate halvingTree "main" 2 =
    .done (some (.int 1)) (Bytes.ofString "1\n") := by
  rfl

end Sample

/-- **Compiled programs do what their source means.** Whatever compiles to fewer than `2 ^ 31`
instructions, functions and texts has an evaluation that is never stuck and ends, if it does, with
what the entry function's result type says; and the program implements it. -/
theorem compile_correct {source : Bytes} {entry : String} {unit : Compiled}
    (hc : compile source entry = .ok unit) (hcode : unit.program.code.length < 2 ^ 31)
    (hfuns : unit.program.functions.length < 2 ^ 31)
    (hstrs : unit.program.strings.length < 2 ^ 31) :
    Implements unit.program unit.tree (entryName entry) ∧
      ∃ f, unit.symbols.find? (entryName entry) = some f ∧ ∀ fuel,
        (Meaning.evaluate unit.tree (entryName entry) fuel).Satisfies (Yields f.returns) := by
  obtain ⟨hcollect, hcheck, hemit⟩ := compile_eq_ok hc
  obtain ⟨ha, f, hname, hparams, -⟩ := Typing.accepted_of_check hcollect hcheck
  obtain ⟨order, -, hlaid⟩ := Code.laid_of_emit ha hname hparams hemit hcode hfuns hstrs
  refine ⟨implements_of_laid ha hname hparams hlaid, f, hname, fun fuel => ?_⟩
  refine Meaning.invoke_satisfies ha fuel hname ?_
  rw [hparams]
  exact .nil

/-- With room and steps enough, the compiled form of `Sample.halving` prints and returns 1. -/
theorem compile_correct_halving : ∃ unit, compile Sample.halving "" = .ok unit ∧
    ∃ enough, ∀ limits : Limits, limits.Allow enough → ∀ steps ≥ enough, ∃ ran,
      execute unit.program limits steps = some ran ∧ ran.fault = none ∧
      ran.output = Bytes.ofString "1\n" ∧ ran.value = some (.int 1) := by
  obtain ⟨unit, hc, hfacts⟩ := map_toOption_eq_some.mp Sample.compile_halving
  obtain ⟨htree, hprogram⟩ := Prod.mk.inj hfacts
  have heval := Sample.evaluate_halving
  rw [← htree] at heval
  obtain ⟨hcode, hfuns, hstrs⟩ := Sample.small_halving hprogram
  have hcorrect := (compile_correct hc hcode hfuns hstrs).1
  obtain ⟨enough, hruns⟩ := hcorrect.finished heval
  refine ⟨unit, hc, enough, ?_⟩
  intro limits hl steps hsteps
  obtain ⟨ran, hran, hfault, hout, hvalue⟩ := hruns limits hl steps hsteps
  exact ⟨ran, hran, hfault, hout, hvalue _ rfl⟩

end Stackling
