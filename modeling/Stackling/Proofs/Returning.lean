import Stackling.Proofs.Independence
import Stackling.Proofs.Machine.Limits

/-!
# The program that returns an expression

An integer expression is evaluated by a program with one function, `main`, that returns it. In such
an expression there are no variables, and the only function to call is `main` itself. What has the
type `int` there is made of integers, the four arithmetic operators and calls `-> main()`.

So its code has no jumps and no texts, the only function has the number 0, and every argument is in
range however long the code is: the program is laid out without a bound on its size
(`laid_returning`), and does what the expression means (`exists_computes`).
-/

namespace Stackling

open Stackling.Tree Stackling.Symbols Stackling.Typing
open Machine (Task Value)

/-! ## The program -/

/-- The function `main` that returns the expression `x`. -/
def Tree.Function.returning (x : Expr) : Tree.Function :=
  ⟨.blank, defaultEntry, [], some ⟨⟨.keyword .int, "int", .nowhere⟩⟩, .blank, [.ret .blank x]⟩

/-- The program that returns the expression `x`. -/
def Tree.Program.returning (x : Expr) : Tree.Program := ⟨.blank, [.returning x]⟩

/-- Its function, as the table has it: it returns an integer and has no parameters and no
variables. -/
def Symbols.Function.returning (x : Expr) : Symbols.Function :=
  ⟨defaultEntry, .int, [], .returning x⟩

/-- What can be named in the expression `x`: the function that returns it. -/
def Typing.Scope.returning (x : Expr) : Scope := ⟨[.returning x], .returning x⟩

/-- The value of the expression `x` in that program, with fuel for so many calls inside each
other. -/
def Meaning.value (x : Expr) (fuel : Nat) : Meaning.Result (Option Value) :=
  Meaning.evalExpr (Meaning.invoke (.returning x) fuel) (fun _ => .zero) x

variable {x : Expr}

theorem collect_returning (x : Expr) : collect (.returning x) = .ok [.returning x] := rfl

theorem find?_returning {name : String} {f : Symbols.Function}
    (h : Table.find? [.returning x] name = some f) : name = defaultEntry ∧ f = .returning x := by
  obtain ⟨hmem, rfl⟩ := Table.mem_of_find? h
  obtain rfl := List.mem_singleton.mp hmem
  exact ⟨rfl, rfl⟩

/-- The program is well typed if the expression is an integer. -/
theorem check_returning_iff :
    check [.returning x] defaultEntry (.returning x) = .ok () ↔ HasType (.returning x) x .int := by
  have hentry : checkEntry [.returning x] defaultEntry = .ok () := rfl
  rw [check_eq_ok_iff, and_iff_right hentry]
  constructor
  · intro h
    have hret := (h (.returning x) (List.mem_singleton_self _)).body _ (List.mem_singleton_self _)
    cases hret with
    | ret hv hty =>
      obtain rfl := hty (show Ty.int ≠ .void from nofun)
      exact hv
  · intro h f hf
    obtain rfl := List.mem_singleton.mp hf
    refine ⟨fun s hs => ?_, fun _ _ => ⟨.blank, x, rfl⟩⟩
    obtain rfl := List.mem_singleton.mp hs
    exact .ret h fun _ => rfl

theorem accepted_returning (h : HasType (.returning x) x .int) :
    Accepted (.returning x) [.returning x] :=
  (accepted_of_check (collect_returning x) (check_returning_iff.mpr h)).1

/-! ## Its code -/

namespace Code

/-- What the code of the function depends on. -/
def Env.returning (x : Expr) : Env := ⟨[.returning x], [.returning x], .returning x⟩

theorem reachable_returning {order : List Symbols.Function}
    (h : reachable [.returning x] (.returning x) = .ok order) : order = [.returning x] := by
  obtain ⟨s, rest, hs, hrest, rfl⟩ := discover_cons_iff.mp h
  -- nothing is left to be found
  have hsize := Search.size_follow hs
  obtain ⟨pending, unseen⟩ := s
  obtain ⟨rfl, rfl⟩ : pending = [] ∧ unseen = [] := by
    simpa [Search.size, Symbols.Function.returning] using hsize
  rw [discover] at hrest
  cases hrest
  rfl

/-- The code of a part `y` of the expression. -/
theorem exprAt_returning {task : Task}
    (hfun : task.functions[0]? = some (describe (.returning x) 0)) {y : Expr}
    (hy : HasType (.returning x) y .int) {start : Nat} {pool pool' : Pool}
    {code : List Instruction}
    (h : emitExpr (.returning x) start pool y = .ok (code, pool'))
    (hlies : Lies (fun pc => task.code[pc]?) start code) :
    ExprAt task (.returning x) start y (start + code.length) := by
  induction y using Expr.induction generalizing start pool pool' code with
  | int literal value =>
    rw [emitExpr] at h
    cases h
    exact .int (along_cons.mp hlies).1
  | bool | str => cases hy
  | var name =>
    generalize hint : Ty.int = ty at hy
    cases hy with
    | var hv => cases hv
  | binary op left right ihl ihr =>
    obtain ⟨opcode, hop, hl, hr⟩ : ∃ opcode, strategy op = .operation opcode ∧
        HasType (.returning x) left .int ∧ HasType (.returning x) right .int := by
      cases hy with
      | arithmetic hop hl hr =>
        refine Exists.imp (fun opcode hop => ⟨hop, hl, hr⟩) ?_
        rcases hop with rfl | rfl | rfl | rfl <;> exact ⟨_, rfl⟩
    simp only [emitExpr, hop, bind_eq_ok, pure_eq_ok] at h
    obtain ⟨-, -, ⟨l, pool₁⟩, hleft, ⟨r, pool₂⟩, hright, heq⟩ := h
    cases heq
    simp only [along_append, along_cons, List.length_append, ← Nat.add_assoc] at hlies
    obtain ⟨⟨hliesl, hliesr⟩, hi, -⟩ := hlies
    simp only [List.length_append, List.length_singleton, ← Nat.add_assoc]
    exact .operation hop (ihl hl hleft hliesl) (ihr hr hright hliesr) hi
  | call first callee args ih =>
    generalize hint : Ty.int = ty at hy
    cases hy with
    | call hf hlen hargs =>
      obtain ⟨rfl, rfl⟩ := find?_returning hf
      obtain rfl := List.length_eq_zero_iff.mp hlen
      cases h
      have hi := (along_cons.mp hlies).1
      exact .call hf .nil hi rfl rfl hfun (Nat.zero_lt_of_lt (Machine.Task.At.lt_size hi))

theorem emitFunction_returning {start : Nat} {pool pool' : Pool} {code : List Instruction}
    (h : emitFunction (.returning x) start pool = .ok (code, pool')) :
    emitExpr (.returning x) start pool x = .ok (code, pool') := by
  obtain ⟨body, hbody, rfl⟩ := emitFunction_eq_ok h
  have hret : emitStmts (.returning x) true start pool [.ret .blank x] = .ok (body, pool') := hbody
  simp only [emitStmts, bind_eq_ok, pure_eq_ok] at hret
  obtain ⟨⟨ret, pool₁⟩, hret, ⟨more, pool₂⟩, hmore, heq⟩ := hret
  cases hmore
  cases heq
  simp only [emitStmt, bind_eq_ok] at hret
  obtain ⟨⟨value, pool₃⟩, hvalue, heq⟩ := hret
  cases heq
  rw [hvalue]
  simp [Env.returning, Env.isAlone, Symbols.Function.localCount, Symbols.Function.slotCount,
    Symbols.Function.returning]

/-- **The code is laid out**, however long it is. -/
theorem laid_returning (hx : HasType (.returning x) x .int) {prog : Program}
    (h : emit [.returning x] defaultEntry (.returning x) = .ok prog) :
    Laid (.ofProgram prog) [.returning x] [.returning x] (.returning x) := by
  obtain ⟨f, order, hf, horder, hcode⟩ := emit_eq_ok h
  obtain ⟨-, rfl⟩ := find?_returning hf
  obtain rfl := reachable_returning horder
  simp only [emitFunctions, bind_eq_ok, pure_eq_ok] at hcode
  obtain ⟨⟨code, pool⟩, hfunction, rest, hrest, rfl⟩ := hcode
  cases hrest
  rw [List.append_nil]
  let task : Task := .ofProgram ⟨code, [describe (.returning x) 0], pool⟩
  have hlies : Lies (fun pc => task.code[pc]?) 0 code := by
    intro k i hi
    simpa [task, Task.ofProgram] using hi
  have hfun : task.functions[0]? = some (describe (.returning x) 0) := rfl
  have hexpr := exprAt_returning hfun hx (emitFunction_returning hfunction) hlies
  rw [Nat.zero_add] at hexpr
  have hbody : StmtsAt task (.returning x) true 0 [.ret .blank x] code.length :=
    .cons (.retAlone rfl hexpr) .nil
  have hsize : task.code.size = code.length := by simp [task, Task.ofProgram]
  refine ⟨fun g hg => hg, rfl, ?_, ?_, ?_⟩
  · intro i g hg
    obtain ⟨rfl, rfl⟩ : i = 0 ∧ g = .returning x := by
      rcases i with _ | i <;> simp_all
    exact ⟨hfun, code.length, fun k hk => absurd hk (Nat.not_lt_zero k), hbody, hsize.symm⟩
  · exact hsize.trans hbody.stop_eq
  · intro g hg
    obtain rfl := List.mem_singleton.mp hg
    exact Nat.two_pow_pos 31

end Code

/-! ## Its meaning -/

theorem value_satisfies (h : HasType (.returning x) x .int) (fuel : Nat) :
    (Meaning.value x fuel).Satisfies (Meaning.Yields .int) := by
  refine Meaning.evalExpr_satisfies (Meaning.invoke_satisfies (accepted_returning h) fuel) ?_ ?_ h
  · intro f hf
    obtain rfl := List.mem_singleton.mp hf
    exact List.forall_mem_nil _
  · intro name v hv
    cases hv

/-- To evaluate the program is to evaluate the expression. -/
theorem evaluate_returning (h : HasType (.returning x) x .int) (fuel : Nat) :
    Meaning.evaluate (.returning x) defaultEntry (fuel + 1) = Meaning.value x fuel := by
  have hsat := value_satisfies h fuel
  have hcall : Meaning.evaluate (.returning x) defaultEntry (fuel + 1) =
      Meaning.evalStmts (Meaning.invoke (.returning x) fuel) (fun _ => .zero) [.ret .blank x] >>=
        Meaning.leave (.returning x) := rfl
  rw [hcall, Meaning.evalStmts, Meaning.evalStmt, ← Meaning.value]
  cases hv : Meaning.value x fuel with
  | done v out =>
    rw [hv] at hsat
    cases v with
    | none => cases hsat
    | some v =>
      have hout : out ++ [] ++ [] ++ [] = out := by simp only [List.append_nil]
      exact congrArg (Meaning.Result.done (some v)) hout
  | divisionByZero out => rfl
  | unfinished out => rfl
  | stuck => rfl

/-! ## Runs -/

/-- A limit has put an end to the run. -/
def Ran.CutOff (limits : Limits) (ran : Ran) : Prop :=
  ∃ f, ran.fault = some f ∧ (f.cause = .stack .overflow ∨ f.cause = .stepLimit limits.steps)

/-- Limits that are looser do not change a run that no limit has put an end to. -/
theorem execute_looser {p : Code.Program} {limits limits' : Limits} {steps : Nat} {ran : Ran}
    (h : execute p limits steps = some ran)
    (hfree : ¬ran.CutOff limits)
    (hstack : (Machine.Stack.empty limits.stack).capacity ≤
      (Machine.Stack.empty limits'.stack).capacity)
    (hsteps : Machine.Looser limits.steps limits'.steps) (more : Nat) :
    execute p limits' (steps + more) = some ran := by
  obtain ⟨e, he, rfl⟩ := Option.map_eq_some_iff.mp h
  have hloose := Machine.runFrom_withCapacity hsteps hstack he hfree
  have hmore : Machine.run (.ofProgram p) limits'.steps (.empty limits'.stack) (steps + more) =
      some (e.withCapacity _) := Machine.runFrom_mono hloose
  exact congrArg (Option.map Ran.ofEnding) hmore

/-- So what holds of the runs under all limits that are loose enough holds of every run that no
limit has put an end to. -/
theorem of_execute {p : Code.Program} {P : Ran → Prop} {enough : Nat}
    (h : ∀ limits, limits.Allow enough → ∀ steps ≥ enough, ∃ ran,
      execute p limits steps = some ran ∧ P ran)
    {limits : Limits} {steps : Nat} {ran : Ran} (hran : execute p limits steps = some ran)
    (hfree : ¬ran.CutOff limits) : P ran := by
  -- room for both, and no limit on the steps
  let room := (Machine.Stack.empty limits.stack).capacity + enough + 1
  have hroom : (Machine.Stack.empty (room : Int)).capacity = room := by
    simp only [Machine.Stack.empty]
    rw [if_neg (by omega), Int.toNat_natCast]
  have hsame : execute p ⟨room, 0⟩ (steps + enough) = some ran :=
    execute_looser hran hfree (by rw [hroom]; omega) (.inl (le_refl 0)) enough
  obtain ⟨ran', hran', hP⟩ := h ⟨room, 0⟩ ⟨by rw [hroom]; omega, .inl (le_refl 0)⟩
    (steps + enough) (Nat.le_add_left _ _)
  rw [hsame] at hran'
  cases hran'
  exact hP

/-- The program `p` computes the expression `x`. -/
structure Computes (p : Code.Program) (x : Expr) : Prop where
  /-- an expression that has a value: the run succeeds with it -/
  finished : ∀ {fuel : Nat} {v : Value} {out : Bytes}, Meaning.value x fuel = .done (some v) out →
    ∃ enough, ∀ limits, limits.Allow enough → ∀ steps ≥ enough, ∃ ran,
      execute p limits steps = some ran ∧ ran.fault = none ∧ ran.output = out ∧ ran.value = some v
  /-- an expression that divides by zero: so does the run -/
  divided : ∀ {fuel : Nat} {out : Bytes}, Meaning.value x fuel = .divisionByZero out →
    ∃ enough, ∀ limits, limits.Allow enough → ∀ steps ≥ enough, ∃ ran,
      execute p limits steps = some ran ∧ ran.output = out ∧
        ∃ f, ran.fault = some f ∧ f.cause = .divisionByZero
  /-- under any limits, a run that has ended shows the value or the division by zero of the
  expression, or a limit has put an end to it -/
  ended : ∀ {limits : Limits} {steps : Nat} {ran : Ran}, execute p limits steps = some ran →
    (∃ fuel v out, Meaning.value x fuel = .done (some v) out ∧ ran.fault = none ∧
      ran.output = out ∧ ran.value = some v) ∨
    (∃ fuel out f, Meaning.value x fuel = .divisionByZero out ∧ ran.output = out ∧
      ran.fault = some f ∧ f.cause = .divisionByZero) ∨
    ran.CutOff limits

theorem Implements.computes {p : Code.Program} (himpl : Implements p (.returning x) defaultEntry)
    (hx : HasType (.returning x) x .int) : Computes p x := by
  have hfinished {fuel : Nat} {v : Value} {out : Bytes}
      (hv : Meaning.value x fuel = .done (some v) out) :
      ∃ enough, ∀ limits, limits.Allow enough → ∀ steps ≥ enough, ∃ ran,
        execute p limits steps = some ran ∧ ran.fault = none ∧ ran.output = out ∧
          ran.value = some v := by
    rw [← evaluate_returning hx] at hv
    obtain ⟨enough, hruns⟩ := himpl.finished hv
    refine ⟨enough, fun limits hl steps hsteps => ?_⟩
    obtain ⟨ran, hran, hfault, hout, hvalue⟩ := hruns limits hl steps hsteps
    exact ⟨ran, hran, hfault, hout, hvalue v rfl⟩
  have hdivided {fuel : Nat} {out : Bytes} (hv : Meaning.value x fuel = .divisionByZero out) :
      ∃ enough, ∀ limits, limits.Allow enough → ∀ steps ≥ enough, ∃ ran,
        execute p limits steps = some ran ∧ ran.output = out ∧
          ∃ f, ran.fault = some f ∧ f.cause = .divisionByZero := by
    rw [← evaluate_returning hx] at hv
    obtain ⟨enough, pc, arg, -, hruns⟩ := himpl.divided hv
    refine ⟨enough, fun limits hl steps hsteps => ?_⟩
    obtain ⟨ran, hran, hout, hfault⟩ := hruns limits hl steps hsteps
    exact ⟨ran, hran, hout, _, hfault, rfl⟩
  refine ⟨hfinished, hdivided, fun {limits steps ran} hran => ?_⟩
  by_cases hlimit : ran.CutOff limits
  · exact .inr (.inr hlimit)
  have hends : ¬∀ fuel, ∃ out,
      Meaning.evaluate (.returning x) defaultEntry fuel = .unfinished out :=
    fun hdiv => hlimit (himpl.diverged hdiv hran).1
  obtain ⟨fuel, hfuel⟩ := not_forall.mp hends
  cases fuel with
  | zero => exact absurd ⟨[], rfl⟩ hfuel
  | succ fuel =>
    have hsat := value_satisfies hx fuel
    rw [evaluate_returning hx] at hfuel
    cases hv : Meaning.value x fuel with
    | done v out =>
      rw [hv] at hsat
      cases v with
      | none => cases hsat
      | some v =>
        obtain ⟨enough, hruns⟩ := hfinished hv
        exact .inl ⟨fuel, v, out, hv, of_execute hruns hran hlimit⟩
    | divisionByZero out =>
      obtain ⟨enough, hruns⟩ := hdivided hv
      obtain ⟨hout, f, hfault⟩ := of_execute hruns hran hlimit
      exact .inr (.inl ⟨fuel, out, f, hv, hout, hfault⟩)
    | unfinished out => exact absurd ⟨out, hv⟩ hfuel
    | stuck =>
      rw [hv] at hsat
      cases hsat

/-- **An integer expression has code that computes it.** -/
theorem exists_computes (hx : HasType (.returning x) x .int) :
    ∃ p, Code.emit [.returning x] defaultEntry (.returning x) = .ok p ∧ Computes p x := by
  have ha := accepted_returning hx
  have hmain : Table.find? [.returning x] defaultEntry = some (.returning x) := rfl
  obtain ⟨p, hp⟩ := Code.exists_emit ha hmain
  exact ⟨p, hp, (implements_of_laid ha hmain rfl (Code.laid_returning hx hp)).computes hx⟩

end Stackling
