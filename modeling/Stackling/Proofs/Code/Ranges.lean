import Stackling.Proofs.Code.Program

/-!
# What the instructions of a function refer to

The code of a function is a stretch of instructions that keep to the function (`Keeps`): a jump
goes forward and not beyond a limit, a slot is one of the function's own, a call is of a function
in the table, and a return says whether there is a result.

The code of an expression or a statement jumps no further than to its end. For a whole function
that end has to be an instruction of the function (`FunctionAt.stretch`). It is one because a body
that ends in a `return` ends in an instruction that nothing jumps over, and another body is followed
by a return. Only a function that is alone may jump to the end of the code.
-/

namespace Stackling.Code

open Stackling.Tree Stackling.Symbols Stackling.Typing
open Machine (Task target?)

/-! ## Stretches of code -/

/-- The instruction at `pc` keeps to the function `f`, and jumps no further than to `limit`. -/
def Keeps (task : Task) (f : Symbols.Function) (limit pc : Nat) (op : Opcode) (arg : Int32) :
    Prop :=
  match op with
  | .branch | .branchZero => ∃ dest : Nat, arg.toInt = dest ∧ pc < dest ∧ dest ≤ limit
  | .loadLocal | .storeLocal => ∃ slot : Nat, arg.toInt = slot ∧ slot < f.vars.length
  | .call => ∃ i : Nat, arg.toInt = i ∧ i < task.functions.size
  | .ret => arg = if f.returns = .void then 0 else 1
  | _ => True

/-- There are instructions from `start` up to `stop`, and each of them keeps to `f`. -/
def Stretch (task : Task) (f : Symbols.Function) (limit start stop : Nat) : Prop :=
  ∀ pc, start ≤ pc → pc < stop → ∃ op arg, task.At pc op arg ∧ Keeps task f limit pc op arg

section Stretch

variable {task : Task} {f : Symbols.Function} {limit limit' start mid stop : Nat}

/-- An instruction that keeps within a function keeps within more of it. -/
theorem Keeps.mono {pc : Nat} {op : Opcode} {arg : Int32} (h : Keeps task f limit pc op arg)
    (hle : limit ≤ limit') : Keeps task f limit' pc op arg := by
  cases op with
  | branch | branchZero =>
    obtain ⟨dest, harg, hlt, hdest⟩ := h
    exact ⟨dest, harg, hlt, Nat.le_trans hdest hle⟩
  | _ => exact h

/-- An operation on two integers has no argument to look at. -/
theorem keeps_of_arithmetic {pc : Nat} {op : Opcode} {arg : Int32}
    (h : op ∈ Machine.arithmeticOps) : Keeps task f limit pc op arg := by
  cases op <;> trivial

/-- A jump that goes forward. -/
theorem keeps_jump {pc dest : Nat} {arg : Int32} (hto : target? task arg = some dest)
    (hlt : pc < dest) (hle : dest ≤ limit) :
    Keeps task f limit pc .branch arg ∧ Keeps task f limit pc .branchZero arg := by
  have harg : arg.toInt = dest := by
    simp only [target?, Option.ite_none_right_eq_some, Option.some.injEq] at hto
    omega
  exact ⟨⟨dest, harg, hlt, hle⟩, dest, harg, hlt, hle⟩

/-- A variable that is found has a slot of the function. -/
theorem keeps_variable (hf : Slotted f.vars) (hsmall : f.vars.length < 2 ^ 31) {pc : Nat}
    {name : String} {v : Variable} (hv : f.lookup? name = some v) :
    Keeps task f limit pc .loadLocal (index v.slot) ∧
      Keeps task f limit pc .storeLocal (index v.slot) := by
  obtain ⟨hget, -⟩ := Function.getElem?_of_lookup? hf hv
  have hlt := (List.getElem?_eq_some_iff.mp hget).1
  have harg : (index v.slot).toInt = v.slot := toInt_index (by omega)
  exact ⟨⟨v.slot, harg, hlt⟩, v.slot, harg, hlt⟩

namespace Stretch

theorem nil : Stretch task f limit start start := by
  intro pc hle hlt
  omega

/-- Stretches of code one behind the other. -/
theorem append (h : Stretch task f limit start mid) (h' : Stretch task f limit mid stop) :
    Stretch task f limit start stop := by
  intro pc hle hlt
  rcases Nat.lt_or_ge pc mid with hmid | hmid
  · exact h pc hle hmid
  · exact h' pc hmid hlt

/-- A stretch of one instruction. -/
theorem single {op : Opcode} {arg : Int32} (hi : task.At start op arg)
    (hk : Keeps task f limit start op arg) : Stretch task f limit start (start + 1) := by
  intro pc hle hlt
  obtain rfl : pc = start := by omega
  exact ⟨op, arg, hi, hk⟩

/-- One more instruction. -/
theorem concat (h : Stretch task f limit start stop) {op : Opcode} {arg : Int32}
    (hi : task.At stop op arg) (hk : Keeps task f limit stop op arg) :
    Stretch task f limit start (stop + 1) :=
  h.append (single hi hk)

theorem mono (h : Stretch task f limit start stop) (hle : limit ≤ limit') :
    Stretch task f limit' start stop := by
  intro pc hpc hlt
  obtain ⟨op, arg, hi, hk⟩ := h pc hpc hlt
  exact ⟨op, arg, hi, hk.mono hle⟩

end Stretch

end Stretch

/-! ## Expressions and statements -/

section Parts

variable {task : Task} {env : Env}

/-- The case of arguments in the induction for `ExprAt.stretch`. -/
theorem ExprsAt.stretch_of {es : List Expr}
    (h : ∀ e ∈ es, ∀ {start stop}, ExprAt task env start e stop →
      Stretch task env.function stop start stop)
    {start stop : Nat} (hes : ExprsAt task env start es stop) :
    Stretch task env.function stop start stop := by
  induction es generalizing start with
  | nil =>
    cases hes
    exact .nil
  | cons e es ih =>
    cases hes with
    | cons he hes =>
      have hle := hes.stop_eq
      have hrest := ih (fun e' he' => h e' (by simp [he'])) hes
      exact ((h e (by simp) he).mono (by omega)).append hrest

variable (hf : Slotted env.function.vars) (hsmall : env.function.vars.length < 2 ^ 31)
include hf hsmall

/-- The code of an expression keeps within itself: its branches go no further than its end. -/
theorem ExprAt.stretch {e : Expr} {start stop : Nat} (h : ExprAt task env start e stop) :
    Stretch task env.function stop start stop := by
  induction e using Expr.induction generalizing start stop with
  | int =>
    cases h with
    | int hi => exact .single hi trivial
  | bool =>
    cases h with
    | bool hi => exact .single hi trivial
  | str =>
    cases h with
    | str hi => exact .single hi trivial
  | var name =>
    cases h with
    | var hv hi => exact .single hi (keeps_variable hf hsmall hv).1
  | binary op left right ihl ihr =>
    have hsize := h.stop_eq
    cases h with
    | operation hop hl hr hi =>
      have hr' := hr.stop_eq
      exact ((((ihl hl).mono (by omega)).append (ihr hr)).mono (by omega)).concat hi
        (keeps_of_arithmetic (mem_arithmeticOps hop))
    | @both _ mid no _ _ _ _ _ hop hl hz hno hr hb hend hi =>
      have hr' := hr.stop_eq
      have htest : Stretch task env.function (no + 2) start (mid + 1) :=
        ((ihl hl).mono (by omega)).concat hz (keeps_jump hno (by omega) (by omega)).2
      have hmore := ((ihr hr).mono (by omega)).concat hb
        (keeps_jump hend (by omega) (Nat.le_refl _)).1
      exact (htest.append hmore).concat hi trivial
    | @either _ mid _ _ _ _ _ _ hop hl hz hright hi hb hend hr =>
      have hr' := hr.stop_eq
      have htest : Stretch task env.function stop start (mid + 1) :=
        ((ihl hl).mono (by omega)).concat hz (keeps_jump hright (by omega) (by omega)).2
      have hyes := (htest.concat hi trivial).concat hb
        (keeps_jump hend (by omega) (Nat.le_refl _)).1
      exact hyes.append (ihr hr)
  | call first callee args ih =>
    cases h with
    | call _ ha hi harg _ hfun =>
      have hlt := (Array.getElem?_eq_some_iff.mp hfun).1
      exact ((ha.stretch_of ih).mono (Nat.le_succ _)).concat hi ⟨_, harg, hlt⟩

theorem ExprsAt.stretch {es : List Expr} {start stop : Nat}
    (h : ExprsAt task env start es stop) : Stretch task env.function stop start stop :=
  h.stretch_of fun _ _ _ _ he => he.stretch hf hsmall

omit hf hsmall in
/-- The case of a block in the induction for `StmtAt.stretch`. -/
theorem StmtsAt.stretch_of {ss : List Stmt}
    (h : ∀ s ∈ ss, ∀ {final start stop}, StmtAt task env final start s stop →
      Stretch task env.function stop start stop)
    {final : Bool} {start stop : Nat} (hss : StmtsAt task env final start ss stop) :
    Stretch task env.function stop start stop := by
  induction ss generalizing start with
  | nil =>
    cases hss
    exact .nil
  | cons s ss ih =>
    cases hss with
    | cons hs hss =>
      have hle := hss.stop_eq
      have hrest := ih (fun s' hs' => h s' (by simp [hs'])) hss
      exact ((h s (by simp) hs).mono (by omega)).append hrest

/-- The code of a statement keeps within itself. -/
theorem StmtAt.stretch {s : Stmt} {final : Bool} {start stop : Nat}
    (h : StmtAt task env final start s stop) : Stretch task env.function stop start stop := by
  induction s using Stmt.induction generalizing final start stop with
  | ret first value =>
    cases h with
    | retAlone halone he => exact he.stretch hf hsmall
    | ret hnot he hi => exact ((he.stretch hf hsmall).mono (Nat.le_succ _)).concat hi rfl
  | cond first test brace body ih =>
    cases h with
    | cond ht hz hto hb =>
      have hb' := hb.stop_eq
      have htest := ((ht.stretch hf hsmall).mono (by omega)).concat hz
        (keeps_jump hto (by omega) (Nat.le_refl _)).2
      exact htest.append (hb.stretch_of ih)
  | assign target value =>
    cases h with
    | assign hv he hi =>
      exact ((he.stretch hf hsmall).mono (Nat.le_succ _)).concat hi
        (keeps_variable hf hsmall hv).2
  | print first args =>
    cases h with
    | print ha hi => exact ((ha.stretch hf hsmall).mono (Nat.le_succ _)).concat hi trivial
  | decl first param value =>
    cases h with
    | decl hv he hi =>
      exact ((he.stretch hf hsmall).mono (Nat.le_succ _)).concat hi
        (keeps_variable hf hsmall hv).2
  | call first callee args =>
    cases h with
    | callPop hres he hi => exact ((he.stretch hf hsmall).mono (Nat.le_succ _)).concat hi trivial
    | call hres he => exact he.stretch hf hsmall

theorem StmtsAt.stretch {ss : List Stmt} {final : Bool} {start stop : Nat}
    (h : StmtsAt task env final start ss stop) : Stretch task env.function stop start stop :=
  h.stretch_of fun _ _ _ _ _ hs => hs.stretch hf hsmall

omit hf hsmall in
/-- Every statement has an instruction. -/
theorem stmtSize_pos (env : Env) (final : Bool) (s : Stmt) : 0 < stmtSize env final s := by
  cases s with
  | ret first value | cond first value | assign first value | decl first param value =>
    have := exprSize_pos value
    rw [stmtSize]
    omega
  | print first args =>
    rw [stmtSize]
    omega
  | call first callee args =>
    have := exprSize_pos (.call first callee args)
    rw [stmtSize]
    omega

/-- Nothing jumps over the `return` at the end of a body. -/
theorem StmtsAt.stretch_of_ret (halone : env.isAlone = false) {ss : List Stmt} {first : Token}
    {value : Expr} (hlast : ss.getLast? = some (.ret first value)) {final : Bool}
    {start stop : Nat} (h : StmtsAt task env final start ss stop) :
    ∃ limit < stop, Stretch task env.function limit start stop := by
  induction ss generalizing start with
  | nil => cases hlast
  | cons s ss ih =>
    cases h with
    | cons hs hss =>
      rcases ss with _ | ⟨s', ss⟩
      · obtain rfl : s = .ret first value := by simpa using hlast
        cases hss
        generalize (final && List.isEmpty []) = final' at hs
        cases hs with
        | retAlone halone' => simp [halone] at halone'
        | ret hnot he hi => exact ⟨_, Nat.lt_succ_self _, (he.stretch hf hsmall).concat hi rfl⟩
      · rw [List.getLast?_cons_cons] at hlast
        obtain ⟨limit, hlt, hmore⟩ := ih hlast hss
        have hsize := hss.stop_eq
        have hpos := stmtSize_pos env (final && ss.isEmpty) s'
        rw [stmtsSize] at hsize
        refine ⟨_, Nat.sub_one_lt (by omega), ?_⟩
        exact ((hs.stretch hf hsmall).mono (by omega)).append (hmore.mono (by omega))

/-- **The code of a function keeps to the function**, and jumps to instructions of it, or to the
end of the code if the function is alone. -/
theorem FunctionAt.stretch (hvoid : env.function.decl.endsInReturn = false →
      env.function.returns = .void) {entry stop : Nat} (h : FunctionAt task env entry stop) :
    ∃ limit, Stretch task env.function limit entry (entry + functionSize env) ∧
      (limit < entry + functionSize env ∨
        env.isAlone = true ∧ limit = entry + functionSize env) := by
  have hstop := h.body.stop_eq
  have hreserve : ∀ limit, Stretch task env.function limit entry
      (entry + env.function.localCount) := by
    intro limit pc hle hlt
    have hi := h.reserve (pc - entry) (by omega)
    rw [Nat.add_sub_cancel' hle] at hi
    exact ⟨_, _, hi, trivial⟩
  have hleave := h.leave
  unfold functionSize
  cases halone : env.isAlone with
  | true =>
    simp only [Bool.or_true, if_true, Nat.add_zero, ← Nat.add_assoc, ← hstop]
    exact ⟨stop, (hreserve stop).append (h.body.stretch hf hsmall), .inr ⟨trivial, rfl⟩⟩
  | false =>
    simp only [halone, Bool.false_eq_true, if_false] at hleave
    cases hends : env.function.decl.endsInReturn with
    | true =>
      obtain ⟨first, value, hlast⟩ := endsInReturn_iff.mp hends
      obtain ⟨limit, hlt, hbody⟩ := h.body.stretch_of_ret hf hsmall halone hlast
      simp only [Bool.or_false, if_true, Nat.add_zero, ← Nat.add_assoc, ← hstop]
      exact ⟨limit, (hreserve limit).append hbody, .inl hlt⟩
    | false =>
      simp only [Bool.or_false, Bool.false_eq_true, if_false, ← Nat.add_assoc, ← hstop]
      refine ⟨stop, ((hreserve stop).append (h.body.stretch hf hsmall)).concat (hleave hends) ?_,
        .inl (Nat.lt_succ_self _)⟩
      exact (if_pos (hvoid hends)).symm

end Parts

/-! ## Entries -/

section Entries

variable {t : Table} {order : List Symbols.Function}

/-- A function starts where the one before it ends. -/
theorem entryOf_succ {i : Nat} {g : Symbols.Function} (hg : order[i]? = some g) :
    entryOf t order (i + 1) = entryOf t order i + functionSize ⟨t, order, g⟩ := by
  simp [entryOf, List.take_add_one, hg]

variable (t order) in
/-- Functions are laid out in their order. -/
theorem entryOf_mono : Monotone (entryOf t order) := by
  refine monotone_nat_of_le_succ fun i => ?_
  rcases hg : order[i]? with _ | g
  · simp [entryOf, List.take_add_one, hg]
  · rw [entryOf_succ hg]
    exact Nat.le_add_right _ _

/-- A function that is not alone has code. -/
theorem functionSize_pos {env : Env} (halone : env.isAlone = false) : 0 < functionSize env := by
  unfold functionSize
  cases hends : env.function.decl.endsInReturn with
  | false =>
    simp only [halone, Bool.or_false, Bool.false_eq_true, if_false]
    omega
  | true =>
    obtain ⟨first, value, hlast⟩ := endsInReturn_iff.mp hends
    rcases hbody : env.function.decl.body with _ | ⟨s, ss⟩
    · simp [hbody] at hlast
    · have := stmtSize_pos env (true && ss.isEmpty) s
      rw [stmtsSize]
      omega

/-- An address before the end of the last function lies in one of the functions. -/
theorem exists_entryOf {pc n : Nat} (h : pc < entryOf t order n) :
    ∃ i < n, entryOf t order i ≤ pc ∧ pc < entryOf t order (i + 1) := by
  induction n with
  | zero => simp [entryOf] at h
  | succ n ih =>
    rcases Nat.lt_or_ge pc (entryOf t order n) with hlt | hge
    · obtain ⟨i, hi, hpc⟩ := ih hlt
      exact ⟨i, Nat.lt_succ_of_lt hi, hpc⟩
    · exact ⟨n, Nat.lt_succ_self n, hge, h⟩

end Entries

end Stackling.Code
