import Stackling.Proofs.Structure

/-!
# Where control goes in a compiled program

For every instruction, where the machine can go on after it (`Laid.flow`). It stays in the code of
its function, further on, or comes to the end of the whole code; and if it is a call, the function
that it names is one that the caller's body calls.

That control does not run from one function into the next is because the last instruction of a
function is a return (`FunctionAt.ret_at_end`), unless there is no other function.
-/

namespace Stackling.Code

open Stackling.Tree Stackling.Symbols Stackling.Typing
open Machine (Task target?)

/-! ## Calls -/

/-- Every call among the instructions from `start` up to `stop` is one of `calls`. -/
def CallsIn (task : Task) (order : List Symbols.Function) (calls : List (Token × String))
    (start stop : Nat) : Prop :=
  ∀ pc arg, start ≤ pc → pc < stop → task.At pc .call arg →
    ∃ (i : Nat) (g : Symbols.Function) (first : Token),
      arg.toInt = i ∧ order[i]? = some g ∧ (first, g.name) ∈ calls

namespace CallsIn

variable {task : Task} {order : List Symbols.Function} {calls calls' : List (Token × String)}
  {start mid stop : Nat}

theorem nil : CallsIn task order calls start start := by
  intro pc arg hle hlt
  omega

theorem append (h : CallsIn task order calls start mid) (h' : CallsIn task order calls' mid stop) :
    CallsIn task order (calls ++ calls') start stop := by
  intro pc arg hle hlt hi
  rcases Nat.lt_or_ge pc mid with hmid | hmid
  · obtain ⟨i, g, first, harg, hg, hc⟩ := h pc arg hle hmid hi
    exact ⟨i, g, first, harg, hg, List.mem_append_left _ hc⟩
  · obtain ⟨i, g, first, harg, hg, hc⟩ := h' pc arg hmid hlt hi
    exact ⟨i, g, first, harg, hg, List.mem_append_right _ hc⟩

/-- An instruction that is no call. -/
theorem single {op : Opcode} {arg : Int32} (hi : task.At start op arg) (hop : op ≠ .call) :
    CallsIn task order [] start (start + 1) := by
  intro pc arg' hle hlt hi'
  obtain rfl : pc = start := by omega
  exact absurd (hi.inj hi').1 hop

/-- One more instruction that is no call. -/
theorem concat (h : CallsIn task order calls start stop) {op : Opcode} {arg : Int32}
    (hi : task.At stop op arg) (hop : op ≠ .call) : CallsIn task order calls start (stop + 1) := by
  have happ := h.append (single hi hop)
  rwa [List.append_nil] at happ

end CallsIn

section Parts

variable {task : Task} {env : Env}

theorem ExprsAt.callsIn_of {es : List Expr}
    (h : ∀ e ∈ es, ∀ {start stop}, ExprAt task env start e stop →
      CallsIn task env.order e.calls start stop)
    {start stop : Nat} (hes : ExprsAt task env start es stop) :
    CallsIn task env.order (Expr.callsAll es) start stop := by
  induction es generalizing start with
  | nil =>
    cases hes
    exact .nil
  | cons e es ih =>
    cases hes with
    | cons he hes => exact (h e (by simp) he).append (ih (fun e' he' => h e' (by simp [he'])) hes)

theorem ExprAt.callsIn {e : Expr} {start stop : Nat} (h : ExprAt task env start e stop) :
    CallsIn task env.order e.calls start stop := by
  induction e using Expr.induction generalizing start stop with
  | int =>
    cases h with
    | int hi => exact .single hi (by decide)
  | bool =>
    cases h with
    | bool hi => exact .single hi (by decide)
  | str =>
    cases h with
    | str hi => exact .single hi (by decide)
  | var name =>
    cases h with
    | var hv hi => exact .single hi (by decide)
  | binary op left right ihl ihr =>
    cases h with
    | operation hop hl hr hi =>
      refine ((ihl hl).append (ihr hr)).concat hi ?_
      rintro rfl
      cases op <;> cases hop
    | both hop hl hz hno hr hb hend hi =>
      have htest := (ihl hl).concat hz (by decide)
      exact ((htest.append (ihr hr)).concat hb (by decide)).concat hi (by decide)
    | either hop hl hz hright hi hb hend hr =>
      have htest := (ihl hl).concat hz (by decide)
      exact ((htest.concat hi (by decide)).concat hb (by decide)).append (ihr hr)
  | call first callee args ih =>
    cases h with
    | @call _ mid i _ _ _ _ f _ hf ha hi harg hord =>
      intro pc arg' hle hlt hi'
      rcases Nat.lt_or_ge pc mid with hmid | hmid
      · obtain ⟨j, g, first', harg', hg, hc⟩ := ha.callsIn_of ih pc arg' hle hmid hi'
        exact ⟨j, g, first', harg', hg, List.mem_cons_of_mem _ hc⟩
      · obtain rfl : pc = mid := by omega
        obtain ⟨-, rfl⟩ := hi.inj hi'
        rw [← (Table.mem_of_find? hf).2]
        exact ⟨i, f, first, harg, hord, List.mem_cons_self⟩

theorem ExprsAt.callsIn {es : List Expr} {start stop : Nat} (h : ExprsAt task env start es stop) :
    CallsIn task env.order (Expr.callsAll es) start stop :=
  h.callsIn_of fun _ _ _ _ he => he.callsIn

theorem StmtsAt.callsIn_of {ss : List Stmt}
    (h : ∀ s ∈ ss, ∀ {final start stop}, StmtAt task env final start s stop →
      CallsIn task env.order s.calls start stop)
    {final : Bool} {start stop : Nat} (hss : StmtsAt task env final start ss stop) :
    CallsIn task env.order (Stmt.callsAll ss) start stop := by
  induction ss generalizing start with
  | nil =>
    cases hss
    exact .nil
  | cons s ss ih =>
    cases hss with
    | cons hs hss => exact (h s (by simp) hs).append (ih (fun s' hs' => h s' (by simp [hs'])) hss)

theorem StmtAt.callsIn {s : Stmt} {final : Bool} {start stop : Nat}
    (h : StmtAt task env final start s stop) : CallsIn task env.order s.calls start stop := by
  induction s using Stmt.induction generalizing final start stop with
  | ret first value =>
    cases h with
    | retAlone halone he => exact he.callsIn
    | ret hnot he hi => exact he.callsIn.concat hi (by decide)
  | cond first test brace body ih =>
    cases h with
    | cond ht hz hto hb => exact (ht.callsIn.concat hz (by decide)).append (hb.callsIn_of ih)
  | assign target value =>
    cases h with
    | assign hv he hi => exact he.callsIn.concat hi (by decide)
  | print first args =>
    cases h with
    | print ha hi => exact ha.callsIn.concat hi (by decide)
  | decl first param value =>
    cases h with
    | decl hv he hi => exact he.callsIn.concat hi (by decide)
  | call first callee args =>
    cases h with
    | callPop hres he hi => exact he.callsIn.concat hi (by decide)
    | call hres he => exact he.callsIn

theorem StmtsAt.callsIn {ss : List Stmt} {final : Bool} {start stop : Nat}
    (h : StmtsAt task env final start ss stop) :
    CallsIn task env.order (Stmt.callsAll ss) start stop :=
  h.callsIn_of fun _ _ _ _ _ hs => hs.callsIn

/-- The calls in the code of a function are those of its body. -/
theorem FunctionAt.callsIn {entry stop : Nat} (h : FunctionAt task env entry stop) :
    CallsIn task env.order (Stmt.callsAll env.function.decl.body) entry
      (entry + functionSize env) := by
  have hstop := h.body.stop_eq
  intro pc arg hle hlt hi
  rcases Nat.lt_or_ge pc (entry + env.function.localCount) with hres | hres
  · have hpush := h.reserve (pc - entry) (by omega)
    rw [Nat.add_sub_cancel' hle] at hpush
    cases (hpush.inj hi).1
  rcases Nat.lt_or_ge pc stop with hbody | hbody
  · exact h.body.callsIn pc arg hres hbody hi
  · -- what is behind the body is a return
    have hleave := h.leave
    unfold functionSize at hlt
    split at hlt
    · omega
    · next hnot =>
      rw [Bool.not_eq_true, Bool.or_eq_false_iff] at hnot
      rw [if_neg (by simp [hnot.2])] at hleave
      obtain rfl : pc = stop := by omega
      cases ((hleave hnot.1).inj hi).1

/-! ## Returns -/

/-- A body that ends in a `return` has the code of it at its end. -/
theorem StmtsAt.ret_at_end (halone : env.isAlone = false) {ss : List Stmt} {first : Token}
    {value : Expr} (hlast : ss.getLast? = some (.ret first value)) {final : Bool}
    {start stop : Nat} (h : StmtsAt task env final start ss stop) :
    ∃ last arg, stop = last + 1 ∧ task.At last .ret arg := by
  induction ss generalizing start with
  | nil => cases hlast
  | cons s ss ih =>
    cases h with
    | cons hs hss =>
      rcases ss with _ | ⟨s', ss⟩
      · obtain rfl : s = .ret first value := by simpa using hlast
        cases hss
        generalize (final && List.isEmpty []) = final' at hs
        cases hs with
        | retAlone halone' => simp [halone] at halone'
        | ret hnot he hi => exact ⟨_, _, rfl, hi⟩
      · rw [List.getLast?_cons_cons] at hlast
        exact ih hlast hss

/-- **The last instruction of a function is a return**, unless the function is alone. -/
theorem FunctionAt.ret_at_end (halone : env.isAlone = false) {entry stop : Nat}
    (h : FunctionAt task env entry stop) :
    ∃ last arg, entry + functionSize env = last + 1 ∧ task.At last .ret arg := by
  have hstop := h.body.stop_eq
  have hleave := h.leave
  rw [if_neg (by simp [halone])] at hleave
  unfold functionSize
  cases hends : env.function.decl.endsInReturn with
  | true =>
    obtain ⟨first, value, hlast⟩ := endsInReturn_iff.mp hends
    obtain ⟨last, arg, hlast, hi⟩ := h.body.ret_at_end halone hlast
    refine ⟨last, arg, ?_, hi⟩
    simp only [Bool.true_or, if_true]
    omega
  | false =>
    refine ⟨stop, 0, ?_, hleave hends⟩
    simp only [halone, Bool.or_false, Bool.false_eq_true, if_false]
    omega

end Parts

/-! ## Instructions -/

/-- Where the machine can go on after the instruction at `pc`, which belongs to the function number
`i` of the order. -/
structure Flow (task : Task) (t : Table) (order : List Symbols.Function) (i pc : Nat) (op : Opcode)
    (arg : Int32) : Prop where
  /-- the instruction is one of the function -/
  inside : entryOf t order i ≤ pc ∧ pc < entryOf t order (i + 1)
  next : op ≠ .ret → pc + 1 < entryOf t order (i + 1) ∨ pc + 1 = task.code.size
  jump : op = .branch ∨ op = .branchZero → ∀ {dest : Nat}, target? task arg = some dest →
    pc < dest ∧ (dest < entryOf t order (i + 1) ∨ dest = task.code.size)
  call : op = .call → ∃ (f g : Symbols.Function) (j : Nat), order[i]? = some f ∧ arg.toInt = j ∧
    order[j]? = some g ∧ Calls f g.name

/-- **Where control goes** after an instruction of a program that is laid out. -/
theorem Laid.flow {p : Tree.Program} {t : Table} (ha : Accepted p t) {f : Symbols.Function}
    {order : List Symbols.Function} {prog : Program} (hlaid : Laid (.ofProgram prog) t order f)
    (hlen : prog.functions.length = order.length) {pc : Nat} {op : Opcode} {arg : Int32}
    (hi : (Task.ofProgram prog).At pc op arg) :
    ∃ i, i < order.length ∧ Flow (.ofProgram prog) t order i pc op arg := by
  have hsize : (Task.ofProgram prog).code.size = prog.code.length := by simp [Task.ofProgram]
  have hpc := hi.lt_size
  rw [hsize, hlaid.length_code] at hpc
  obtain ⟨i, hlt, hle, hpc⟩ := exists_entryOf hpc
  have hg := List.getElem?_eq_getElem hlt
  have howns : prog.Owns i pc := (hlaid.owns_iff hlen).mpr ⟨hlt, hle, hpc⟩
  obtain ⟨-, stop, hat⟩ := hlaid.functions hg
  refine ⟨i, hlt, ⟨hle, hpc⟩, ?_, ?_, ?_⟩
  · intro hret
    cases halone : (⟨t, order, order[i]⟩ : Env).isAlone with
    | true =>
      have hone : order.length = 1 := beq_iff_eq.mp halone
      obtain rfl : i = 0 := by omega
      rw [Nat.zero_add] at hpc ⊢
      rw [hsize, hlaid.length_code, hone]
      omega
    | false =>
      obtain ⟨last, arg', hlast, hi'⟩ := hat.ret_at_end halone
      rw [← entryOf_succ hg] at hlast
      have hne : pc ≠ last := by
        rintro rfl
        exact hret (hi.inj hi').1
      omega
  · intro hop dest hto
    obtain ⟨limit, op', arg', hi', hkeeps, hlimit⟩ := hlaid.instruction hlen ha hg howns
    obtain ⟨rfl, rfl⟩ := hi.inj hi'
    obtain ⟨dest', harg, hgt, hle'⟩ : ∃ dest' : Nat, arg.toInt = dest' ∧ pc < dest' ∧
        dest' ≤ limit := by
      rcases hop with rfl | rfl <;> exact hkeeps
    obtain rfl : dest' = dest := by
      simp only [target?, Option.ite_none_right_eq_some, Option.some.injEq] at hto
      omega
    rw [hlaid.stopOf_eq hlen hlt] at hlimit
    omega
  · rintro rfl
    have hcalls := hat.callsIn
    rw [← entryOf_succ hg] at hcalls
    obtain ⟨j, g, first, harg, hj, hc⟩ := hcalls pc arg hle hpc hi
    exact ⟨_, g, j, hg, harg, hj, first, hc⟩

end Stackling.Code
