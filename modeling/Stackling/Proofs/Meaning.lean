import Stackling.Machine.Stack
import Stackling.Proofs.Tree

/-!
# What programs mean

The reference meaning of a syntax tree, said without code, slots or a machine: an evaluator by
recursion over the tree.

* A `Store` holds the variables of a call by name. Every local variable starts as the integer 0.
* Operands and arguments are evaluated from left to right; `&&` and `||` leave their right side
  alone if the left side settles the answer. Integers wrap to 32 bits, and division goes toward
  zero.
* A `Result` comes with the text that was printed on the way. Evaluation may finish, divide by
  zero, or run out of fuel, of which every nested call takes one unit. `stuck` is the answer where
  the rules say nothing: a text as an operand, a missing value, a function that does not exist.

`evalExpr` and `evalStmts` take the meaning of calls as an argument; `invoke` ties the knot. An
evaluation terminates if some fuel is enough for it, and diverges if none is.
-/

namespace Stackling.Meaning

open Stackling.Tree
open Machine (Value)

/-! ## Results -/

/-- How an evaluation comes out, with the text it printed. -/
inductive Result (α : Type) where
  /-- it finished -/
  | done (a : α) (out : Bytes)
  /-- it divided by zero -/
  | divisionByZero (out : Bytes)
  /-- it ran out of fuel -/
  | unfinished (out : Bytes)
  /-- the rules do not say how to go on -/
  | stuck

namespace Result

variable {α β : Type}

/-- A result that comes after `out` was printed. -/
def after (out : Bytes) : Result α → Result α
  | done a more => done a (out ++ more)
  | divisionByZero more => divisionByZero (out ++ more)
  | unfinished more => unfinished (out ++ more)
  | stuck => stuck

/-- Goes on after a part that finished. -/
protected def bind : Result α → (α → Result β) → Result β
  | done a out, f => (f a).after out
  | divisionByZero out, _ => divisionByZero out
  | unfinished out, _ => unfinished out
  | stuck, _ => stuck

instance : Monad Result where
  pure a := done a []
  bind := Result.bind

/-- Prints a text. -/
def write (out : Bytes) : Result Unit := done () out

end Result

/-! ## Values -/

/-- The integer that stands for a truth value. -/
def truth (b : Bool) : Value := .int (if b then 1 else 0)

/-- A value; an expression without a value, the call of a function without result type, has
none. -/
def asValue : Option Value → Result Value
  | some v => pure v
  | none => .stuck

/-- A value that must be an integer. -/
def asInt : Option Value → Result Int32
  | some (.int i) => pure i
  | _ => .stuck

/-- A value that must be a truth value. -/
def asTruth : Option Value → Result Bool
  | some (.int i) => if i = 0 then pure false else if i = 1 then pure true else .stuck
  | _ => .stuck

/-- The variables of a call, by name. -/
abbrev Store := String → Value

namespace Store

/-- The variables at the start of a call: parameters hold the arguments, all others the
integer 0. -/
def ofArgs (params : List Param) (args : List Value) : Store := fun name =>
  (((params.map (·.name.lexeme)).zip args).lookup name).getD .zero

/-- Stores a value. -/
def set (store : Store) (name : String) (v : Value) : Store := fun name' =>
  if name' = name then v else store name'

end Store

/-! ## Expressions -/

/-- Operators on integers. The logical ones have rules of their own. -/
def operate (op : BinaryOp) (l r : Int32) : Result Value :=
  match op with
  | .plus => pure (.int (.ofInt (l.toInt + r.toInt)))
  | .minus => pure (.int (.ofInt (l.toInt - r.toInt)))
  | .times => pure (.int (.ofInt (l.toInt * r.toInt)))
  | .divide =>
    if r = 0 then .divisionByZero [] else pure (.int (.ofInt (l.toInt.tdiv r.toInt)))
  | .eq => pure (truth (l.toInt = r.toInt))
  | .ne => pure (truth (l.toInt ≠ r.toInt))
  | .gt => pure (truth (l.toInt > r.toInt))
  | .ge => pure (truth (l.toInt ≥ r.toInt))
  | .lt => pure (truth (l.toInt < r.toInt))
  | .le => pure (truth (l.toInt ≤ r.toInt))
  | .and | .or => .stuck

/-- The result of a binary expression from those of its two sides. The right one counts only if
the left side comes out so that it is asked for. -/
def combine (op : BinaryOp) (left right : Result (Option Value)) : Result (Option Value) := do
  match op with
  | .and =>
    let l ← asTruth (← left)
    if l then return some (truth (← asTruth (← right))) else return some (truth false)
  | .or =>
    let l ← asTruth (← left)
    if l then return some (truth true) else return some (truth (← asTruth (← right)))
  | op =>
    let l ← asInt (← left)
    let r ← asInt (← right)
    return some (← operate op l r)

/-- The meaning of calls: a function's name and arguments to a result, which has no value if the
function has no result type. -/
abbrev Calls := String → List Value → Result (Option Value)

mutual

/-- The value of an expression. -/
def evalExpr (call : Calls) (store : Store) : Expr → Result (Option Value)
  | .int _ value => pure (some (.int value))
  | .bool _ value => pure (some (truth value))
  | .str literal => pure (some (.str (Bytes.ofString literal.lexeme)))
  | .var name => pure (some (store name.lexeme))
  | .binary op left right =>
    combine op (evalExpr call store left) (evalExpr call store right)
  | .call _ callee args => do
    let vs ← evalArgs call store args
    call callee vs

/-- The values of expressions, from left to right. -/
def evalArgs (call : Calls) (store : Store) : List Expr → Result (List Value)
  | [] => pure []
  | e :: es => do
    let v ← asValue (← evalExpr call store e)
    let vs ← evalArgs call store es
    return v :: vs

end

/-! ## Statements -/

/-- How control leaves a statement. -/
inductive Exit where
  /-- to the next statement -/
  | next (store : Store)
  /-- out of the function, with the value of the `return` -/
  | returned (v : Option Value)

/-- A printed line: the values with one space between neighbours, and a line end. -/
def line (vs : List Value) : Bytes :=
  List.intercalate (Bytes.ofString " ") (vs.map Value.text) ++ Bytes.ofString "\n"

mutual

/-- Runs a statement. -/
def evalStmt (call : Calls) (store : Store) : Stmt → Result Exit
  | .ret _ value => do
    let v ← evalExpr call store value
    return .returned v
  | .cond _ test _ body => do
    let b ← asTruth (← evalExpr call store test)
    if b then evalStmts call store body else return .next store
  | .assign target value => do
    let v ← asValue (← evalExpr call store value)
    return .next (store.set target.lexeme v)
  | .print _ args => do
    let vs ← evalArgs call store args
    Result.write (line vs)
    return .next store
  | .decl _ param value => do
    let v ← asValue (← evalExpr call store value)
    return .next (store.set param.name.lexeme v)
  | .call start callee args => do
    let _ ← evalExpr call store (.call start callee args)
    return .next store

/-- Runs statements until one returns. -/
def evalStmts (call : Calls) (store : Store) : List Stmt → Result Exit
  | [] => pure (.next store)
  | s :: ss => do
    match ← evalStmt call store s with
    | .next store => evalStmts call store ss
    | .returned v => return .returned v

end

/-! ## Calls -/

/-- The result of a call. A function without result type drops what is returned; one with a result
type must have returned a value. -/
def leave (f : Tree.Function) (exit : Exit) : Result (Option Value) :=
  match f.returns, exit with
  | none, _ => pure none
  | some _, .returned (some v) => pure (some v)
  | some _, _ => .stuck

/-- Calls the function `f`. -/
def invokeFunction (call : Calls) (f : Tree.Function) (args : List Value) :
    Result (Option Value) :=
  if f.params.length = args.length then do
    let exit ← evalStmts call (.ofArgs f.params args) f.body
    leave f exit
  else .stuck

/-- Calls the function named `name`, with fuel for so many calls inside each other. -/
def invoke (p : Program) : (fuel : Nat) → Calls
  | 0, _, _ => .unfinished []
  | fuel + 1, name, args =>
    match p.find? name with
    | none => .stuck
    | some f => invokeFunction (invoke p fuel) f args

/-- Evaluates a program from the function named `entry`. -/
def evaluate (p : Program) (entry : String) (fuel : Nat) : Result (Option Value) :=
  invoke p fuel entry []

/-! ## More fuel

Fuel is only spent on calls, and a result is `unfinished` only if some call ran out of it. So an
evaluation that finished with some fuel comes out the same with more. -/

namespace Result

variable {α β : Type}

/-- `r.Le r'`: the second result is the first, unless the first ran out of fuel. -/
def Le (r r' : Result α) : Prop := (∃ out, r = unfinished out) ∨ r' = r

theorem Le.refl (r : Result α) : r.Le r := .inr rfl

/-- What comes after a result only adds to it. -/
theorem Le.bind {r r' : Result α} {f f' : α → Result β} (hr : r.Le r')
    (hf : ∀ a, (f a).Le (f' a)) : (r >>= f).Le (r' >>= f') := by
  obtain ⟨out, rfl⟩ | rfl := hr
  · exact .inl ⟨out, rfl⟩
  · cases r' with
    | done a out =>
      obtain ⟨more, hm⟩ | hm := hf a
      · refine .inl ⟨out ++ more, ?_⟩
        rw [show (done a out >>= f) = (f a).after out from rfl, hm]
        rfl
      · exact .inr (congrArg (after out) hm)
    | divisionByZero out | unfinished out | stuck => exact .inr rfl

/-- A result that is finished is final. -/
theorem Le.eq_of_ne_unfinished {r r' : Result α} (h : r.Le r')
    (hr : ∀ out, r ≠ unfinished out) : r' = r := by
  obtain ⟨out, ho⟩ | h := h
  · exact absurd ho (hr out)
  · exact h

end Result

/-- Operators get no less done if their operands do not. For `and` and `or` that the right operand
is left out depends on the left one alone. -/
theorem combine_mono {op : BinaryOp} {l l' r r' : Result (Option Value)} (hl : l.Le l')
    (hr : r.Le r') : (combine op l r).Le (combine op l' r') := by
  unfold combine
  split
  · refine hl.bind fun v => (Result.Le.refl _).bind fun b => ?_
    split
    · exact hr.bind fun v => .refl _
    · exact .refl _
  · refine hl.bind fun v => (Result.Le.refl _).bind fun b => ?_
    split
    · exact .refl _
    · exact hr.bind fun v => .refl _
  · refine hl.bind fun v => (Result.Le.refl _).bind fun i => ?_
    exact hr.bind fun v => .refl _

section Mono

variable {call call' : Calls}

/-- The case of arguments in the induction for `evalExpr_mono`. -/
theorem evalArgs_mono_of {store : Store} {args : List Expr}
    (h : ∀ a ∈ args, (evalExpr call store a).Le (evalExpr call' store a)) :
    (evalArgs call store args).Le (evalArgs call' store args) := by
  induction args with
  | nil => exact .refl _
  | cons a args ih =>
    rw [evalArgs, evalArgs]
    refine (h a (by simp)).bind fun v => (Result.Le.refl _).bind fun v => ?_
    exact (ih fun b hb => h b (by simp [hb])).bind fun vs => .refl _

/-- The case of a block in the induction for `evalStmt_mono`. -/
theorem evalStmts_mono_of {ss : List Stmt}
    (h : ∀ s ∈ ss, ∀ store, (evalStmt call store s).Le (evalStmt call' store s)) (store : Store) :
    (evalStmts call store ss).Le (evalStmts call' store ss) := by
  induction ss generalizing store with
  | nil => exact .refl _
  | cons s ss ih =>
    rw [evalStmts, evalStmts]
    refine (h s (by simp) store).bind fun exit => ?_
    split
    · exact ih (fun s' hs => h s' (by simp [hs])) _
    · exact .refl _

variable (hcall : ∀ name args, (call name args).Le (call' name args))
include hcall

/-- If calls get no less done, expressions do not. -/
theorem evalExpr_mono (store : Store) (e : Expr) :
    (evalExpr call store e).Le (evalExpr call' store e) := by
  induction e using Expr.induction with
  | int | bool | str | var =>
    rw [evalExpr, evalExpr]
    exact .refl _
  | binary op left right ihl ihr =>
    rw [evalExpr, evalExpr]
    exact combine_mono ihl ihr
  | call start callee args ih =>
    rw [evalExpr, evalExpr]
    exact (evalArgs_mono_of ih).bind fun vs => hcall callee vs

theorem evalArgs_mono (store : Store) (args : List Expr) :
    (evalArgs call store args).Le (evalArgs call' store args) :=
  evalArgs_mono_of fun a _ => evalExpr_mono hcall store a

/-- If calls get no less done, statements do not. -/
theorem evalStmt_mono (store : Store) (s : Stmt) :
    (evalStmt call store s).Le (evalStmt call' store s) := by
  induction s using Stmt.induction generalizing store with
  | ret start value =>
    rw [evalStmt, evalStmt]
    exact (evalExpr_mono hcall store value).bind fun v => .refl _
  | cond start test brace body ih =>
    rw [evalStmt, evalStmt]
    refine (evalExpr_mono hcall store test).bind fun v => (Result.Le.refl _).bind fun b => ?_
    split
    · exact evalStmts_mono_of ih store
    · exact .refl _
  | assign target value =>
    rw [evalStmt, evalStmt]
    exact (evalExpr_mono hcall store value).bind fun v => .refl _
  | print start args =>
    rw [evalStmt, evalStmt]
    exact (evalArgs_mono hcall store args).bind fun vs => .refl _
  | decl start param value =>
    rw [evalStmt, evalStmt]
    exact (evalExpr_mono hcall store value).bind fun v => .refl _
  | call start callee args =>
    rw [evalStmt, evalStmt]
    exact (evalExpr_mono hcall store _).bind fun v => .refl _

/-- If calls get no less done, calling a function does not. -/
theorem invokeFunction_mono (f : Tree.Function) (args : List Value) :
    (invokeFunction call f args).Le (invokeFunction call' f args) := by
  rw [invokeFunction, invokeFunction]
  split
  · exact (evalStmts_mono_of (fun s _ store => evalStmt_mono hcall store s) _).bind
      fun exit => .refl _
  · exact .refl _

end Mono

/-- More fuel gets no less done, by induction on the fuel. -/
theorem invoke_mono (p : Program) (fuel : Nat) (name : String) (args : List Value) :
    (invoke p fuel name args).Le (invoke p (fuel + 1) name args) := by
  induction fuel generalizing name args with
  | zero => exact .inl ⟨[], rfl⟩
  | succ fuel ih =>
    rw [invoke, invoke]
    split
    · exact .refl _
    · exact invokeFunction_mono ih _ args

/-- **A finished evaluation stays as it is with more fuel.** -/
theorem evaluate_of_le {p : Program} {entry : String} {n m : Nat} (hnm : n ≤ m)
    (h : ∀ out, evaluate p entry n ≠ .unfinished out) :
    evaluate p entry m = evaluate p entry n := by
  induction hnm with
  | refl => rfl
  | step _ ih =>
    rw [← ih]
    refine (invoke_mono p _ entry []).eq_of_ne_unfinished ?_
    intro out hout
    exact h out (ih ▸ hout)

/-- A finished evaluation needs some least fuel, and comes out the same with that. -/
theorem exists_least_fuel {p : Program} {entry : String} {n : Nat}
    (h : ∀ out, evaluate p entry n ≠ .unfinished out) :
    ∃ m, evaluate p entry m = evaluate p entry n ∧
      ∀ k < m, ∃ out, evaluate p entry k = .unfinished out := by
  induction n using Nat.strongRecOn with
  | ind n ih =>
    by_cases hless : ∀ k < n, ∃ out, evaluate p entry k = .unfinished out
    · exact ⟨n, rfl, hless⟩
    · simp only [Classical.not_forall, not_exists] at hless
      obtain ⟨k, hk, hdone⟩ := hless
      obtain ⟨m, hm, hmin⟩ := ih k hk hdone
      exact ⟨m, hm.trans (evaluate_of_le (Nat.le_of_lt hk) hdone).symm, hmin⟩

end Stackling.Meaning
