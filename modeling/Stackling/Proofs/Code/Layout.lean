import Mathlib.Algebra.Ring.Nat
import Stackling.Code.Emit
import Stackling.Proofs.Except
import Stackling.Proofs.Machine
import Stackling.Proofs.Symbols
import Stackling.Proofs.Tree

/-!
# Where the code of a tree stands

`ExprAt task env start e stop` says that the instructions from `start` up to `stop` compute the
expression `e`, and `StmtAt` says the same of a statement. The relations are about the task that
the machine runs: a jump has its target, a call its entry of the function table, a text is in the
pool. Addresses are natural numbers here; that they survive the way through 32-bit arguments is
used when the relations are derived from the emitter, and not again.

`emitExpr_exprAt` and `emitStmts_stmtsAt` are that derivation. What is proved of compiled code
later starts from the relations and does not open the emitter.
-/

namespace Stackling.Code

open Stackling.Tree Stackling.Symbols
open Machine (Task argument? target?)

/-! ## Relations -/

mutual

/-- The code from `start` to `stop` pushes the value of an expression. -/
inductive ExprAt (task : Task) (env : Env) : Nat → Expr → Nat → Prop where
  | int {start : Nat} {literal : Token} {value : Int32} (hi : task.At start .pushInt value) :
      ExprAt task env start (.int literal value) (start + 1)
  | bool {start : Nat} {literal : Token} {value : Bool}
      (hi : task.At start .pushInt (if value then 1 else 0)) :
      ExprAt task env start (.bool literal value) (start + 1)
  | str {start : Nat} {literal : Token} {arg : Int32} (hi : task.At start .pushStr arg)
      (ht : argument? task.strings arg = some (Bytes.ofString literal.lexeme)) :
      ExprAt task env start (.str literal) (start + 1)
  | var {start : Nat} {name : Token} {v : Variable}
      (hv : env.function.lookup? name.lexeme = some v)
      (hi : task.At start .loadLocal (index v.slot)) :
      ExprAt task env start (.var name) (start + 1)
  | operation {start mid stop : Nat} {op : BinaryOp} {opcode : Opcode} {left right : Expr}
      (hop : strategy op = .operation opcode) (hl : ExprAt task env start left mid)
      (hr : ExprAt task env mid right stop) (hi : task.At stop opcode 0) :
      ExprAt task env start (.binary op left right) (stop + 1)
  | both {start mid no : Nat} {op : BinaryOp} {left right : Expr} {argNo argEnd : Int32}
      (hop : strategy op = .both) (hl : ExprAt task env start left mid)
      (hz : task.At mid .branchZero argNo) (hno : target? task argNo = some (no + 1))
      (hr : ExprAt task env (mid + 1) right no) (hb : task.At no .branch argEnd)
      (hend : target? task argEnd = some (no + 2)) (hi : task.At (no + 1) .pushInt 0) :
      ExprAt task env start (.binary op left right) (no + 2)
  | either {start mid stop : Nat} {op : BinaryOp} {left right : Expr} {argRight argEnd : Int32}
      (hop : strategy op = .either) (hl : ExprAt task env start left mid)
      (hz : task.At mid .branchZero argRight) (hright : target? task argRight = some (mid + 3))
      (hi : task.At (mid + 1) .pushInt 1) (hb : task.At (mid + 2) .branch argEnd)
      (hend : target? task argEnd = some stop) (hr : ExprAt task env (mid + 3) right stop) :
      ExprAt task env start (.binary op left right) stop
  | call {start stop i entry : Nat} {first : Token} {callee : String} {args : List Expr}
      {f : Symbols.Function} {arg : Int32} (hf : env.table.find? callee = some f)
      (ha : ExprsAt task env start args stop) (hi : task.At stop .call arg) (harg : arg.toInt = i)
      (hord : env.order[i]? = some f) (hfun : task.functions[i]? = some (describe f entry))
      (hentry : entry < task.code.size) :
      ExprAt task env start (.call first callee args) (stop + 1)

/-- The code from `start` to `stop` pushes the values of expressions, left to right. -/
inductive ExprsAt (task : Task) (env : Env) : Nat → List Expr → Nat → Prop where
  | nil {start : Nat} : ExprsAt task env start [] start
  | cons {start mid stop : Nat} {e : Expr} {es : List Expr} (he : ExprAt task env start e mid)
      (hes : ExprsAt task env mid es stop) : ExprsAt task env start (e :: es) stop

end

mutual

/-- The code from `start` to `stop` runs a statement. -/
inductive StmtAt (task : Task) (env : Env) : Bool → Nat → Stmt → Nat → Prop where
  /-- the last `return` of a function that is alone runs to the end of the code -/
  | retAlone {start stop : Nat} {first : Token} {value : Expr} (halone : env.isAlone = true)
      (he : ExprAt task env start value stop) : StmtAt task env true start (.ret first value) stop
  | ret {final : Bool} {start stop : Nat} {first : Token} {value : Expr}
      (hnot : (final && env.isAlone) = false) (he : ExprAt task env start value stop)
      (hi : task.At stop .ret (if env.function.returns = .void then 0 else 1)) :
      StmtAt task env final start (.ret first value) (stop + 1)
  | cond {final : Bool} {start mid stop : Nat} {first brace : Token} {test : Expr}
      {body : List Stmt} {arg : Int32} (ht : ExprAt task env start test mid)
      (hz : task.At mid .branchZero arg) (hto : target? task arg = some stop)
      (hb : StmtsAt task env false (mid + 1) body stop) :
      StmtAt task env final start (.cond first test brace body) stop
  | assign {final : Bool} {start stop : Nat} {target : Token} {value : Expr} {v : Variable}
      (hv : env.function.lookup? target.lexeme = some v) (he : ExprAt task env start value stop)
      (hi : task.At stop .storeLocal (index v.slot)) :
      StmtAt task env final start (.assign target value) (stop + 1)
  | print {final : Bool} {start stop : Nat} {first : Token} {args : List Expr} {arg : Int32}
      (ha : ExprsAt task env start args stop) (hi : task.At stop .print arg)
      (harg : arg.toInt = args.length) : StmtAt task env final start (.print first args) (stop + 1)
  | decl {final : Bool} {start stop : Nat} {first : Token} {param : Param} {value : Expr}
      {v : Variable} (hv : env.function.lookup? param.name.lexeme = some v)
      (he : ExprAt task env start value stop) (hi : task.At stop .storeLocal (index v.slot)) :
      StmtAt task env final start (.decl first param value) (stop + 1)
  /-- a result that nobody wants is dropped -/
  | callPop {final : Bool} {start stop : Nat} {first : Token} {callee : String}
      {args : List Expr} (hres : leavesResult env callee = true)
      (he : ExprAt task env start (.call first callee args) stop) (hi : task.At stop .pop 0) :
      StmtAt task env final start (.call first callee args) (stop + 1)
  | call {final : Bool} {start stop : Nat} {first : Token} {callee : String} {args : List Expr}
      (hres : leavesResult env callee = false)
      (he : ExprAt task env start (.call first callee args) stop) :
      StmtAt task env final start (.call first callee args) stop

/-- The code from `start` to `stop` runs statements; `final` says that the last of them is the last
of a function's body. -/
inductive StmtsAt (task : Task) (env : Env) : Bool → Nat → List Stmt → Nat → Prop where
  | nil {final : Bool} {start : Nat} : StmtsAt task env final start [] start
  | cons {final : Bool} {start mid stop : Nat} {s : Stmt} {ss : List Stmt}
      (hs : StmtAt task env (final && ss.isEmpty) start s mid)
      (hss : StmtsAt task env final mid ss stop) : StmtsAt task env final start (s :: ss) stop

end

/-! ## Sizes -/

mutual

/-- Number of instructions that compute an expression. -/
def exprSize : Expr → Nat
  | .int _ _ | .bool _ _ | .str _ | .var _ => 1
  | .binary op left right =>
    match strategy op with
    | .operation _ => exprSize left + exprSize right + 1
    | .both | .either => exprSize left + exprSize right + 3
  | .call _ _ args => exprsSize args + 1

/-- Number of instructions that compute expressions. -/
def exprsSize : List Expr → Nat
  | [] => 0
  | e :: es => exprSize e + exprsSize es

end

mutual

/-- Number of instructions that run a statement. -/
def stmtSize (env : Env) (final : Bool) : Stmt → Nat
  | .ret _ value => exprSize value + if final && env.isAlone then 0 else 1
  | .cond _ test _ body => exprSize test + 1 + stmtsSize env false body
  | .assign _ value | .decl _ _ value => exprSize value + 1
  | .print _ args => exprsSize args + 1
  | .call first callee args =>
    exprSize (.call first callee args) + if leavesResult env callee then 1 else 0

/-- Number of instructions that run statements. -/
def stmtsSize (env : Env) (final : Bool) : List Stmt → Nat
  | [] => 0
  | s :: ss => stmtSize env (final && ss.isEmpty) s + stmtsSize env final ss

end

/-- Every expression has an instruction. -/
theorem exprSize_pos (e : Expr) : 0 < exprSize e := by
  cases e with
  | binary op left right =>
    rw [exprSize]
    split <;> omega
  | _ =>
    rw [exprSize]
    omega

/-- There are at least as many instructions as expressions. -/
theorem length_le_exprsSize (es : List Expr) : es.length ≤ exprsSize es := by
  induction es with
  | nil => exact Nat.le_refl 0
  | cons e es ih =>
    have := exprSize_pos e
    rw [List.length_cons, exprsSize]
    omega

section Sizes

variable {task : Task} {env : Env}

/-- The case of arguments in the induction for `ExprAt.stop_eq`. -/
theorem ExprsAt.stop_eq_of {es : List Expr}
    (h : ∀ e ∈ es, ∀ {start stop}, ExprAt task env start e stop → stop = start + exprSize e)
    {start stop : Nat} (hes : ExprsAt task env start es stop) : stop = start + exprsSize es := by
  induction es generalizing start with
  | nil =>
    cases hes
    rfl
  | cons e es ih =>
    cases hes with
    | cons he hes =>
      have h₁ := h e (by simp) he
      have h₂ := ih (fun e' he' => h e' (by simp [he'])) hes
      rw [exprsSize]
      omega

/-- Where the code of an expression ends is known from the expression. -/
theorem ExprAt.stop_eq {e : Expr} {start stop : Nat} (h : ExprAt task env start e stop) :
    stop = start + exprSize e := by
  induction e using Expr.induction generalizing start stop with
  | int | bool | str | var =>
    cases h
    rw [exprSize]
  | binary op left right ihl ihr =>
    cases h with
    | operation hop hl hr | both hop hl _ _ hr | either hop hl _ _ _ _ _ hr =>
      have := ihl hl
      have := ihr hr
      simp only [exprSize, hop]
      omega
  | call first callee args ih =>
    cases h with
    | call _ ha =>
      have := ha.stop_eq_of ih
      rw [exprSize]
      omega

theorem ExprsAt.stop_eq {es : List Expr} {start stop : Nat}
    (h : ExprsAt task env start es stop) : stop = start + exprsSize es :=
  h.stop_eq_of fun _ _ _ _ he => he.stop_eq

/-- The case of a block in the induction for `StmtAt.stop_eq`. -/
theorem StmtsAt.stop_eq_of {ss : List Stmt}
    (h : ∀ s ∈ ss, ∀ {final start stop}, StmtAt task env final start s stop →
      stop = start + stmtSize env final s)
    {final : Bool} {start stop : Nat} (hss : StmtsAt task env final start ss stop) :
    stop = start + stmtsSize env final ss := by
  induction ss generalizing start with
  | nil =>
    cases hss
    rfl
  | cons s ss ih =>
    cases hss with
    | cons hs hss =>
      have h₁ := h s (by simp) hs
      have h₂ := ih (fun s' hs' => h s' (by simp [hs'])) hss
      rw [stmtsSize]
      omega

/-- Where the code of a statement ends is known from the statement. -/
theorem StmtAt.stop_eq {s : Stmt} {final : Bool} {start stop : Nat}
    (h : StmtAt task env final start s stop) : stop = start + stmtSize env final s := by
  induction s using Stmt.induction generalizing final start stop with
  | ret first value =>
    cases h with
    | retAlone halone he => simp [stmtSize, halone, he.stop_eq]
    | ret hnot he =>
      have := he.stop_eq
      simp [stmtSize, hnot]
      omega
  | cond first test brace body ih =>
    cases h with
    | cond ht _ _ hb =>
      have := ht.stop_eq
      have := hb.stop_eq_of ih
      rw [stmtSize]
      omega
  | assign target value =>
    cases h with
    | assign _ he =>
      have := he.stop_eq
      rw [stmtSize]
      omega
  | print first args =>
    cases h with
    | print ha =>
      have := ha.stop_eq
      rw [stmtSize]
      omega
  | decl first param value =>
    cases h with
    | decl _ he =>
      have := he.stop_eq
      rw [stmtSize]
      omega
  | call first callee args =>
    cases h with
    | callPop hres he | call hres he =>
      have := he.stop_eq
      simp [stmtSize, hres]
      omega

theorem StmtsAt.stop_eq {ss : List Stmt} {final : Bool} {start stop : Nat}
    (h : StmtsAt task env final start ss stop) : stop = start + stmtsSize env final ss :=
  h.stop_eq_of fun _ _ _ _ _ hs => hs.stop_eq

end Sizes

/-! ## Code in its place -/

/-- `Along R start ys`: the elements of `ys`, numbered from `start` on, are related to their
numbers. -/
def Along {α : Type} (R : Nat → α → Prop) (start : Nat) (ys : List α) : Prop :=
  ∀ k y, ys[k]? = some y → R (start + k) y

/-- `Lies xs start ys`: the list `ys` stands in `xs` from `start` on. -/
abbrev Lies {α : Type} (xs : Nat → Option α) (start : Nat) (ys : List α) : Prop :=
  Along (fun k y => xs k = some y) start ys

section Along

variable {α : Type} {R : Nat → α → Prop} {start : Nat} {y : α} {ys zs : List α}

theorem along_nil : Along R start [] := by
  intro k y h
  cases h

theorem along_cons : Along R start (y :: ys) ↔ R start y ∧ Along R (start + 1) ys := by
  refine ⟨?_, ?_⟩
  · intro h
    refine ⟨h 0 y rfl, ?_⟩
    intro k z hz
    rw [Nat.add_right_comm]
    exact h (k + 1) z hz
  · rintro ⟨hy, hys⟩ k z hz
    rcases k with _ | k
    · cases hz
      exact hy
    · rw [← Nat.add_assoc, Nat.add_right_comm]
      exact hys k z hz

/-- What holds along two lists holds along each, the second one shifted by the length of the first.
-/
theorem along_append :
    Along R start (ys ++ zs) ↔ Along R start ys ∧ Along R (start + ys.length) zs := by
  induction ys generalizing start with
  | nil => simp [along_nil]
  | cons y ys ih =>
    rw [List.cons_append, along_cons, along_cons, ih, and_assoc, List.length_cons,
      Nat.add_right_comm, Nat.add_assoc start]

/-- What holds along a list that is put together holds along each part, at the place where it
starts. -/
theorem along_flatten {yss : List (List α)} : Along R start yss.flatten ↔
    ∀ i ys, yss[i]? = some ys → Along R (start + (yss.take i).flatten.length) ys := by
  induction yss generalizing start with
  | nil => simp [along_nil]
  | cons zs yss ih =>
    rw [List.flatten_cons, along_append, ih]
    refine ⟨?_, ?_⟩
    · rintro ⟨hzs, hyss⟩ i ys hi
      rcases i with _ | i
      · cases hi
        simpa using hzs
      · simpa [Nat.add_assoc] using hyss i ys hi
    · intro h
      refine ⟨by simpa using h 0 zs rfl, ?_⟩
      intro i ys hi
      simpa [Nat.add_assoc] using h (i + 1) ys hi

/-- What stands in a list of lists stands where the lists before it end. -/
theorem lies_flatten {yss : List (List α)} {i : Nat} (h : yss[i]? = some ys) :
    Lies (fun k => yss.flatten[k]?) (yss.take i).flatten.length ys := by
  have hall : Lies (fun k => yss.flatten[k]?) 0 yss.flatten := by
    intro k y hy
    rwa [Nat.zero_add]
  simpa using along_flatten.mp hall i ys h

end Along

/-- What stands in an array ends within it. -/
theorem Lies.length_le {α : Type} {xs : Array α} {start : Nat} {ys : List α}
    (h : Lies (fun k => xs[k]?) start ys) (hne : ys ≠ []) : start + ys.length ≤ xs.size := by
  have hpos := List.length_pos_iff.mpr hne
  have hlast := h (ys.length - 1) _ (List.getElem?_eq_getElem (by omega))
  have := (Array.getElem?_eq_some_iff.mp hlast).1
  omega

theorem add_length_append_cons {α : Type} (start : Nat) (xs ys : List α) (x : α) :
    start + (xs ++ x :: ys).length = start + xs.length + 1 + ys.length := by
  simp only [List.length_append, List.length_cons]
  omega

/-! ## Arguments -/

/-- An operator that is emitted as one operation is emitted as one on two integers. -/
theorem mem_arithmeticOps {op : BinaryOp} {opcode : Opcode}
    (hop : strategy op = .operation opcode) : opcode ∈ Machine.arithmeticOps := by
  cases op <;> cases hop <;> decide

theorem eq_and_of_both {op : BinaryOp} (hop : strategy op = .both) : op = .and := by
  cases op <;> cases hop
  rfl

theorem eq_or_of_either {op : BinaryOp} (hop : strategy op = .either) : op = .or := by
  cases op <;> cases hop
  rfl

/-- Numbers below `2 ^ 31` survive as arguments of instructions. Here the size of the code comes in.
-/
theorem toInt_index {n : Nat} (h : n < 2 ^ 31) : (index n).toInt = n :=
  Int32.toInt_ofNat_of_lt h

/-- A branch to an address of the code goes there, if the code is not too long. -/
theorem target?_index {task : Task} {n : Nat} (hn : n ≤ task.code.size)
    (hsize : task.code.size < 2 ^ 31) : target? task (index n) = some n := by
  rw [target?, toInt_index (by omega), if_pos ⟨by omega, by omega⟩, Int.toNat_natCast]

/-- An entry of a table is found by its number, if the table is not too long. -/
theorem argument?_index {α : Type} {xs : Array α} {n : Nat} {x : α} (hx : xs[n]? = some x)
    (hsize : xs.size < 2 ^ 31) : argument? xs (index n) = some x := by
  obtain ⟨hlt, -⟩ := Array.getElem?_eq_some_iff.mp hx
  rw [Machine.argument?_natCast (toInt_index (by omega)), hx]

/-- Interning a text may append to the pool, never changes what is there, and gives the number under
which the text is found. -/
theorem intern_spec {pool pool' : Pool} {s : Bytes} {i : Nat} (h : pool.intern s = (i, pool')) :
    pool <+: pool' ∧ pool'[i]? = some s := by
  unfold Pool.intern at h
  split at h
  · next j hj =>
    cases h
    obtain ⟨hlt, hget, -⟩ := List.idxOf?_eq_some_iff.mp hj
    exact ⟨List.prefix_rfl, List.getElem?_eq_some_iff.mpr ⟨hlt, hget⟩⟩
  · cases h
    exact ⟨List.prefix_append _ _, by simp⟩

/-! ## From the emitter -/

/-- The limits within which 32-bit arguments name what they are meant to, and the function table
that calls rely on. -/
structure Linked (task : Task) (env : Env) : Prop where
  code : task.code.size < 2 ^ 31
  functions : task.functions.size < 2 ^ 31
  strings : task.strings.size < 2 ^ 31
  named : ∀ f ∈ env.order, env.table.find? f.name = some f
  /-- only the code of a function that is alone can be empty, and then it starts at 0 -/
  entries : ∀ {i : Nat} {f : Symbols.Function}, env.order[i]? = some f →
    ∃ entry, task.functions[i]? = some (describe f entry) ∧
      if env.isAlone then entry = 0 else entry < task.code.size

section Exprs

variable {task : Task} {env : Env}

/-- The two things that emitting gives: the pool grows, and where the code lies in a linked task
with that pool, it is the code of the part. -/
def Emits (task : Task) (env : Env) (start : Nat) (pool : Pool) (r : Emitted) (At : Nat → Prop) :
    Prop :=
  ∀ {code : List Instruction} {pool' : Pool}, r = .ok (code, pool') →
    pool <+: pool' ∧ (Linked task env → pool' <+: task.strings.toList →
      Lies (fun pc => task.code[pc]?) start code → At (start + code.length))

/-- The case of arguments in the induction for `emitExpr_exprAt`. -/
theorem emitExprs_exprsAt_of {es : List Expr}
    (h : ∀ e ∈ es, ∀ start pool, Emits task env start pool (emitExpr env start pool e)
      (ExprAt task env start e)) (start : Nat) (pool : Pool) :
    Emits task env start pool (emitExprs env start pool es) (ExprsAt task env start es) := by
  induction es generalizing start pool with
  | nil =>
    intro code pool' hok
    rw [emitExprs] at hok
    cases hok
    exact ⟨List.prefix_rfl, fun _ _ _ => .nil⟩
  | cons e es ih =>
    intro code pool' hok
    simp only [emitExprs, bind_eq_ok, pure_eq_ok] at hok
    obtain ⟨⟨code₁, pool₁⟩, h₁, ⟨code₂, pool₂⟩, h₂, heq⟩ := hok
    cases heq
    obtain ⟨hpool₁, hat₁⟩ := h e (by simp) start pool h₁
    obtain ⟨hpool₂, hat₂⟩ := ih (fun e' he => h e' (by simp [he])) _ pool₁ h₂
    refine ⟨hpool₁.trans hpool₂, ?_⟩
    intro hl hpool hlies
    obtain ⟨hlies₁, hlies₂⟩ := along_append.mp hlies
    rw [List.length_append, ← Nat.add_assoc]
    exact .cons (hat₁ hl (hpool₂.trans hpool) hlies₁) (hat₂ hl hpool hlies₂)

/-- The code of an operator. Operations are behind both operands; `and` and `or` have branches
between them, to addresses that are known only after the right operand was emitted. -/
theorem emitBinary_exprAt {op : BinaryOp} {left right : Expr}
    (ihl : ∀ start pool, Emits task env start pool (emitExpr env start pool left)
      (ExprAt task env start left))
    (ihr : ∀ start pool, Emits task env start pool (emitExpr env start pool right)
      (ExprAt task env start right)) (start : Nat) (pool : Pool) :
    Emits task env start pool (emitExpr env start pool (.binary op left right))
      (ExprAt task env start (.binary op left right)) := by
  intro code pool' hok
  simp only [emitExpr, bind_eq_ok] at hok
  obtain ⟨-, -, ⟨l, pool₁⟩, hleft, hok⟩ := hok
  obtain ⟨hpool₁, hatl⟩ := ihl start pool hleft
  rcases hop : strategy op with opcode | _ | _ <;>
    simp only [hop, bind_eq_ok, pure_eq_ok] at hok <;>
    obtain ⟨⟨r, pool₂⟩, hright, heq⟩ := hok <;> cases heq
  · obtain ⟨hpool₂, hatr⟩ := ihr (start + l.length) pool₁ hright
    refine ⟨hpool₁.trans hpool₂, fun hl hpool hlies => ?_⟩
    simp only [along_append, along_cons] at hlies
    obtain ⟨⟨hll, hlr⟩, hi, -⟩ := hlies
    have hright := hatr hl hpool hlr
    rw [Nat.add_assoc, ← List.length_append] at hright
    simp only [List.length_append, List.length_singleton, ← Nat.add_assoc] at hright hi ⊢
    exact .operation hop (hatl hl (hpool₂.trans hpool) hll) hright hi
  · obtain ⟨hpool₂, hatr⟩ := ihr (start + l.length + 1) pool₁ hright
    refine ⟨hpool₁.trans hpool₂, fun hl hpool hlies => ?_⟩
    simp only [along_append, along_cons, add_length_append_cons] at hlies
    obtain ⟨⟨hll, hz, hlr⟩, hb, hi, -⟩ := hlies
    -- both jumps go to the end of the right operand's code or one past it: `hi` bounds them
    have hsize := Machine.Task.At.lt_size hi
    have hat := ExprAt.both hop (hatl hl (hpool₂.trans hpool) hll) hz
      (target?_index (by omega) hl.code) (hatr hl hpool hlr) hb
      (target?_index (by omega) hl.code) hi
    rwa [List.length_append, ← Nat.add_assoc, add_length_append_cons]
  · obtain ⟨hpool₂, hatr⟩ := ihr (start + l.length + 3) pool₁ hright
    refine ⟨hpool₁.trans hpool₂, fun hl hpool hlies => ?_⟩
    have hlen : ∀ i j k : Instruction,
        start + (l ++ [i, j, k]).length = start + l.length + 3 := by
      intro i j k
      simp [Nat.add_assoc]
    -- the second jump skips the right operand, which may end the code
    have hsize := hlies.length_le (by simp)
    rw [List.length_append, ← Nat.add_assoc, hlen] at hsize
    simp only [along_append, along_cons, hlen] at hlies
    obtain ⟨⟨hll, hz, hi, hb, -⟩, hlr⟩ := hlies
    have hat := ExprAt.either hop (hatl hl (hpool₂.trans hpool) hll) hz
      (target?_index (by omega) hl.code) hi hb (target?_index hsize hl.code) (hatr hl hpool hlr)
    rwa [List.length_append, ← Nat.add_assoc, hlen]

/-- The function that a call's argument names has an entry inside the code. -/
theorem Linked.callee (hl : Linked task env) {callee : String} {i pc : Nat} {ins : Instruction}
    (hidx : env.order.findIdx? (fun f => f.name == callee) = some i)
    (hi : task.code[pc]? = some ins) :
    ∃ f entry, env.table.find? callee = some f ∧ (index i).toInt = i ∧ env.order[i]? = some f ∧
      task.functions[i]? = some (describe f entry) ∧ entry < task.code.size := by
  obtain ⟨hlt, hname, -⟩ := List.findIdx?_eq_some_iff_getElem.mp hidx
  have hget : env.order[i]? = some env.order[i] := List.getElem?_eq_getElem hlt
  have hfind := hl.named _ (List.mem_of_getElem? hget)
  rw [beq_iff_eq.mp hname] at hfind
  obtain ⟨entry, hfun, hentry⟩ := hl.entries hget
  have hbound := hl.functions
  have hi' := (Array.getElem?_eq_some_iff.mp hfun).1
  refine ⟨_, entry, hfind, toInt_index (by omega), hget, hfun, ?_⟩
  -- a function that is alone starts at 0, and the call itself shows that there is code
  have hsize := (Array.getElem?_eq_some_iff.mp hi).1
  split at hentry <;> omega

/-- The code of a call is behind that of its arguments. -/
theorem emitCall_exprAt {first : Token} {callee : String} {args : List Expr}
    (ih : ∀ e ∈ args, ∀ start pool, Emits task env start pool (emitExpr env start pool e)
      (ExprAt task env start e)) (start : Nat) (pool : Pool) :
    Emits task env start pool (emitExpr env start pool (.call first callee args))
      (ExprAt task env start (.call first callee args)) := by
  intro code pool' hok
  simp only [emitExpr, bind_eq_ok] at hok
  obtain ⟨⟨as, pool₁⟩, hargs, hok⟩ := hok
  obtain ⟨hpool₁, hat⟩ := emitExprs_exprsAt_of ih start pool hargs
  rcases hidx : env.order.findIdx? (fun f => f.name == callee) with _ | i <;>
    simp only [hidx] at hok <;> cases hok
  refine ⟨hpool₁, fun hl hpool hlies => ?_⟩
  simp only [along_append, along_cons] at hlies
  obtain ⟨hla, hi, -⟩ := hlies
  obtain ⟨f, entry, hfind, hint, hget, hfun, hentry⟩ := hl.callee hidx hi
  rw [List.length_append, ← Nat.add_assoc]
  exact .call hfind (hat hl hpool hla) hi hint hget hfun hentry

/-- **The emitter's code for an expression** is the code of that expression. -/
theorem emitExpr_exprAt (e : Expr) (start : Nat) (pool : Pool) :
    Emits task env start pool (emitExpr env start pool e) (ExprAt task env start e) := by
  induction e using Expr.induction generalizing start pool with
  | int literal value =>
    intro code pool' hok
    rw [emitExpr] at hok
    cases hok
    refine ⟨List.prefix_rfl, fun _ _ hlies => ?_⟩
    exact .int (along_cons.mp hlies).1
  | bool literal value =>
    intro code pool' hok
    rw [emitExpr] at hok
    cases hok
    refine ⟨List.prefix_rfl, fun _ _ hlies => ?_⟩
    exact .bool (along_cons.mp hlies).1
  | str literal =>
    intro code pool' hok
    rw [emitExpr] at hok
    rcases hi : pool.intern (Bytes.ofString literal.lexeme) with ⟨i, pool₁⟩
    rw [hi] at hok
    cases hok
    obtain ⟨hpre, hget⟩ := intern_spec hi
    refine ⟨hpre, fun hl hpool hlies => ?_⟩
    refine .str (along_cons.mp hlies).1 (argument?_index ?_ hl.strings)
    obtain ⟨hlt, htext⟩ := List.getElem?_eq_some_iff.mp hget
    rw [← Array.getElem?_toList, ← htext]
    exact List.prefix_iff_getElem?.mp hpool i hlt
  | var name =>
    intro code pool' hok
    rw [emitExpr] at hok
    split at hok
    · next v hv =>
      cases hok
      refine ⟨List.prefix_rfl, fun _ _ hlies => ?_⟩
      exact .var hv (along_cons.mp hlies).1
    · cases hok
  | binary op left right ihl ihr =>
    intro code pool' hok
    exact emitBinary_exprAt ihl ihr start pool hok
  | call first callee args ih =>
    intro code pool' hok
    exact emitCall_exprAt ih start pool hok

/-- The code of several expressions is laid out one behind the other. -/
theorem emitExprs_exprsAt (es : List Expr) (start : Nat) (pool : Pool) :
    Emits task env start pool (emitExprs env start pool es) (ExprsAt task env start es) :=
  emitExprs_exprsAt_of (fun e _ => emitExpr_exprAt e) start pool

end Exprs

section Stmts

variable {task : Task} {env : Env}

/-- The code for storing a value is behind that of the value. -/
theorem emitStore_at {place : Position} {name : String} {value : Expr}
    (start : Nat) (pool : Pool) :
    Emits task env start pool (emitStore env start pool place name value) fun stop =>
      ∃ v mid, env.function.lookup? name = some v ∧ ExprAt task env start value mid ∧
        task.At mid .storeLocal (index v.slot) ∧ stop = mid + 1 := by
  intro code pool' hok
  unfold emitStore at hok
  split at hok
  · cases hok
  · next v hv =>
    simp only [bind_eq_ok, pure_eq_ok] at hok
    obtain ⟨⟨code₁, pool₁⟩, h₁, heq⟩ := hok
    cases heq
    obtain ⟨hpool₁, hat⟩ := emitExpr_exprAt value start pool h₁
    refine ⟨hpool₁, fun hl hpool hlies => ?_⟩
    simp only [along_append, along_cons] at hlies
    obtain ⟨hlv, hi, -⟩ := hlies
    exact ⟨v, _, hv, hat hl hpool hlv, hi, by rw [List.length_append, ← Nat.add_assoc]; rfl⟩

/-- The case of a block in the induction for `emitStmt_stmtAt`. -/
theorem emitStmts_stmtsAt_of {ss : List Stmt}
    (h : ∀ s ∈ ss, ∀ final start pool, Emits task env start pool (emitStmt env final start pool s)
      (StmtAt task env final start s)) (final : Bool) (start : Nat) (pool : Pool) :
    Emits task env start pool (emitStmts env final start pool ss)
      (StmtsAt task env final start ss) := by
  induction ss generalizing start pool with
  | nil =>
    intro code pool' hok
    rw [emitStmts] at hok
    cases hok
    exact ⟨List.prefix_rfl, fun _ _ _ => .nil⟩
  | cons s ss ih =>
    intro code pool' hok
    simp only [emitStmts, bind_eq_ok, pure_eq_ok] at hok
    obtain ⟨⟨code₁, pool₁⟩, h₁, ⟨code₂, pool₂⟩, h₂, heq⟩ := hok
    cases heq
    obtain ⟨hpool₁, hat₁⟩ := h s (by simp) _ start pool h₁
    obtain ⟨hpool₂, hat₂⟩ := ih (fun s' hs => h s' (by simp [hs])) _ pool₁ h₂
    refine ⟨hpool₁.trans hpool₂, ?_⟩
    intro hl hpool hlies
    obtain ⟨hlies₁, hlies₂⟩ := along_append.mp hlies
    rw [List.length_append, ← Nat.add_assoc]
    exact .cons (hat₁ hl (hpool₂.trans hpool) hlies₁) (hat₂ hl hpool hlies₂)

/-- **The emitter's code for a statement** is the code of that statement. -/
theorem emitStmt_stmtAt (s : Stmt) (final : Bool) (start : Nat)
    (pool : Pool) : Emits task env start pool (emitStmt env final start pool s)
      (StmtAt task env final start s) := by
  induction s using Stmt.induction generalizing final start pool with
  | ret first value =>
    intro code pool' hok
    simp only [emitStmt, bind_eq_ok] at hok
    obtain ⟨⟨code₁, pool₁⟩, h₁, hok⟩ := hok
    obtain ⟨hpool₁, hat⟩ := emitExpr_exprAt value start pool h₁
    rcases hfin : final && env.isAlone with _ | _ <;> simp only [hfin] at hok <;> cases hok
    · refine ⟨hpool₁, fun hl hpool hlies => ?_⟩
      simp only [along_append, along_cons] at hlies
      obtain ⟨hlv, hi, -⟩ := hlies
      rw [List.length_append, ← Nat.add_assoc]
      exact .ret hfin (hat hl hpool hlv) hi
    · refine ⟨hpool₁, fun hl hpool hlies => ?_⟩
      obtain ⟨rfl, halone⟩ := Bool.and_eq_true_iff.mp hfin
      exact .retAlone halone (hat hl hpool hlies)
  | cond first test brace body ih =>
    intro code pool' hok
    simp only [emitStmt, bind_eq_ok, pure_eq_ok] at hok
    obtain ⟨⟨t, pool₁⟩, h₁, ⟨b, pool₂⟩, h₂, heq⟩ := hok
    cases heq
    obtain ⟨hpool₁, hatt⟩ := emitExpr_exprAt test start pool h₁
    obtain ⟨hpool₂, hatb⟩ := emitStmts_stmtsAt_of ih false _ pool₁ h₂
    refine ⟨hpool₁.trans hpool₂, fun hl hpool hlies => ?_⟩
    have hsize := hlies.length_le (by simp)
    simp only [along_append, along_cons] at hlies
    obtain ⟨hlt, hz, hlb⟩ := hlies
    rw [add_length_append_cons] at hsize ⊢
    exact .cond (hatt hl (hpool₂.trans hpool) hlt) hz (target?_index hsize hl.code)
      (hatb hl hpool hlb)
  | assign target value =>
    intro code pool' hok
    rw [emitStmt] at hok
    obtain ⟨hpool', hat⟩ := emitStore_at start pool hok
    refine ⟨hpool', fun hl hpool hlies => ?_⟩
    obtain ⟨v, mid, hv, he, hi, hstop⟩ := hat hl hpool hlies
    exact hstop ▸ .assign hv he hi
  | print first args =>
    intro code pool' hok
    simp only [emitStmt, bind_eq_ok, pure_eq_ok] at hok
    obtain ⟨⟨as, pool₁⟩, h₁, heq⟩ := hok
    cases heq
    obtain ⟨hpool₁, hat⟩ := emitExprs_exprsAt args start pool h₁
    refine ⟨hpool₁, fun hl hpool hlies => ?_⟩
    simp only [along_append, along_cons] at hlies
    obtain ⟨hla, hi, -⟩ := hlies
    have hargs := hat hl hpool hla
    -- every argument takes an instruction, so their number is an address too
    have hstop := hargs.stop_eq
    have hle := length_le_exprsSize args
    have hsize := Machine.Task.At.lt_size hi
    have hcode := hl.code
    rw [List.length_append, ← Nat.add_assoc]
    exact .print hargs hi (toInt_index (by omega))
  | decl first param value =>
    intro code pool' hok
    rw [emitStmt] at hok
    obtain ⟨hpool', hat⟩ := emitStore_at start pool hok
    refine ⟨hpool', fun hl hpool hlies => ?_⟩
    obtain ⟨v, mid, hv, he, hi, hstop⟩ := hat hl hpool hlies
    exact hstop ▸ .decl hv he hi
  | call first callee args =>
    intro code pool' hok
    simp only [emitStmt, bind_eq_ok, pure_eq_ok] at hok
    obtain ⟨⟨c, pool₁⟩, h₁, heq⟩ := hok
    cases heq
    obtain ⟨hpool₁, hat⟩ := emitExpr_exprAt _ start pool h₁
    refine ⟨hpool₁, fun hl hpool hlies => ?_⟩
    rcases hres : leavesResult env callee with _ | _
    · simp only [hres, Bool.false_eq_true, if_false, List.append_nil] at hlies ⊢
      exact .call hres (hat hl hpool hlies)
    · simp only [hres, if_true, along_append, along_cons] at hlies ⊢
      obtain ⟨hlc, hi, -⟩ := hlies
      rw [List.length_append, ← Nat.add_assoc]
      exact .callPop hres (hat hl hpool hlc) hi

/-- The code of several statements is laid out one behind the other. -/
theorem emitStmts_stmtsAt (ss : List Stmt) (final : Bool) (start : Nat)
    (pool : Pool) : Emits task env start pool (emitStmts env final start pool ss)
      (StmtsAt task env final start ss) :=
  emitStmts_stmtsAt_of (fun s _ => emitStmt_stmtAt s) final start pool

/-- Emitting statements only appends to the pool. -/
theorem emitStmts_pool {ss : List Stmt} {final : Bool} {start : Nat} {pool pool' : Pool}
    {code : List Instruction} (h : emitStmts env final start pool ss = .ok (code, pool')) :
    pool <+: pool' :=
  (@emitStmts_stmtsAt ⟨#[], #[], #[]⟩ env ss final start pool _ _ h).1

end Stmts

end Stackling.Code
