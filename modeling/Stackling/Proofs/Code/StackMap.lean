import Stackling.Proofs.Code.Program
import Stackling.Proofs.Value

/-!
# The types on the stack

For every instruction of a laid out program, the types of the values that its frame has on the
stack when the instruction is about to be executed: first the slots of the function, then what has
been pushed since. A `Spot` says whose frame it is and gives the types; the spots of a program are
a list that is parallel to its code, computed from the tree.

`Rule` is what has to hold at one instruction: its operands are there, with their types, and the
spot of wherever it leads has the types that it leaves. `spots_checked` says that every spot of an
accepted program obeys its rule, and that the code of every expression leads from the spot where it
starts to one with the value of that expression on top.
-/

namespace Stackling.Code

open Stackling.Tree Stackling.Symbols Stackling.Typing
open Machine (Task argument? target?)

/-! ## Expressions and their places -/

/-- An expression of a program, with the function it belongs to and the address of its code. -/
structure Part where
  function : Symbols.Function
  start : Nat
  expr : Expr

/-- The address at which its code has left its value. -/
def Part.stop (p : Part) : Nat := p.start + exprSize p.expr

/-- Number of instructions between the code of two operands. -/
def gap (op : BinaryOp) : Nat :=
  match strategy op with
  | .operation _ => 0
  | .both => 1
  | .either => 3

mutual

/-- An expression and those inside it. -/
def exprParts (f : Symbols.Function) (start : Nat) : Expr → List Part
  | .binary op left right => ⟨f, start, .binary op left right⟩ ::
      (exprParts f start left ++ exprParts f (start + exprSize left + gap op) right)
  | .call first callee args => ⟨f, start, .call first callee args⟩ :: exprsParts f start args
  | .int literal value => [⟨f, start, .int literal value⟩]
  | .bool literal value => [⟨f, start, .bool literal value⟩]
  | .str literal => [⟨f, start, .str literal⟩]
  | .var name => [⟨f, start, .var name⟩]

/-- The expressions inside expressions that are computed one after the other. -/
def exprsParts (f : Symbols.Function) (start : Nat) : List Expr → List Part
  | [] => []
  | e :: es => exprParts f start e ++ exprsParts f (start + exprSize e) es

end

mutual

/-- The expressions of a statement. -/
def stmtParts (env : Env) (start : Nat) : Stmt → List Part
  | .ret _ value | .assign _ value | .decl _ _ value => exprParts env.function start value
  | .cond _ test _ body => exprParts env.function start test ++
      stmtsParts env (start + exprSize test + 1) body
  | .print _ args => exprsParts env.function start args
  | .call first callee args => exprParts env.function start (.call first callee args)

/-- The expressions of statements. -/
def stmtsParts (env : Env) (start : Nat) : List Stmt → List Part
  | [] => []
  | s :: ss => stmtParts env start s ++ stmtsParts env (start + stmtSize env false s) ss

end

/-- The expressions of the functions that are laid out. -/
def programParts (t : Table) (order : List Symbols.Function) : List Part :=
  order.zipIdx.flatMap fun (g, i) =>
    stmtsParts ⟨t, order, g⟩ (entryOf t order i + g.localCount) g.decl.body

/-! ## Spots -/

/-- What is on the stack of a frame: the function it belongs to, and the types of its values,
bottom first. -/
structure Spot where
  function : Symbols.Function
  types : List Ty

/-- The types of what an expression of this type leaves on the stack. -/
def results (ty : Ty) : List Ty := if ty = .void then [] else [ty]

/-- A call leaves one value if its function returns one. -/
theorem results_of_ne_void {ty : Ty} (h : ty ≠ .void) : results ty = [ty] := if_neg h

/-- What a call leaves tells its type. -/
theorem eq_of_results {ty ty' : Ty} (h : results ty = [ty']) : ty = ty' := by
  unfold results at h
  split at h <;> cases h
  rfl

/-- The type of an expression, as far as it can be seen from its outermost part. -/
def outerType (env : Env) : Expr → Ty
  | .int _ _ => .int
  | .bool _ _ => .bool
  | .str _ => .string
  | .var name => (env.function.lookup? name.lexeme).elim .void (·.type)
  | .binary op _ _ => op.resultTy
  | .call _ callee _ => (env.table.find? callee).elim .void (·.returns)

/-- The type that the code generator takes an expression to have is the one that the rules give it.
-/
theorem outerType_eq {env : Env} {e : Expr} {ty : Ty}
    (h : HasType ⟨env.table, env.function⟩ e ty) : outerType env e = ty := by
  cases e with
  | binary op left right => exact (hasType_binary_iff.mp h).2.2
  | int | bool | str =>
    cases h
    rfl
  | var =>
    cases h with
    | var hv => rw [outerType, hv, Option.elim]
  | call =>
    cases h with
    | call hf => rw [outerType, hf, Option.elim]

/-- The types of the variables of a function, by slot. -/
def slotTypes (f : Symbols.Function) : List Ty := f.vars.map (·.type)

/-- What is on the stack of the function whose code this is. -/
def Env.spot (env : Env) (types : List Ty) : Spot := ⟨env.function, types⟩

/-- The types of the values that expressions push. -/
def pushedTypes (env : Env) (es : List Expr) : List Ty :=
  es.flatMap fun e => results (outerType env e)

mutual

/-- The spots of the code of an expression that starts with `types` on the stack. -/
def exprSpots (env : Env) (types : List Ty) : Expr → List Spot
  | .int _ _ | .bool _ _ | .str _ | .var _ => [env.spot types]
  | .binary op left right =>
    match strategy op with
    | .operation _ => exprSpots env types left ++
        (exprSpots env (types ++ [.int]) right ++ [env.spot (types ++ [.int, .int])])
    | .both => exprSpots env types left ++ env.spot (types ++ [.bool]) ::
        (exprSpots env types right ++ [env.spot (types ++ [.bool]), env.spot types])
    | .either => exprSpots env types left ++ env.spot (types ++ [.bool]) :: env.spot types ::
        env.spot (types ++ [.bool]) :: exprSpots env types right
  | .call _ _ args => exprsSpots env types args ++ [env.spot (types ++ pushedTypes env args)]

/-- The spots of the code of expressions. -/
def exprsSpots (env : Env) (types : List Ty) : List Expr → List Spot
  | [] => []
  | e :: es => exprSpots env types e ++ exprsSpots env (types ++ results (outerType env e)) es

end

mutual

/-- The spots of the code of a statement. -/
def stmtSpots (env : Env) (final : Bool) : Stmt → List Spot
  | .ret _ value => exprSpots env (slotTypes env.function) value ++
      if final && env.isAlone then []
      else [env.spot (slotTypes env.function ++ results (outerType env value))]
  | .cond _ test _ body => exprSpots env (slotTypes env.function) test ++
      env.spot (slotTypes env.function ++ [.bool]) :: stmtsSpots env false body
  | .assign _ value | .decl _ _ value => exprSpots env (slotTypes env.function) value ++
      [env.spot (slotTypes env.function ++ results (outerType env value))]
  | .print _ args => exprsSpots env (slotTypes env.function) args ++
      [env.spot (slotTypes env.function ++ pushedTypes env args)]
  | .call first callee args =>
    exprSpots env (slotTypes env.function) (.call first callee args) ++
      if leavesResult env callee then
        [env.spot (slotTypes env.function ++ results (outerType env (.call first callee args)))]
      else []

/-- The spots of the code of statements. -/
def stmtsSpots (env : Env) (final : Bool) : List Stmt → List Spot
  | [] => []
  | s :: ss => stmtSpots env (final && ss.isEmpty) s ++ stmtsSpots env final ss

end

/-- What is on the stack when the code of statements has come to its end; nothing is known if the
last of them returns. -/
def exitTypes (env : Env) (final : Bool) (ss : List Stmt) : Option (List Ty) :=
  match ss.getLast? with
  | some (.ret _ value) =>
    if final && env.isAlone then some (slotTypes env.function ++ results (outerType env value))
    else none
  | _ => some (slotTypes env.function)

/-- The spots of the code of a function. Its first instructions push the local variables. -/
def functionSpots (env : Env) : List Spot :=
  (List.range env.function.localCount).map (fun k =>
      env.spot ((slotTypes env.function).take (env.function.params.length + k))) ++
    stmtsSpots env true env.function.decl.body ++
    if env.function.decl.endsInReturn || env.isAlone then []
    else [env.spot (slotTypes env.function)]

/-- The spot at the end of the code, where only a function that is alone arrives. -/
def endSpots (t : Table) : List Symbols.Function → List Spot
  | [f] => [⟨f, (exitTypes ⟨t, [f], f⟩ true f.decl.body).getD (slotTypes f)⟩]
  | _ => []

/-- The spots of a program. -/
def programSpots (t : Table) (order : List Symbols.Function) : List Spot :=
  (order.map (fun g => functionSpots ⟨t, order, g⟩) ++ [endSpots t order]).flatten

/-! ## Spots and code are parallel -/

/-- The case of arguments in the induction for `length_exprSpots`. -/
theorem length_exprsSpots_of {env : Env} {es : List Expr}
    (h : ∀ e ∈ es, ∀ types, (exprSpots env types e).length = exprSize e) (types : List Ty) :
    (exprsSpots env types es).length = exprsSize es := by
  induction es generalizing types with
  | nil => rfl
  | cons e es ih =>
    rw [exprsSpots, exprsSize, List.length_append, h e (by simp),
      ih fun e' he => h e' (by simp [he])]

/-- An expression has as many spots as instructions. So a spot is said for every instruction, and
the spots of what comes next start where they should. -/
theorem length_exprSpots {env : Env} (e : Expr) (types : List Ty) :
    (exprSpots env types e).length = exprSize e := by
  induction e using Expr.induction generalizing types with
  | int | bool | str | var =>
    rw [exprSpots, exprSize]
    rfl
  | binary op left right ihl ihr =>
    rcases hop : strategy op with opcode | _ | _ <;>
      simp only [exprSpots, exprSize, hop, List.length_append, List.length_cons, List.length_nil,
        ihl, ihr] <;> omega
  | call first callee args ih =>
    rw [exprSpots, exprSize, List.length_append, length_exprsSpots_of ih]
    rfl

/-- Several expressions have as many spots as instructions. -/
theorem length_exprsSpots {env : Env} (es : List Expr) (types : List Ty) :
    (exprsSpots env types es).length = exprsSize es :=
  length_exprsSpots_of (fun e _ => length_exprSpots e) types

/-- The case of a block in the induction for `length_stmtSpots`. -/
theorem length_stmtsSpots_of {env : Env} {ss : List Stmt}
    (h : ∀ s ∈ ss, ∀ final, (stmtSpots env final s).length = stmtSize env final s) (final : Bool) :
    (stmtsSpots env final ss).length = stmtsSize env final ss := by
  induction ss with
  | nil => rfl
  | cons s ss ih =>
    rw [stmtsSpots, stmtsSize, List.length_append, h s (by simp),
      ih fun s' hs => h s' (by simp [hs])]

/-- A statement has as many spots as instructions, also if it ends a function that is left without a
return. -/
theorem length_stmtSpots {env : Env} (s : Stmt) (final : Bool) :
    (stmtSpots env final s).length = stmtSize env final s := by
  induction s using Stmt.induction generalizing final with
  | cond first test brace body ih =>
    rw [stmtSpots, stmtSize, List.length_append, List.length_cons, length_exprSpots,
      length_stmtsSpots_of ih]
    omega
  | print first args =>
    rw [stmtSpots, stmtSize, List.length_append, length_exprsSpots]
    rfl
  | ret | call =>
    rw [stmtSpots, stmtSize, List.length_append, length_exprSpots]
    split <;> rfl
  | assign | decl =>
    rw [stmtSpots, stmtSize, List.length_append, length_exprSpots]
    rfl

/-- Several statements have as many spots as instructions. -/
theorem length_stmtsSpots {env : Env} (final : Bool) (ss : List Stmt) :
    (stmtsSpots env final ss).length = stmtsSize env final ss :=
  length_stmtsSpots_of (fun s _ => length_stmtSpots s) final

/-- A function has as many spots as instructions. -/
theorem length_functionSpots (env : Env) : (functionSpots env).length = functionSize env := by
  rw [functionSpots, functionSize, List.length_append, List.length_append, List.length_map,
    List.length_range, length_stmtsSpots]
  split <;> rfl

/-! ## Where spots start -/

section Start

variable {env : Env} {map : Nat → Option Spot} {start : Nat} {types : List Ty}

/-- In front of an expression the stack is what it was given. An expression has an instruction at
least, so there is a spot to say it. -/
theorem exprSpots_start {e : Expr} (h : Lies map start (exprSpots env types e)) :
    map start = some (env.spot types) := by
  induction e using Expr.induction generalizing types with
  | int | bool | str | var =>
    rw [exprSpots] at h
    exact (along_cons.mp h).1
  | binary op left right ihl =>
    rcases hop : strategy op with opcode | _ | _ <;> simp only [exprSpots, hop] at h <;>
      exact ihl (along_append.mp h).1
  | call first callee args ih =>
    rw [exprSpots] at h
    rcases args with _ | ⟨a, args⟩
    · simpa [exprsSpots, pushedTypes] using (along_cons.mp h).1
    · rw [exprsSpots] at h
      exact ih a (by simp) (along_append.mp (along_append.mp h).1).1

/-- In front of several expressions, which may be none. Then it is the spot behind them that says
it. -/
theorem exprsSpots_start {es : List Expr} (h : Lies map start (exprsSpots env types es))
    (hs : map (start + exprsSize es) = some (env.spot (types ++ pushedTypes env es))) :
    map start = some (env.spot types) := by
  rcases es with _ | ⟨e, es⟩
  · simpa [exprsSize, pushedTypes] using hs
  · rw [exprsSpots] at h
    exact exprSpots_start (along_append.mp h).1

/-- In front of a statement the stack has the slots of the function and nothing else. -/
theorem stmtSpots_start {final : Bool} {s : Stmt} (h : Lies map start (stmtSpots env final s)) :
    map start = some (env.spot (slotTypes env.function)) := by
  cases s with
  | print first args =>
    simp only [stmtSpots, along_append, along_cons, length_exprsSpots] at h
    exact exprsSpots_start h.1 h.2.1
  | _ =>
    rw [stmtSpots] at h
    exact exprSpots_start (along_append.mp h).1

/-- In front of several statements, which may be none. Then it is the spot behind them that says it,
if that can be reached at all. -/
theorem stmtsSpots_start {final : Bool} {ss : List Stmt}
    (h : Lies map start (stmtsSpots env final ss))
    (hs : ∀ types, exitTypes env final ss = some types →
      map (start + stmtsSize env final ss) = some (env.spot types)) :
    map start = some (env.spot (slotTypes env.function)) := by
  rcases ss with _ | ⟨s, ss⟩
  · exact hs _ rfl
  · rw [stmtsSpots] at h
    exact stmtSpots_start (along_append.mp h).1

end Start

/-! ## Rules -/

/-- `Rule task parts map pc spot`: the instruction at `pc` may be executed with the types of `spot`
on the stack, and the map has what it leaves at every address it leads to. A variable is loaded
for one of the `parts` only. -/
inductive Rule (task : Task) (parts : List Part) (map : Nat → Option Spot) (pc : Nat) :
    Spot → Prop where
  /-- the end of the code -/
  | stop {spot : Spot} (h : task.code[pc]? = none) : Rule task parts map pc spot
  | pushInt {f : Symbols.Function} {types : List Ty} {ty : Ty} {arg : Int32}
      (hi : task.At pc .pushInt arg) (hfit : Fits (.int arg) ty)
      (hnext : map (pc + 1) = some ⟨f, types ++ [ty]⟩) : Rule task parts map pc ⟨f, types⟩
  | pushStr {f : Symbols.Function} {types : List Ty} {arg : Int32} {text : Bytes}
      (hi : task.At pc .pushStr arg) (ht : argument? task.strings arg = some text)
      (hnext : map (pc + 1) = some ⟨f, types ++ [.string]⟩) : Rule task parts map pc ⟨f, types⟩
  | load {f : Symbols.Function} {types : List Ty} {name : Token} {v : Variable}
      (hpart : ⟨f, pc, .var name⟩ ∈ parts) (hi : task.At pc .loadLocal (index v.slot))
      (harg : (index v.slot).toInt = v.slot) (hslot : types[v.slot]? = some v.type)
      (hnext : map (pc + 1) = some ⟨f, types ++ [v.type]⟩) : Rule task parts map pc ⟨f, types⟩
  | store {f : Symbols.Function} {types : List Ty} {v : Variable}
      (hi : task.At pc .storeLocal (index v.slot)) (harg : (index v.slot).toInt = v.slot)
      (hslot : types[v.slot]? = some v.type) (hnext : map (pc + 1) = some ⟨f, types⟩) :
      Rule task parts map pc ⟨f, types ++ [v.type]⟩
  | pop {f : Symbols.Function} {types : List Ty} {ty : Ty} {arg : Int32}
      (hi : task.At pc .pop arg) (hnext : map (pc + 1) = some ⟨f, types⟩) :
      Rule task parts map pc ⟨f, types ++ [ty]⟩
  | operate {f : Symbols.Function} {types : List Ty} {ty : Ty} {op : Opcode} {arg : Int32}
      (hi : task.At pc op arg) (hop : op ∈ Machine.arithmeticOps)
      (hfit : ∀ l r, Fits (.int (Machine.arithmetic op l r)) ty)
      (hnext : map (pc + 1) = some ⟨f, types ++ [ty]⟩) :
      Rule task parts map pc ⟨f, types ++ [.int, .int]⟩
  | branch {f : Symbols.Function} {types : List Ty} {arg : Int32} {dest : Nat}
      (hi : task.At pc .branch arg) (hto : target? task arg = some dest)
      (hdest : map dest = some ⟨f, types⟩) : Rule task parts map pc ⟨f, types⟩
  | branchZero {f : Symbols.Function} {types : List Ty} {arg : Int32} {dest : Nat}
      (hi : task.At pc .branchZero arg) (hto : target? task arg = some dest)
      (hnext : map (pc + 1) = some ⟨f, types⟩) (hdest : map dest = some ⟨f, types⟩) :
      Rule task parts map pc ⟨f, types ++ [.bool]⟩
  /-- the callee starts with its parameters, and its result is there when it comes back -/
  | call {f g : Symbols.Function} {types : List Ty} {arg : Int32} {entry : Nat}
      (hi : task.At pc .call arg) (hf : argument? task.functions arg = some (describe g entry))
      (hlt : entry < task.code.size) (hentry : map entry = some ⟨g, g.params.map (·.type)⟩)
      (hnext : map (pc + 1) = some ⟨f, types ++ results g.returns⟩) :
      Rule task parts map pc ⟨f, types ++ g.params.map (·.type)⟩
  | ret {f : Symbols.Function} {types : List Ty} (hi : task.At pc .ret 0)
      (hvoid : f.returns = .void) : Rule task parts map pc ⟨f, types⟩
  | retValue {f : Symbols.Function} {types : List Ty} {arg : Int32} (hi : task.At pc .ret arg)
      (harg : arg ≠ 0) (hvalue : f.returns ≠ .void) :
      Rule task parts map pc ⟨f, types ++ [f.returns]⟩
  | print {f : Symbols.Function} {types line : List Ty} {arg : Int32} (hi : task.At pc .print arg)
      (harg : arg.toInt = line.length) (hnext : map (pc + 1) = some ⟨f, types⟩) :
      Rule task parts map pc ⟨f, types ++ line⟩

end Stackling.Code
