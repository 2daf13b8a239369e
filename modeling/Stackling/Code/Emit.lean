import Stackling.Code
import Stackling.Typing

/-!
# Code for syntax trees

The entry function is laid out first, then every function it reaches through calls, in the order
of discovery. A function's code pushes a zero for each local variable, then runs its statements,
then returns. If the entry function is the only one, nothing needs to return: execution ends by
running off the end of the code.

Emission is by structural recursion: the code of a part is a list for a given start address, so a
jump target is a start address plus lengths of parts. The pool of texts grows in the order in
which the code pushes them.

    a && b    a; BranchZero F; b; Branch E; F: PushI32 0; E:
    a || b    a; BranchZero R; PushI32 1; Branch E; R: b; E:
    if a {b}  a; BranchZero E; b; E:

Emission does not rely on the type checker having run: operands are checked again (`staticType`),
less thoroughly, and a program that was not checked may be emitted or refused.
-/

namespace Stackling.Tree

mutual

/-- The calls in an expression with their first tokens, an outer call before those in its
arguments. -/
def Expr.calls : Expr → List (Token × String)
  | .binary _ left right => left.calls ++ right.calls
  | .call start callee args => (start, callee) :: Expr.callsAll args
  | .int _ _ | .bool _ _ | .str _ | .var _ => []

/-- The calls in expressions. -/
def Expr.callsAll : List Expr → List (Token × String)
  | [] => []
  | e :: es => e.calls ++ Expr.callsAll es

end

mutual

/-- The calls in a statement, in source order. -/
def Stmt.calls : Stmt → List (Token × String)
  | .ret _ value => value.calls
  | .cond _ test _ body => test.calls ++ Stmt.callsAll body
  | .assign _ value => value.calls
  | .print _ args => Expr.callsAll args
  | .decl _ _ value => value.calls
  | .call start callee args => (start, callee) :: Expr.callsAll args

/-- The calls in statements. -/
def Stmt.callsAll : List Stmt → List (Token × String)
  | [] => []
  | s :: ss => s.calls ++ Stmt.callsAll ss

end

end Stackling.Tree

namespace Stackling.Code

open Stackling.Tree Stackling.Symbols

/-! ## Reachable functions -/

/-- A search for functions: those found and not yet looked into, and those not found yet. -/
structure Search where
  pending : List Symbols.Function
  unseen : Table

namespace Search

/-- How much a search can still do. -/
def size (s : Search) : Nat := s.pending.length + s.unseen.length

/-- Takes the function called `name` from the unseen ones, if it is among them. -/
def find (s : Search) (name : String) : Search :=
  match s.unseen.find? name with
  | none => s
  | some f => ⟨s.pending ++ [f], s.unseen.eraseP fun g => g.name == name⟩

/-- A function that is found is moved from the unseen ones to those that are waiting. -/
theorem size_find (s : Search) (name : String) : (s.find name).size = s.size := by
  unfold find
  split
  · rfl
  · next f hf =>
    have hmem := List.mem_of_find?_eq_some hf
    have hname := List.find?_some hf
    have hlen := List.length_eraseP_of_mem (p := fun g : Symbols.Function => g.name == name)
      hmem hname
    have hpos := List.length_pos_of_mem hmem
    simp only [size, List.length_append, List.length_singleton, hlen]
    omega

/-- Follows calls; each must name a function of the table. -/
def follow (t : Table) (s : Search) : List (Token × String) → Except SemanticError Search
  | [] => .ok s
  | (start, callee) :: rest =>
    match t.find? callee with
    | none => .error ⟨start.pos, .undefinedFunction callee⟩
    | some _ => follow t (s.find callee) rest

/-- Following the calls of a function only moves functions, and so the search ends. -/
theorem size_follow {t : Table} {s s' : Search} {calls : List (Token × String)}
    (h : s.follow t calls = .ok s') : s'.size = s.size := by
  induction calls generalizing s with
  | nil => cases h; rfl
  | cons c rest ih =>
    unfold follow at h
    split at h
    · cases h
    · rw [ih h, size_find]

end Search

/-- Looks into the functions of a search, one after the other, and lists them. -/
def discover (t : Table) (s : Search) : Except SemanticError (List Symbols.Function) :=
  match s with
  | ⟨[], _⟩ => .ok []
  | ⟨f :: pending, unseen⟩ =>
    match h : Search.follow t ⟨pending, unseen⟩ (Stmt.callsAll f.decl.body) with
    | .error e => .error e
    | .ok s' =>
      have : s'.size < Search.size ⟨f :: pending, unseen⟩ := by
        rw [Search.size_follow h]
        simp only [Search.size, List.length_cons]
        omega
      do return f :: (← discover t s')
termination_by s.size

/-- The functions that `entry` reaches through calls, itself first, in order of discovery. -/
def reachable (t : Table) (entry : Symbols.Function) :
    Except SemanticError (List Symbols.Function) :=
  discover t ⟨[entry], t.eraseP fun g => g.name == entry.name⟩

/-! ## Expressions -/

/-- What the code of a function depends on. -/
structure Env where
  table : Table
  /-- the functions that are laid out, in order -/
  order : List Symbols.Function
  /-- the function whose code this is -/
  function : Symbols.Function

/-- Is the function the only one? -/
def Env.isAlone (env : Env) : Bool := env.order.length == 1

/-- The type of an expression as far as emission looks at it: the operands of operators must have
the type the operator takes; arguments are not looked at. -/
def staticType (env : Env) : Expr → Except SemanticError Ty
  | .int _ _ => .ok .int
  | .bool _ _ => .ok .bool
  | .str _ => .ok .string
  | .var name =>
    match env.function.lookup? name.lexeme with
    | some v => .ok v.type
    | none => .error ⟨name.pos, .unknownIdentifier name.lexeme⟩
  | .binary op left right => do
    let l ← staticType env left
    if l ≠ op.operandTy then throw ⟨left.pos, .unsupportedOperand op.operandTy l⟩
    let r ← staticType env right
    if r ≠ op.operandTy then throw ⟨right.pos, .unsupportedOperand op.operandTy r⟩
    return op.resultTy
  | .call start callee _ =>
    match env.table.find? callee with
    | some f => .ok f.returns
    | none => .error ⟨start.pos, .undefinedFunction callee⟩

/-- The texts that code pushes, without repetition. -/
abbrev Pool := List Bytes

/-- The index of a text in the pool, which grows if the text is new. -/
def Pool.intern (pool : Pool) (s : Bytes) : Nat × Pool :=
  match pool.idxOf? s with
  | some i => (i, pool)
  | none => (pool.length, pool ++ [s])

/-- An index as an argument. -/
def index (n : Nat) : Int32 := Int32.ofNat n

/-- How an operator is computed: by one operation on both values, or by branching. -/
inductive Strategy where
  | operation (op : Opcode)
  | both
  | either

/-- The strategy for an operator. -/
def strategy : BinaryOp → Strategy
  | .and => .both
  | .or => .either
  | .eq => .operation .eq
  | .ne => .operation .ne
  | .gt => .operation .gt
  | .ge => .operation .ge
  | .lt => .operation .lt
  | .le => .operation .le
  | .plus => .operation .add
  | .minus => .operation .sub
  | .times => .operation .mul
  | .divide => .operation .div

/-- Code and the pool after it. -/
abbrev Emitted := Except SemanticError (List Instruction × Pool)

mutual

/-- The code that pushes the value of an expression, for the address `start`. -/
def emitExpr (env : Env) (start : Nat) (pool : Pool) : Expr → Emitted
  | .int _ value => .ok ([.withArg .pushInt value], pool)
  | .bool _ value => .ok ([.withArg .pushInt (if value then 1 else 0)], pool)
  | .str literal =>
    let (i, pool) := pool.intern (Bytes.ofString literal.lexeme)
    .ok ([.withArg .pushStr (index i)], pool)
  | .var name =>
    match env.function.lookup? name.lexeme with
    | some v => .ok ([.withArg .loadLocal (index v.slot)], pool)
    | none => .error ⟨name.pos, .unknownIdentifier name.lexeme⟩
  | .binary op left right => do
    let _ ← staticType env (.binary op left right)
    let (l, pool) ← emitExpr env start pool left
    match strategy op with
    | .operation opcode =>
      let (r, pool) ← emitExpr env (start + l.length) pool right
      return (l ++ r ++ [.plain opcode], pool)
    | .both =>
      let (r, pool) ← emitExpr env (start + l.length + 1) pool right
      let no := start + l.length + 1 + r.length + 1
      return (l ++ .withArg .branchZero (index no) :: r ++
        [.withArg .branch (index (no + 1)), .withArg .pushInt 0], pool)
    | .either =>
      let second := start + l.length + 3
      let (r, pool) ← emitExpr env second pool right
      return (l ++ [.withArg .branchZero (index second), .withArg .pushInt 1,
        .withArg .branch (index (second + r.length))] ++ r, pool)
  | .call first callee args => do
    let (code, pool) ← emitExprs env start pool args
    match env.order.findIdx? fun f => f.name == callee with
    | some i => return (code ++ [.withArg .call (index i)], pool)
    | none => throw ⟨first.pos, .undefinedFunction callee⟩

/-- The code that pushes the values of expressions, left to right. -/
def emitExprs (env : Env) (start : Nat) (pool : Pool) : List Expr → Emitted
  | [] => .ok ([], pool)
  | e :: es => do
    let (code, pool) ← emitExpr env start pool e
    let (more, pool) ← emitExprs env (start + code.length) pool es
    return (code ++ more, pool)

end

/-! ## Statements -/

/-- The code that stores the value of an expression. The variable is looked up first. -/
def emitStore (env : Env) (start : Nat) (pool : Pool) (place : Position) (name : String)
    (value : Expr) : Emitted :=
  match env.function.lookup? name with
  | none => .error ⟨place, .unknownIdentifier name⟩
  | some v => do
    let (code, pool) ← emitExpr env start pool value
    return (code ++ [.withArg .storeLocal (index v.slot)], pool)

/-- Does a call of the function leave a result? -/
def leavesResult (env : Env) (callee : String) : Bool :=
  match env.table.find? callee with
  | some f => f.returns != .void
  | none => false

mutual

/-- The code of a statement. `final` says that it is the last of a function's body. -/
def emitStmt (env : Env) (final : Bool) (start : Nat) (pool : Pool) : Stmt → Emitted
  | .ret _ value => do
    let (code, pool) ← emitExpr env start pool value
    if final && env.isAlone then return (code, pool)
    let arg := if env.function.returns = .void then 0 else 1
    return (code ++ [.withArg .ret arg], pool)
  | .cond _ test _ body => do
    let (t, pool) ← emitExpr env start pool test
    let (b, pool) ← emitStmts env false (start + t.length + 1) pool body
    return (t ++ .withArg .branchZero (index (start + t.length + 1 + b.length)) :: b, pool)
  | .assign target value => emitStore env start pool target.pos target.lexeme value
  | .print _ args => do
    let (code, pool) ← emitExprs env start pool args
    return (code ++ [.withArg .print (index args.length)], pool)
  | .decl first p value => emitStore env start pool first.pos p.name.lexeme value
  | .call first callee args => do
    let (code, pool) ← emitExpr env start pool (.call first callee args)
    return (code ++ (if leavesResult env callee then [.plain .pop] else []), pool)

/-- The code of statements. -/
def emitStmts (env : Env) (final : Bool) (start : Nat) (pool : Pool) : List Stmt → Emitted
  | [] => .ok ([], pool)
  | s :: ss => do
    let (code, pool) ← emitStmt env (final && ss.isEmpty) start pool s
    let (more, pool) ← emitStmts env final (start + code.length) pool ss
    return (code ++ more, pool)

end

/-! ## Functions and programs -/

/-- The code of a function. -/
def emitFunction (env : Env) (start : Nat) (pool : Pool) : Emitted := do
  let f := env.function
  let reserve := List.replicate f.localCount (Instruction.withArg .pushInt 0)
  let (body, pool) ← emitStmts env true (start + reserve.length) pool f.decl.body
  let leave := if f.decl.endsInReturn || env.isAlone then [] else [Instruction.withArg .ret 0]
  return (reserve ++ body ++ leave, pool)

/-- The entry of a function in the table. -/
def describe (f : Symbols.Function) (entry : Nat) : Function :=
  ⟨Bytes.ofString f.name, entry, f.params.length, f.localCount, f.returns != .void⟩

/-- Lays functions out one after the other, from the address `start`. -/
def emitFunctions (t : Table) (order : List Symbols.Function) (start : Nat) (pool : Pool) :
    List Symbols.Function → Except SemanticError Program
  | [] => .ok ⟨[], [], pool⟩
  | f :: fs => do
    let (code, pool) ← emitFunction ⟨t, order, f⟩ start pool
    let rest ← emitFunctions t order (start + code.length) pool fs
    return ⟨code ++ rest.code, describe f start :: rest.functions, rest.strings⟩

/-- The code of a program that starts in the function called `entry`. -/
def emit (t : Table) (entry : String) (p : Tree.Program) : Except SemanticError Program :=
  match t.find? entry with
  | none => .error ⟨p.start.pos, .noEntryPoint⟩
  | some f => do
    let order ← reachable t f
    emitFunctions t order 0 [] order

end Stackling.Code
