import Stackling.Symbols

/-!
# Type checking

A program is accepted for an entry function if that function can start a program and if every
function, reachable or not, is well typed: operands, arguments, stored and returned values have
exactly the declared types, a condition is a truth value, nothing printed is `void`, variables are
declared at function level only, and a function with a result type ends in a `return`.

Of several faults the first one counts, in this order: the entry function; then the functions as
they stand in the source; in each of them statement by statement, an expression's parts before the
expression, and a statement's parts before the statement. The result of a function without result
type is not checked.
-/

namespace Stackling.Tree

/-- The type an operator takes on both sides. -/
def BinaryOp.operandTy (op : BinaryOp) : Ty :=
  match op.level with
  | .logical => .bool
  | _ => .int

/-- The type an operator gives. -/
def BinaryOp.resultTy (op : BinaryOp) : Ty :=
  match op.level with
  | .logical | .relational => .bool
  | .term | .product => .int

end Stackling.Tree

namespace Stackling.Typing

open Stackling.Tree Stackling.Symbols

/-- Where expressions are typed: the functions that can be called and the function they stand
in. -/
structure Scope where
  table : Table
  function : Symbols.Function

/-- Compares the types of arguments with the parameters they are given for. -/
def matchArgs : List Variable → List (Expr × Ty) → Except SemanticError Unit
  | p :: ps, (arg, ty) :: rest =>
    if p.type.accepts ty then matchArgs ps rest
    else .error ⟨arg.pos, .argumentMismatch p.name p.type ty⟩
  | _, _ => .ok ()

mutual

/-- The type of an expression. -/
def typeOf (scope : Scope) : Expr → Except SemanticError Ty
  | .int _ _ => .ok .int
  | .bool _ _ => .ok .bool
  | .str _ => .ok .string
  | .var name =>
    match scope.function.lookup? name.lexeme with
    | some v => .ok v.type
    | none => .error ⟨name.pos, .unknownIdentifier name.lexeme⟩
  | .binary op left right => do
    let l ← typeOf scope left
    let r ← typeOf scope right
    if l ≠ op.operandTy then throw ⟨left.pos, .operandMismatch op.symbol op.operandTy l⟩
    if r ≠ op.operandTy then throw ⟨right.pos, .operandMismatch op.symbol op.operandTy r⟩
    return op.resultTy
  | .call start callee args => do
    let types ← typesOf scope args
    match scope.table.find? callee with
    | none => throw ⟨start.pos, .undefinedFunction callee⟩
    | some f =>
      if f.params.length ≠ args.length then
        throw ⟨start.pos, .argumentCount callee f.params.length args.length⟩
      matchArgs f.params (args.zip types)
      return f.returns

/-- The types of expressions, left to right. -/
def typesOf (scope : Scope) : List Expr → Except SemanticError (List Ty)
  | [] => .ok []
  | e :: es => do
    let t ← typeOf scope e
    let ts ← typesOf scope es
    return t :: ts

end

/-- Stores a value of type `source`, read from `value`, in the variable called `name`. -/
def checkStore (scope : Scope) (place : Position) (name : String) (value : Expr) (source : Ty) :
    Except SemanticError Unit :=
  match scope.function.lookup? name with
  | none => .error ⟨place, .unknownIdentifier name⟩
  | some v =>
    if v.type.accepts source then .ok () else .error ⟨value.pos, .notAssignable v.type source⟩

/-- Prints values of the given types. -/
def checkPrinted : List (Expr × Ty) → Except SemanticError Unit
  | [] => .ok ()
  | (arg, ty) :: rest => if ty = .void then .error ⟨arg.pos, .voidPrinted⟩ else checkPrinted rest

mutual

/-- Checks a statement. `atTop` says that it stands directly in a function's body. -/
def checkStmt (scope : Scope) (atTop : Bool) : Stmt → Except SemanticError Unit
  | .ret _ value => do
    let ty ← typeOf scope value
    let declared := scope.function.returns
    if declared ≠ .void ∧ declared.accepts ty = false then
      throw ⟨value.pos, .resultMismatch declared ty⟩
  | .cond _ test _ body => do
    let ty ← typeOf scope test
    checkStmts scope false body
    if ty ≠ .bool then throw ⟨test.pos, .testNotBool⟩
  | .assign target value => do
    let ty ← typeOf scope value
    checkStore scope target.pos target.lexeme value ty
  | .print _ args => do
    let types ← typesOf scope args
    checkPrinted (args.zip types)
  | .decl start p value => do
    if !atTop then throw ⟨start.pos, .misplacedDeclaration p.name.lexeme⟩
    let ty ← typeOf scope value
    checkStore scope start.pos p.name.lexeme value ty
  | .call start callee args => do
    let _ ← typeOf scope (.call start callee args)

/-- Checks statements in order. -/
def checkStmts (scope : Scope) (atTop : Bool) : List Stmt → Except SemanticError Unit
  | [] => .ok ()
  | s :: ss => do
    checkStmt scope atTop s
    checkStmts scope atTop ss

end

/-- Where the body of `f` is checked. A function that the table does not list has no variables. -/
def scopeOf (t : Table) (f : Tree.Function) : Scope :=
  ⟨t, (t.find? f.name).getD ⟨f.name, .void, [], f⟩⟩

/-- Checks a function: its statements, then that it ends in a `return` if it has a result type. -/
def checkFunction (t : Table) (f : Tree.Function) : Except SemanticError Unit := do
  checkStmts (scopeOf t f) true f.body
  if f.returns.isSome && !f.endsInReturn then throw ⟨f.start.pos, .missingReturn f.name⟩

/-- Checks that a program can start in the function called `entry`. -/
def checkEntry (t : Table) (entry : String) : Except SemanticError Unit :=
  match t.find? entry with
  | none => .error ⟨.nowhere, .noEntryPoint⟩
  | some f =>
    if f.returns ≠ .void ∧ f.returns ≠ .int then .error ⟨f.decl.start.pos, .entryResult⟩
    else if f.params ≠ [] then .error ⟨f.decl.start.pos, .entryParameters⟩
    else .ok ()

/-- Checks a program that is to start in the function called `entry`. -/
def check (t : Table) (entry : String) (p : Program) : Except SemanticError Unit := do
  checkEntry t entry
  p.functions.forM (checkFunction t)

end Stackling.Typing

namespace Stackling.Tree

/-- Number of expressions in a tree. -/
def Node.exprCount (n : Node) : Nat :=
  (n.preorder.filter fun
    | .expr _ => true
    | _ => false).length

end Stackling.Tree
