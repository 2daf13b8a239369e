import Stackling.Token

/-!
# Syntax trees

Expressions, statements, functions and programs. A tree keeps the tokens that its parts start
with, because positions in messages, assignment targets and type names are read from them. A
binary expression keeps none of its own: it starts where its left operand starts, and a pair of
parentheses leaves no trace.

`Node` is the sum of everything that can stand in a tree, with `Node.children` in source order;
walks and listings of a tree go through it.
-/

namespace Stackling.Tree

/-! ## Operators -/

/-- How tightly a binary operator binds, loosest first. -/
inductive Level where
  | logical
  | relational
  | term
  | product
  deriving DecidableEq, Repr

/-- The binary operators. -/
inductive BinaryOp where
  | and
  | or
  | eq
  | ne
  | gt
  | ge
  | lt
  | le
  | plus
  | minus
  | times
  | divide
  deriving DecidableEq, Repr

namespace BinaryOp

/-- The level of an operator. -/
def level : BinaryOp → Level
  | and | or => .logical
  | eq | ne | gt | ge | lt | le => .relational
  | plus | minus => .term
  | times | divide => .product

/-- The token of an operator. -/
def operator : BinaryOp → Operator
  | and => .and
  | or => .or
  | eq => .eq
  | ne => .ne
  | gt => .gt
  | ge => .ge
  | lt => .lt
  | le => .le
  | plus => .plus
  | minus => .minus
  | times => .times
  | divide => .divide

/-- How the operator is spelled. -/
def symbol (op : BinaryOp) : String := op.operator.symbol

/-- The binary operator that a token spells. -/
def ofOperator? : Operator → Option BinaryOp
  | .and => some and
  | .or => some or
  | .eq => some eq
  | .ne => some ne
  | .gt => some gt
  | .ge => some ge
  | .lt => some lt
  | .le => some le
  | .plus => some plus
  | .minus => some minus
  | .times => some times
  | .divide => some divide
  | .assign | .arrow => none

/-- A binary operator is told by its token. -/
@[simp] theorem ofOperator?_operator (op : BinaryOp) : ofOperator? op.operator = some op := by
  cases op <;> rfl

end BinaryOp

/-! ## Trees -/

/-- Expressions. -/
inductive Expr where
  | binary (op : BinaryOp) (left right : Expr)
  | call (start : Token) (callee : String) (args : List Expr)
  | int (literal : Token) (value : Int32)
  | bool (literal : Token) (value : Bool)
  | str (literal : Token)
  | var (name : Token)
  deriving Repr

/-- The token an expression starts with, parentheses apart. -/
def Expr.start : Expr → Token
  | .binary _ left _ => left.start
  | .call start _ _ => start
  | .int literal _ => literal
  | .bool literal _ => literal
  | .str literal => literal
  | .var name => name

/-- Where an expression starts. -/
def Expr.pos (e : Expr) : Position := e.start.pos

/-- The name of a type in a declaration. -/
structure TypeName where
  /-- the token that names the type -/
  token : Token
  deriving DecidableEq, Repr

/-- The spelling of a type name. -/
def TypeName.name (t : TypeName) : String := t.token.lexeme

/-- A parameter, `name: type`; it is also the head of a `var` statement. -/
structure Param where
  /-- the token that names it -/
  name : Token
  /-- its type -/
  type : TypeName
  deriving DecidableEq, Repr

/-- Statements. A conditional keeps the brace that opens its body, for the block is a node. -/
inductive Stmt where
  | ret (start : Token) (value : Expr)
  | cond (start : Token) (test : Expr) (brace : Token) (body : List Stmt)
  | assign (target : Token) (value : Expr)
  | print (start : Token) (args : List Expr)
  | decl (start : Token) (param : Param) (value : Expr)
  | call (start : Token) (callee : String) (args : List Expr)
  deriving Repr

/-- The token a statement starts with. -/
def Stmt.start : Stmt → Token
  | .ret start _ => start
  | .cond start _ _ _ => start
  | .assign target _ => target
  | .print start _ => start
  | .decl start _ _ => start
  | .call start _ _ => start

/-- Where a statement starts. -/
def Stmt.pos (s : Stmt) : Position := s.start.pos

/-- Is the statement a `return`? -/
def Stmt.isReturn : Stmt → Bool
  | .ret _ _ => true
  | _ => false

/-- A function, `function name(params) -> type { body }`. -/
structure Function where
  /-- the word `function` -/
  start : Token
  /-- its name -/
  name : String
  /-- its parameters -/
  params : List Param
  /-- its result type; none when it returns nothing -/
  returns : Option TypeName
  /-- the brace that opens the body -/
  brace : Token
  /-- the statements of the body -/
  body : List Stmt
  deriving Repr

/-- Does a function's body end in a `return`? -/
def Function.endsInReturn (f : Function) : Bool :=
  match f.body.getLast? with
  | some s => s.isReturn
  | none => false

/-- A whole program. -/
structure Program where
  /-- the first token of the text, or the end of input -/
  start : Token
  /-- the functions, in source order -/
  functions : List Function
  deriving Repr

/-- The first function called `name`. -/
def Program.find? (p : Program) (name : String) : Option Function :=
  p.functions.find? fun f => f.name == name

/-! ## Nodes -/

/-- Anything that stands in a tree. -/
inductive Node where
  | program (p : Program)
  | function (f : Function)
  | typeName (t : TypeName)
  | param (p : Param)
  | block (brace : Token) (body : List Stmt)
  | stmt (s : Stmt)
  | expr (e : Expr)
  deriving Repr

/-- The sorts of node. -/
inductive NodeSort where
  | program
  | function
  | typeName
  | param
  | block
  | ret
  | cond
  | assign
  | print
  | decl
  | callStmt
  | binary (level : Level)
  | call
  | int
  | bool
  | str
  | var
  deriving DecidableEq, Repr

namespace Node

/-- The token a node starts with. -/
def start : Node → Token
  | program p => p.start
  | function f => f.start
  | typeName t => t.token
  | param p => p.name
  | block brace _ => brace
  | stmt s => s.start
  | expr e => e.start

/-- The sort of a node. -/
def sort : Node → NodeSort
  | program _ => .program
  | function _ => .function
  | typeName _ => .typeName
  | param _ => .param
  | block _ _ => .block
  | stmt (.ret _ _) => .ret
  | stmt (.cond _ _ _ _) => .cond
  | stmt (.assign _ _) => .assign
  | stmt (.print _ _) => .print
  | stmt (.decl _ _ _) => .decl
  | stmt (.call _ _ _) => .callStmt
  | expr (.binary op _ _) => .binary op.level
  | expr (.call _ _ _) => .call
  | expr (.int _ _) => .int
  | expr (.bool _ _) => .bool
  | expr (.str _) => .str
  | expr (.var _) => .var

/-- The direct children of a node, in source order. -/
def children : Node → List Node
  | program p => p.functions.map function
  | function f => f.params.map param ++ f.returns.toList.map typeName ++ [block f.brace f.body]
  | typeName _ => []
  | param p => [typeName p.type]
  | block _ body => body.map stmt
  | stmt (.ret _ value) => [expr value]
  | stmt (.cond _ test brace body) => [expr test, block brace body]
  | stmt (.assign _ value) => [expr value]
  | stmt (.print _ args) => args.map expr
  | stmt (.decl _ p value) => [param p, expr value]
  | stmt (.call start callee args) => [expr (.call start callee args)]
  | expr (.binary _ left right) => [expr left, expr right]
  | expr (.call _ _ args) => args.map expr
  | expr (.int _ _) => []
  | expr (.bool _ _) => []
  | expr (.str _) => []
  | expr (.var _) => []

/-- A measure that drops from every node to its children. A statement outweighs an expression of
the same size because a call statement has the call itself as its child. -/
noncomputable def weight : Node → Nat
  | program p => 2 * sizeOf p + 1
  | function f => 2 * sizeOf f + 1
  | typeName t => 2 * sizeOf t
  | param p => 2 * sizeOf p
  | block _ body => 2 * sizeOf body + 1
  | stmt s => 2 * sizeOf s + 1
  | expr e => 2 * sizeOf e

/-- Children weigh less, and so a recursion on children ends. -/
theorem weight_lt_of_mem_children {n c : Node} (h : c ∈ n.children) : c.weight < n.weight := by
  cases n with
  | program p =>
    obtain ⟨start, functions⟩ := p
    simp only [children, List.mem_map] at h
    obtain ⟨f, hf, rfl⟩ := h
    have := List.sizeOf_lt_of_mem hf
    simp only [weight, Program.mk.sizeOf_spec]
    omega
  | function f =>
    obtain ⟨start, name, params, returns, brace, body⟩ := f
    simp only [children, List.mem_append, List.mem_map, Option.mem_toList,
      List.mem_singleton] at h
    rcases h with (⟨p, hp, rfl⟩ | ⟨t, rfl, rfl⟩) | rfl
    · have := List.sizeOf_lt_of_mem hp
      simp only [weight, Function.mk.sizeOf_spec]
      omega
    · simp only [weight, Function.mk.sizeOf_spec, Option.some.sizeOf_spec]
      omega
    · simp only [weight, Function.mk.sizeOf_spec]
      omega
  | typeName t => simp [children] at h
  | param p =>
    obtain ⟨name, type⟩ := p
    simp only [children, List.mem_singleton] at h
    subst h
    simp only [weight, Param.mk.sizeOf_spec]
    omega
  | block brace body =>
    simp only [children, List.mem_map] at h
    obtain ⟨s, hs, rfl⟩ := h
    have := List.sizeOf_lt_of_mem hs
    simp only [weight]
    omega
  | stmt s =>
    cases s with
    | print start args =>
      simp only [children, List.mem_map] at h
      obtain ⟨e, he, rfl⟩ := h
      have := List.sizeOf_lt_of_mem he
      simp only [weight, Stmt.print.sizeOf_spec]
      omega
    | cond start test brace body =>
      simp only [children, List.mem_cons, List.not_mem_nil, or_false] at h
      rcases h with rfl | rfl <;> simp only [weight, Stmt.cond.sizeOf_spec] <;> omega
    | decl start p value =>
      simp only [children, List.mem_cons, List.not_mem_nil, or_false] at h
      rcases h with rfl | rfl <;> simp only [weight, Stmt.decl.sizeOf_spec] <;> omega
    | ret start value =>
      simp only [children, List.mem_singleton] at h
      subst h
      simp only [weight, Stmt.ret.sizeOf_spec]
      omega
    | assign target value =>
      simp only [children, List.mem_singleton] at h
      subst h
      simp only [weight, Stmt.assign.sizeOf_spec]
      omega
    | call start callee args =>
      simp only [children, List.mem_singleton] at h
      subst h
      simp only [weight, Stmt.call.sizeOf_spec, Expr.call.sizeOf_spec]
      omega
  | expr e =>
    cases e with
    | binary op left right =>
      simp only [children, List.mem_cons, List.not_mem_nil, or_false] at h
      rcases h with rfl | rfl <;> simp only [weight, Expr.binary.sizeOf_spec] <;> omega
    | call start callee args =>
      simp only [children, List.mem_map] at h
      obtain ⟨a, ha, rfl⟩ := h
      have := List.sizeOf_lt_of_mem ha
      simp only [weight, Expr.call.sizeOf_spec]
      omega
    | int | bool | str | var => simp [children] at h

/-- A node and everything below it, each node before its children. -/
def preorder (n : Node) : List Node :=
  n :: n.children.attach.flatMap fun c => preorder c.1
termination_by n.weight
decreasing_by exact weight_lt_of_mem_children c.2

end Node

end Stackling.Tree
