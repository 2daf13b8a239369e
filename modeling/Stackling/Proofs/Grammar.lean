import Mathlib.Data.Nat.Digits.Defs
import Stackling.Tree

/-!
# The grammar

Derivations of the grammar as trees of their own, one constructor for each way to expand a symbol:

    program  := function*
    function := 'function' ident '(' [param (',' param)*] ')' ['->' type] block
    param    := ident ':' type
    block    := '{' stmt* '}'
    stmt     := 'return' expr ';' | 'if' expr block | ident '=' expr ';'
              | 'print' '(' [expr (',' expr)*] ')' ';' | 'var' param '=' expr ';' | call ';'
    expr     := relation (('&&' | '||') relation)*
    relation := term [relop term]
    term     := product (('+' | '-') product)*
    product  := atom (('*' | '/') atom)*
    atom     := call | number | string | 'true' | 'false' | ident | '(' expr ')'
    call     := '->' ident '(' [expr (',' expr)*] ')'

A derivation has a `yield`, the tokens it derives, and a `tree`, the syntax tree it stands for. The
grammar says nothing about how tokens are read; that the parser finds the derivation of its tokens
is proved in the modules below this one.

Expressions, terms and products are one family, `Phrase`, since they are built alike: operands of
the next rank with operators of one level between them. The lists of arguments and of parameters are
another one, `Series`. The words `true` and `false` are identifiers; as operands they stand for
values and are not variables, so that an operand has one derivation only.
-/

namespace Stackling.Grammar

open Stackling.Tree (BinaryOp Level)

/-! ## Terminals -/

/-- A token of a given kind. -/
abbrev Terminal (k : Kind) := { t : Token // t.kind = k }

/-- A reserved word. -/
abbrev Word (k : Keyword) := Terminal (.keyword k)

/-- A delimiter. -/
abbrev Mark (d : Delimiter) := Terminal (.delimiter d)

/-- The token that announces a call or a result type. -/
abbrev Arrow := Terminal (.operator .arrow)

/-- A token that names a type. -/
abbrev TypeWord := { t : Token // t.kind.isType = true }

/-- A token that spells a binary operator of a level. -/
structure OpToken (l : Level) where
  token : Token
  op : BinaryOp
  kind_eq : token.kind = .operator op.operator
  level_eq : op.level = l

/-- The number that decimal digits spell, the most significant one first. -/
def numeral (digits : List Char) : Nat :=
  Nat.ofDigits 10 (digits.reverse.map fun c => c.toNat - '0'.toNat)

/-- A number literal that fits 32 bits. -/
structure Number where
  token : Token
  kind_eq : token.kind = .number
  digits : token.lexeme.toList ≠ [] ∧ ∀ c ∈ token.lexeme.toList, c.isDigit = true
  small : numeral token.lexeme.toList ≤ 2147483647

/-- How a truth value is spelled. -/
def spelling : Bool → String
  | true => "true"
  | false => "false"

/-! ## Expressions -/

/-- The levels at which any number of operators may follow one another. -/
inductive Joint where
  | logical
  | term
  | product
  deriving DecidableEq

/-- The operators that may follow one another there. -/
def Joint.level : Joint → Level
  | logical => .logical
  | term => .term
  | product => .product

/-- The symbols that derive expressions. -/
inductive Rank where
  | chain (j : Joint)
  | relation
  | atom
  deriving DecidableEq

namespace Rank

/-- Any expression. -/
abbrev expr : Rank := chain .logical

/-- A sum. -/
abbrev term : Rank := chain .term

end Rank

/-- What stands between the operators of a chain. -/
def Joint.operand : Joint → Rank
  | logical => .relation
  | term => .chain .product
  | product => .atom

/-- What a list in parentheses consists of. -/
inductive Item where
  | arg
  | param
  deriving DecidableEq

/-- A parameter, `name: type`. -/
structure Param where
  name : Terminal .ident
  colon : Mark .colon
  type : TypeWord

mutual

/-- Derivations of expressions. -/
inductive Phrase : Rank → Type where
  | chain {j : Joint} (first : Phrase j.operand) (rest : Tail j) : Phrase (.chain j)
  | single (term : Phrase .term) : Phrase .relation
  | comparison (left : Phrase .term) (op : OpToken .relational) (right : Phrase .term) :
      Phrase .relation
  | call (c : Call) : Phrase .atom
  | number (n : Number) : Phrase .atom
  | string (t : Terminal .string) : Phrase .atom
  | truth (value : Bool) (t : Terminal .ident) (h : t.1.lexeme = spelling value) : Phrase .atom
  | ident (t : Terminal .ident) (h : ∀ value, t.1.lexeme ≠ spelling value) : Phrase .atom
  | parens (lparen : Mark .lparen) (inner : Phrase .expr) (rparen : Mark .rparen) : Phrase .atom

/-- The rest of a chain after an operand. -/
inductive Tail : Joint → Type where
  | nil {j : Joint} : Tail j
  | cons {j : Joint} (op : OpToken j.level) (operand : Phrase j.operand) (rest : Tail j) : Tail j

/-- Calls. -/
inductive Call : Type where
  | mk (arrow : Arrow) (name : Terminal .ident) (lparen : Mark .lparen) (args : Series .arg true)

/-- The members of lists. -/
inductive Element : Item → Type where
  | arg (e : Phrase .expr) : Element .arg
  | param (p : Param) : Element .param

/-- Lists after their opening parenthesis, or, if `first` is not set, after one of the members. -/
inductive Series : Item → (first : Bool) → Type where
  | close {i : Item} {first : Bool} (rparen : Mark .rparen) : Series i first
  | first {i : Item} (item : Element i) (rest : Series i false) : Series i true
  | next {i : Item} (comma : Mark .comma) (item : Element i) (rest : Series i false) :
      Series i false

end

/-! ## Statements, functions, programs -/

mutual

/-- Derivations of statements. -/
inductive Stmt : Type where
  | ret (start : Word .ret) (value : Phrase .expr) (semi : Mark .semicolon)
  | cond (start : Word .cond) (test : Phrase .expr) (lbrace : Mark .lbrace) (body : Body)
  | assign (target : Terminal .ident) (eq : Terminal (.operator .assign)) (value : Phrase .expr)
      (semi : Mark .semicolon)
  | print (start : Word .print) (lparen : Mark .lparen) (args : Series .arg true)
      (semi : Mark .semicolon)
  | decl (start : Word .var) (param : Param) (eq : Terminal (.operator .assign))
      (value : Phrase .expr) (semi : Mark .semicolon)
  | call (c : Call) (semi : Mark .semicolon)

/-- Blocks after their opening brace. -/
inductive Body : Type where
  | close (rbrace : Mark .rbrace)
  | cons (s : Stmt) (rest : Body)

end

/-- Derivations of functions. -/
structure Function where
  start : Word .function
  name : Terminal .ident
  lparen : Mark .lparen
  params : Series .param true
  returns : Option (Arrow × TypeWord)
  lbrace : Mark .lbrace
  body : Body

/-- Derivations of programs. -/
structure Program where
  functions : List Function

/-! ## What derivations derive -/

/-- The tokens of a parameter. -/
def Param.yield (p : Param) : List Token := [p.name.1, p.colon.1, p.type.1]

mutual

/-- The tokens of an expression. -/
def Phrase.yield {r : Rank} : Phrase r → List Token
  | .chain first rest => first.yield ++ rest.yield
  | .single term => term.yield
  | .comparison left op right => left.yield ++ op.token :: right.yield
  | .call c => c.yield
  | .number n => [n.token]
  | .string t => [t.1]
  | .truth _ t _ => [t.1]
  | .ident t _ => [t.1]
  | .parens lparen inner rparen => lparen.1 :: (inner.yield ++ [rparen.1])

/-- The tokens of the rest of a chain. -/
def Tail.yield {j : Joint} : Tail j → List Token
  | .nil => []
  | .cons op operand rest => op.token :: (operand.yield ++ rest.yield)

/-- The tokens of a call. -/
def Call.yield : Call → List Token
  | .mk arrow name lparen args => arrow.1 :: name.1 :: lparen.1 :: args.yield

/-- The tokens of a member of a list. -/
def Element.yield {i : Item} : Element i → List Token
  | .arg e => e.yield
  | .param p => p.yield

/-- The tokens of a list. -/
def Series.yield {i : Item} {first : Bool} : Series i first → List Token
  | .close rparen => [rparen.1]
  | .first item rest => item.yield ++ rest.yield
  | .next comma item rest => comma.1 :: (item.yield ++ rest.yield)

end

mutual

/-- The tokens of a statement. -/
def Stmt.yield : Stmt → List Token
  | .ret start value semi => start.1 :: (value.yield ++ [semi.1])
  | .cond start test lbrace body => start.1 :: (test.yield ++ lbrace.1 :: body.yield)
  | .assign target eq value semi => target.1 :: eq.1 :: (value.yield ++ [semi.1])
  | .print start lparen args semi => start.1 :: lparen.1 :: (args.yield ++ [semi.1])
  | .decl start param eq value semi =>
    start.1 :: (param.yield ++ eq.1 :: (value.yield ++ [semi.1]))
  | .call c semi => c.yield ++ [semi.1]

/-- The tokens of a block after its opening brace. -/
def Body.yield : Body → List Token
  | .close rbrace => [rbrace.1]
  | .cons s rest => s.yield ++ rest.yield

end

/-- The tokens of a result type. -/
def returnsYield : Option (Arrow × TypeWord) → List Token
  | none => []
  | some (arrow, type) => [arrow.1, type.1]

/-- The tokens of a function. -/
def Function.yield (f : Function) : List Token :=
  f.start.1 :: f.name.1 :: f.lparen.1 ::
    (f.params.yield ++ (returnsYield f.returns ++ f.lbrace.1 :: f.body.yield))

/-- The tokens of a program. -/
def Program.yield (p : Program) : List Token := p.functions.flatMap Function.yield

/-! ## The trees of derivations -/

/-- The tree of a parameter. -/
def Param.tree (p : Param) : Tree.Param := ⟨p.name.1, ⟨p.type.1⟩⟩

/-- What a member of a list stands for. -/
abbrev Item.Value : Item → Type
  | arg => Tree.Expr
  | param => Tree.Param

mutual

/-- The tree of an expression. -/
def Phrase.tree {r : Rank} : Phrase r → Tree.Expr
  | .chain first rest => rest.tree first.tree
  | .single term => term.tree
  | .comparison left op right => .binary op.op left.tree right.tree
  | .call (.mk arrow name _ args) => .call arrow.1 name.1.lexeme args.tree
  | .number n => .int n.token (Int32.ofNat (numeral n.token.lexeme.toList))
  | .string t => .str t.1
  | .truth value t _ => .bool t.1 value
  | .ident t _ => .var t.1
  | .parens _ inner _ => inner.tree

/-- The tree of a chain whose operands so far make up `left`. Operators associate to the left. -/
def Tail.tree {j : Joint} : Tail j → (left : Tree.Expr) → Tree.Expr
  | .nil, left => left
  | .cons op operand rest, left => rest.tree (.binary op.op left operand.tree)

/-- The tree of a member of a list. -/
def Element.tree {i : Item} : Element i → i.Value
  | .arg e => e.tree
  | .param p => p.tree

/-- The trees of the members of a list. -/
def Series.tree {i : Item} {first : Bool} : Series i first → List i.Value
  | .close _ => []
  | .first item rest => item.tree :: rest.tree
  | .next _ item rest => item.tree :: rest.tree

end

mutual

/-- The tree of a statement. -/
def Stmt.tree : Stmt → Tree.Stmt
  | .ret start value _ => .ret start.1 value.tree
  | .cond start test lbrace body => .cond start.1 test.tree lbrace.1 body.tree
  | .assign target _ value _ => .assign target.1 value.tree
  | .print start _ args _ => .print start.1 args.tree
  | .decl start param _ value _ => .decl start.1 param.tree value.tree
  | .call (.mk arrow name _ args) _ => .call arrow.1 name.1.lexeme args.tree

/-- The trees of the statements of a block. -/
def Body.tree : Body → List Tree.Stmt
  | .close _ => []
  | .cons s rest => s.tree :: rest.tree

end

/-- The tree of a function. -/
def Function.tree (f : Function) : Tree.Function :=
  ⟨f.start.1, f.name.1.lexeme, f.params.tree, f.returns.map fun r => ⟨r.2.1⟩, f.lbrace.1,
    f.body.tree⟩

/-- The tree of a program. It starts with the first token; a text without tokens has the end of
input at its start. -/
def Program.tree (p : Program) : Tree.Program :=
  ⟨p.yield.headD ⟨.eof, "", .start⟩, p.functions.map Function.tree⟩

end Stackling.Grammar
