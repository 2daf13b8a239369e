import Stackling.Datum
import Stackling.Tree

/-!
# Dumped trees

Every node has a written form: a list in parentheses that starts with a symbol for what the node is.
Names and texts are written in quotes, so that no name can be mistaken for a part of the notation,
and type names are symbols. A call statement is written as the call it makes, and a block as the
list of its statements.

`dump` puts the text together piece by piece. `toDatum` gives the datum that the text stands for.
-/

namespace Stackling.Tree

/-! ## Text -/

/-- A text in which every `c` is replaced. -/
def replaceAll (c : Char) (new : String) (s : String) : String :=
  String.ofList (s.toList.flatMap fun d => if d = c then new.toList else [d])

/-- A text in quotes. Backslashes are doubled first, so that those in front of quotes are not. -/
def quote (s : String) : String :=
  "\"" ++ replaceAll '"' "\\\"" (replaceAll '\\' "\\\\" s) ++ "\""

mutual

/-- The text of an expression. -/
def Expr.dump : Expr → String
  | .binary op left right =>
    "(binary " ++ quote op.symbol ++ " " ++ left.dump ++ " " ++ right.dump ++ ")"
  | .call _ callee args => "(call " ++ quote callee ++ Expr.dumpAll args ++ ")"
  | .int _ value => "(integer " ++ toString value.toInt ++ ")"
  | .bool _ value => "(boolean " ++ (if value then "true" else "false") ++ ")"
  | .str literal => "(string " ++ quote literal.lexeme ++ ")"
  | .var name => "(ident " ++ quote name.lexeme ++ ")"

/-- The texts of expressions, each behind a blank. -/
def Expr.dumpAll : List Expr → String
  | [] => ""
  | e :: es => " " ++ e.dump ++ Expr.dumpAll es

end

/-- The text of a type name. -/
def TypeName.dump (t : TypeName) : String := t.name

/-- The text of a parameter. -/
def Param.dump (p : Param) : String :=
  "(param " ++ quote p.name.lexeme ++ " " ++ p.type.dump ++ ")"

mutual

/-- The text of a statement. -/
def Stmt.dump : Stmt → String
  | .ret _ value => "(return " ++ value.dump ++ ")"
  | .cond _ test _ body =>
    "(if " ++ test.dump ++ " " ++ ("(block" ++ Stmt.dumpAll body ++ ")") ++ ")"
  | .assign target value => "(assign " ++ quote target.lexeme ++ " " ++ value.dump ++ ")"
  | .print _ args => "(print" ++ Expr.dumpAll args ++ ")"
  | .decl _ p value =>
    "(var " ++ quote p.name.lexeme ++ " " ++ p.type.dump ++ " " ++ value.dump ++ ")"
  | .call start callee args => (Expr.call start callee args).dump

/-- The texts of statements, each behind a blank. -/
def Stmt.dumpAll : List Stmt → String
  | [] => ""
  | s :: ss => " " ++ s.dump ++ Stmt.dumpAll ss

end

/-- The text of a block. -/
def blockDump (body : List Stmt) : String := "(block" ++ Stmt.dumpAll body ++ ")"

/-- The texts of parameters, with a blank in front of each but the first. -/
def Param.dumpAll : List Param → String
  | [] => ""
  | [p] => p.dump
  | p :: q :: ps => p.dump ++ " " ++ Param.dumpAll (q :: ps)

/-- The text of a function. -/
def Function.dump (f : Function) : String :=
  "(func " ++ quote f.name ++ " [" ++ Param.dumpAll f.params ++ "] " ++
    (f.returns.map TypeName.dump).getD "void" ++ " " ++ blockDump f.body ++ ")"

/-- The texts of functions, each behind a blank. -/
def Function.dumpAll : List Function → String
  | [] => ""
  | f :: fs => " " ++ f.dump ++ Function.dumpAll fs

/-- The text of a program. -/
def Program.dump (p : Program) : String := "(program" ++ Function.dumpAll p.functions ++ ")"

/-- The text of a node. -/
def Node.dump : Node → String
  | .program p => p.dump
  | .function f => f.dump
  | .typeName t => t.dump
  | .param p => p.dump
  | .block _ body => blockDump body
  | .stmt s => s.dump
  | .expr e => e.dump

/-! ## Data -/

/-- An integer as a datum. -/
def intDatum (v : Int32) : Datum := .integer (toString v.toInt)

/-- A truth value as a datum. -/
def boolDatum (b : Bool) : Datum := .symbol (if b then "true" else "false")

mutual

/-- An expression as a datum. -/
def Expr.toDatum : Expr → Datum
  | .binary op left right =>
    .list [.symbol "binary", .string op.symbol, left.toDatum, right.toDatum]
  | .call _ callee args => .list (.symbol "call" :: .string callee :: Expr.toData args)
  | .int _ value => .list [.symbol "integer", intDatum value]
  | .bool _ value => .list [.symbol "boolean", boolDatum value]
  | .str literal => .list [.symbol "string", .string literal.lexeme]
  | .var name => .list [.symbol "ident", .string name.lexeme]

/-- Expressions as data. -/
def Expr.toData : List Expr → List Datum
  | [] => []
  | e :: es => e.toDatum :: Expr.toData es

end

/-- A type name as a datum. -/
def TypeName.toDatum (t : TypeName) : Datum := .symbol t.name

/-- A parameter as a datum. -/
def Param.toDatum (p : Param) : Datum :=
  .list [.symbol "param", .string p.name.lexeme, p.type.toDatum]

mutual

/-- A statement as a datum. -/
def Stmt.toDatum : Stmt → Datum
  | .ret _ value => .list [.symbol "return", value.toDatum]
  | .cond _ test _ body =>
    .list [.symbol "if", test.toDatum, .list (.symbol "block" :: Stmt.toData body)]
  | .assign target value => .list [.symbol "assign", .string target.lexeme, value.toDatum]
  | .print _ args => .list (.symbol "print" :: Expr.toData args)
  | .decl _ p value =>
    .list [.symbol "var", .string p.name.lexeme, p.type.toDatum, value.toDatum]
  | .call _ callee args => .list (.symbol "call" :: .string callee :: Expr.toData args)

/-- Statements as data. -/
def Stmt.toData : List Stmt → List Datum
  | [] => []
  | s :: ss => s.toDatum :: Stmt.toData ss

end

/-- A block as a datum. -/
def blockDatum (body : List Stmt) : Datum := .list (.symbol "block" :: Stmt.toData body)

/-- A function as a datum. -/
def Function.toDatum (f : Function) : Datum :=
  .list [.symbol "func", .string f.name, .array (f.params.map Param.toDatum),
    (f.returns.map TypeName.toDatum).getD (.symbol "void"), blockDatum f.body]

/-- A program as a datum. -/
def Program.toDatum (p : Program) : Datum :=
  .list (.symbol "program" :: p.functions.map Function.toDatum)

/-- A node as a datum. -/
def Node.toDatum : Node → Datum
  | .program p => p.toDatum
  | .function f => f.toDatum
  | .typeName t => t.toDatum
  | .param p => p.toDatum
  | .block _ body => blockDatum body
  | .stmt s => s.toDatum
  | .expr e => e.toDatum

end Stackling.Tree
