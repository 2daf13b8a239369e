import Stackling.Tree
import Stackling.Ty

/-!
# Symbol tables

A table lists the functions of a program with their result types and their variables. The
variables of a function are its parameters and the `var` declarations that stand directly in its
body, in that order; the order gives each its slot. Declarations inside a nested block are not
collected: whether they are allowed is for the type checker to say.
-/

namespace Stackling.Symbols

open Stackling.Tree

/-- The name of the function a program starts in unless another is asked for. -/
def defaultEntry : String := "main"

/-- The type that a type name stands for. -/
def resolve (t : TypeName) : Except SemanticError Ty :=
  match t.token.kind with
  | .keyword .int => .ok .int
  | .keyword .string => .ok .string
  | .keyword .bool => .ok .bool
  | _ => .error ⟨t.token.pos, .unsupportedType t.name⟩

/-- A parameter or a local variable. -/
structure Variable where
  name : String
  type : Ty
  /-- its place among the function's variables, from 0 -/
  slot : Nat
  isParam : Bool
  deriving DecidableEq, Repr

/-- What is known of a function. -/
structure Function where
  name : String
  /-- the result type; `void` when none is declared -/
  returns : Ty
  /-- the variables, by slot -/
  vars : List Variable
  /-- the declaration -/
  decl : Tree.Function
  deriving Repr

namespace Function

/-- The parameters, in order. -/
def params (f : Function) : List Variable := f.vars.filter (·.isParam)

/-- The variable called `name`. -/
def lookup? (f : Function) (name : String) : Option Variable :=
  f.vars.find? fun v => v.name == name

/-- Number of slots. -/
def slotCount (f : Function) : Nat := f.vars.length

/-- Number of slots that hold no parameter. -/
def localCount (f : Function) : Nat := f.slotCount - f.params.length

/-- The signature on display. -/
def display (f : Function) : String :=
  f.name ++ "(" ++ toString f.params.length ++ " params) -> " ++ f.returns.name

end Function

/-- The functions of a program, in source order. -/
abbrev Table := List Function

namespace Table

/-- The function called `name`. -/
def find? (t : Table) (name : String) : Option Function := List.find? (fun f => f.name == name) t

/-- The function names, sorted. -/
def names (t : Table) : List String :=
  (t.map (·.name)).mergeSort fun a b => !(decide (b < a))

end Table

/-- Adds a variable to those of `function`. -/
def declare (function : String) (isParam : Bool) (vars : List Variable) (p : Param) :
    Except SemanticError (List Variable) :=
  if vars.any fun v => v.name == p.name.lexeme then
    .error ⟨p.name.pos, .variableRedeclared p.name.lexeme function⟩
  else do
    let type ← resolve p.type
    return vars ++ [⟨p.name.lexeme, type, vars.length, isParam⟩]

/-- The declarations that stand directly in a body. -/
def declarations (body : List Stmt) : List Param :=
  body.filterMap fun
    | .decl _ p _ => some p
    | _ => none

/-- The symbols of one function, next to those of the functions before it. -/
def collectFunction (t : Table) (f : Tree.Function) : Except SemanticError Function := do
  if (t.find? f.name).isSome then throw ⟨f.start.pos, .functionRedeclared f.name⟩
  let returns ← match f.returns with
    | some type => resolve type
    | none => pure .void
  let params ← f.params.foldlM (declare f.name true) []
  let vars ← (declarations f.body).foldlM (declare f.name false) params
  return ⟨f.name, returns, vars, f⟩

/-- The symbols of a program. -/
def collect (p : Program) : Except SemanticError Table :=
  p.functions.foldlM (fun t f => do return t ++ [← collectFunction t f]) []

end Stackling.Symbols
