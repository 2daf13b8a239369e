import Stackling.Position

/-!
# Types and what can be wrong with a program's meaning

Values are integers, texts or truth values; a function without a result type gives `void`.
`SemanticCause` lists every reason for which a program that reads well is rejected, and
`SemanticCause.message` is the only place where those reasons are worded.
-/

namespace Stackling

/-- The types. -/
inductive Ty where
  | void
  | int
  | string
  | bool
  deriving DecidableEq, Repr

namespace Ty

/-- The name of a type. -/
def name : Ty → String
  | void => "void"
  | int => "int"
  | string => "string"
  | bool => "bool"

/-- May a value of type `source` be stored where `target` is declared? Only if they are equal. -/
def accepts (target source : Ty) : Bool := target == source

end Ty

/-- Why a program has no meaning. -/
inductive SemanticCause where
  | functionRedeclared (name : String)
  | variableRedeclared (name function : String)
  | unsupportedType (name : String)
  | noEntryPoint
  | entryResult
  | entryParameters
  | misplacedDeclaration (name : String)
  | missingReturn (function : String)
  | voidPrinted
  | testNotBool
  | resultMismatch (declared found : Ty)
  | unknownIdentifier (name : String)
  | notAssignable (target source : Ty)
  | operandMismatch (op : String) (required found : Ty)
  | unsupportedOperand (required found : Ty)
  | undefinedFunction (name : String)
  | argumentCount (function : String) (declared given : Nat)
  | argumentMismatch (param : String) (required found : Ty)
  deriving DecidableEq, Repr

/-- The message, without a position. -/
def SemanticCause.message : SemanticCause → String
  | functionRedeclared name => "function '" ++ name ++ "' already declared"
  | variableRedeclared name function =>
    "variable '" ++ name ++ "' already declared in function " ++ function
  | unsupportedType name => "unsupported type " ++ name
  | noEntryPoint => "Program has no entry Point."
  | entryResult => "Main must return either void or int"
  | entryParameters => "Main signature mismatch"
  | misplacedDeclaration name => "variable '" ++ name ++ "' must be declared at function level"
  | missingReturn function => "missing return statement in function " ++ function
  | voidPrinted => "Can not print void-value."
  | testNotBool => "If-Statement expression must result in boolean value."
  | resultMismatch declared found =>
    "Function result is of type " ++ declared.name ++ ", the type " ++ found.name ++
      " can not be assigned as result."
  | unknownIdentifier name => "unknown identifier " ++ name
  | notAssignable target source =>
    "type " ++ target.name ++ " is not assignable from " ++ source.name
  | operandMismatch op required found =>
    "operator " ++ op ++ " requires " ++ required.name ++ " operands, found " ++ found.name
  | unsupportedOperand required found =>
    "only " ++ required.name ++ " supported, found " ++ found.name
  | undefinedFunction name => "function " ++ name ++ " is not defined"
  | argumentCount function declared given =>
    "function " ++ function ++ " has " ++ toString declared ++ " parameters, " ++
      toString given ++ " arguments were given."
  | argumentMismatch param required found =>
    "Parameter " ++ param ++ " requires type " ++ required.name ++ ", but type " ++ found.name ++
      " was given."

/-- A reason and the place it points to. -/
structure SemanticError where
  pos : Position
  cause : SemanticCause
  deriving DecidableEq, Repr

end Stackling
