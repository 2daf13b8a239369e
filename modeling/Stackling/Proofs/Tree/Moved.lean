import Stackling.Proofs.Tree
import Stackling.Symbols
import Stackling.Tree.Parse

/-!
# Trees at other places

`move φ` replaces every place `p` in a thing by `φ p` and changes nothing else. Tokens, trees,
symbol tables and errors can be moved, and so can what a computation gives, a value or an error.

That a function commutes with `move φ` for all `φ` says that it does nothing with places but hand
them on. This module has what moving does to the parts of trees; the phases follow in modules of
their own.
-/

namespace Stackling

/-- Things with places in them. -/
class Movable (α : Type) where
  /-- the same thing with `φ p` for every place `p` in it -/
  move : (Position → Position) → α → α

export Movable (move)

instance : Movable String := ⟨fun _ s => s⟩

instance : Movable Position := ⟨fun φ p => φ p⟩

instance : Movable Token := ⟨fun φ t => { t with pos := φ t.pos }⟩

instance {α : Type} [Movable α] : Movable (List α) := ⟨fun φ as => as.map (move φ)⟩

instance {α : Type} [Movable α] : Movable (Option α) := ⟨fun φ a => a.map (move φ)⟩

instance {α β : Type} [Movable α] [Movable β] : Movable (α × β) :=
  ⟨fun φ r => (move φ r.1, move φ r.2)⟩

instance {ε α : Type} [Movable ε] [Movable α] : Movable (Except ε α) :=
  ⟨fun φ x => (x.map (move φ)).mapError (move φ)⟩

instance : Movable ParseError where
  move φ
    | .unexpected expected found => .unexpected expected (move φ found)
    | .outOfRange literal => .outOfRange (move φ literal)

instance : Movable SemanticError := ⟨fun φ e => { e with pos := φ e.pos }⟩

/-- Lists move item by item. -/
theorem move_append {α : Type} [Movable α] {φ : Position → Position} (as bs : List α) :
    move φ (as ++ bs) = move φ as ++ move φ bs :=
  List.map_append

/-- A token keeps its text. -/
theorem Token.lexeme_move (φ : Position → Position) (t : Token) :
    (move φ t).lexeme = t.lexeme := rfl

/-! ## Computations -/

/-- A computation in two parts commutes with moving if both parts do. -/
theorem bind_move {ε α β : Type} [Movable ε] [Movable α] [Movable β] {φ : Position → Position}
    {x x' : Except ε α} {f f' : α → Except ε β} (hx : x' = move φ x)
    (hf : ∀ a, x = .ok a → f' (move φ a) = move φ (f a)) : (x' >>= f') = move φ (x >>= f) := by
  subst hx
  cases x with
  | error e => rfl
  | ok a => exact hf a rfl

/-- So it does if the value between the parts has no places in it. -/
theorem mapError_bind_move {ε α β : Type} [Movable ε] [Movable β] {φ : Position → Position}
    {x x' : Except ε α} {f f' : α → Except ε β} (hx : x' = x.mapError (move φ))
    (hf : ∀ a, f' a = move φ (f a)) : (x' >>= f') = move φ (x >>= f) := by
  subst hx
  cases x with
  | error e => rfl
  | ok a => exact hf a

/-- And so it does if the value at the end has none. -/
theorem bind_mapError_move {ε α β : Type} [Movable ε] [Movable α] {φ : Position → Position}
    {x x' : Except ε α} {f f' : α → Except ε β} (hx : x' = move φ x)
    (hf : ∀ a, f' (move φ a) = (f a).mapError (move φ)) :
    (x' >>= f') = (x >>= f).mapError (move φ) := by
  subst hx
  cases x with
  | error e => rfl
  | ok a => exact hf a

/-- An error moves inside what is made of it. -/
theorem mapError_move {ε ε' α : Type} [Movable ε] [Movable ε'] [Movable α]
    {φ : Position → Position} {x x' : Except ε α} (hx : x' = move φ x) {wrap : ε → ε'}
    (hwrap : ∀ e, wrap (move φ e) = move φ (wrap e)) :
    x'.mapError wrap = move φ (x.mapError wrap) := by
  subst hx
  cases x with
  | error e => exact congrArg Except.error (hwrap e)
  | ok a => rfl

namespace Tree

variable (φ : Position → Position)

/-! ## Trees -/

mutual

def Expr.moved : Expr → Expr
  | .binary op left right => .binary op left.moved right.moved
  | .call start callee args => .call (move φ start) callee (Expr.movedAll args)
  | .int literal value => .int (move φ literal) value
  | .bool literal value => .bool (move φ literal) value
  | .str literal => .str (move φ literal)
  | .var name => .var (move φ name)

def Expr.movedAll : List Expr → List Expr
  | [] => []
  | e :: es => e.moved :: Expr.movedAll es

end

instance : Movable Expr := ⟨Expr.moved⟩

instance : Movable TypeName := ⟨fun φ t => ⟨move φ t.token⟩⟩

instance : Movable Param := ⟨fun φ p => ⟨move φ p.name, move φ p.type⟩⟩

mutual

def Stmt.moved : Stmt → Stmt
  | .ret start value => .ret (move φ start) (move φ value)
  | .cond start test brace body =>
    .cond (move φ start) (move φ test) (move φ brace) (Stmt.movedAll body)
  | .assign target value => .assign (move φ target) (move φ value)
  | .print start args => .print (move φ start) (move φ args)
  | .decl start param value =>
    .decl (move φ start) (move φ param) (move φ value)
  | .call start callee args => .call (move φ start) callee (move φ args)

def Stmt.movedAll : List Stmt → List Stmt
  | [] => []
  | s :: ss => s.moved :: Stmt.movedAll ss

end

instance : Movable Stmt := ⟨Stmt.moved⟩

instance : Movable Function where
  move φ f := ⟨move φ f.start, f.name, move φ f.params, move φ f.returns, move φ f.brace,
    move φ f.body⟩

instance : Movable Program := ⟨fun φ p => ⟨move φ p.start, move φ p.functions⟩⟩

/-- What is moved by the recursion on expressions is the list, item by item. -/
theorem move_args (args : List Expr) : Expr.movedAll φ args = move φ args := by
  induction args with
  | nil => rfl
  | cons e es ih => exact congrArg (move φ e :: ·) ih

/-- What is moved by the recursion on statements is the list, item by item. -/
theorem move_body (body : List Stmt) : Stmt.movedAll φ body = move φ body := by
  induction body with
  | nil => rfl
  | cons s ss ih => exact congrArg (move φ s :: ·) ih

/-- Moving a call, with its arguments moved as a list. -/
theorem Expr.move_call (start : Token) (callee : String) (args : List Expr) :
    move φ (Expr.call start callee args) =
      .call (move φ start) callee (move φ args) := by
  rw [← move_args]
  rfl

/-- Moving a condition, with its block moved as a list. -/
theorem Stmt.move_cond (start : Token) (test : Expr) (brace : Token) (body : List Stmt) :
    move φ (Stmt.cond start test brace body) = .cond (move φ start)
      (move φ test) (move φ brace) (move φ body) := by
  rw [← move_body]
  rfl

/-- An expression is at the place of its first token, and so it moves with it. -/
theorem Expr.pos_move (e : Expr) : (move φ e).pos = φ e.pos := by
  induction e using Expr.induction with
  | binary op left right ihl _ => exact ihl
  | call | int | bool | str | var => rfl

/-- Whether a function ends in a return is seen from the kind of its last statement. -/
theorem Function.endsInReturn_move (f : Function) :
    (move φ f).endsInReturn = f.endsInReturn := by
  have hbody : (move φ f).body = f.body.map (move φ) := rfl
  rw [Function.endsInReturn, Function.endsInReturn, hbody, List.getLast?_map]
  rcases f.body.getLast? with _ | s
  · rfl
  · cases s <;> rfl

end Tree

/-! ## Tables -/

namespace Symbols

instance : Movable Function := ⟨fun φ f => { f with decl := move φ f.decl }⟩

/-- The function found in a moved table is the moved one. -/
theorem Table.find?_move (φ : Position → Position) (t : Table) (name : String) :
    Table.find? (move φ t) name = move φ (t.find? name) :=
  List.find?_map ..

end Symbols

end Stackling
