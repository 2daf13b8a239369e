import Stackling.Proofs.Except
import Stackling.Proofs.Tree.Moved
import Stackling.Typing

/-!
# Symbols and types at other places

The symbol table of a moved program is the moved table (`collect_move`), and a moved program is
checked with the moved error, if there is one (`check_move`). Types have no places, so only errors
move here. One error points nowhere, and so `φ` has to leave that place where it is.
-/

namespace Stackling

open Stackling.Tree

variable {φ : Position → Position}

/-! ## Symbols -/

namespace Symbols

/-- What a type name stands for depends on its word. The place is only needed to complain about it.
-/
theorem resolve_move (t : TypeName) : resolve (move φ t) = (resolve t).mapError (move φ) := by
  have hkind : (move φ t).token.kind = t.token.kind := rfl
  unfold resolve
  rw [hkind]
  split <;> rfl

/-- A declaration is taken or refused for its names, so what it adds to the variables does not move
and only the error does. -/
theorem declare_move (function : String) (isParam : Bool) (vars : List Variable) (p : Param) :
    declare function isParam vars (move φ p) =
      (declare function isParam vars p).mapError (move φ) := by
  have hname : (move φ p).name.lexeme = p.name.lexeme := rfl
  have htype : (move φ p).type = move φ p.type := rfl
  unfold declare
  rw [hname, htype, resolve_move, mapError_ite, mapError_bind]
  rfl

/-- Declarations one after the other. Since the variables carry no places, they are the same in both
runs at every moment. -/
theorem foldlM_declare_move (function : String) (isParam : Bool) (ps : List Param) :
    ∀ vars, (move φ ps).foldlM (declare function isParam) vars =
      (ps.foldlM (declare function isParam) vars).mapError (move φ) := by
  induction ps with
  | nil => exact fun _ => rfl
  | cons p ps ih =>
    intro vars
    change ((move φ p) :: (move φ ps)).foldlM _ _ = _
    simp only [List.foldlM_cons, declare_move, ih, mapError_bind]

/-- The declarations of a body, found wherever they are nested, move with it. -/
theorem declarations_move (body : List Stmt) :
    declarations (move φ body) = move φ (declarations body) := by
  change List.filterMap _ (body.map (move φ)) = (List.filterMap _ body).map (move φ)
  rw [List.filterMap_map, List.map_filterMap]
  refine congrArg (List.filterMap · body) (funext fun s => ?_)
  cases s <;> rfl

/-- A function is known under the same names after the move. -/
theorem isSome_find?_move (t : Table) (name : String) :
    (Table.find? (move φ t) name).isSome = (t.find? name).isSome := by
  rw [Table.find?_move]
  exact Option.isSome_map

/-- Collecting one function. The table it goes into moves as well, as a declared function keeps its
tree. -/
theorem collectFunction_move (t : Table) (f : Tree.Function) :
    collectFunction (move φ t) (move φ f) = move φ (collectFunction t f) := by
  have hvars : ∀ returns,
      (do
        let params ← (move φ f.params).foldlM (declare f.name true) []
        let vars ← (move φ (declarations f.body)).foldlM (declare f.name false) params
        return (⟨f.name, returns, vars, move φ f⟩ : Symbols.Function)) =
      move φ (do
        let params ← f.params.foldlM (declare f.name true) []
        let vars ← (declarations f.body).foldlM (declare f.name false) params
        return (⟨f.name, returns, vars, f⟩ : Symbols.Function)) := fun returns =>
    mapError_bind_move (foldlM_declare_move ..) fun params =>
      mapError_bind_move (foldlM_declare_move ..) fun vars => rfl
  have hname : (move φ f).name = f.name := rfl
  have hbody : (move φ f).body = move φ f.body := rfl
  have hparams : (move φ f).params = move φ f.params := rfl
  have hreturns : (move φ f).returns = move φ f.returns := rfl
  unfold collectFunction
  rw [hname, hbody, hparams, hreturns, isSome_find?_move, declarations_move]
  dsimp only
  by_cases hold : (t.find? f.name).isSome = true
  · rw [if_pos hold, if_pos hold]
    rfl
  rw [if_neg hold, if_neg hold]
  cases f.returns with
  | none => exact hvars .void
  | some type => exact mapError_bind_move (resolve_move type) hvars

/-- **Collecting commutes with moving**: the symbols of a moved program are the moved symbols, and
if there are none the error has moved. -/
theorem collect_move (p : Program) : collect (move φ p) = move φ (collect p) := by
  have hfold : ∀ (fs : List Tree.Function) (t : Table),
      (move φ fs).foldlM (fun t f => do return t ++ [← collectFunction t f]) (move φ t) =
        move φ (fs.foldlM (fun t f => do return t ++ [← collectFunction t f]) t) := by
    intro fs
    induction fs with
    | nil => exact fun _ => rfl
    | cons f fs ih =>
      intro t
      change ((move φ f) :: (move φ fs)).foldlM _ _ = _
      rw [List.foldlM_cons, List.foldlM_cons]
      refine bind_move (bind_move (collectFunction_move t f) fun g _ => ?_) fun t' _ => ih t'
      exact congrArg Except.ok (move_append t [g]).symm
  exact hfold p.functions []

end Symbols

/-! ## Types -/

namespace Typing

open Symbols

instance : Movable Scope := ⟨fun φ scope => ⟨move φ scope.table, move φ scope.function⟩⟩

variable (scope : Scope)

/-- Variables are found by name. Their slots and types have no places. -/
theorem lookup?_move (name : String) :
    (move φ scope).function.lookup? name = scope.function.lookup? name := rfl

/-- The callee that is found by name is the moved one. -/
theorem find?_move (name : String) :
    (move φ scope).table.find? name = move φ (scope.table.find? name) :=
  Table.find?_move φ scope.table name

/-- Arguments keep their types. -/
theorem zip_move (args : List Expr) (types : List Ty) :
    (move φ args).zip types = (args.zip types).map (Prod.map (move φ) id) :=
  List.zip_map_left ..

/-- Arguments fit the parameters or not, wherever they stand. The one that does not fit says where
it is. -/
theorem matchArgs_move (ps : List Variable) (args : List (Expr × Ty)) :
    matchArgs ps (args.map (Prod.map (move φ) id)) = (matchArgs ps args).mapError (move φ) := by
  induction ps generalizing args with
  | nil => cases args <;> rfl
  | cons p ps ih =>
    rcases args with _ | ⟨⟨arg, ty⟩, rest⟩
    · rfl
    simp only [List.map_cons, Prod.map_apply, matchArgs, Expr.pos_move, ih, mapError_ite, id]
    rfl

/-- The types of expressions each of which has its type. This is the case of arguments in the
induction for `typeOf_move`. -/
theorem typesOf_move {es : List Expr}
    (h : ∀ e ∈ es, typeOf (move φ scope) (move φ e) = (typeOf scope e).mapError (move φ)) :
    typesOf (move φ scope) (move φ es) = (typesOf scope es).mapError (move φ) := by
  induction es with
  | nil => rfl
  | cons e es ih =>
    obtain ⟨he, hes⟩ := List.forall_mem_cons.mp h
    change typesOf (move φ scope) (move φ e :: move φ es) = _
    simp only [typesOf, he, ih hes, mapError_bind]
    rfl

/-- The type of an expression, by induction on it. No rule looks at places, and each error is at the
place of some subexpression or token. -/
theorem typeOf_move (e : Expr) :
    typeOf (move φ scope) (move φ e) = (typeOf scope e).mapError (move φ) := by
  induction e using Expr.induction with
  | int | bool | str => rfl
  | var name =>
    change typeOf (move φ scope) (.var (move φ name)) = _
    rw [typeOf, typeOf, lookup?_move, Token.lexeme_move]
    cases scope.function.lookup? name.lexeme <;> rfl
  | binary op left right ihl ihr =>
    change typeOf (move φ scope) (.binary op (move φ left) (move φ right)) = _
    simp only [typeOf, ihl, ihr, mapError_bind, Expr.pos_move, throw_bind, mapError_ite]
    rfl
  | call start callee args ih =>
    have hlength : (move φ args).length = args.length := List.length_map ..
    rw [Expr.move_call, typeOf, typeOf, typesOf_move scope ih, find?_move, mapError_bind]
    refine congrArg _ (funext fun types => ?_)
    rcases scope.table.find? callee with _ | f
    · rfl
    change (do
      if f.params.length ≠ (move φ args).length then
        throw (SemanticError.mk (φ start.pos)
          (.argumentCount callee f.params.length (move φ args).length))
      matchArgs f.params ((move φ args).zip types)
      return f.returns) = _
    simp only [hlength, zip_move, matchArgs_move, throw_bind, mapError_ite, mapError_bind]
    rfl

/-- What is stored has to fit the variable. The place is handed in, so it is moved by hand. -/
theorem checkStore_move (place : Position) (name : String) (value : Expr) (source : Ty) :
    checkStore (move φ scope) (φ place) name (move φ value) source =
      (checkStore scope place name value source).mapError (move φ) := by
  rw [checkStore, checkStore, lookup?_move, Expr.pos_move]
  rcases scope.function.lookup? name with _ | v
  · rfl
  · simp only [mapError_ite]
    rfl

/-- Every printed argument has to have a value. The first one that has none is blamed. -/
theorem checkPrinted_move (args : List (Expr × Ty)) :
    checkPrinted (args.map (Prod.map (move φ) id)) = (checkPrinted args).mapError (move φ) := by
  induction args with
  | nil => rfl
  | cons arg rest ih =>
    simp only [List.map_cons, Prod.map, checkPrinted, Expr.pos_move, ih, mapError_ite, id]
    rfl

/-- Statements one after the other, if it is so for each of them. -/
theorem checkStmts_move {ss : List Stmt}
    (h : ∀ s ∈ ss, ∀ atTop, checkStmt (move φ scope) atTop (move φ s) =
      (checkStmt scope atTop s).mapError (move φ)) (atTop : Bool) :
    checkStmts (move φ scope) atTop (move φ ss) =
      (checkStmts scope atTop ss).mapError (move φ) := by
  induction ss with
  | nil => rfl
  | cons s ss ih =>
    obtain ⟨hs, hss⟩ := List.forall_mem_cons.mp h
    change checkStmts (move φ scope) atTop (move φ s :: move φ ss) = _
    simp only [checkStmts, hs, ih hss, mapError_bind]

/-- A statement is right or wrong wherever it stands, by induction on it. -/
theorem checkStmt_move (s : Stmt) (atTop : Bool) : checkStmt (move φ scope) atTop (move φ s) =
    (checkStmt scope atTop s).mapError (move φ) := by
  have hreturns : (move φ scope).function.returns = scope.function.returns := rfl
  induction s using Stmt.induction generalizing atTop with
  | ret start value =>
    change checkStmt (move φ scope) atTop (.ret (move φ start) (move φ value)) = _
    simp only [checkStmt, typeOf_move, hreturns, Expr.pos_move, mapError_bind, mapError_ite]
    rfl
  | cond start test brace body ih =>
    rw [Stmt.move_cond]
    simp only [checkStmt, typeOf_move, checkStmts_move scope ih, Expr.pos_move, mapError_bind,
      mapError_ite]
    rfl
  | assign target value =>
    change checkStmt (move φ scope) atTop (.assign (move φ target) (move φ value)) = _
    have hstore := checkStore_move (φ := φ) scope target.pos target.lexeme value
    simp only [checkStmt, typeOf_move, mapError_bind, ← hstore]
    rfl
  | print start args =>
    change checkStmt (move φ scope) atTop (.print (move φ start) (move φ args)) = _
    simp only [checkStmt, typesOf_move scope fun e _ => typeOf_move scope e, zip_move,
      checkPrinted_move, mapError_bind]
  | decl start p value =>
    change checkStmt (move φ scope) atTop (.decl (move φ start) (move φ p) (move φ value)) = _
    have hstore := checkStore_move (φ := φ) scope start.pos p.name.lexeme value
    simp only [checkStmt, typeOf_move, mapError_bind, mapError_ite, throw_bind, ← hstore]
    rfl
  | call start callee args =>
    change checkStmt (move φ scope) atTop (.call (move φ start) callee (move φ args)) = _
    rw [checkStmt, ← Expr.move_call, typeOf_move, checkStmt, mapError_bind]
    rfl

/-- The scope of a function is made of its table and itself, which both move. -/
theorem scopeOf_move (t : Table) (f : Tree.Function) :
    scopeOf (move φ t) (move φ f) = move φ (scopeOf t f) := by
  have hname : (move φ f).name = f.name := rfl
  rw [scopeOf, hname, Table.find?_move, scopeOf]
  cases t.find? f.name <;> rfl

/-- A function is checked by its statements and by how it ends. If it has no return at its end, its
first token is blamed. -/
theorem checkFunction_move (t : Table) (f : Tree.Function) :
    checkFunction (move φ t) (move φ f) = (checkFunction t f).mapError (move φ) := by
  have hbody : (move φ f).body = move φ f.body := rfl
  have hreturns : (move φ f).returns.isSome = f.returns.isSome := Option.isSome_map
  rw [checkFunction, checkFunction, scopeOf_move, hbody, hreturns, Function.endsInReturn_move,
    checkStmts_move _ fun s _ => checkStmt_move _ s, mapError_bind]
  simp only [mapError_ite]
  rfl

/-- The entry function. An entry that does not exist is nowhere, and so the move has to keep
`nowhere` where it is. -/
theorem checkEntry_move (hφ : φ .nowhere = .nowhere) (t : Table) (entry : String) :
    checkEntry (move φ t) entry = (checkEntry t entry).mapError (move φ) := by
  rw [checkEntry, checkEntry, Table.find?_move]
  rcases t.find? entry with _ | f
  · exact congrArg (fun p => Except.error (SemanticError.mk p .noEntryPoint)) hφ.symm
  · simp only [mapError_ite]
    rfl

/-- **Checking commutes with moving**: a moved program is accepted if and only if the program is,
and is refused for the same reason at the moved place. -/
theorem check_move (hφ : φ .nowhere = .nowhere) (t : Table) (entry : String) (p : Program) :
    check (move φ t) entry (move φ p) = (check t entry p).mapError (move φ) := by
  have hall (fs : List Tree.Function) : (move φ fs).forM (checkFunction (move φ t)) =
      (fs.forM (checkFunction t)).mapError (move φ) := by
    induction fs with
    | nil => rfl
    | cons f fs ih =>
      calc (checkFunction (move φ t) (move φ f) >>= fun _ => (move φ fs).forM _)
        _ = ((checkFunction t f).mapError (move φ) >>= fun _ =>
              (fs.forM (checkFunction t)).mapError (move φ)) := by rw [checkFunction_move, ih]
        _ = _ := (mapError_bind ..).symm
  have hfunctions : (move φ p).functions = move φ p.functions := rfl
  rw [check, check, checkEntry_move hφ, hfunctions, hall, mapError_bind]

end Typing

end Stackling
