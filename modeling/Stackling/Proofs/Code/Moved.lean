import Stackling.Code.Emit
import Stackling.Proofs.Moved

/-!
# Code at other places

The code of a moved program is the code of the program, and where there is none the error moves
(`emit_move`). Functions are discovered in the same order, since discovery reads names only
(`reachable_move`), and instructions have no places in them.
-/

namespace Stackling

open Stackling.Tree Stackling.Symbols

variable {φ : Position → Position}

/-! ## Calls -/

namespace Tree

/-- The case of arguments in the induction for `Expr.calls_move`. -/
theorem Expr.callsAll_move {es : List Expr} (h : ∀ e ∈ es, (move φ e).calls = move φ e.calls) :
    Expr.callsAll (move φ es) = move φ (Expr.callsAll es) := by
  induction es with
  | nil => rfl
  | cons e es ih =>
    obtain ⟨he, hes⟩ := List.forall_mem_cons.mp h
    calc (move φ e).calls ++ Expr.callsAll (move φ es)
      _ = move φ e.calls ++ move φ (Expr.callsAll es) := by rw [he, ih hes]
      _ = _ := (move_append ..).symm

/-- The calls in an expression, each with its token, move with it. -/
theorem Expr.calls_move (e : Expr) : (move φ e).calls = move φ e.calls := by
  induction e using Expr.induction with
  | int | bool | str | var => rfl
  | binary op left right ihl ihr =>
    calc (move φ left).calls ++ (move φ right).calls
      _ = move φ left.calls ++ move φ right.calls := by rw [ihl, ihr]
      _ = _ := (move_append ..).symm
  | call start callee args ih =>
    rw [Expr.move_call, Expr.calls, Expr.callsAll_move ih]
    rfl

/-- The case of a block in the induction for `Stmt.calls_move`. -/
theorem Stmt.callsAll_move {ss : List Stmt} (h : ∀ s ∈ ss, (move φ s).calls = move φ s.calls) :
    Stmt.callsAll (move φ ss) = move φ (Stmt.callsAll ss) := by
  induction ss with
  | nil => rfl
  | cons s ss ih =>
    obtain ⟨hs, hss⟩ := List.forall_mem_cons.mp h
    calc (move φ s).calls ++ Stmt.callsAll (move φ ss)
      _ = move φ s.calls ++ move φ (Stmt.callsAll ss) := by rw [hs, ih hss]
      _ = _ := (move_append ..).symm

/-- The calls in a statement move with it. -/
theorem Stmt.calls_move (s : Stmt) : (move φ s).calls = move φ s.calls := by
  have hargs (args : List Expr) : Expr.callsAll (move φ args) = move φ (Expr.callsAll args) :=
    Expr.callsAll_move fun e _ => e.calls_move
  induction s using Stmt.induction with
  | ret start value | assign target value | decl start param value => exact value.calls_move
  | cond start test brace body ih =>
    rw [Stmt.move_cond, Stmt.calls, test.calls_move, Stmt.callsAll_move ih]
    exact (move_append ..).symm
  | print start args => exact hargs args
  | call start callee args => exact congrArg ((move φ start, callee) :: ·) (hargs args)

end Tree

namespace Code

/-! ## Discovery -/

instance : Movable Search := ⟨fun φ s => ⟨move φ s.pending, move φ s.unseen⟩⟩

/-- Functions are taken out by name. -/
theorem eraseP_move (t : Table) (name : String) :
    (move φ t : Table).eraseP (fun g => g.name == name) =
      move φ (t.eraseP fun g => g.name == name) :=
  List.eraseP_map ..

/-- The search takes the same function from those it has not seen. -/
theorem Search.find_move (s : Search) (name : String) :
    (move φ s).find name = move φ (s.find name) := by
  have hunseen : (move φ s).unseen = move φ s.unseen := rfl
  rw [find, find, hunseen, Table.find?_move, eraseP_move]
  rcases s.unseen.find? name with _ | f
  · rfl
  · exact congrArg (Search.mk · _) (move_append s.pending [f]).symm

/-- The search follows the calls of one function. It goes by names, and fails at the place of the
first call whose function is unknown. -/
theorem Search.follow_move (t : Table) (calls : List (Token × String)) (s : Search) :
    (move φ s).follow (move φ t) (move φ calls) = move φ (s.follow t calls) := by
  induction calls generalizing s with
  | nil => rfl
  | cons c calls ih =>
    change (move φ s).follow (move φ t) ((move φ c.1, c.2) :: move φ calls) = _
    rw [follow, follow, Table.find?_move]
    rcases t.find? c.2 with _ | f
    · rfl
    · exact (congrArg (follow _ · _) (s.find_move c.2)).trans (ih _)

/-- The next function is looked into, and then the search goes on. -/
theorem discover_cons (t : Table) (f : Symbols.Function) (pending : List Symbols.Function)
    (unseen : Table) : discover t ⟨f :: pending, unseen⟩ =
      (Search.follow t ⟨pending, unseen⟩ (Stmt.callsAll f.decl.body) >>= fun s =>
        do return f :: (← discover t s)) := by
  rw [discover]
  split
  · next e he =>
    rw [he]
    rfl
  · next s hs => simp only [hs, ok_bind]

/-- The search as a whole, by the recursion it is defined with. -/
theorem discover_move (t : Table) (s : Search) :
    discover (move φ t) (move φ s) = move φ (discover t s) := by
  have hcons (f : Symbols.Function) (pending : List Symbols.Function) (unseen : Table) :
      discover (move φ t) (move φ ⟨f :: pending, unseen⟩) =
        (move φ (Search.follow t ⟨pending, unseen⟩ (Stmt.callsAll f.decl.body)) >>= fun s =>
          do return move φ f :: (← discover (move φ t) s)) := by
    rw [← Search.follow_move, ← Stmt.callsAll_move fun s _ => s.calls_move]
    exact discover_cons ..
  fun_induction discover t s with
  | case1 unseen =>
    change discover (move φ t) ⟨[], _⟩ = _
    rw [discover]
    rfl
  | case2 f pending unseen e he =>
    rw [hcons, he]
    rfl
  | case3 f pending unseen s' hs' _ ih =>
    rw [hcons, hs']
    exact bind_move ih fun order _ => rfl

/-- The functions that are reached are the moved ones, in the same order. So they have the same
numbers. -/
theorem reachable_move (t : Table) (entry : Symbols.Function) :
    reachable (move φ t) (move φ entry) = move φ (reachable t entry) := by
  have hname : (move φ entry).name = entry.name := rfl
  rw [reachable, hname, eraseP_move]
  exact discover_move t ⟨[entry], _⟩

/-! ## Emission -/

instance : Movable Env := ⟨fun φ env => ⟨move φ env.table, move φ env.order, move φ env.function⟩⟩

section Env

variable (env : Env)

/-- Slots are found by name. -/
theorem lookup?_move (name : String) :
    (move φ env).function.lookup? name = env.function.lookup? name := rfl

/-- Functions are found by name. -/
theorem find?_move (name : String) :
    (move φ env).table.find? name = move φ (env.table.find? name) :=
  Table.find?_move φ env.table name

/-- The number of a function in the order does not move. Calls are emitted with this number. -/
theorem findIdx?_move (name : String) :
    (move φ env).order.findIdx? (fun f => f.name == name) =
      env.order.findIdx? fun f => f.name == name :=
  List.findIdx?_map ..

/-- Whether it is the only function does not move. -/
theorem isAlone_move : (move φ env).isAlone = env.isAlone :=
  congrArg (· == 1) (List.length_map ..)

/-- Whether a call leaves a value does not move. -/
theorem leavesResult_move (callee : String) :
    leavesResult (move φ env) callee = leavesResult env callee := by
  rw [leavesResult, find?_move, leavesResult]
  cases env.table.find? callee <;> rfl

/-- The type of an expression as emission sees it. -/
theorem staticType_move (e : Expr) :
    staticType (move φ env) (move φ e) = (staticType env e).mapError (move φ) := by
  induction e using Expr.induction with
  | int | bool | str => rfl
  | var name =>
    change staticType (move φ env) (.var (move φ name)) = _
    rw [staticType, staticType, lookup?_move, Token.lexeme_move]
    cases env.function.lookup? name.lexeme <;> rfl
  | binary op left right ihl ihr =>
    change staticType (move φ env) (.binary op (move φ left) (move φ right)) = _
    simp only [staticType, ihl, ihr, mapError_bind, Expr.pos_move, throw_bind, mapError_ite]
    rfl
  | call start callee args ih =>
    rw [Expr.move_call, staticType, staticType, find?_move]
    cases env.table.find? callee <;> rfl

/-- The case of arguments in the induction for `emitExpr_move`. -/
theorem emitExprs_move {es : List Expr}
    (h : ∀ e ∈ es, ∀ start pool, emitExpr (move φ env) start pool (move φ e) =
      (emitExpr env start pool e).mapError (move φ)) (start : Nat) (pool : Pool) :
    emitExprs (move φ env) start pool (move φ es) =
      (emitExprs env start pool es).mapError (move φ) := by
  induction es generalizing start pool with
  | nil => rfl
  | cons e es ih =>
    obtain ⟨he, hes⟩ := List.forall_mem_cons.mp h
    change emitExprs (move φ env) start pool (move φ e :: move φ es) = _
    simp only [emitExprs, he, ih hes, mapError_bind]
    rfl

/-- The code of an expression does not move at all: instructions have addresses, but no places of
the text. -/
theorem emitExpr_move (e : Expr) (start : Nat) (pool : Pool) :
    emitExpr (move φ env) start pool (move φ e) =
      (emitExpr env start pool e).mapError (move φ) := by
  induction e using Expr.induction generalizing start pool with
  | int | bool | str => rfl
  | var name =>
    change emitExpr (move φ env) start pool (.var (move φ name)) = _
    rw [emitExpr, emitExpr, lookup?_move, Token.lexeme_move]
    cases env.function.lookup? name.lexeme <;> rfl
  | binary op left right ihl ihr =>
    have htype := staticType_move (φ := φ) env (.binary op left right)
    change staticType (move φ env) (.binary op (move φ left) (move φ right)) = _ at htype
    change emitExpr (move φ env) start pool (.binary op (move φ left) (move φ right)) = _
    simp only [emitExpr, htype, ihl, mapError_bind]
    cases strategy op <;> simp only [ihr, mapError_bind] <;> rfl
  | call first callee args ih =>
    rw [Expr.move_call]
    simp only [emitExpr, emitExprs_move env ih, findIdx?_move, mapError_bind]
    cases env.order.findIdx? fun f => f.name == callee <;> rfl

/-- The code for storing a value. The place is handed in, so it is moved by hand. -/
theorem emitStore_move (start : Nat) (pool : Pool) (place : Position) (name : String)
    (value : Expr) : emitStore (move φ env) start pool (φ place) name (move φ value) =
      (emitStore env start pool place name value).mapError (move φ) := by
  rw [emitStore, emitStore, lookup?_move, emitExpr_move]
  rcases env.function.lookup? name with _ | v
  · rfl
  · simp only [mapError_bind]
    rfl

/-- The case of a block in the induction for `emitStmt_move`. -/
theorem emitStmts_move {ss : List Stmt}
    (h : ∀ s ∈ ss, ∀ final start pool, emitStmt (move φ env) final start pool (move φ s) =
      (emitStmt env final start pool s).mapError (move φ))
    (final : Bool) (start : Nat) (pool : Pool) :
    emitStmts (move φ env) final start pool (move φ ss) =
      (emitStmts env final start pool ss).mapError (move φ) := by
  induction ss generalizing start pool with
  | nil => rfl
  | cons s ss ih =>
    obtain ⟨hs, hss⟩ := List.forall_mem_cons.mp h
    have hlast : (move φ ss).isEmpty = ss.isEmpty := List.isEmpty_map ..
    change emitStmts (move φ env) final start pool (move φ s :: move φ ss) = _
    simp only [emitStmts, hlast, hs, ih hss, mapError_bind]
    rfl

/-- The code of a statement does not move. -/
theorem emitStmt_move (s : Stmt) (final : Bool) (start : Nat) (pool : Pool) :
    emitStmt (move φ env) final start pool (move φ s) =
      (emitStmt env final start pool s).mapError (move φ) := by
  have hreturns : (move φ env).function.returns = env.function.returns := rfl
  induction s using Stmt.induction generalizing final start pool with
  | ret first value =>
    change emitStmt (move φ env) final start pool (.ret (move φ first) (move φ value)) = _
    simp only [emitStmt, emitExpr_move, isAlone_move, hreturns, mapError_bind, mapError_ite]
    rfl
  | cond first test brace body ih =>
    rw [Stmt.move_cond]
    simp only [emitStmt, emitExpr_move, emitStmts_move env ih, mapError_bind]
    rfl
  | assign target value => exact emitStore_move env start pool target.pos target.lexeme value
  | print first args =>
    change emitStmt (move φ env) final start pool (.print (move φ first) (move φ args)) = _
    have hlength : (move φ args).length = args.length := List.length_map ..
    simp only [emitStmt, emitExprs_move env fun e _ => emitExpr_move env e, hlength, mapError_bind]
    rfl
  | decl first p value => exact emitStore_move env start pool first.pos p.name.lexeme value
  | call first callee args =>
    change emitStmt (move φ env) final start pool (.call (move φ first) callee (move φ args)) = _
    simp only [emitStmt, ← Expr.move_call, emitExpr_move, leavesResult_move, mapError_bind]
    rfl

/-- The code of a function does not move. -/
theorem emitFunction_move (start : Nat) (pool : Pool) :
    emitFunction (move φ env) start pool = (emitFunction env start pool).mapError (move φ) := by
  have hdecl : (move φ env).function.decl = move φ env.function.decl := rfl
  have hbody : (move φ env.function.decl).body = move φ env.function.decl.body := rfl
  have hlocals : (move φ env).function.localCount = env.function.localCount := rfl
  simp only [emitFunction, hdecl, hbody, hlocals, Function.endsInReturn_move, isAlone_move,
    emitStmts_move env fun s _ => emitStmt_move env s, mapError_bind]
  rfl

end Env

/-- The code of several functions, one behind the other. -/
theorem emitFunctions_move (t : Table) (order fs : List Symbols.Function) (start : Nat)
    (pool : Pool) : emitFunctions (move φ t) (move φ order) start pool (move φ fs) =
      (emitFunctions t order start pool fs).mapError (move φ) := by
  induction fs generalizing start pool with
  | nil => rfl
  | cons f fs ih =>
    have hfunction : emitFunction ⟨move φ t, move φ order, move φ f⟩ start pool =
        (emitFunction ⟨t, order, f⟩ start pool).mapError (move φ) :=
      emitFunction_move ⟨t, order, f⟩ start pool
    change emitFunctions (move φ t) (move φ order) start pool (move φ f :: move φ fs) = _
    simp only [emitFunctions, hfunction, ih, mapError_bind]
    rfl

/-- **Emitting commutes with moving**: a moved program has the same code, or an error that has
moved. -/
theorem emit_move (t : Table) (entry : String) (p : Tree.Program) :
    emit (move φ t) entry (move φ p) = (emit t entry p).mapError (move φ) := by
  rw [emit, emit, Table.find?_move]
  rcases t.find? entry with _ | f
  · rfl
  · exact bind_mapError_move (reachable_move t f) fun order => emitFunctions_move t order order 0 []

end Code

end Stackling
