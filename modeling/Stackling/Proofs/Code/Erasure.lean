import Stackling.Proofs.Code.Acceptance
import Stackling.Proofs.Erasure

/-!
# Code without tokens

The code of a program depends on the functions that are laid out, without their tokens: what is
emitted for them in the table of the whole program is emitted for their erasures in the table that
holds nothing else (`emitFunctions_erase`). The table is asked for called functions only, and those
are all laid out.
-/

namespace Stackling

open Stackling.Tree

/-! ## Calls -/

/-- The names that are called, in order. -/
def Tree.callees (calls : List (Token × String)) : List String := calls.map Prod.snd

/-- The case of arguments in the induction for `Tree.Expr.callees_erase`. -/
theorem Tree.Expr.callees_eraseAll {es : List Expr}
    (h : ∀ e ∈ es, callees e.erase.calls = callees e.calls) :
    callees (Expr.callsAll (Expr.eraseAll es)) = callees (Expr.callsAll es) := by
  induction es with
  | nil => rfl
  | cons e es ih =>
    obtain ⟨he, hes⟩ := List.forall_mem_cons.mp h
    rw [Expr.eraseAll, Expr.callsAll, Expr.callsAll, callees, callees, List.map_append,
      List.map_append]
    exact congrArg₂ _ he (ih hes)

/-- An expression without its places calls the same functions. -/
theorem Tree.Expr.callees_erase (e : Expr) : callees e.erase.calls = callees e.calls := by
  induction e using Expr.induction with
  | int | bool | str | var => rfl
  | binary op left right ihl ihr =>
    rw [Expr.erase, Expr.calls, Expr.calls, callees, callees, List.map_append, List.map_append]
    exact congrArg₂ _ ihl ihr
  | call start callee args ih =>
    rw [Expr.erase, Expr.calls, Expr.calls, callees, callees, List.map_cons, List.map_cons]
    exact congrArg (callee :: ·) (Expr.callees_eraseAll ih)

/-- The case of a block in the induction for `Tree.Stmt.callees_erase`. -/
theorem Tree.Stmt.callees_eraseAll {ss : List Stmt}
    (h : ∀ s ∈ ss, callees s.erase.calls = callees s.calls) :
    callees (Stmt.callsAll (Stmt.eraseAll ss)) = callees (Stmt.callsAll ss) := by
  induction ss with
  | nil => rfl
  | cons s ss ih =>
    obtain ⟨hs, hss⟩ := List.forall_mem_cons.mp h
    rw [Stmt.eraseAll, Stmt.callsAll, Stmt.callsAll, callees, callees, List.map_append,
      List.map_append]
    exact congrArg₂ _ hs (ih hss)

/-- A statement without its places calls the same functions. -/
theorem Tree.Stmt.callees_erase (s : Stmt) : callees s.erase.calls = callees s.calls := by
  have hargs (args : List Expr) :
      callees (Expr.callsAll (Expr.eraseAll args)) = callees (Expr.callsAll args) :=
    Expr.callees_eraseAll fun a _ => a.callees_erase
  induction s using Stmt.induction with
  | ret start value => exact value.callees_erase
  | cond start test brace body ih =>
    rw [Stmt.erase, Stmt.calls, Stmt.calls, callees, callees, List.map_append, List.map_append]
    exact congrArg₂ _ test.callees_erase (Stmt.callees_eraseAll ih)
  | assign target value => exact value.callees_erase
  | print start args => exact hargs args
  | decl start param value => exact value.callees_erase
  | call start callee args =>
    rw [Stmt.erase, Stmt.calls, Stmt.calls, callees, callees, List.map_cons, List.map_cons]
    exact congrArg (callee :: ·) (hargs args)

/-- Functions that are the same up to tokens call the same functions, in the same order. -/
theorem Tree.Function.callees_eq_of_erase {f f' : Tree.Function} (h : f.erase = f'.erase) :
    callees (Stmt.callsAll f.body) = callees (Stmt.callsAll f'.body) := by
  have hbody : Stmt.eraseAll f.body = Stmt.eraseAll f'.body := congrArg Tree.Function.body h
  rw [← Stmt.callees_eraseAll fun s _ => s.callees_erase, hbody,
    Stmt.callees_eraseAll fun s _ => s.callees_erase]

namespace Code

open Symbols

/-! ## Expressions -/

/-- The functions that are laid out, without tokens, and no others. -/
def Env.erase (env : Env) : Env :=
  ⟨env.order.map Symbols.Function.erase, env.order.map Symbols.Function.erase, env.function.erase⟩

/-- The functions that are laid out are those that the table knows under their names. -/
def Env.Lists (env : Env) : Prop := ∀ f ∈ env.order, env.table.find? f.name = some f

variable {env : Env} {start : Nat} {pool : Pool}

/-- A function of the order is found without its places. -/
theorem Env.Lists.find?_erase (hl : env.Lists) {name : String}
    (hk : ∃ f ∈ env.order, f.name = name) :
    env.erase.table.find? name = (env.table.find? name).map Symbols.Function.erase := by
  obtain ⟨f, hf, rfl⟩ := hk
  have hfind : env.order.find? (fun g => g.name == f.name) = some f := by
    cases hg : env.order.find? (fun g => g.name == f.name) with
    | none => exact absurd (beq_self_eq_true f.name) (List.find?_eq_none.mp hg f hf)
    | some g =>
      have hname := List.find?_some hg
      rw [← hl f hf, ← beq_iff_eq.mp hname, hl g (List.mem_of_find?_eq_some hg)]
  rw [hl f hf, Env.erase, Table.find?, List.find?_map]
  exact congrArg (Option.map _) hfind

theorem findIdx?_erase (order : List Symbols.Function) (name : String) :
    (order.map Symbols.Function.erase).findIdx? (fun f => f.name == name) =
      order.findIdx? fun f => f.name == name :=
  List.findIdx?_map ..

/-- The operands must have the type that the operator takes. -/
theorem staticType_binary_iff {op : BinaryOp} {left right : Expr} {ty : Ty} :
    staticType env (.binary op left right) = .ok ty ↔ staticType env left = .ok op.operandTy ∧
      staticType env right = .ok op.operandTy ∧ op.resultTy = ty := by
  simp only [staticType, bind_eq_ok, throw_bind, guard_eq_ok, pure_eq_ok, not_not]
  constructor
  · rintro ⟨_, hl, rfl, _, hr, rfl, hty⟩
    exact ⟨hl, hr, hty⟩
  · rintro ⟨hl, hr, hty⟩
    exact ⟨_, hl, rfl, _, hr, rfl, hty⟩

/-- An expression without its places has the same type for emission. -/
theorem staticType_erase (hl : env.Lists) {e : Expr} {ty : Ty} (hk : env.Knows e.calls)
    (h : staticType env e = .ok ty) : staticType env.erase e.erase = .ok ty := by
  induction e using Expr.induction generalizing ty with
  | int | bool | str => exact h
  | var name =>
    cases hv : env.function.lookup? name.lexeme with
    | none => simp only [staticType, hv, reduceCtorEq] at h
    | some v =>
      have hv' : env.erase.function.lookup? name.unplaced.lexeme = some v := hv
      simp only [staticType, hv] at h
      simp only [Expr.erase, staticType, hv', h]
  | binary op left right ihl ihr =>
    obtain ⟨hkl, hkr⟩ := Env.Knows.append.mp hk
    obtain ⟨hleft, hright, rfl⟩ := staticType_binary_iff.mp h
    exact staticType_binary_iff.mpr ⟨ihl hkl hleft, ihr hkr hright, rfl⟩
  | call first callee args _ =>
    have hfind := hl.find?_erase (hk _ List.mem_cons_self)
    cases hf : env.table.find? callee with
    | none => simp only [staticType, hf, reduceCtorEq] at h
    | some f =>
      rw [hf] at hfind
      simp only [staticType, hf] at h
      simp only [Expr.erase, staticType, hfind, Option.map_some]
      exact h

/-- The case of arguments in the induction for `emitExpr_erase`. -/
theorem emitExprs_erase_of {es : List Expr}
    (h : ∀ e ∈ es, ∀ {start pool r}, emitExpr env start pool e = .ok r →
      emitExpr env.erase start pool e.erase = .ok r) {r : List Instruction × Pool}
    (hes : emitExprs env start pool es = .ok r) :
    emitExprs env.erase start pool (Expr.eraseAll es) = .ok r := by
  induction es generalizing start pool r with
  | nil => exact hes
  | cons e es ih =>
    simp only [Expr.eraseAll, emitExprs, bind_eq_ok, pure_eq_ok] at hes ⊢
    obtain ⟨⟨code, pool₁⟩, he, ⟨more, pool₂⟩, hmore, rfl⟩ := hes
    obtain ⟨h, hrest⟩ := List.forall_mem_cons.mp h
    exact ⟨_, h he, _, ih hrest hmore, rfl⟩

/-- **An expression has the same code** without its tokens, among the functions laid out. -/
theorem emitExpr_erase (hl : env.Lists) {e : Expr} (hk : env.Knows e.calls)
    {r : List Instruction × Pool} (h : emitExpr env start pool e = .ok r) :
    emitExpr env.erase start pool e.erase = .ok r := by
  induction e using Expr.induction generalizing start pool r with
  | int | bool | str => exact h
  | var name =>
    cases hv : env.function.lookup? name.lexeme with
    | none => simp only [emitExpr, hv, reduceCtorEq] at h
    | some v =>
      have hv' : env.erase.function.lookup? name.unplaced.lexeme = some v := hv
      simp only [emitExpr, hv] at h
      simp only [Expr.erase, emitExpr, hv', h]
  | binary op left right ihl ihr =>
    obtain ⟨hkl, hkr⟩ := Env.Knows.append.mp hk
    simp only [emitExpr, bind_eq_ok] at h
    obtain ⟨ty, hty, ⟨code, pool₁⟩, hleft, h⟩ := h
    have hty' : staticType env.erase (.binary op left.erase right.erase) = .ok ty :=
      staticType_erase hl hk hty
    simp only [Expr.erase, emitExpr, bind_eq_ok]
    refine ⟨ty, hty', _, ihl hkl hleft, ?_⟩
    -- each strategy emits the right operand once and puts the same instructions around it
    cases hs : strategy op <;> simp only [hs, bind_eq_ok, pure_eq_ok] at h ⊢
    all_goals
      obtain ⟨⟨more, pool₂⟩, hright, rfl⟩ := h
      exact ⟨_, ihr hkr hright, rfl⟩
  | call first callee args ih =>
    simp only [emitExpr, bind_eq_ok] at h
    obtain ⟨⟨code, pool₁⟩, hargs, h⟩ := h
    have hargs' := emitExprs_erase_of (fun a ha start pool r => ih a ha fun c hc =>
      hk c (List.mem_cons_of_mem _ (mem_callsAll_exprs.mpr ⟨a, ha, hc⟩))) hargs
    simp only [Expr.erase, emitExpr, bind_eq_ok]
    refine ⟨_, hargs', ?_⟩
    rw [Env.erase, findIdx?_erase]
    cases hi : env.order.findIdx? fun f => f.name == callee with
    | none => simp only [hi] at h; cases h
    | some i => simpa only [hi] using h

/-- Expressions without their places have the same code. -/
theorem emitExprs_erase (hl : env.Lists) {es : List Expr} (hk : env.Knows (Expr.callsAll es))
    {r : List Instruction × Pool} (h : emitExprs env start pool es = .ok r) :
    emitExprs env.erase start pool (Expr.eraseAll es) = .ok r :=
  emitExprs_erase_of (fun e he _ _ _ => emitExpr_erase hl fun c hc =>
    hk c (mem_callsAll_exprs.mpr ⟨e, he, hc⟩)) h

/-! ## Statements -/

/-- Storing a value without places has the same code. The place is for errors only. -/
theorem emitStore_erase (hl : env.Lists) {name : String} {value : Expr} (hk : env.Knows value.calls)
    {place place' : Position} {r : List Instruction × Pool}
    (h : emitStore env start pool place name value = .ok r) :
    emitStore env.erase start pool place' name value.erase = .ok r := by
  cases hv : env.function.lookup? name with
  | none => simp only [emitStore, hv, reduceCtorEq] at h
  | some v =>
    have hv' : env.erase.function.lookup? name = some v := hv
    simp only [emitStore, hv, hv', bind_eq_ok, pure_eq_ok] at h ⊢
    obtain ⟨⟨code, pool₁⟩, hcode, rfl⟩ := h
    exact ⟨_, emitExpr_erase hl hk hcode, rfl⟩

theorem leavesResult_erase (hl : env.Lists) {callee : String}
    (hk : ∃ f ∈ env.order, f.name = callee) :
    leavesResult env.erase callee = leavesResult env callee := by
  rw [leavesResult, leavesResult, hl.find?_erase hk]
  cases env.table.find? callee <;> rfl

theorem isAlone_erase (env : Env) : env.erase.isAlone = env.isAlone := by
  rw [Env.isAlone, Env.isAlone, Env.erase, List.length_map]

/-- The case of a block in the induction for `emitStmt_erase`. -/
theorem emitStmts_erase_of {ss : List Stmt}
    (h : ∀ s ∈ ss, ∀ {final start pool r}, emitStmt env final start pool s = .ok r →
      emitStmt env.erase final start pool s.erase = .ok r) {final : Bool}
    {r : List Instruction × Pool} (hss : emitStmts env final start pool ss = .ok r) :
    emitStmts env.erase final start pool (Stmt.eraseAll ss) = .ok r := by
  induction ss generalizing start pool r with
  | nil => exact hss
  | cons s ss ih =>
    have hempty : (Stmt.eraseAll ss).isEmpty = ss.isEmpty := by cases ss <;> rfl
    simp only [Stmt.eraseAll, emitStmts, bind_eq_ok, pure_eq_ok, hempty] at hss ⊢
    obtain ⟨⟨code, pool₁⟩, hs, ⟨more, pool₂⟩, hmore, rfl⟩ := hss
    obtain ⟨h, hrest⟩ := List.forall_mem_cons.mp h
    exact ⟨_, h hs, _, ih hrest hmore, rfl⟩

/-- **A statement has the same code** without its tokens, among the functions laid out. -/
theorem emitStmt_erase (hl : env.Lists) {s : Stmt} (hk : env.Knows s.calls) {final : Bool}
    {r : List Instruction × Pool} (h : emitStmt env final start pool s = .ok r) :
    emitStmt env.erase final start pool s.erase = .ok r := by
  induction s using Stmt.induction generalizing final start pool r with
  | ret first value =>
    simp only [Stmt.erase, emitStmt, bind_eq_ok, isAlone_erase] at h ⊢
    obtain ⟨⟨code, pool₁⟩, hcode, h⟩ := h
    exact ⟨_, emitExpr_erase hl hk hcode, h⟩
  | cond first test brace body ih =>
    obtain ⟨hkt, hkb⟩ := Env.Knows.append.mp hk
    simp only [Stmt.erase, emitStmt, bind_eq_ok] at h ⊢
    obtain ⟨⟨code, pool₁⟩, htest, ⟨more, pool₂⟩, hbody, h⟩ := h
    refine ⟨_, emitExpr_erase hl hkt htest, _, emitStmts_erase_of ?_ hbody, h⟩
    exact fun s hs _ _ _ _ => ih s hs fun c hc => hkb c (mem_callsAll_stmts.mpr ⟨s, hs, hc⟩)
  | assign target value => exact emitStore_erase hl hk h
  | print first args =>
    have hlength : (Expr.eraseAll args).length = args.length := by
      rw [Expr.eraseAll_eq_map, List.length_map]
    simp only [Stmt.erase, emitStmt, bind_eq_ok, hlength] at h ⊢
    obtain ⟨⟨code, pool₁⟩, hargs, h⟩ := h
    exact ⟨_, emitExprs_erase hl hk hargs, h⟩
  | decl first param value => exact emitStore_erase hl hk h
  | call first callee args =>
    simp only [Stmt.erase, emitStmt, bind_eq_ok] at h ⊢
    obtain ⟨⟨code, pool₁⟩, hcall, h⟩ := h
    rw [leavesResult_erase hl (hk _ List.mem_cons_self)]
    exact ⟨_, emitExpr_erase hl (e := .call first callee args) hk hcall, h⟩

/-! ## Functions -/

/-- A function without its places has the same code. -/
theorem emitFunction_erase (hl : env.Lists)
    (hk : env.Knows (Stmt.callsAll env.function.decl.body)) {r : List Instruction × Pool}
    (h : emitFunction env start pool = .ok r) : emitFunction env.erase start pool = .ok r := by
  have hends : env.erase.function.decl.endsInReturn = env.function.decl.endsInReturn :=
    env.function.decl.endsInReturn_erase
  have hcount : env.erase.function.localCount = env.function.localCount := rfl
  simp only [emitFunction, bind_eq_ok, hends, hcount, isAlone_erase] at h ⊢
  obtain ⟨⟨code, pool₁⟩, hbody, h⟩ := h
  refine ⟨_, emitStmts_erase_of ?_ hbody, h⟩
  exact fun s hs _ _ _ _ => emitStmt_erase hl fun c hc => hk c (mem_callsAll_stmts.mpr ⟨s, hs, hc⟩)

/-- **Code depends only on the functions laid out**, up to tokens. -/
theorem emitFunctions_erase {t : Table} {order : List Symbols.Function}
    (hl : ∀ f ∈ order, t.find? f.name = some f)
    (hk : ∀ f ∈ order, ∀ name, Calls f name → ∃ g ∈ order, g.name = name)
    {fs : List Symbols.Function} (hfs : fs ⊆ order) {prog : Program}
    (h : emitFunctions t order start pool fs = .ok prog) :
    emitFunctions (order.map Symbols.Function.erase) (order.map Symbols.Function.erase) start pool
      (fs.map Symbols.Function.erase) = .ok prog := by
  induction fs generalizing start pool prog with
  | nil => exact h
  | cons f fs ih =>
    simp only [List.map_cons, emitFunctions, bind_eq_ok, pure_eq_ok] at h ⊢
    obtain ⟨⟨code, pool₁⟩, hf, rest, hrest, rfl⟩ := h
    obtain ⟨hmem, hfs⟩ := List.cons_subset.mp hfs
    have hlists : Env.Lists ⟨t, order, f⟩ := hl
    have hknows : Env.Knows ⟨t, order, f⟩ (Stmt.callsAll f.decl.body) := fun c hc =>
      hk f hmem c.2 ⟨c.1, hc⟩
    exact ⟨_, emitFunction_erase hlists hknows hf, rest, ih hfs hrest, rfl⟩

end Code

end Stackling
