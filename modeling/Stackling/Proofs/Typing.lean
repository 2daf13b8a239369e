import Stackling.Proofs.Except
import Stackling.Proofs.Symbols
import Stackling.Proofs.Tree
import Stackling.Typing

/-!
# The type system

The rules that a program has to obey, as judgements: `HasType` for expressions, `StmtTyped` for
statements, `FunctionTyped` for functions and `WellTyped` for a program with an entry function.
They say nothing about the order in which faults are found, nor about messages.

The checker decides them. Each of its functions gets one equivalence (`typeOf_eq_ok_iff`,
`checkStmt_eq_ok_iff`, `checkFunction_eq_ok_iff`), and what is proved later of accepted programs
starts from the judgements.
-/

namespace Stackling.Typing

open Stackling.Tree Stackling.Symbols

/-! ## Judgements -/

/-- `HasType scope e ty`: in `scope` the expression `e` has the type `ty`. -/
inductive HasType (scope : Scope) : Expr → Ty → Prop where
  | int (literal : Token) (value : Int32) : HasType scope (.int literal value) .int
  | bool (literal : Token) (value : Bool) : HasType scope (.bool literal value) .bool
  | str (literal : Token) : HasType scope (.str literal) .string
  | var {name : Token} {v : Variable} (hv : scope.function.lookup? name.lexeme = some v) :
      HasType scope (.var name) v.type
  | arithmetic {op : BinaryOp} {left right : Expr}
      (hop : op = .plus ∨ op = .minus ∨ op = .times ∨ op = .divide)
      (hl : HasType scope left .int) (hr : HasType scope right .int) :
      HasType scope (.binary op left right) .int
  | comparison {op : BinaryOp} {left right : Expr}
      (hop : op = .eq ∨ op = .ne ∨ op = .gt ∨ op = .ge ∨ op = .lt ∨ op = .le)
      (hl : HasType scope left .int) (hr : HasType scope right .int) :
      HasType scope (.binary op left right) .bool
  | logical {op : BinaryOp} {left right : Expr} (hop : op = .and ∨ op = .or)
      (hl : HasType scope left .bool) (hr : HasType scope right .bool) :
      HasType scope (.binary op left right) .bool
  /-- as many arguments as parameters, and each of the type of its parameter -/
  | call {start : Token} {callee : String} {args : List Expr} {f : Symbols.Function}
      (hf : scope.table.find? callee = some f) (hlen : args.length = f.params.length)
      (hargs : ∀ a p, (a, p) ∈ args.zip f.params → HasType scope a p.type) :
      HasType scope (.call start callee args) f.returns

/-- `StmtTyped scope atTop s`: the statement `s` is well typed, standing directly in the function's
body (`atTop`) or further down. -/
inductive StmtTyped (scope : Scope) : Bool → Stmt → Prop where
  /-- a function without a result type may return anything that has a type -/
  | ret {atTop : Bool} {start : Token} {value : Expr} {ty : Ty} (hv : HasType scope value ty)
      (hty : scope.function.returns ≠ .void → ty = scope.function.returns) :
      StmtTyped scope atTop (.ret start value)
  | cond {atTop : Bool} {start brace : Token} {test : Expr} {body : List Stmt}
      (ht : HasType scope test .bool) (hb : ∀ s ∈ body, StmtTyped scope false s) :
      StmtTyped scope atTop (.cond start test brace body)
  | assign {atTop : Bool} {target : Token} {value : Expr} {v : Variable}
      (hv : scope.function.lookup? target.lexeme = some v) (he : HasType scope value v.type) :
      StmtTyped scope atTop (.assign target value)
  | print {atTop : Bool} {start : Token} {args : List Expr}
      (ha : ∀ a ∈ args, ∃ ty, ty ≠ .void ∧ HasType scope a ty) :
      StmtTyped scope atTop (.print start args)
  /-- only directly in the function's body -/
  | decl {start : Token} {param : Param} {value : Expr} {v : Variable}
      (hv : scope.function.lookup? param.name.lexeme = some v)
      (he : HasType scope value v.type) : StmtTyped scope true (.decl start param value)
  | call {atTop : Bool} {start : Token} {callee : String} {args : List Expr} {ty : Ty}
      (hc : HasType scope (.call start callee args) ty) :
      StmtTyped scope atTop (.call start callee args)

/-- A function whose statements are well typed and that ends in a `return` if it has a result
type. -/
structure FunctionTyped (scope : Scope) (f : Tree.Function) : Prop where
  body : ∀ s ∈ f.body, StmtTyped scope true s
  ends : ∀ type, f.returns = some type → ∃ start value, f.body.getLast? = some (.ret start value)

/-- A program that is well typed and can start in the function called `entry`. The functions are
looked at in the scope that the table gives them, whether the entry function reaches them or
not. -/
structure WellTyped (t : Table) (entry : String) (p : Program) : Prop where
  entry : ∃ f, t.find? entry = some f ∧ f.params = [] ∧ (f.returns = .void ∨ f.returns = .int)
  functions : ∀ f ∈ p.functions, ∃ g, t.find? f.name = some g ∧ FunctionTyped ⟨t, g⟩ f

/-! ## Expressions -/

/-- Every argument of a well-typed call has a type. -/
theorem HasType.exists_of_mem {scope : Scope} {start : Token} {callee : String} {args : List Expr}
    {ty : Ty} (h : HasType scope (.call start callee args) ty) {a : Expr} (ha : a ∈ args) :
    ∃ ty', HasType scope a ty' := by
  cases h with
  | @call _ _ _ f hf hlen hargs =>
    obtain ⟨i, hi, rfl⟩ := List.getElem_of_mem ha
    have hi' : i < f.params.length := hlen ▸ hi
    refine ⟨f.params[i].type, hargs _ f.params[i] ?_⟩
    have hzip : i < (args.zip f.params).length := by
      rw [List.length_zip]
      exact Nat.lt_min.mpr ⟨hi, hi'⟩
    rw [← List.getElem_zip (h := hzip)]
    exact List.getElem_mem hzip

/-- The rules for the three kinds of operator are one rule over `operandTy` and `resultTy`. -/
theorem hasType_binary_iff {scope : Scope} {op : BinaryOp} {left right : Expr} {ty : Ty} :
    HasType scope (.binary op left right) ty ↔
      HasType scope left op.operandTy ∧ HasType scope right op.operandTy ∧ op.resultTy = ty := by
  refine ⟨?_, ?_⟩
  · intro h
    cases h with
    | arithmetic hop hl hr => rcases hop with rfl | rfl | rfl | rfl <;> exact ⟨hl, hr, rfl⟩
    | comparison hop hl hr =>
      rcases hop with rfl | rfl | rfl | rfl | rfl | rfl <;> exact ⟨hl, hr, rfl⟩
    | logical hop hl hr => rcases hop with rfl | rfl <;> exact ⟨hl, hr, rfl⟩
  · rintro ⟨hl, hr, rfl⟩
    cases op with
    | and | or => exact .logical (by simp) hl hr
    | eq | ne | gt | ge | lt | le => exact .comparison (by simp) hl hr
    | plus | minus | times | divide => exact .arithmetic (by simp) hl hr

/-- **Arguments.** Typing the arguments and comparing the types with the parameters succeeds if
and only if every argument has the type of its parameter. -/
theorem typesOf_matchArgs_iff {scope : Scope} {args : List Expr} :
    ∀ {ps : List Variable}, args.length = ps.length →
      ((∃ types, typesOf scope args = .ok types ∧ matchArgs ps (args.zip types) = .ok ()) ↔
        ∀ a p, (a, p) ∈ args.zip ps → typeOf scope a = .ok p.type) := by
  induction args with
  | nil =>
    intro ps hlen
    rw [List.eq_nil_of_length_eq_zero hlen.symm]
    exact ⟨fun _ a p h => by simp at h, fun _ => ⟨[], rfl, rfl⟩⟩
  | cons a args ih =>
    intro ps hlen
    obtain ⟨p, ps, rfl⟩ := List.exists_cons_of_length_eq_add_one hlen.symm
    have hlen' : args.length = ps.length := by simpa using hlen
    have ih := ih hlen'
    refine ⟨?_, ?_⟩
    · rintro ⟨types, ht, hm⟩
      simp only [typesOf, bind_eq_ok, pure_eq_ok] at ht
      obtain ⟨ty, hty, tys, htys, rfl⟩ := ht
      simp only [List.zip_cons_cons, matchArgs] at hm
      split at hm
      · next hacc =>
        intro b q hbq
        rcases List.mem_cons.mp hbq with hbq | hbq
        · cases hbq
          rw [hty, beq_iff_eq.mp hacc]
        · exact ih.mp ⟨tys, htys, hm⟩ b q hbq
      · cases hm
    · intro h
      have ha := h a p (by simp)
      obtain ⟨tys, htys, hm⟩ := ih.mpr fun b q hbq => h b q (by simp [hbq])
      refine ⟨p.type :: tys, by simp [typesOf, ha, htys, bind_eq_ok], ?_⟩
      have hacc : p.type.accepts p.type = true := beq_self_eq_true _
      rw [List.zip_cons_cons, matchArgs, if_pos hacc]
      exact hm

theorem typeOf_binary_iff {scope : Scope} {op : BinaryOp} {left right : Expr} {ty : Ty} :
    typeOf scope (.binary op left right) = .ok ty ↔
      typeOf scope left = .ok op.operandTy ∧ typeOf scope right = .ok op.operandTy ∧
        op.resultTy = ty := by
  simp only [typeOf, bind_eq_ok, throw_bind, guard_eq_ok, pure_eq_ok, Decidable.not_not]
  refine ⟨?_, ?_⟩
  · rintro ⟨l, hl, r, hr, rfl, rfl, hty⟩
    exact ⟨hl, hr, hty⟩
  · rintro ⟨hl, hr, hty⟩
    exact ⟨_, hl, _, hr, rfl, rfl, hty⟩

theorem typeOf_call_iff {scope : Scope} {start : Token} {callee : String} {args : List Expr}
    {ty : Ty} :
    typeOf scope (.call start callee args) = .ok ty ↔
      ∃ f, scope.table.find? callee = some f ∧ args.length = f.params.length ∧
        (∀ a p, (a, p) ∈ args.zip f.params → typeOf scope a = .ok p.type) ∧ f.returns = ty := by
  simp only [typeOf, bind_eq_ok]
  rcases hf : scope.table.find? callee with _ | f
  · refine ⟨?_, ?_⟩
    · rintro ⟨types, -, h⟩
      cases h
    · rintro ⟨f, hf', -⟩
      cases hf'
  · simp only [throw_bind, guard_eq_ok, Decidable.not_not, bind_eq_ok, pure_eq_ok]
    refine ⟨?_, ?_⟩
    · rintro ⟨types, ht, hlen, ⟨⟩, hm, rfl⟩
      exact ⟨f, rfl, hlen.symm, (typesOf_matchArgs_iff hlen.symm).mp ⟨types, ht, hm⟩, rfl⟩
    · rintro ⟨g, hg, hlen, hargs, rfl⟩
      cases hg
      obtain ⟨types, ht, hm⟩ := (typesOf_matchArgs_iff hlen).mpr hargs
      exact ⟨types, ht, hlen.symm, (), hm, rfl⟩

/-- **The checker computes the type of an expression** exactly if it has one. -/
theorem typeOf_eq_ok_iff {scope : Scope} {e : Expr} {ty : Ty} :
    typeOf scope e = .ok ty ↔ HasType scope e ty := by
  induction e using Expr.induction generalizing ty with
  | int literal value =>
    refine ⟨?_, ?_⟩
    · rintro ⟨⟩
      exact .int literal value
    · rintro ⟨⟩
      rfl
  | bool literal value =>
    refine ⟨?_, ?_⟩
    · rintro ⟨⟩
      exact .bool literal value
    · rintro ⟨⟩
      rfl
  | str literal =>
    refine ⟨?_, ?_⟩
    · rintro ⟨⟩
      exact .str literal
    · rintro ⟨⟩
      rfl
  | var name =>
    rw [typeOf]
    refine ⟨?_, ?_⟩
    · intro h
      split at h
      · next v hv =>
        cases h
        exact .var hv
      · cases h
    · rintro ⟨⟩
      next v hv => rw [hv]
  | binary op left right ihl ihr => rw [typeOf_binary_iff, hasType_binary_iff, ihl, ihr]
  | call start callee args ih =>
    rw [typeOf_call_iff]
    refine ⟨?_, ?_⟩
    · rintro ⟨f, hf, hlen, hargs, rfl⟩
      refine .call hf hlen ?_
      intro a p hap
      exact (ih a (List.of_mem_zip hap).1).mp (hargs a p hap)
    · rintro ⟨⟩
      next f hf hlen hargs =>
        refine ⟨f, hf, hlen, ?_, rfl⟩
        intro a p hap
        exact (ih a (List.of_mem_zip hap).1).mpr (hargs a p hap)

theorem HasType.unique {scope : Scope} {e : Expr} {ty ty' : Ty} (h : HasType scope e ty)
    (h' : HasType scope e ty') : ty = ty' := by
  rw [← typeOf_eq_ok_iff] at h h'
  exact Except.ok.inj (h.symm.trans h')

/-! ## Statements -/

theorem checkStore_eq_ok_iff {scope : Scope} {place : Position} {name : String} {value : Expr}
    {source : Ty} :
    checkStore scope place name value source = .ok () ↔
      ∃ v, scope.function.lookup? name = some v ∧ source = v.type := by
  rw [checkStore]
  refine ⟨?_, ?_⟩
  · intro h
    split at h
    · cases h
    · next v hv =>
      split at h
      · next hacc => exact ⟨v, hv, (beq_iff_eq.mp hacc).symm⟩
      · cases h
  · rintro ⟨v, hv, rfl⟩
    rw [hv]
    exact if_pos (beq_self_eq_true _)

theorem typesOf_checkPrinted_iff {scope : Scope} {args : List Expr} :
    (∃ types, typesOf scope args = .ok types ∧ checkPrinted (args.zip types) = .ok ()) ↔
      ∀ a ∈ args, ∃ ty, ty ≠ .void ∧ HasType scope a ty := by
  induction args with
  | nil => exact ⟨fun _ a h => by simp at h, fun _ => ⟨[], rfl, rfl⟩⟩
  | cons a args ih =>
    refine ⟨?_, ?_⟩
    · rintro ⟨types, ht, hp⟩
      simp only [typesOf, bind_eq_ok, pure_eq_ok] at ht
      obtain ⟨ty, hty, tys, htys, rfl⟩ := ht
      simp only [List.zip_cons_cons, checkPrinted] at hp
      split at hp
      · cases hp
      · next hv =>
        intro b hb
        rcases List.mem_cons.mp hb with rfl | hb
        · exact ⟨ty, hv, typeOf_eq_ok_iff.mp hty⟩
        · exact ih.mp ⟨tys, htys, hp⟩ b hb
    · intro h
      obtain ⟨ty, hv, hty⟩ := h a (by simp)
      obtain ⟨tys, htys, hp⟩ := ih.mpr fun b hb => h b (by simp [hb])
      refine ⟨ty :: tys, ?_, ?_⟩
      · simp [typesOf, typeOf_eq_ok_iff.mpr hty, htys, bind_eq_ok]
      · rw [List.zip_cons_cons, checkPrinted, if_neg hv]
        exact hp

theorem checkStmts_eq_ok_iff {scope : Scope} {atTop : Bool} {ss : List Stmt} :
    checkStmts scope atTop ss = .ok () ↔ ∀ s ∈ ss, checkStmt scope atTop s = .ok () := by
  induction ss with
  | nil => exact ⟨fun _ s h => by simp at h, fun _ => rfl⟩
  | cons s ss ih => simp [checkStmts, seq_eq_ok, ih]

/-- **The checker accepts a statement** exactly if it is well typed. -/
theorem checkStmt_eq_ok_iff {scope : Scope} {atTop : Bool} {s : Stmt} :
    checkStmt scope atTop s = .ok () ↔ StmtTyped scope atTop s := by
  induction s using Stmt.induction generalizing atTop with
  | ret start value =>
    simp only [checkStmt, bind_eq_ok, guard_eq_ok, typeOf_eq_ok_iff]
    refine ⟨?_, ?_⟩
    · rintro ⟨ty, hty, hd, -⟩
      refine .ret hty ?_
      intro hv
      have hacc : scope.function.returns.accepts ty = true := by
        rcases ha : scope.function.returns.accepts ty with _ | _
        · exact absurd ⟨hv, ha⟩ hd
        · rfl
      exact (beq_iff_eq.mp hacc).symm
    · rintro ⟨⟩
      next ty hret hty =>
        refine ⟨ty, hty, ?_, rfl⟩
        rintro ⟨hv, hacc⟩
        rw [hret hv, Ty.accepts, beq_self_eq_true] at hacc
        cases hacc
  | cond start test brace body ih =>
    simp only [checkStmt, bind_eq_ok, guard_eq_ok, typeOf_eq_ok_iff, Decidable.not_not]
    refine ⟨?_, ?_⟩
    · rintro ⟨ty, hty, ⟨⟩, hb, rfl, -⟩
      exact .cond hty fun s hs => (ih s hs).mp (checkStmts_eq_ok_iff.mp hb s hs)
    · rintro ⟨⟩
      next hty hb =>
        have hb := checkStmts_eq_ok_iff.mpr fun s hs => (ih s hs).mpr (hb s hs)
        exact ⟨.bool, hty, (), hb, rfl, rfl⟩
  | assign target value =>
    simp only [checkStmt, bind_eq_ok, typeOf_eq_ok_iff, checkStore_eq_ok_iff]
    refine ⟨?_, ?_⟩
    · rintro ⟨ty, hty, v, hv, rfl⟩
      exact .assign hv hty
    · rintro ⟨⟩
      next v hv hty => exact ⟨v.type, hty, v, hv, rfl⟩
  | print start args =>
    simp only [checkStmt, bind_eq_ok, typesOf_checkPrinted_iff]
    refine ⟨?_, ?_⟩
    · exact .print
    · rintro ⟨⟩
      next ha => exact ha
  | decl start param value =>
    simp only [checkStmt, bind_eq_ok, throw_bind, guard_eq_ok, typeOf_eq_ok_iff,
      checkStore_eq_ok_iff]
    refine ⟨?_, ?_⟩
    · rintro ⟨htop, ty, hty, v, hv, rfl⟩
      obtain rfl : atTop = true := by simpa using htop
      exact .decl hv hty
    · rintro ⟨⟩
      next v hv hty => exact ⟨by simp, v.type, hty, v, hv, rfl⟩
  | call start callee args =>
    simp only [checkStmt, bind_eq_ok, typeOf_eq_ok_iff, pure_eq_ok]
    refine ⟨?_, ?_⟩
    · rintro ⟨ty, hty, -⟩
      exact .call hty
    · rintro ⟨⟩
      next ty hty => exact ⟨ty, hty, trivial⟩

/-! ## Functions and programs -/

theorem endsInReturn_iff {f : Tree.Function} :
    f.endsInReturn = true ↔ ∃ start value, f.body.getLast? = some (.ret start value) := by
  rw [Tree.Function.endsInReturn]
  rcases f.body.getLast? with _ | s
  · simp
  · cases s <;> simp [Stmt.isReturn]

theorem checkFunction_eq_ok_iff {t : Table} {f : Tree.Function} :
    checkFunction t f = .ok () ↔ FunctionTyped (scopeOf t f) f := by
  simp only [checkFunction, seq_eq_ok, guard_eq_ok, checkStmts_eq_ok_iff, checkStmt_eq_ok_iff]
  refine ⟨?_, ?_⟩
  · rintro ⟨hb, he, -⟩
    refine ⟨hb, ?_⟩
    intro type htype
    rw [htype] at he
    exact endsInReturn_iff.mp (by simpa using he)
  · rintro ⟨hb, he⟩
    refine ⟨hb, ?_, rfl⟩
    rcases hr : f.returns with _ | type
    · simp
    · simp [endsInReturn_iff.mpr (he type hr)]

theorem checkEntry_eq_ok_iff {t : Table} {entry : String} :
    checkEntry t entry = .ok () ↔
      ∃ f, t.find? entry = some f ∧ f.params = [] ∧ (f.returns = .void ∨ f.returns = .int) := by
  rw [checkEntry]
  rcases t.find? entry with _ | f
  · simp
  · by_cases hr : f.returns ≠ .void ∧ f.returns ≠ .int
    · simp only [if_pos hr]
      refine ⟨?_, ?_⟩
      · intro h
        cases h
      · rintro ⟨g, hg, -, hor⟩
        cases hg
        exact absurd hor (not_or.mpr hr)
    · have hor : f.returns = .void ∨ f.returns = .int := by
        rcases hv : f.returns <;> simp_all
      by_cases hp : f.params = [] <;> simp [hr, hp, hor]

/-- The checker accepts a list of functions if it accepts each of them. -/
theorem forM_checkFunction_iff {t : Table} {fs : List Tree.Function} :
    fs.forM (checkFunction t) = .ok () ↔ ∀ f ∈ fs, checkFunction t f = .ok () := by
  induction fs with
  | nil => exact ⟨fun _ f h => by simp at h, fun _ => rfl⟩
  | cons f fs ih =>
    rw [List.forM_eq_forM] at ih ⊢
    simp [List.forM_cons, seq_eq_ok, ih]

/-- In a collected table every function of the program is looked at in its own entry's scope. -/
theorem scopeOf_eq {p : Program} {t : Table} (hc : Collected p t) {f : Tree.Function}
    (hf : f ∈ p.functions) : ∃ g, t.find? f.name = some g ∧ scopeOf t f = ⟨t, g⟩ := by
  rw [← hc.decls] at hf
  obtain ⟨g, hg, rfl⟩ := List.mem_map.mp hf
  have hfind := hc.find?_of_mem hg
  rw [(hc.faithful g hg).name] at hfind
  refine ⟨g, hfind, ?_⟩
  rw [scopeOf, hfind]
  rfl

/-- Inversion for `check`, function by function. -/
theorem check_eq_ok_iff {p : Program} {t : Table} {entry : String} :
    check t entry p = .ok () ↔ checkEntry t entry = .ok () ∧
      ∀ f ∈ p.functions, FunctionTyped (scopeOf t f) f := by
  simp only [check, seq_eq_ok, forM_checkFunction_iff, checkFunction_eq_ok_iff]

/-- A program whose functions are well typed, each in the scope of its own entry of the table. -/
structure Accepted (p : Program) (t : Table) : Prop where
  collected : Collected p t
  functions : ∀ f ∈ t, FunctionTyped ⟨t, f⟩ f.decl

/-- What passes the checker is accepted, and its entry function takes nothing and returns nothing
or an integer. -/
theorem accepted_of_check {p : Program} {t : Table} {entry : String} (hc : collect p = .ok t)
    (h : check t entry p = .ok ()) : Accepted p t ∧
      ∃ f, t.find? entry = some f ∧ f.params = [] ∧ (f.returns = .void ∨ f.returns = .int) := by
  have hc := Collected.of_collect hc
  obtain ⟨he, hf⟩ := check_eq_ok_iff.mp h
  refine ⟨⟨hc, ?_⟩, checkEntry_eq_ok_iff.mp he⟩
  intro f hm
  have hdecl : f.decl ∈ p.functions := hc.decls ▸ List.mem_map_of_mem hm
  obtain ⟨g, hg, hscope⟩ := scopeOf_eq hc hdecl
  rw [← (hc.faithful f hm).name, hc.find?_of_mem hm] at hg
  cases hg
  exact hscope ▸ hf f.decl hdecl

/-- **The checker decides the type system.** For the table collected from a program, it accepts the
program with an entry function if and only if the program is well typed for that entry. -/
theorem check_accepts_iff_wellTyped {p : Program} {t : Table} (hc : collect p = .ok t)
    (entry : String) : check t entry p = .ok () ↔ WellTyped t entry p := by
  have hc := Collected.of_collect hc
  rw [check_eq_ok_iff, checkEntry_eq_ok_iff]
  refine ⟨?_, ?_⟩
  · rintro ⟨he, hf⟩
    refine ⟨he, ?_⟩
    intro f hm
    obtain ⟨g, hg, hscope⟩ := scopeOf_eq hc hm
    exact ⟨g, hg, hscope ▸ hf f hm⟩
  · rintro ⟨he, hf⟩
    refine ⟨he, ?_⟩
    intro f hm
    obtain ⟨g, hg, hscope⟩ := scopeOf_eq hc hm
    obtain ⟨g', hg', htyped⟩ := hf f hm
    rw [hg] at hg'
    cases hg'
    exact hscope ▸ htyped

/-- A function `main` whose only statement is `var x: bool = 1 < 2;`. -/
def comparing : Program :=
  let word (text : String) : Token := ⟨.ident, text, ⟨1, 1⟩⟩
  ⟨word "function", [⟨word "function", "main", [], none, word "\x7b",
    [.decl (word "var") ⟨word "x", ⟨⟨.keyword .bool, "bool", ⟨1, 1⟩⟩⟩⟩
      (.binary .lt (.int (word "1") 1) (.int (word "2") 2))]⟩]⟩

/-- It is well typed for the entry `main`, and not for an entry that it does not have. -/
theorem wellTyped_comparing : ∃ t, collect comparing = .ok t ∧ WellTyped t "main" comparing ∧
    ¬WellTyped t "start" comparing := by
  refine ⟨_, rfl, (check_accepts_iff_wellTyped rfl "main").mp rfl, ?_⟩
  intro h
  cases (check_accepts_iff_wellTyped rfl "start").mpr h

end Stackling.Typing
