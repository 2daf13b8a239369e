import Mathlib.Data.List.Forall2
import Stackling.Proofs.Symbols
import Stackling.Proofs.Tree.Erasure
import Stackling.Proofs.Typing

/-!
# Symbols and types without tokens

Neither the table of a program nor its types depend on the tokens that erasure takes away. A table
is made function by function (`collect_eq_ok_iff`): the functions have different names and each has
an entry of its own, which does not depend on the others and which erasure does not change
(`collectFunction_erase_iff`). What has a type has it without its tokens too (`hasType_erase_iff`),
in every scope that says the same (`Scope.Agrees`).
-/

namespace Stackling

open Stackling.Tree

/-! ## Functions -/

/-- A return without its places is a return. -/
theorem Tree.Stmt.isReturn_erase (s : Stmt) : s.erase.isReturn = s.isReturn := by
  cases s <;> rfl

theorem Tree.Function.endsInReturn_erase (f : Function) :
    f.erase.endsInReturn = f.endsInReturn := by
  rw [Function.endsInReturn, Function.endsInReturn, Function.erase, Stmt.eraseAll_eq_map,
    List.getLast?_map]
  cases f.body.getLast? with
  | none => rfl
  | some s => exact s.isReturn_erase

/-- Functions that are the same up to tokens have the same name. -/
theorem Tree.Function.name_eq_of_erase {f f' : Tree.Function} (h : f.erase = f'.erase) :
    f.name = f'.name := by
  have hname := congrArg Tree.Function.name h
  exact hname

namespace Symbols

/-- A table entry without the tokens of its declaration. -/
def Function.erase (f : Function) : Function := { f with decl := f.decl.erase }

namespace Function

variable {f g : Function}

/-- Functions that are the same up to places agree in all else. -/
theorem erase_eq_iff : f.erase = g.erase ↔ f.name = g.name ∧ f.returns = g.returns ∧
    f.vars = g.vars ∧ f.decl.erase = g.decl.erase := by
  simp only [erase, Function.mk.injEq]

theorem returns_eq_of_erase (h : f.erase = g.erase) : f.returns = g.returns :=
  (erase_eq_iff.mp h).2.1

theorem vars_eq_of_erase (h : f.erase = g.erase) : f.vars = g.vars := (erase_eq_iff.mp h).2.2.1

theorem decl_eq_of_erase (h : f.erase = g.erase) : f.decl.erase = g.decl.erase :=
  (erase_eq_iff.mp h).2.2.2

/-- Functions that are the same up to places have the same parameters. -/
theorem params_eq_of_erase (h : f.erase = g.erase) : f.params = g.params := by
  rw [params, params, vars_eq_of_erase h]

end Function

/-- A type name stands for the same type without its place. -/
theorem resolve_erase_iff {t : TypeName} {ty : Ty} :
    resolve t.erase = .ok ty ↔ resolve t = .ok ty := by
  unfold resolve
  split <;> split <;> simp_all [TypeName.erase]

/-- A variable is declared if its type is known and its name is new. It gets the next slot. -/
theorem declare_eq_ok_iff {function : String} {isParam : Bool} {vars vars' : List Variable}
    {p : Param} :
    declare function isParam vars p = .ok vars' ↔
      ∃ type, resolve p.type = .ok type ∧ (∀ v ∈ vars, v.name ≠ p.name.lexeme) ∧
        vars' = vars ++ [⟨p.name.lexeme, type, vars.length, isParam⟩] := by
  refine ⟨declare_eq_ok, ?_⟩
  rintro ⟨type, htype, hfree, rfl⟩
  have hnone : ¬ (vars.any fun v => v.name == p.name.lexeme) = true := by
    simpa [List.any_eq_true] using hfree
  rw [declare, if_neg hnone, htype]
  rfl

/-- A declaration does not look at places. -/
theorem declare_erase_iff {function : String} {isParam : Bool} {vars vars' : List Variable}
    {p : Param} :
    declare function isParam vars p.erase = .ok vars' ↔
      declare function isParam vars p = .ok vars' := by
  rw [declare_eq_ok_iff, declare_eq_ok_iff]
  exact exists_congr fun type => and_congr resolve_erase_iff Iff.rfl

/-- Declarations one after the other do not look at places. -/
theorem foldlM_declare_erase_iff {function : String} {isParam : Bool} {ps : List Param} :
    ∀ {vars vars' : List Variable},
      (ps.map Param.erase).foldlM (declare function isParam) vars = .ok vars' ↔
        ps.foldlM (declare function isParam) vars = .ok vars' := by
  induction ps with
  | nil => simp
  | cons p ps ih =>
    simp only [List.map_cons, List.foldlM_cons, bind_eq_ok, declare_erase_iff, ih, implies_true]

/-- The declarations of a body without its places are those of the body, without their places. -/
theorem declarations_erase (body : List Stmt) :
    declarations (Stmt.eraseAll body) = (declarations body).map Param.erase := by
  rw [Stmt.eraseAll_eq_map, declarations, declarations, List.filterMap_map, List.map_filterMap]
  congr 1
  funext s
  cases s <;> rfl

/-- The type of what a function returns, by its declaration. -/
def Returns : Option TypeName → Ty → Prop
  | none, ty => ty = .void
  | some type, ty => resolve type = .ok ty

/-- A result type does not look at places. -/
theorem returns_erase_iff {r : Option TypeName} {ty : Ty} :
    Returns (r.map TypeName.erase) ty ↔ Returns r ty := by
  cases r with
  | none => rfl
  | some type => exact resolve_erase_iff

/-- A function has an entry if no other has its name and its types exist; the entry does not depend
on the table otherwise. -/
theorem collectFunction_eq_ok_iff {t : Table} {f : Tree.Function} {g : Function} :
    collectFunction t f = .ok g ↔ (∀ g' ∈ t, g'.name ≠ f.name) ∧ ∃ returns params vars,
      Returns f.returns returns ∧ f.params.foldlM (declare f.name true) [] = .ok params ∧
      (declarations f.body).foldlM (declare f.name false) params = .ok vars ∧
      ⟨f.name, returns, vars, f⟩ = g := by
  have hnew : ¬ (t.find? f.name).isSome ↔ ∀ g' ∈ t, g'.name ≠ f.name := by
    simp [Table.find?]
  simp only [collectFunction, throw_bind, guard_eq_ok, hnew]
  -- the result type is read in one of two ways; the rest is the same for both
  refine and_congr_right fun _ => ?_
  rcases f.returns with _ | type <;> simp only [Returns, bind_eq_ok, pure_eq_ok]
  · constructor
    · rintro ⟨_, rfl, params, hp, vars, hv, hg⟩
      exact ⟨.void, params, vars, rfl, hp, hv, hg⟩
    · rintro ⟨_, params, vars, rfl, hp, hv, hg⟩
      exact ⟨.void, rfl, params, hp, vars, hv, hg⟩
  · constructor
    · rintro ⟨ty, hty, params, hp, vars, hv, hg⟩
      exact ⟨ty, params, vars, hty, hp, hv, hg⟩
    · rintro ⟨ty, params, vars, hty, hp, hv, hg⟩
      exact ⟨ty, hty, params, hp, vars, hv, hg⟩

/-- The functions that were collected before matter by their names only. -/
theorem collectFunction_iff {t : Table} {f : Tree.Function} {g : Function} :
    collectFunction t f = .ok g ↔
      (∀ g' ∈ t, g'.name ≠ f.name) ∧ collectFunction [] f = .ok g := by
  rw [collectFunction_eq_ok_iff, collectFunction_eq_ok_iff]
  exact and_congr_right fun _ => ⟨fun h => ⟨List.forall_mem_nil _, h⟩, fun h => h.2⟩

/-- A function is collected under its name. -/
theorem name_of_collectFunction {t : Table} {f : Tree.Function} {g : Function}
    (h : collectFunction t f = .ok g) : g.name = f.name := by
  obtain ⟨-, rfl, hfaithful⟩ := collectFunction_eq_ok h
  exact hfaithful.name

/-- What is collected for a function without its places is what is collected for the function,
without its places. -/
theorem collectFunction_erase_iff {f : Tree.Function} {g : Function} :
    collectFunction [] f.erase = .ok g ↔ ∃ g', collectFunction [] f = .ok g' ∧ g'.erase = g := by
  simp only [collectFunction_eq_ok_iff, Tree.Function.erase, declarations_erase, returns_erase_iff,
    foldlM_declare_erase_iff]
  constructor
  · rintro ⟨-, returns, params, vars, hr, hp, hv, rfl⟩
    exact ⟨_, ⟨List.forall_mem_nil _, returns, params, vars, hr, hp, hv, rfl⟩, rfl⟩
  · rintro ⟨g', ⟨-, returns, params, vars, hr, hp, hv, rfl⟩, rfl⟩
    exact ⟨List.forall_mem_nil _, returns, params, vars, hr, hp, hv, rfl⟩

/-- Declarations that are the same up to tokens have entries that are. -/
theorem exists_collectFunction_of_erase {f f' : Tree.Function} (h : f.erase = f'.erase)
    {g : Function} (hg : collectFunction [] f = .ok g) :
    ∃ g', collectFunction [] f' = .ok g' ∧ g'.erase = g.erase :=
  collectFunction_erase_iff.mp (h ▸ collectFunction_erase_iff.mpr ⟨g, hg, rfl⟩)

/-! ## Tables -/

/-- Collecting functions one after the other succeeds if their names are new and differ, and if each
can be collected by itself. -/
theorem foldlM_collectFunction_iff {fs : List Tree.Function} :
    ∀ {t t' : Table},
      fs.foldlM (fun t f => do return t ++ [← collectFunction t f]) t = .ok t' ↔
        (∀ f ∈ fs, ∀ g ∈ t, g.name ≠ f.name) ∧ (fs.map (·.name)).Nodup ∧
          ∃ new, t' = t ++ new ∧
            List.Forall₂ (fun f g => collectFunction [] f = .ok g) fs new := by
  induction fs with
  | nil =>
    intro t t'
    constructor
    · intro h
      cases h
      exact ⟨List.forall_mem_nil _, List.nodup_nil, [], (List.append_nil _).symm, .nil⟩
    · rintro ⟨-, -, new, rfl, hnew⟩
      cases hnew
      rw [List.append_nil]
      rfl
  | cons f fs ih =>
    intro t t'
    simp only [List.foldlM_cons, bind_eq_ok, pure_eq_ok]
    constructor
    · rintro ⟨t₁, ⟨g, hg, rfl⟩, hrest⟩
      obtain ⟨hfs, hnd, new, rfl, hall⟩ := ih.mp hrest
      obtain ⟨hfree, hg₀⟩ := collectFunction_iff.mp hg
      have hfresh : f.name ∉ fs.map (·.name) := by
        intro hmem
        obtain ⟨f', hf', hname⟩ := List.mem_map.mp hmem
        exact hfs f' hf' g (by simp) ((name_of_collectFunction hg).trans hname.symm)
      refine ⟨List.forall_mem_cons.mpr ⟨hfree, fun f' hf' g' hg' => ?_⟩,
        List.nodup_cons.mpr ⟨hfresh, hnd⟩, g :: new, by simp, .cons hg₀ hall⟩
      exact hfs f' hf' g' (List.mem_append_left _ hg')
    · rintro ⟨hfs, hnd, new, rfl, hall⟩
      obtain ⟨hfree, hfs⟩ := List.forall_mem_cons.mp hfs
      obtain ⟨hfresh, hnd⟩ := List.nodup_cons.mp hnd
      obtain ⟨g, new, hg₀, hrest, rfl⟩ := List.forall₂_cons_left_iff.mp hall
      refine ⟨t ++ [g], ⟨g, collectFunction_iff.mpr ⟨hfree, hg₀⟩, rfl⟩,
        ih.mpr ⟨fun f' hf' g' hg' => ?_, hnd, new, by simp, hrest⟩⟩
      rcases List.mem_append.mp hg' with hg' | hg'
      · exact hfs f' hf' g' hg'
      · rw [List.mem_singleton.mp hg', name_of_collectFunction hg₀]
        exact fun hname => hfresh (List.mem_map.mpr ⟨f', hf', hname.symm⟩)

/-- **A table is made function by function.** -/
theorem collect_eq_ok_iff {p : Program} {t : Table} :
    collect p = .ok t ↔ (p.functions.map (·.name)).Nodup ∧
      List.Forall₂ (fun f g => collectFunction [] f = .ok g) p.functions t := by
  rw [collect, foldlM_collectFunction_iff]
  simp

/-- An entry of a table is that of its declaration. -/
theorem collectFunction_of_mem {p : Program} {t : Table} (h : collect p = .ok t) {g : Function}
    (hg : g ∈ t) : collectFunction [] g.decl = .ok g := by
  obtain ⟨-, hall⟩ := collect_eq_ok_iff.mp h
  generalize p.functions = fs at hall
  clear h
  induction hall with
  | nil => cases hg
  | @cons f g' fs t hfg _ ih =>
    rcases List.mem_cons.mp hg with rfl | hg
    · rwa [(collectFunction_eq_ok hfg).2.1]
    · exact ih hg

end Symbols

/-! ## Types -/

namespace Typing

open Symbols

variable {scope scope' : Scope} {ty : Ty}

theorem hasType_int_iff {literal : Token} {value : Int32} :
    HasType scope (.int literal value) ty ↔ .int = ty :=
  ⟨fun h => by cases h; rfl, fun h => h ▸ .int literal value⟩

theorem hasType_bool_iff {literal : Token} {value : Bool} :
    HasType scope (.bool literal value) ty ↔ .bool = ty :=
  ⟨fun h => by cases h; rfl, fun h => h ▸ .bool literal value⟩

theorem hasType_str_iff {literal : Token} : HasType scope (.str literal) ty ↔ .string = ty :=
  ⟨fun h => by cases h; rfl, fun h => h ▸ .str literal⟩

/-- A variable has its declared type. -/
theorem hasType_var_iff {name : Token} :
    HasType scope (.var name) ty ↔
      ∃ v, scope.function.lookup? name.lexeme = some v ∧ v.type = ty :=
  ⟨fun | .var hv => ⟨_, hv, rfl⟩, fun ⟨_, hv, hty⟩ => hty ▸ .var hv⟩

/-- A call has the result type of its function, if the arguments have the types of the parameters.
-/
theorem hasType_call_iff {start : Token} {callee : String} {args : List Expr} :
    HasType scope (.call start callee args) ty ↔
      ∃ f, scope.table.find? callee = some f ∧
        List.Forall₂ (fun a p => HasType scope a p.type) args f.params ∧ f.returns = ty := by
  constructor
  · intro h
    cases h with
    | call hf hlen hargs => exact ⟨_, hf, List.forall₂_iff_zip.mpr ⟨hlen, hargs _ _⟩, rfl⟩
  · rintro ⟨f, hf, hargs, rfl⟩
    exact .call hf hargs.length_eq fun a p => List.forall₂_zip hargs

/-- What has a type has it without its tokens. -/
theorem hasType_erase_iff {e : Expr} : HasType scope e.erase ty ↔ HasType scope e ty := by
  induction e using Expr.induction generalizing ty with
  | int => rw [Expr.erase, hasType_int_iff, hasType_int_iff]
  | bool => rw [Expr.erase, hasType_bool_iff, hasType_bool_iff]
  | str => rw [Expr.erase, hasType_str_iff, hasType_str_iff]
  | var name => rw [Expr.erase, hasType_var_iff, hasType_var_iff, Token.unplaced]
  | binary op left right ihl ihr =>
    rw [Expr.erase, hasType_binary_iff, hasType_binary_iff, ihl, ihr]
  | call start callee args ih =>
    have hargs : ∀ ps : List Variable,
        List.Forall₂ (fun a p => HasType scope a p.type) (args.map Expr.erase) ps ↔
          List.Forall₂ (fun a p => HasType scope a p.type) args ps := by
      intro ps
      rw [List.forall₂_map_left_iff, List.forall₂_iff_zip, List.forall₂_iff_zip]
      refine and_congr_right fun _ => forall₂_congr fun a p => ?_
      refine imp_congr_right fun hap => ih a (List.of_mem_zip hap).1
    simp only [Expr.erase, Expr.eraseAll_eq_map, hasType_call_iff, hargs]

/-- Whether a statement is typed does not depend on places. -/
theorem stmtTyped_erase_iff {atTop : Bool} {s : Stmt} :
    StmtTyped scope atTop s.erase ↔ StmtTyped scope atTop s := by
  induction s using Stmt.induction generalizing atTop with
  | ret start value =>
    rw [Stmt.erase]
    exact ⟨fun | .ret hv hty => .ret (hasType_erase_iff.mp hv) hty,
      fun | .ret hv hty => .ret (hasType_erase_iff.mpr hv) hty⟩
  | cond start test brace body ih =>
    have hbody : (∀ s ∈ body.map Stmt.erase, StmtTyped scope false s) ↔
        ∀ s ∈ body, StmtTyped scope false s := by
      rw [List.forall_mem_map]
      exact forall₂_congr fun s hs => ih s hs
    rw [Stmt.erase, Stmt.eraseAll_eq_map]
    exact ⟨fun | .cond ht hb => .cond (hasType_erase_iff.mp ht) (hbody.mp hb),
      fun | .cond ht hb => .cond (hasType_erase_iff.mpr ht) (hbody.mpr hb)⟩
  | assign target value =>
    rw [Stmt.erase]
    exact ⟨fun | .assign hv he => .assign hv (hasType_erase_iff.mp he),
      fun | .assign hv he => .assign hv (hasType_erase_iff.mpr he)⟩
  | print start args =>
    have hargs : (∀ a ∈ args.map Expr.erase, ∃ ty, ty ≠ .void ∧ HasType scope a ty) ↔
        ∀ a ∈ args, ∃ ty, ty ≠ .void ∧ HasType scope a ty := by
      simp only [List.forall_mem_map, hasType_erase_iff]
    rw [Stmt.erase, Expr.eraseAll_eq_map]
    exact ⟨fun | .print ha => .print (hargs.mp ha), fun | .print ha => .print (hargs.mpr ha)⟩
  | decl start param value =>
    rw [Stmt.erase]
    exact ⟨fun | .decl hv he => .decl hv (hasType_erase_iff.mp he),
      fun | .decl hv he => .decl hv (hasType_erase_iff.mpr he)⟩
  | call start callee args =>
    have hcall : ∀ ty, HasType scope (.call .blank callee (Expr.eraseAll args)) ty ↔
        HasType scope (.call start callee args) ty := fun ty =>
      hasType_erase_iff (e := .call start callee args)
    rw [Stmt.erase]
    exact ⟨fun | .call hc => .call ((hcall _).mp hc), fun | .call hc => .call ((hcall _).mpr hc)⟩

/-! ## Scopes -/

/-- The scopes say the same of every name, up to tokens. -/
structure Scope.Agrees (scope scope' : Scope) : Prop where
  table : ∀ name, (scope.table.find? name).map Symbols.Function.erase =
    (scope'.table.find? name).map Symbols.Function.erase
  function : scope.function.erase = scope'.function.erase

namespace Scope.Agrees

/-- Scopes that agree have the same variables. -/
theorem lookup?_eq (h : scope.Agrees scope') (name : String) :
    scope.function.lookup? name = scope'.function.lookup? name := by
  rw [Symbols.Function.lookup?, Symbols.Function.lookup?, Function.vars_eq_of_erase h.function]

/-- Scopes that agree have the same functions, up to places. -/
theorem find? (h : scope.Agrees scope') {name : String} {f : Symbols.Function}
    (hf : scope.table.find? name = some f) :
    ∃ f', scope'.table.find? name = some f' ∧ f'.erase = f.erase := by
  have htable := h.table name
  rw [hf, Option.map_some, eq_comm, Option.map_eq_some_iff] at htable
  exact htable

/-- Scopes that agree give expressions the same types. -/
theorem hasType (h : scope.Agrees scope') {e : Expr} (he : HasType scope e ty) :
    HasType scope' e ty := by
  induction he with
  | int literal value => exact .int literal value
  | bool literal value => exact .bool literal value
  | str literal => exact .str literal
  | var hv => exact .var (h.lookup?_eq _ ▸ hv)
  | arithmetic hop _ _ ihl ihr => exact .arithmetic hop ihl ihr
  | comparison hop _ _ ihl ihr => exact .comparison hop ihl ihr
  | logical hop _ _ ihl ihr => exact .logical hop ihl ihr
  | call hf hlen _ ih =>
    obtain ⟨f', hf', herase⟩ := h.find? hf
    rw [← Symbols.Function.params_eq_of_erase herase] at hlen ih
    rw [← Symbols.Function.returns_eq_of_erase herase]
    exact .call hf' hlen ih

/-- Scopes that agree accept the same statements. -/
theorem stmtTyped (h : scope.Agrees scope') {atTop : Bool} {s : Stmt}
    (hs : StmtTyped scope atTop s) : StmtTyped scope' atTop s := by
  have hreturns := Symbols.Function.returns_eq_of_erase h.function
  induction hs with
  | ret hv hty => exact .ret (h.hasType hv) (hreturns ▸ hty)
  | cond ht _ ih => exact .cond (h.hasType ht) ih
  | assign hv he => exact .assign (h.lookup?_eq _ ▸ hv) (h.hasType he)
  | print ha => exact .print fun a ham => (ha a ham).imp fun ty hty => ⟨hty.1, h.hasType hty.2⟩
  | decl hv he => exact .decl (h.lookup?_eq _ ▸ hv) (h.hasType he)
  | call hc => exact .call (h.hasType hc)

/-- What a scope says of a function it says of every function that is the same up to tokens. -/
theorem functionTyped (h : scope.Agrees scope') {f f' : Tree.Function} (herase : f.erase = f'.erase)
    (hf : FunctionTyped scope f) : FunctionTyped scope' f' := by
  have hbody : f.body.map Stmt.erase = f'.body.map Stmt.erase := by
    rw [← Stmt.eraseAll_eq_map, ← Stmt.eraseAll_eq_map]
    exact congrArg Tree.Function.body herase
  have hends : f.endsInReturn = f'.endsInReturn := by
    rw [← f.endsInReturn_erase, herase, f'.endsInReturn_erase]
  refine ⟨fun s' hs' => ?_, fun type htype => ?_⟩
  · obtain ⟨s, hs, hsame⟩ := List.mem_map.mp (hbody ▸ List.mem_map_of_mem hs')
    exact h.stmtTyped (stmtTyped_erase_iff.mp (hsame ▸ stmtTyped_erase_iff.mpr (hf.body s hs)))
  · rw [← endsInReturn_iff, ← hends, endsInReturn_iff]
    have hreturns : f.returns.map TypeName.erase = f'.returns.map TypeName.erase :=
      congrArg Tree.Function.returns herase
    rw [htype, Option.map_some, Option.map_eq_some_iff] at hreturns
    obtain ⟨type', htype', -⟩ := hreturns
    exact hf.ends type' htype'

end Scope.Agrees

end Typing

end Stackling
