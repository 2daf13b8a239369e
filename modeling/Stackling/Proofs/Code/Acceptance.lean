import Stackling.Pipeline
import Stackling.Proofs.Code.Program

/-!
# What the checker accepts has code

The emitter does not rely on the checker. It looks up every variable and every function again, and
it derives the types of operands again, by a recursion of its own. Both can fail, and here they are
shown not to where the checker has accepted the program.

The two derivations of types agree because both decide one judgement: `staticType_eq` is the
emitter's half of that, next to `Typing.typeOf_eq_ok_iff`. Calls are a matter of names. The search
for reachable functions finishes because the callees of well-typed code are in the table
(`exists_discover`), and the emitter finds each of them in the order because the search is closed
under calls (`discover_closed`).
-/

namespace Stackling.Code

open Stackling.Tree Stackling.Symbols Stackling.Typing

/-! ## Types -/

/-- **The emitter derives the type** of an expression that has one. -/
theorem staticType_eq {env : Env} {e : Expr} {ty : Ty}
    (h : HasType ⟨env.table, env.function⟩ e ty) : staticType env e = .ok ty := by
  induction e using Expr.induction generalizing ty with
  | int | bool | str =>
    cases h
    rfl
  | var name =>
    cases h with
    | var hv => simp only [staticType, hv]
  | binary op left right ihl ihr =>
    obtain ⟨hl, hr, rfl⟩ := hasType_binary_iff.mp h
    simp [staticType, ihl hl, ihr hr, bind_eq_ok, pure_eq_ok]
  | call start callee args ih =>
    cases h with
    | call hf => simp only [staticType, hf]

/-- What makes a node well typed, by its sort. Names of parameters and types have no type. -/
def NodeTyped (scope : Scope) : Node → Prop
  | .expr e => ∃ ty, HasType scope e ty
  | .stmt s => ∃ atTop, StmtTyped scope atTop s
  | .block _ body => ∀ s ∈ body, ∃ atTop, StmtTyped scope atTop s
  | .function f => ∀ s ∈ f.body, ∃ atTop, StmtTyped scope atTop s
  | .program _ => False
  | .param _ | .typeName _ => True

theorem NodeTyped.child {scope : Scope} {n c : Node} (h : NodeTyped scope n)
    (hc : c ∈ n.children) : NodeTyped scope c := by
  cases n with
  | program p => exact h.elim
  | function f =>
    simp only [Node.children, List.mem_append, List.mem_map, List.mem_singleton] at hc
    rcases hc with (⟨p, -, rfl⟩ | ⟨t, -, rfl⟩) | rfl
    · trivial
    · trivial
    · exact h
  | typeName t => simp [Node.children] at hc
  | param p =>
    rw [Node.children, List.mem_singleton] at hc
    subst hc
    trivial
  | block brace body =>
    obtain ⟨s, hs, rfl⟩ := List.mem_map.mp hc
    exact h s hs
  | stmt s =>
    obtain ⟨atTop, h⟩ := h
    cases h with
    | ret hv =>
      rw [Node.children, List.mem_singleton] at hc
      subst hc
      exact ⟨_, hv⟩
    | cond ht hb =>
      simp only [Node.children, List.mem_cons, List.not_mem_nil, or_false] at hc
      rcases hc with rfl | rfl
      · exact ⟨_, ht⟩
      · exact fun s hs => ⟨false, hb s hs⟩
    | assign hv he =>
      rw [Node.children, List.mem_singleton] at hc
      subst hc
      exact ⟨_, he⟩
    | print ha =>
      obtain ⟨a, ham, rfl⟩ := List.mem_map.mp hc
      obtain ⟨ty, -, hty⟩ := ha a ham
      exact ⟨ty, hty⟩
    | decl hv he =>
      simp only [Node.children, List.mem_cons, List.not_mem_nil, or_false] at hc
      rcases hc with rfl | rfl
      · trivial
      · exact ⟨_, he⟩
    | call hty =>
      rw [Node.children, List.mem_singleton] at hc
      subst hc
      exact ⟨_, hty⟩
  | expr e =>
    obtain ⟨ty, h⟩ := h
    cases e with
    | binary op left right =>
      obtain ⟨hl, hr, -⟩ := hasType_binary_iff.mp h
      simp only [Node.children, List.mem_cons, List.not_mem_nil, or_false] at hc
      rcases hc with rfl | rfl
      · exact ⟨_, hl⟩
      · exact ⟨_, hr⟩
    | call start callee args =>
      obtain ⟨a, ham, rfl⟩ := List.mem_map.mp hc
      exact h.exists_of_mem ham
    | int | bool | str | var => simp [Node.children] at hc

/-- Every expression of a well-typed function has a type. -/
theorem exists_hasType_of_mem_preorder {scope : Scope} {f : Tree.Function}
    (h : FunctionTyped scope f) {e : Expr} (he : .expr e ∈ (Node.function f).preorder) :
    ∃ ty, HasType scope e ty := by
  have hf : NodeTyped scope (.function f) := fun s hs => ⟨true, h.body s hs⟩
  exact Node.forall_mem_preorder NodeTyped.child hf _ he

/-! ## Reachable functions -/

/-- Every function that a well-typed expression calls is in the table. -/
theorem HasType.find?_of_mem_calls {scope : Scope} {e : Expr} {ty : Ty} (h : HasType scope e ty)
    {first : Token} {callee : String} (hc : (first, callee) ∈ e.calls) :
    ∃ f, scope.table.find? callee = some f := by
  induction e using Expr.induction generalizing ty with
  | int | bool | str | var => simp [Expr.calls] at hc
  | binary op left right ihl ihr =>
    obtain ⟨hl, hr, -⟩ := hasType_binary_iff.mp h
    rw [Expr.calls, List.mem_append] at hc
    exact hc.elim (ihl hl) (ihr hr)
  | call start name args ih =>
    rw [Expr.calls, List.mem_cons, mem_callsAll_exprs] at hc
    obtain heq | ⟨a, ham, hc⟩ := hc
    · cases heq
      cases h with
      | call hf => exact ⟨_, hf⟩
    · obtain ⟨ty', hty'⟩ := h.exists_of_mem ham
      exact ih a ham hty' hc

theorem mem_callsAll_stmts {c : Token × String} {ss : List Stmt} :
    c ∈ Stmt.callsAll ss ↔ ∃ s ∈ ss, c ∈ s.calls := by
  induction ss with
  | nil => simp [Stmt.callsAll]
  | cons s ss ih => simp [Stmt.callsAll, ih]

/-- The same for statements. -/
theorem StmtTyped.find?_of_mem_calls {scope : Scope} {s : Stmt} {atTop : Bool}
    (h : StmtTyped scope atTop s) {first : Token} {callee : String}
    (hc : (first, callee) ∈ s.calls) : ∃ f, scope.table.find? callee = some f := by
  induction s using Stmt.induction generalizing atTop with
  | cond start test brace body ih =>
    cases h with
    | cond ht hb =>
      rw [Stmt.calls, List.mem_append, mem_callsAll_stmts] at hc
      obtain hc | ⟨s, hs, hc⟩ := hc
      · exact HasType.find?_of_mem_calls ht hc
      · exact ih s hs (hb s hs) hc
  | print start args =>
    cases h with
    | print ha =>
      rw [Stmt.calls, mem_callsAll_exprs] at hc
      obtain ⟨a, ham, hc⟩ := hc
      obtain ⟨ty, -, hty⟩ := ha a ham
      exact HasType.find?_of_mem_calls hty hc
  | ret | assign | decl | call =>
    cases h
    exact HasType.find?_of_mem_calls ‹_› hc

/-- Calls that name functions of the table can be followed. -/
theorem exists_follow {t : Table} {calls : List (Token × String)} (s : Search)
    (h : ∀ c ∈ calls, ∃ f, t.find? c.2 = some f) : ∃ s', s.follow t calls = .ok s' := by
  induction calls generalizing s with
  | nil => exact ⟨s, rfl⟩
  | cons c calls ih =>
    obtain ⟨f, hf⟩ := h c (by simp)
    obtain ⟨s', hs'⟩ := ih (s.find c.2) fun c' hc' => h c' (by simp [hc'])
    refine ⟨s', ?_⟩
    rw [Search.follow, hf]
    exact hs'

/-- **The search finishes** if the functions of the table call functions of the table. -/
theorem exists_discover {t : Table}
    (ht : ∀ f ∈ t, ∀ name, Calls f name → ∃ g, t.find? name = some g) (s : Search)
    (hp : s.pending ⊆ t) (hu : s.unseen ⊆ t) : ∃ order, discover t s = .ok order := by
  induction s using discover.induct t with
  | case1 unseen => exact ⟨[], by rw [discover]⟩
  | case2 f pending unseen e he =>
    obtain ⟨s', hs'⟩ := exists_follow (t := t) ⟨pending, unseen⟩ fun c hc =>
      ht f (hp (by simp)) c.2 ⟨c.1, hc⟩
    rw [hs'] at he
    cases he
  | case3 f pending unseen s' hs' hlt ih =>
    have hext := Search.follow_extends hs'
    have hp' : s'.pending ⊆ t := by
      intro g hg
      rcases hext.found g hg with hg | ⟨hg, -⟩
      · exact hp (List.mem_cons_of_mem _ hg)
      · exact hu hg
    obtain ⟨rest, hrest⟩ := ih hp' fun g hg => hu (hext.unseen hg)
    exact ⟨f :: rest, discover_cons_iff.mpr ⟨s', rest, hs', hrest, rfl⟩⟩

/-- A search still has a function of this name, found or not. -/
def Search.Covers (s : Search) (name : String) : Prop :=
  ∃ f, (f ∈ s.pending ∨ f ∈ s.unseen) ∧ f.name = name

theorem Search.Covers.find {s : Search} {name : String} (h : s.Covers name) (sought : String) :
    (s.find sought).Covers name := by
  obtain ⟨f, hf, rfl⟩ := h
  unfold Search.find
  split
  · exact ⟨f, hf, rfl⟩
  · next g hg =>
    rcases hf with hf | hf
    · exact ⟨f, .inl (List.mem_append_left _ hf), rfl⟩
    by_cases hname : f.name = sought
    · refine ⟨g, .inl (by simp), ?_⟩
      rw [hname]
      exact (Table.mem_of_find? hg).2
    · exact ⟨f, .inr ((List.mem_eraseP_of_neg (by simpa using hname)).mpr hf), rfl⟩

/-- What is looked for and not found yet is found. -/
theorem Search.Covers.found {s : Search} {name : String} (h : s.Covers name) :
    ∃ f ∈ (s.find name).pending, f.name = name := by
  obtain ⟨f, hf | hf, rfl⟩ := h
  · exact ⟨f, (s.find_extends f.name).pending.subset hf, rfl⟩
  · unfold Search.find
    split
    · next hnone => exact absurd (beq_self_eq_true _) (List.find?_eq_none.mp hnone f hf)
    · next g hg => exact ⟨g, by simp, (Table.mem_of_find? hg).2⟩

theorem Search.Covers.follow {t : Table} {s s' : Search} {calls : List (Token × String)}
    (hs : s.follow t calls = .ok s') {name : String} (h : s.Covers name) :
    s'.Covers name ∧ (name ∈ calls.map (·.2) → ∃ f ∈ s'.pending, f.name = name) := by
  induction calls generalizing s with
  | nil =>
    cases hs
    exact ⟨h, fun hn => by cases hn⟩
  | cons c calls ih =>
    unfold Search.follow at hs
    split at hs
    · cases hs
    · obtain ⟨hcov, hcalls⟩ := ih hs (h.find c.2)
      refine ⟨hcov, ?_⟩
      intro hn
      rcases List.mem_cons.mp hn with rfl | hn
      · obtain ⟨f, hf, hname⟩ := h.found
        exact ⟨f, (Search.follow_extends hs).pending.subset hf, hname⟩
      · exact hcalls hn

/-- Every call that was followed names a function of the table. -/
theorem find?_of_follow {t : Table} {s s' : Search} {calls : List (Token × String)}
    (h : s.follow t calls = .ok s') {c : Token × String} (hc : c ∈ calls) :
    ∃ f, t.find? c.2 = some f := by
  induction calls generalizing s with
  | nil => cases hc
  | cons c' calls ih =>
    unfold Search.follow at h
    split at h
    · cases h
    · next f hf =>
      rcases List.mem_cons.mp hc with rfl | hc
      · exact ⟨f, hf⟩
      · exact ih h hc

/-- **The search is closed under calls.** `seen` are the names that were listed before. -/
theorem discover_closed {t : Table} {s : Search} {order : List Symbols.Function}
    (h : discover t s = .ok order) {seen : String → Prop}
    (hall : ∀ name f, t.find? name = some f → seen name ∨ s.Covers name) {f : Symbols.Function}
    (hf : f ∈ order) {name : String} (hc : Calls f name) :
    seen name ∨ ∃ g ∈ order, g.name = name := by
  induction s using discover.induct t generalizing order seen f with
  | case1 unseen =>
    rw [discover] at h
    cases h
    cases hf
  | case2 g pending unseen e he =>
    obtain ⟨s', rest, hs', -⟩ := discover_cons_iff.mp h
    rw [he] at hs'
    cases hs'
  | case3 g pending unseen s' hs' hlt ih =>
    obtain ⟨s₁, rest, hs₁, hrest, rfl⟩ := discover_cons_iff.mp h
    rw [hs'] at hs₁
    cases hs₁
    -- `g` has left the search; every other name is where it was
    have hleft : ∀ name f, t.find? name = some f →
        (seen name ∨ name = g.name) ∨ Search.Covers ⟨pending, unseen⟩ name := by
      intro name f hname
      obtain hseen | ⟨g', hg', rfl⟩ := hall name f hname
      · exact .inl (.inl hseen)
      · simp only [List.mem_cons] at hg'
        obtain (rfl | hg') | hg' := hg'
        · exact .inl (.inr rfl)
        · exact .inr ⟨g', .inl hg', rfl⟩
        · exact .inr ⟨g', .inr hg', rfl⟩
    have hlisted : (seen name ∨ name = g.name) ∨ ∃ g' ∈ rest, g'.name = name := by
      rcases List.mem_cons.mp hf with rfl | hf
      · obtain ⟨first, hc⟩ := hc
        obtain ⟨callee, hcallee⟩ := find?_of_follow hs' hc
        refine (hleft name callee hcallee).imp_right fun hcov => ?_
        obtain ⟨g', hg', hname⟩ := (hcov.follow hs').2 (List.mem_map_of_mem hc)
        exact ⟨g', (discover_spec hrest).1.subset hg', hname⟩
      · exact ih hrest (fun name f hname => (hleft name f hname).imp_right fun hcov =>
          (hcov.follow hs').1) hf hc
    obtain (hseen | rfl) | ⟨g', hg', hname⟩ := hlisted
    · exact .inl hseen
    · exact .inr ⟨g, List.mem_cons_self, rfl⟩
    · exact .inr ⟨g', List.mem_cons_of_mem _ hg', hname⟩

theorem reachable_closed {t : Table} {f : Symbols.Function} {order : List Symbols.Function}
    (h : reachable t f = .ok order) {g : Symbols.Function} (hg : g ∈ order) {name : String}
    (hc : Calls g name) : ∃ g' ∈ order, g'.name = name := by
  -- at the start nothing is listed, so every function of the table is covered by the search
  have hstart : ∀ name g', t.find? name = some g' →
      False ∨ Search.Covers ⟨[f], t.eraseP fun g => g.name == f.name⟩ name := ?_
  · exact (discover_closed h hstart hg hc).resolve_left id
  intro name g' hg'
  obtain ⟨hmem, rfl⟩ := Table.mem_of_find? hg'
  by_cases hname : g'.name = f.name
  · exact .inr ⟨f, .inl (by simp), hname.symm⟩
  · exact .inr ⟨g', .inr ((List.mem_eraseP_of_neg (by simpa using hname)).mpr hmem), rfl⟩

/-! ## Code -/

/-- Every call has its function in the order. -/
def Env.Knows (env : Env) (calls : List (Token × String)) : Prop :=
  ∀ c ∈ calls, ∃ f ∈ env.order, f.name = c.2

theorem Env.Knows.append {env : Env} {calls calls' : List (Token × String)} :
    env.Knows (calls ++ calls') ↔ env.Knows calls ∧ env.Knows calls' := by
  simp only [Env.Knows, List.forall_mem_append]

theorem exists_emitExprs_of {env : Env} {es : List Expr}
    (h : ∀ e ∈ es, ∀ start pool, ∃ r, emitExpr env start pool e = .ok r) (start : Nat)
    (pool : Pool) : ∃ r, emitExprs env start pool es = .ok r := by
  induction es generalizing start pool with
  | nil => exact ⟨_, by rw [emitExprs]⟩
  | cons e es ih =>
    obtain ⟨⟨code, pool₁⟩, he⟩ := h e (by simp) start pool
    obtain ⟨⟨more, pool₂⟩, hes⟩ :=
      ih (fun e' he' => h e' (by simp [he'])) (start + code.length) pool₁
    exact ⟨(code ++ more, pool₂), by simp [emitExprs, he, hes, bind_eq_ok]⟩

/-- **An expression that has a type has code**, if the functions it calls are laid out. -/
theorem exists_emitExpr {env : Env} {e : Expr} {ty : Ty}
    (h : HasType ⟨env.table, env.function⟩ e ty) (hk : env.Knows e.calls) (start : Nat)
    (pool : Pool) : ∃ r, emitExpr env start pool e = .ok r := by
  induction e using Expr.induction generalizing ty start pool with
  | int | bool | str => exact ⟨_, by rw [emitExpr]⟩
  | var name =>
    cases h with
    | var hv => exact ⟨_, by rw [emitExpr, hv]⟩
  | binary op left right ihl ihr =>
    have hty := staticType_eq h
    obtain ⟨hl, hr, -⟩ := hasType_binary_iff.mp h
    obtain ⟨hkl, hkr⟩ := Env.Knows.append.mp hk
    obtain ⟨⟨l, pool₁⟩, hleft⟩ := ihl hl hkl start pool
    -- where the right operand starts depends on the operator
    have hright := fun start => ihr hr hkr start pool₁
    rcases hop : strategy op with opcode | _ | _
    · obtain ⟨r, hr⟩ := hright (start + l.length)
      exact ⟨_, by simp only [emitExpr, hty, hleft, hop, hr, ok_bind]; rfl⟩
    · obtain ⟨r, hr⟩ := hright (start + l.length + 1)
      exact ⟨_, by simp only [emitExpr, hty, hleft, hop, hr, ok_bind]; rfl⟩
    · obtain ⟨r, hr⟩ := hright (start + l.length + 3)
      exact ⟨_, by simp only [emitExpr, hty, hleft, hop, hr, ok_bind]; rfl⟩
  | call first callee args ih =>
    obtain ⟨f, hf, hname⟩ := hk (first, callee) (by simp [Expr.calls])
    have hargs : ∀ a ∈ args, ∀ start pool, ∃ r, emitExpr env start pool a = .ok r := by
      intro a ham start pool
      obtain ⟨ty', hty'⟩ := h.exists_of_mem ham
      refine ih a ham hty' (fun c hc => hk c ?_) start pool
      rw [Expr.calls, List.mem_cons, mem_callsAll_exprs]
      exact .inr ⟨a, ham, hc⟩
    obtain ⟨r, hargs⟩ := exists_emitExprs_of hargs start pool
    obtain ⟨i, hi⟩ : ∃ i, env.order.findIdx? (fun f => f.name == callee) = some i := by
      rw [← Option.isSome_iff_exists, List.findIdx?_isSome, List.any_eq_true]
      exact ⟨f, hf, beq_iff_eq.mpr hname⟩
    simp only [emitExpr, hargs, hi, bind_eq_ok]
    exact ⟨_, _, rfl, rfl⟩

theorem exists_emitExprs {env : Env} {es : List Expr}
    (h : ∀ e ∈ es, ∃ ty, HasType ⟨env.table, env.function⟩ e ty)
    (hk : env.Knows (Expr.callsAll es)) (start : Nat) (pool : Pool) :
    ∃ r, emitExprs env start pool es = .ok r := by
  refine exists_emitExprs_of (fun e he => ?_) start pool
  obtain ⟨ty, hty⟩ := h e he
  exact exists_emitExpr hty fun c hc => hk c (mem_callsAll_exprs.mpr ⟨e, he, hc⟩)

theorem exists_emitStore {env : Env} {name : String} {v : Variable} {value : Expr} {ty : Ty}
    (hv : env.function.lookup? name = some v) (h : HasType ⟨env.table, env.function⟩ value ty)
    (hk : env.Knows value.calls) (start : Nat) (pool : Pool) (place : Position) :
    ∃ r, emitStore env start pool place name value = .ok r := by
  obtain ⟨r, hr⟩ := exists_emitExpr h hk start pool
  simp only [emitStore, hv, bind_eq_ok]
  exact ⟨_, _, hr, rfl⟩

theorem exists_emitStmts_of {env : Env} {ss : List Stmt}
    (h : ∀ s ∈ ss, ∀ final start pool, ∃ r, emitStmt env final start pool s = .ok r)
    (final : Bool) (start : Nat) (pool : Pool) :
    ∃ r, emitStmts env final start pool ss = .ok r := by
  induction ss generalizing start pool with
  | nil => exact ⟨_, by rw [emitStmts]⟩
  | cons s ss ih =>
    obtain ⟨⟨code, pool₁⟩, hs⟩ := h s (by simp) (final && ss.isEmpty) start pool
    obtain ⟨⟨more, pool₂⟩, hss⟩ :=
      ih (fun s' hs' => h s' (by simp [hs'])) (start + code.length) pool₁
    exact ⟨(code ++ more, pool₂), by simp [emitStmts, hs, hss, bind_eq_ok]⟩

/-- **A well-typed statement has code**, if the functions it calls are laid out. -/
theorem exists_emitStmt {env : Env} {s : Stmt} {atTop : Bool}
    (h : StmtTyped ⟨env.table, env.function⟩ atTop s) (hk : env.Knows s.calls) (final : Bool)
    (start : Nat) (pool : Pool) : ∃ r, emitStmt env final start pool s = .ok r := by
  induction s using Stmt.induction generalizing atTop final start pool with
  | ret first value =>
    cases h with
    | ret hv =>
      obtain ⟨⟨code, pool₁⟩, hr⟩ := exists_emitExpr hv hk start pool
      simp only [emitStmt, hr, bind_eq_ok]
      rcases final && env.isAlone with _ | _ <;> exact ⟨_, _, rfl, rfl⟩
  | cond first test brace body ih =>
    cases h with
    | cond ht hb =>
      obtain ⟨hkt, hkb⟩ := Env.Knows.append.mp hk
      obtain ⟨⟨t, pool₁⟩, ht⟩ := exists_emitExpr ht hkt start pool
      obtain ⟨r, hr⟩ := exists_emitStmts_of (fun s hs => ih s hs (hb s hs) fun c hc =>
        hkb c (mem_callsAll_stmts.mpr ⟨s, hs, hc⟩)) false (start + t.length + 1) pool₁
      simp only [emitStmt, ht, bind_eq_ok]
      exact ⟨_, _, rfl, _, hr, rfl⟩
  | assign target value =>
    cases h with
    | assign hv he => exact exists_emitStore hv he hk start pool target.pos
  | print first args =>
    cases h with
    | print ha =>
      have hargs : ∀ a ∈ args, ∃ ty, HasType ⟨env.table, env.function⟩ a ty :=
        fun a ham => (ha a ham).imp fun _ h => h.2
      obtain ⟨r, hr⟩ := exists_emitExprs hargs hk start pool
      simp only [emitStmt, bind_eq_ok]
      exact ⟨_, _, hr, rfl⟩
  | decl first param value =>
    cases h with
    | decl hv he => exact exists_emitStore hv he hk start pool first.pos
  | call first callee args =>
    cases h with
    | call hc =>
      obtain ⟨r, hr⟩ := exists_emitExpr hc hk start pool
      simp only [emitStmt, bind_eq_ok]
      exact ⟨_, _, hr, rfl⟩

theorem exists_emitFunction {env : Env}
    (h : FunctionTyped ⟨env.table, env.function⟩ env.function.decl)
    (hk : env.Knows (Stmt.callsAll env.function.decl.body)) (start : Nat) (pool : Pool) :
    ∃ r, emitFunction env start pool = .ok r := by
  obtain ⟨r, hr⟩ := exists_emitStmts_of (fun s hs => exists_emitStmt (h.body s hs) fun c hc =>
    hk c (mem_callsAll_stmts.mpr ⟨s, hs, hc⟩)) true (start + env.function.localCount) pool
  simp only [emitFunction, List.length_replicate, bind_eq_ok]
  exact ⟨_, _, hr, rfl⟩

theorem exists_emitFunctions {t : Table} {order fs : List Symbols.Function}
    (h : ∀ f ∈ fs, ∀ start pool, ∃ r, emitFunction ⟨t, order, f⟩ start pool = .ok r)
    (start : Nat) (pool : Pool) : ∃ prog, emitFunctions t order start pool fs = .ok prog := by
  induction fs generalizing start pool with
  | nil => exact ⟨_, rfl⟩
  | cons f fs ih =>
    obtain ⟨⟨code, pool₁⟩, hf⟩ := h f (by simp) start pool
    obtain ⟨rest, hfs⟩ := ih (fun f' hf' => h f' (by simp [hf'])) (start + code.length) pool₁
    simp only [emitFunctions, hf, bind_eq_ok]
    exact ⟨_, _, rfl, _, hfs, rfl⟩

/-- **An accepted program has code** for every entry function that it has. -/
theorem exists_emit {p : Tree.Program} {t : Table} (ha : Accepted p t) {entry : String}
    {f : Symbols.Function} (hf : t.find? entry = some f) : ∃ prog, emit t entry p = .ok prog := by
  have hcalls : ∀ g ∈ t, ∀ name, Calls g name → ∃ g', t.find? name = some g' := by
    rintro g hg name ⟨first, hc⟩
    obtain ⟨s, hs, hc⟩ := mem_callsAll_stmts.mp hc
    exact StmtTyped.find?_of_mem_calls ((ha.functions g hg).body s hs) hc
  have hmem := (Table.mem_of_find? hf).1
  obtain ⟨order, horder⟩ := exists_discover hcalls ⟨[f], t.eraseP fun g => g.name == f.name⟩
    (by simpa using hmem) List.eraseP_subset
  have hcode : ∀ g ∈ order, ∀ start pool, ∃ r, emitFunction ⟨t, order, g⟩ start pool = .ok r := by
    intro g hg start pool
    have hg' : g ∈ t := reachable_subset hmem horder hg
    refine exists_emitFunction (ha.functions g hg') (fun c hc => ?_) start pool
    exact reachable_closed horder hg ⟨c.1, hc⟩
  obtain ⟨prog, hprog⟩ := exists_emitFunctions hcode 0 []
  refine ⟨prog, ?_⟩
  simp only [emit, hf, bind_eq_ok]
  exact ⟨order, horder, hprog⟩

/-- What the emitter makes of a program, compared with what the checker does. -/
structure Emittable (p : Tree.Program) (t : Table) (entry : String) : Prop where
  emits : ∃ prog, emit t entry p = .ok prog
  /-- both find the same type for every expression of every function, reached or not -/
  types : ∀ f ∈ p.functions, ∀ e, .expr e ∈ (Node.function f).preorder →
    ∃ ty, typeOf (scopeOf t f) e = .ok ty ∧
      ∀ order, staticType ⟨t, order, (scopeOf t f).function⟩ e = .ok ty

theorem emittable_of_accepted {p : Tree.Program} {t : Table} (ha : Accepted p t) {entry : String}
    {f : Symbols.Function} (hf : t.find? entry = some f) : Emittable p t entry := by
  refine ⟨exists_emit ha hf, ?_⟩
  intro g hg e he
  rw [← ha.collected.decls] at hg
  obtain ⟨g, hmem, rfl⟩ := List.mem_map.mp hg
  obtain ⟨g', hg', hscope⟩ := scopeOf_eq ha.collected (ha.collected.decls ▸ hg)
  rw [← (ha.collected.faithful g hmem).name, ha.collected.find?_of_mem hmem] at hg'
  cases hg'
  obtain ⟨ty, hty⟩ := exists_hasType_of_mem_preorder (ha.functions g hmem) he
  rw [hscope]
  exact ⟨ty, typeOf_eq_ok_iff.mpr hty, fun order => staticType_eq hty⟩

/-- **The checker is strong enough for the emitter.** A program that is accepted for an entry
function has code for it, and the two derivations of types agree on it; so compiling never fails
for want of code. -/
theorem check_suffices_for_emit :
    (∀ {p : Tree.Program} {t : Table} {entry : String}, collect p = .ok t →
      check t entry p = .ok () → Emittable p t entry) ∧
    ∀ source entry e, compile source entry ≠ .error (.emitting e) := by
  have hall : ∀ {p : Tree.Program} {t : Table} {entry : String}, collect p = .ok t →
      check t entry p = .ok () → Emittable p t entry := by
    intro p t entry hc h
    obtain ⟨ha, f, hf, -⟩ := accepted_of_check hc h
    exact emittable_of_accepted ha hf
  refine ⟨hall, ?_⟩
  intro source entry e h
  simp only [compile, bind_eq_error, mapError_eq_error, mapError_eq_ok, reduceCtorEq, and_false,
    exists_false, false_or] at h
  obtain ⟨tokens, -, tree, -, symbols, hcollect, ⟨⟩, hcheck, ⟨e', hemit, -⟩ | ⟨program, -, h⟩⟩ := h
  · obtain ⟨prog, hprog⟩ := (hall hcollect hcheck).emits
    rw [hprog] at hemit
    cases hemit
  · cases h

/-- A function `main` that prints the result of a call, and the function that it calls:
`function main() { print(-> double(4)); } function double(n: int) -> int { return n + n; }`. -/
def doubling : Tree.Program :=
  let word (text : String) : Token := ⟨.ident, text, ⟨1, 1⟩⟩
  let int : TypeName := ⟨⟨.keyword .int, "int", ⟨1, 1⟩⟩⟩
  ⟨word "function",
    [⟨word "function", "main", [], none, word "\x7b",
      [.print (word "print") [.call (word "->") "double" [.int (word "4") 4]]]⟩,
    ⟨word "function", "double", [⟨word "n", int⟩], some int, word "\x7b",
      [.ret (word "return") (.binary .plus (.var (word "n")) (.var (word "n")))]⟩]⟩

/-- It is accepted for the entry `main`, so it has code. -/
theorem check_suffices_doubling : ∃ t, collect doubling = .ok t ∧
    check t "main" doubling = .ok () ∧ Emittable doubling t "main" :=
  ⟨_, rfl, rfl, check_suffices_for_emit.1 rfl rfl⟩

end Stackling.Code
