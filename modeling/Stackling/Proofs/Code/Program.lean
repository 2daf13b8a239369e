import Mathlib.Algebra.Order.BigOperators.Group.List
import Mathlib.Algebra.Order.Group.Nat
import Stackling.Proofs.Code.Layout
import Stackling.Proofs.Typing

/-!
# Where the functions of a program stand

The emitter lays functions out in the order in which the entry function reaches them.
`FunctionAt task env entry stop` says that the code of a function starts at `entry`: zeros for its
local variables, its body up to `stop`, and a return if it needs one. `Laid task t order f` says it
of every function of the order, `f` first, and `laid_of_emit` derives it for an emitted program.

Arguments are 32 bits wide, so a slot has to be smaller than `2 ^ 31`. Nothing needs to be assumed
for that: every local variable takes an instruction that reserves it and every parameter one that
pushes an argument (`Laid.slots`).
-/

namespace Stackling.Code

open Stackling.Tree Stackling.Symbols Stackling.Typing
open Machine (Task)

/-! ## The order of functions -/

/-- `f` calls the function named `name`. -/
def Calls (f : Symbols.Function) (name : String) : Prop :=
  ∃ first, (first, name) ∈ Stmt.callsAll f.decl.body

/-- What following calls adds to a search: functions that were unseen and are called. -/
structure Search.Extends (s : Search) (names : List String) (s' : Search) : Prop where
  pending : s.pending <+: s'.pending
  unseen : s'.unseen ⊆ s.unseen
  found : ∀ f ∈ s'.pending, f ∈ s.pending ∨ (f ∈ s.unseen ∧ f.name ∈ names)

theorem Search.find_extends (s : Search) (name : String) : s.Extends [name] (s.find name) := by
  unfold find
  split
  · exact ⟨List.prefix_rfl, fun _ h => h, fun f hf => .inl hf⟩
  · next f hf =>
    obtain ⟨hmem, hname⟩ := Table.mem_of_find? hf
    refine ⟨List.prefix_append _ _, List.eraseP_subset, ?_⟩
    intro g hg
    rcases List.mem_append.mp hg with hg | hg
    · exact .inl hg
    · rw [List.mem_singleton.mp hg]
      exact .inr ⟨hmem, by simp [hname]⟩

theorem Search.follow_extends {t : Table} {s s' : Search} {calls : List (Token × String)}
    (h : s.follow t calls = .ok s') : s.Extends (calls.map (·.2)) s' := by
  induction calls generalizing s with
  | nil =>
    cases h
    exact ⟨List.prefix_rfl, fun _ h => h, fun f hf => .inl hf⟩
  | cons c rest ih =>
    unfold follow at h
    split at h
    · cases h
    · have h₁ := s.find_extends c.2
      have h₂ := ih h
      refine ⟨h₁.pending.trans h₂.pending, fun f hf => h₁.unseen (h₂.unseen hf), ?_⟩
      intro f hf
      rcases h₂.found f hf with hf | ⟨hu, hn⟩
      · rcases h₁.found f hf with hf | ⟨hu, hn⟩
        · exact .inl hf
        · exact .inr ⟨hu, List.mem_cons.mpr (.inl (List.mem_singleton.mp hn))⟩
      · exact .inr ⟨h₁.unseen hu, List.mem_cons_of_mem _ hn⟩

/-- Inversion for `discover`: the first pending function is looked into, then the rest. -/
theorem discover_cons_iff {t : Table} {f : Symbols.Function} {pending : List Symbols.Function}
    {unseen : Table} {order : List Symbols.Function} :
    discover t ⟨f :: pending, unseen⟩ = .ok order ↔ ∃ s' rest,
      Search.follow t ⟨pending, unseen⟩ (Stmt.callsAll f.decl.body) = .ok s' ∧
        discover t s' = .ok rest ∧ f :: rest = order := by
  rw [discover]
  split
  · next e he => simp [he]
  · next s' hs' =>
    simp only [bind_eq_ok, pure_eq_ok]
    simp [hs']

/-- A search lists what is pending, and then only functions that a listed one calls. -/
theorem discover_spec {t : Table} {s : Search} {order : List Symbols.Function}
    (h : discover t s = .ok order) : s.pending <+: order ∧
      ∀ f ∈ order, f ∈ s.pending ∨ (f ∈ s.unseen ∧ ∃ g ∈ order, Calls g f.name) := by
  induction s using discover.induct t generalizing order with
  | case1 unseen =>
    rw [discover] at h
    cases h
    exact ⟨List.prefix_rfl, fun f hf => .inl hf⟩
  | case2 f pending unseen e he =>
    obtain ⟨s', rest, hs', -⟩ := discover_cons_iff.mp h
    rw [he] at hs'
    cases hs'
  | case3 f pending unseen s' hs' hlt ih =>
    obtain ⟨s₁, rest, hs₁, hrest, rfl⟩ := discover_cons_iff.mp h
    rw [hs'] at hs₁
    cases hs₁
    obtain ⟨hpre, hmem⟩ := ih hrest
    have hext := Search.follow_extends hs'
    refine ⟨List.cons_prefix_cons.mpr ⟨rfl, hext.pending.trans hpre⟩, ?_⟩
    intro g hg
    rcases List.mem_cons.mp hg with rfl | hg
    · exact .inl List.mem_cons_self
    · rcases hmem g hg with hg | ⟨hu, g', hg', hcalls⟩
      · rcases hext.found g hg with hg | ⟨hu, hn⟩
        · exact .inl (List.mem_cons_of_mem _ hg)
        · obtain ⟨⟨first, name⟩, hc, rfl⟩ := List.mem_map.mp hn
          exact .inr ⟨hu, f, List.mem_cons_self, first, hc⟩
      · exact .inr ⟨hext.unseen hu, g', List.mem_cons_of_mem _ hg', hcalls⟩

/-- The functions that are laid out: the entry function, and functions of the table that one of
them calls. -/
theorem reachable_spec {t : Table} {f : Symbols.Function} {order : List Symbols.Function}
    (h : reachable t f = .ok order) : order.head? = some f ∧
      ∀ g ∈ order, g = f ∨ (g ∈ t ∧ ∃ g' ∈ order, Calls g' g.name) := by
  obtain ⟨⟨rest, hrest⟩, hmem⟩ := discover_spec h
  refine ⟨by rw [← hrest]; rfl, ?_⟩
  intro g hg
  rcases hmem g hg with hg | ⟨hu, hcalled⟩
  · exact .inl (List.mem_singleton.mp hg)
  · exact .inr ⟨List.mem_of_mem_eraseP hu, hcalled⟩

theorem reachable_subset {t : Table} {f : Symbols.Function} (hf : f ∈ t)
    {order : List Symbols.Function} (h : reachable t f = .ok order) : order ⊆ t := by
  intro g hg
  rcases (reachable_spec h).2 g hg with rfl | ⟨hg, -⟩
  · exact hf
  · exact hg

/-! ## Functions -/

/-- The code of a function starts at `entry`, and that of its body ends at `stop`. -/
structure FunctionAt (task : Task) (env : Env) (entry stop : Nat) : Prop where
  reserve : ∀ k < env.function.localCount, task.At (entry + k) .pushInt 0
  body : StmtsAt task env true (entry + env.function.localCount) env.function.decl.body stop
  /-- a function that is alone runs to the end of the code, another one to a return -/
  leave : if env.isAlone then stop = task.code.size
    else env.function.decl.endsInReturn = false → task.At stop .ret 0

/-- Number of instructions of a function. -/
def functionSize (env : Env) : Nat :=
  env.function.localCount + stmtsSize env true env.function.decl.body +
    if env.function.decl.endsInReturn || env.isAlone then 0 else 1

/-- Inversion for `emitFunction`. -/
theorem emitFunction_eq_ok {env : Env} {start : Nat} {pool pool' : Pool} {code : List Instruction}
    (h : emitFunction env start pool = .ok (code, pool')) :
    ∃ body, emitStmts env true (start + env.function.localCount) pool env.function.decl.body =
        .ok (body, pool') ∧
      code = List.replicate env.function.localCount (Instruction.withArg .pushInt 0) ++ body ++
        (if env.function.decl.endsInReturn || env.isAlone then []
          else [Instruction.withArg .ret 0]) := by
  simp only [emitFunction, bind_eq_ok, pure_eq_ok, List.length_replicate] at h
  obtain ⟨⟨body, pool₁⟩, hbody, heq⟩ := h
  cases heq
  exact ⟨body, hbody, rfl⟩

/-- Inversion for `emit`. -/
theorem emit_eq_ok {t : Table} {entry : String} {p : Tree.Program} {prog : Program}
    (h : emit t entry p = .ok prog) : ∃ f order, t.find? entry = some f ∧
      reachable t f = .ok order ∧ emitFunctions t order 0 [] order = .ok prog := by
  cases hf : t.find? entry with
  | none => simp only [emit, hf, reduceCtorEq] at h
  | some f =>
    simp only [emit, hf, bind_eq_ok] at h
    obtain ⟨order, horder, hcode⟩ := h
    exact ⟨f, order, rfl, horder, hcode⟩

/-- What laying functions out from `start` on produces: their code one after the other, and a table
that names where each of them starts. -/
structure Listing (t : Table) (order : List Symbols.Function) (start : Nat)
    (fs : List Symbols.Function) (prog : Program) (codes : List (List Instruction)) : Prop where
  code : prog.code = codes.flatten
  length : codes.length = fs.length
  placed : ∀ {i : Nat} {f : Symbols.Function}, fs[i]? = some f → ∃ code entry pool₁ pool₂,
    codes[i]? = some code ∧ entry = start + (codes.take i).flatten.length ∧
    prog.functions[i]? = some (describe f entry) ∧
    emitFunction ⟨t, order, f⟩ entry pool₁ = .ok (code, pool₂) ∧ pool₂ <+: prog.strings

theorem emitFunctions_listing {t : Table} {order fs : List Symbols.Function} {start : Nat}
    {pool : Pool} {prog : Program} (h : emitFunctions t order start pool fs = .ok prog) :
    pool <+: prog.strings ∧ ∃ codes, Listing t order start fs prog codes := by
  induction fs generalizing start pool prog with
  | nil =>
    rw [emitFunctions] at h
    cases h
    exact ⟨List.prefix_rfl, [], rfl, rfl, fun h => by cases h⟩
  | cons f fs ih =>
    simp only [emitFunctions, bind_eq_ok, pure_eq_ok] at h
    obtain ⟨⟨code, pool₁⟩, hf, prog₁, hfs, rfl⟩ := h
    obtain ⟨hpool₁, codes, hcode, hlen, hplaced⟩ := ih hfs
    obtain ⟨body, hbody, -⟩ := emitFunction_eq_ok hf
    refine ⟨(emitStmts_pool hbody).trans hpool₁, code :: codes, by simp [hcode], by simp [hlen],
      ?_⟩
    intro i g hg
    rcases i with _ | i
    · cases hg
      exact ⟨code, start, pool, pool₁, rfl, rfl, rfl, hf, hpool₁⟩
    · obtain ⟨code', entry, pool₂, pool₃, hget, hentry, hfun, hemit, hpool₃⟩ := hplaced hg
      refine ⟨code', entry, pool₂, pool₃, hget, ?_, hfun, hemit, hpool₃⟩
      simp only [hentry, List.take_succ_cons, List.flatten_cons, List.length_append]
      omega

/-- A body that ends in a `return` has code, unless the function is alone. -/
theorem emitStmts_ne_nil {env : Env} (halone : env.isAlone = false) {ss : List Stmt} {first : Token}
    {value : Expr} (hlast : ss.getLast? = some (.ret first value)) {final : Bool} {start : Nat}
    {pool pool' : Pool} {code : List Instruction}
    (h : emitStmts env final start pool ss = .ok (code, pool')) : code ≠ [] := by
  induction ss generalizing start pool code with
  | nil => cases hlast
  | cons s ss ih =>
    simp only [emitStmts, bind_eq_ok, pure_eq_ok] at h
    obtain ⟨⟨code₁, pool₁⟩, h₁, ⟨code₂, pool₂⟩, h₂, heq⟩ := h
    cases heq
    rcases ss with _ | ⟨s', ss⟩
    · obtain rfl : s = .ret first value := by simpa using hlast
      simp only [emitStmt, halone, Bool.and_false, bind_eq_ok] at h₁
      obtain ⟨⟨code₃, pool₃⟩, -, heq⟩ := h₁
      cases heq
      simp
    · rw [List.getLast?_cons_cons] at hlast
      exact List.append_ne_nil_of_right_ne_nil _ (ih hlast h₂)

theorem emitFunction_ne_nil {env : Env} (halone : env.isAlone = false) {start : Nat}
    {pool pool' : Pool} {code : List Instruction}
    (h : emitFunction env start pool = .ok (code, pool')) : code ≠ [] := by
  obtain ⟨body, hbody, rfl⟩ := emitFunction_eq_ok h
  by_cases hends : env.function.decl.endsInReturn = true
  · obtain ⟨first, value, hlast⟩ := endsInReturn_iff.mp hends
    have := emitStmts_ne_nil halone hlast hbody
    simp [this]
  · simp [hends, halone]

/-- The emitter's code for a function is the code of that function. -/
theorem emitFunction_functionAt {task : Task} {env : Env} {entry : Nat} {pool pool' : Pool}
    {code : List Instruction} (h : emitFunction env entry pool = .ok (code, pool'))
    (hl : Linked task env) (hpool : pool' <+: task.strings.toList)
    (hlies : Lies (fun pc => task.code[pc]?) entry code)
    (halone : env.isAlone = true → entry + code.length = task.code.size) :
    code.length = functionSize env ∧
      FunctionAt task env entry (entry + env.function.localCount +
        stmtsSize env true env.function.decl.body) := by
  obtain ⟨body, hbody, hcode⟩ := emitFunction_eq_ok h
  rw [hcode] at hlies halone ⊢
  simp only [along_append, List.length_append, List.length_replicate, ← Nat.add_assoc]
    at hlies halone
  obtain ⟨⟨hres, hbd⟩, hleave⟩ := hlies
  have hstmts := (emitStmts_stmtsAt _ true _ pool hbody).2 hl hpool hbd
  have hsize : body.length = stmtsSize env true env.function.decl.body := by
    have := hstmts.stop_eq
    omega
  rw [hsize] at hstmts hleave halone
  refine ⟨?_, ?_, hstmts, ?_⟩
  · simp only [List.length_append, List.length_replicate, hsize, functionSize]
    split <;> simp [*]
  · intro k hk
    exact hres k _ (by simp [hk])
  · split
    · next hone => simpa [hone] using halone hone
    · next hone =>
      intro hends
      simp only [hone, hends, Bool.or_false, Bool.false_eq_true, if_false, along_cons] at hleave
      exact hleave.1

/-! ## Parameters cost instructions -/

theorem mem_callsAll_exprs {c : Token × String} {es : List Expr} :
    c ∈ Expr.callsAll es ↔ ∃ e ∈ es, c ∈ e.calls := by
  induction es with
  | nil => simp [Expr.callsAll]
  | cons e es ih => simp [Expr.callsAll, ih]

theorem exprSize_le_of_mem {e : Expr} {es : List Expr} (h : e ∈ es) :
    exprSize e ≤ exprsSize es := by
  induction es with
  | nil => cases h
  | cons e' es ih =>
    rw [exprsSize]
    rcases List.mem_cons.mp h with rfl | h
    · exact Nat.le_add_right _ _
    · exact Nat.le_trans (ih h) (Nat.le_add_left _ _)

section Params

variable {scope : Scope} {first : Token} {callee : String} {f : Symbols.Function}

theorem params_le_stmtsSize_of (env : Env) {ss : List Stmt}
    (h : ∀ s ∈ ss, ∀ final, (first, callee) ∈ s.calls → f.params.length ≤ stmtSize env final s)
    (hc : (first, callee) ∈ Stmt.callsAll ss) (final : Bool) :
    f.params.length ≤ stmtsSize env final ss := by
  induction ss with
  | nil => simp [Stmt.callsAll] at hc
  | cons s ss ih =>
    rw [Stmt.callsAll, List.mem_append] at hc
    rw [stmtsSize]
    rcases hc with hc | hc
    · exact Nat.le_trans (h s (by simp) _ hc) (Nat.le_add_right _ _)
    · exact Nat.le_trans (ih (fun s' hs' => h s' (by simp [hs'])) hc) (Nat.le_add_left _ _)

variable (hf : scope.table.find? callee = some f)
include hf

/-- The code of an expression is at least as long as the parameter list of a function that is called
in it. -/
theorem params_le_exprSize {e : Expr} {ty : Ty} (hty : HasType scope e ty)
    (hc : (first, callee) ∈ e.calls) : f.params.length ≤ exprSize e := by
  induction e using Expr.induction generalizing ty with
  | int | bool | str | var => simp [Expr.calls] at hc
  | binary op left right ihl ihr =>
    obtain ⟨htl, htr, -⟩ := hasType_binary_iff.mp hty
    rw [Expr.calls, List.mem_append] at hc
    have hle : exprSize left + exprSize right ≤ exprSize (.binary op left right) := by
      rw [exprSize]
      split <;> omega
    rcases hc with hc | hc
    · have := ihl htl hc
      omega
    · have := ihr htr hc
      omega
  | call first' callee' args ih =>
    rw [Expr.calls, List.mem_cons, mem_callsAll_exprs] at hc
    rw [exprSize]
    obtain heq | ⟨a, ham, hc⟩ := hc
    · cases heq
      cases hty with
      | call hg hlen =>
        rw [hf] at hg
        cases hg
        have := length_le_exprsSize args
        omega
    · obtain ⟨ty', hty'⟩ := hty.exists_of_mem ham
      have := ih a ham hty' hc
      have := exprSize_le_of_mem ham
      omega

/-- The same for statements. -/
theorem params_le_stmtSize {env : Env} {s : Stmt} {atTop : Bool} (hty : StmtTyped scope atTop s)
    (hc : (first, callee) ∈ s.calls) (final : Bool) :
    f.params.length ≤ stmtSize env final s := by
  induction s using Stmt.induction generalizing atTop final with
  | cond first' test brace body ih =>
    cases hty with
    | cond htt htb =>
      rw [Stmt.calls, List.mem_append] at hc
      rw [stmtSize]
      rcases hc with hc | hc
      · have := params_le_exprSize hf htt hc
        omega
      · have := params_le_stmtsSize_of env (fun s hs final hc => ih s hs (htb s hs) hc final) hc
          false
        omega
  | print first' args =>
    cases hty with
    | print hta =>
      rw [Stmt.calls, mem_callsAll_exprs] at hc
      obtain ⟨a, ham, hc⟩ := hc
      obtain ⟨ty, -, hty⟩ := hta a ham
      have := params_le_exprSize hf hty hc
      have := exprSize_le_of_mem ham
      rw [stmtSize]
      omega
  | ret | assign | decl | call =>
    cases hty
    have := params_le_exprSize hf ‹_› hc
    rw [stmtSize]
    omega

end Params

/-! ## Programs -/

/-- Where the code of the function number `i` starts. -/
def entryOf (t : Table) (order : List Symbols.Function) (i : Nat) : Nat :=
  ((order.take i).map fun g => functionSize ⟨t, order, g⟩).sum

/-- Every function of an order stands in the task, the entry function `f` first. -/
structure Laid (task : Task) (t : Table) (order : List Symbols.Function) (f : Symbols.Function) :
    Prop where
  members : ∀ g ∈ order, g ∈ t
  first : order[0]? = some f
  functions : ∀ {i : Nat} {g : Symbols.Function}, order[i]? = some g →
    task.functions[i]? = some (describe g (entryOf t order i)) ∧
      ∃ stop, FunctionAt task ⟨t, order, g⟩ (entryOf t order i) stop
  /-- there is no other code -/
  size : task.code.size = entryOf t order order.length
  slots : ∀ g ∈ order, g.vars.length < 2 ^ 31

theorem Laid.entry {task : Task} {t : Table} {order : List Symbols.Function}
    {f : Symbols.Function} (h : Laid task t order f) :
    task.functions[0]? = some (describe f 0) :=
  (h.functions h.first).1

/-- The table names the address at which the code of a function starts. -/
theorem Laid.functionAt {task : Task} {t : Table} {order : List Symbols.Function}
    {f : Symbols.Function} (h : Laid task t order f) {i entry : Nat} {g : Symbols.Function}
    (hg : order[i]? = some g) (hfun : task.functions[i]? = some (describe g entry)) :
    entry = entryOf t order i ∧ ∃ stop, FunctionAt task ⟨t, order, g⟩ entry stop := by
  obtain ⟨hfun', stop, hat⟩ := h.functions hg
  rw [hfun'] at hfun
  have hentry : entryOf t order i = entry := by
    simp only [describe, Option.some.injEq, Function.mk.injEq] at hfun
    omega
  exact ⟨hentry.symm, stop, hentry ▸ hat⟩

/-- Slots fit into 32 bits where the code does: the zeros that reserve the locals of one function
and the code of a body that calls it are different instructions. -/
theorem localCount_add_stmtsSize_le {t : Table} {order : List Symbols.Function}
    {f g : Symbols.Function} (hf : f ∈ order) (hg : g ∈ order) :
    f.localCount + stmtsSize ⟨t, order, g⟩ true g.decl.body ≤ entryOf t order order.length := by
  have hlocals := List.le_sum_of_mem (List.mem_map_of_mem (f := fun h => h.localCount) hf)
  have hbodies := List.le_sum_of_mem
    (List.mem_map_of_mem (f := fun h => stmtsSize ⟨t, order, h⟩ true h.decl.body) hg)
  have hsum : (order.map fun h => h.localCount).sum +
      (order.map fun h => stmtsSize ⟨t, order, h⟩ true h.decl.body).sum ≤
        (order.map fun h => functionSize ⟨t, order, h⟩).sum := by
    rw [← List.sum_map_add]
    exact List.sum_le_sum fun h _ => Nat.le_add_right _ _
  rw [entryOf, List.take_length]
  omega

section Listing

variable {t : Table} {order : List Symbols.Function} {prog : Program}
  {codes : List (List Instruction)} (h : Listing t order 0 order prog codes)
include h

theorem Listing.lies {i : Nat} {code : List Instruction} (hi : codes[i]? = some code) :
    Lies (fun k => (Task.ofProgram prog).code[k]?) (codes.take i).flatten.length code := by
  intro k y hy
  simpa [Task.ofProgram, h.code] using lies_flatten hi k y hy

/-- The program of a listing is linked. -/
theorem Listing.linked (hnamed : ∀ g ∈ order, t.find? g.name = some g)
    (hcode : prog.code.length < 2 ^ 31) (hfuns : prog.functions.length < 2 ^ 31)
    (hstrs : prog.strings.length < 2 ^ 31) (g : Symbols.Function) :
    Linked (.ofProgram prog) ⟨t, order, g⟩ := by
  refine ⟨by simpa [Task.ofProgram], by simpa [Task.ofProgram], by simpa [Task.ofProgram],
    hnamed, ?_⟩
  intro i g' hg'
  obtain ⟨code, entry, pool₁, pool₂, hget, hentry, hfun, hemit, -⟩ := h.placed hg'
  refine ⟨entry, by simpa [Task.ofProgram] using hfun, ?_⟩
  split
  · next halone =>
    have hone : order.length = 1 := beq_iff_eq.mp halone
    have hi : i < order.length := (List.getElem?_eq_some_iff.mp hg').1
    obtain rfl : i = 0 := by omega
    simpa using hentry
  · next halone =>
    have halone : (⟨t, order, g'⟩ : Env).isAlone = false := Bool.eq_false_iff.mpr halone
    have hne := emitFunction_ne_nil halone hemit
    have hpos := List.length_pos_iff.mpr hne
    have hle := (h.lies hget).length_le hne
    omega

/-- In a linked program, what was listed is the code of the functions. -/
theorem Listing.functionAt (hl : ∀ g, Linked (.ofProgram prog) ⟨t, order, g⟩) {i : Nat}
    {g : Symbols.Function} (hg : order[i]? = some g) : ∃ code, codes[i]? = some code ∧
      code.length = functionSize ⟨t, order, g⟩ ∧
      prog.functions[i]? = some (describe g (codes.take i).flatten.length) ∧
      ∃ stop, FunctionAt (.ofProgram prog) ⟨t, order, g⟩ (codes.take i).flatten.length stop := by
  obtain ⟨code, entry, pool₁, pool₂, hget, hentry, hfun, hemit, hpool⟩ := h.placed hg
  rw [Nat.zero_add] at hentry
  subst hentry
  have hsize : (⟨t, order, g⟩ : Env).isAlone = true →
      (codes.take i).flatten.length + code.length = (Task.ofProgram prog).code.size := by
    intro halone
    have hone : order.length = 1 := beq_iff_eq.mp halone
    have hi := (List.getElem?_eq_some_iff.mp hg).1
    obtain rfl : i = 0 := by omega
    obtain ⟨code', rfl⟩ := List.length_eq_one_iff.mp (h.length.trans hone)
    cases hget
    simp [Task.ofProgram, h.code]
  obtain ⟨hlen, hat⟩ := emitFunction_functionAt hemit (hl g) (by simpa [Task.ofProgram])
    (h.lies hget) hsize
  exact ⟨code, hget, hlen, hfun, _, hat⟩

/-- Where functions start is determined by the sizes of those before them. -/
theorem Listing.entryOf_eq (hl : ∀ g, Linked (.ofProgram prog) ⟨t, order, g⟩) (i : Nat) :
    (codes.take i).flatten.length = entryOf t order i := by
  have hsizes : codes.map List.length = order.map fun g => functionSize ⟨t, order, g⟩ := by
    apply List.ext_getElem?
    intro j
    rw [List.getElem?_map, List.getElem?_map]
    rcases hg : order[j]? with _ | g
    · have : codes[j]? = none := by
        rw [List.getElem?_eq_none_iff, h.length]
        exact List.getElem?_eq_none_iff.mp hg
      rw [this]
      rfl
    · obtain ⟨code, hget, hlen, -⟩ := h.functionAt hl hg
      rw [hget, Option.map_some, Option.map_some, hlen]
  rw [List.length_flatten, entryOf, List.map_take, List.map_take, hsizes]

end Listing

/-- **An emitted program is laid out**, if it has less than `2 ^ 31` instructions, functions and
texts. -/
theorem laid_of_emit {p : Tree.Program} {t : Table} (ha : Accepted p t) {name : String}
    {f : Symbols.Function} (hf : t.find? name = some f) (hparams : f.params = []) {prog : Program}
    (h : emit t name p = .ok prog) (hcode : prog.code.length < 2 ^ 31)
    (hfuns : prog.functions.length < 2 ^ 31) (hstrs : prog.strings.length < 2 ^ 31) :
    ∃ order, reachable t f = .ok order ∧ Laid (.ofProgram prog) t order f := by
  simp only [emit, hf, bind_eq_ok] at h
  obtain ⟨order, horder, h⟩ := h
  obtain ⟨hhead, hmem⟩ := reachable_spec horder
  obtain ⟨-, codes, hlist⟩ := emitFunctions_listing h
  have hmembers : ∀ g ∈ order, g ∈ t :=
    fun g hg => reachable_subset (Table.mem_of_find? hf).1 horder hg
  have hnamed : ∀ g ∈ order, t.find? g.name = some g :=
    fun g hg => ha.collected.find?_of_mem (hmembers g hg)
  have hlinked := hlist.linked hnamed hcode hfuns hstrs
  have hsize : prog.code.length = entryOf t order order.length := by
    rw [← hlist.entryOf_eq hlinked, ← hlist.length, List.take_length, hlist.code]
  refine ⟨order, horder, hmembers, by rw [← List.head?_eq_getElem?, hhead], ?_,
    by simpa [Task.ofProgram] using hsize, ?_⟩
  · intro i g hg
    obtain ⟨-, -, -, hfun, hat⟩ := hlist.functionAt hlinked hg
    rw [hlist.entryOf_eq hlinked] at hfun hat
    exact ⟨by simpa [Task.ofProgram] using hfun, hat⟩
  · intro g hg
    have hvars := g.params_add_localCount (ha.collected.faithful g (hmembers g hg))
    rcases hmem g hg with rfl | ⟨-, g', hg', first, hc⟩
    · have := localCount_add_stmtsSize_le (t := t) hg hg
      simp only [hparams, List.length_nil] at hvars
      omega
    · have htyped := (ha.functions g' (hmembers g' hg')).body
      have := params_le_stmtsSize_of ⟨t, order, g'⟩
        (fun s hs final hc => params_le_stmtSize (hnamed g hg) (htyped s hs) hc final) hc true
      have := localCount_add_stmtsSize_le (t := t) hg hg'
      omega

end Stackling.Code
