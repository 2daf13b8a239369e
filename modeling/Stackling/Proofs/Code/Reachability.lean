import Mathlib.Data.List.Perm.Subperm
import Stackling.Proofs.Code.Acceptance

/-!
# Which functions are laid out

`Tree.Reached p entry f` says on the tree alone that the function `f` can be reached: it is the
entry function, or a function that can be reached has a call of it in its body. The emitter's
search keeps a queue and moves functions into it from those it has not seen. Here the two are
compared (`mem_reachable`).

* Functions come into the queue by calls only, so what the search lists is reached
  (`discover_forall`).
* The search is closed under calls, so what is reached is listed (`reachable_closed`).
* It moves functions and never copies one, so it lists none twice (`discover_subperm`).
-/

namespace Stackling

namespace Tree

/-! ## Calls in trees -/

/-- A call of `name` stands at the node or below it, and starts with the token `start`. -/
def Node.HasCall (n : Node) (start : Token) (name : String) : Prop :=
  ∃ args, .expr (.call start name args) ∈ n.preorder

/-- A call of `name` stands in the body of the function. -/
def Function.CallsTo (f : Function) (name : String) : Prop :=
  ∃ start, (Node.block f.brace f.body).HasCall start name

/-- The functions of a program that can be reached from the one called `entry`. -/
inductive Reached (p : Program) (entry : String) : Function → Prop where
  | entry {f : Function} (hf : f ∈ p.functions) (hname : f.name = entry) : Reached p entry f
  | call {f g : Function} (hf : Reached p entry f) (hcall : f.CallsTo g.name)
      (hg : g ∈ p.functions) : Reached p entry g

section Calls

variable {start : Token} {name : String}

theorem Node.hasCall_iff {n : Node} : n.HasCall start name ↔
    (∃ args, n = .expr (.call start name args)) ∨ ∃ c ∈ n.children, c.HasCall start name := by
  simp only [HasCall, preorder.eq_1 n, List.mem_cons, List.mem_flatMap, List.mem_attach, true_and,
    Subtype.exists, exists_or]
  refine or_congr (exists_congr fun args => eq_comm) ⟨?_, ?_⟩
  · rintro ⟨args, c, hc, hm⟩
    exact ⟨c, hc, args, hm⟩
  · rintro ⟨c, hc, args, hm⟩
    exact ⟨args, c, hc, hm⟩

/-- The calls that are listed for an expression are the call nodes of its tree. -/
theorem Expr.mem_calls {e : Expr} :
    (start, name) ∈ e.calls ↔ (Node.expr e).HasCall start name := by
  induction e using Expr.induction with
  | int | bool | str | var =>
    rw [Node.hasCall_iff]
    simp [Expr.calls, Node.children]
  | binary op left right ihl ihr =>
    rw [Node.hasCall_iff]
    simp [Expr.calls, Node.children, ihl, ihr]
  | call first callee args ih =>
    rw [Node.hasCall_iff, Expr.calls, List.mem_cons, Code.mem_callsAll_exprs]
    simp only [Node.children, List.mem_map, exists_exists_and_eq_and]
    refine or_congr ?_ ?_
    · simp [eq_comm]
    · exact exists_congr fun a => and_congr_right fun ha => ih a ha

theorem Node.hasCall_block {brace : Token} {body : List Stmt} :
    (Node.block brace body).HasCall start name ↔
      ∃ s ∈ body, (Node.stmt s).HasCall start name := by
  rw [hasCall_iff]
  simp [children]

theorem Node.not_hasCall_param {p : Param} : ¬ (Node.param p).HasCall start name := by
  rw [hasCall_iff]
  simp [children, hasCall_iff (n := .typeName p.type)]

/-- The same for statements. -/
theorem Stmt.mem_calls {s : Stmt} :
    (start, name) ∈ s.calls ↔ (Node.stmt s).HasCall start name := by
  induction s using Stmt.induction with
  | cond first test brace body ih =>
    rw [Node.hasCall_iff, Stmt.calls, List.mem_append, Code.mem_callsAll_stmts, Expr.mem_calls]
    simp only [Node.children, List.mem_cons, List.not_mem_nil, or_false, exists_eq_or_imp,
      exists_eq_left, Node.hasCall_block, reduceCtorEq, exists_false, false_or]
    refine or_congr_right ?_
    exact exists_congr fun s => and_congr_right fun hs => ih s hs
  | ret | assign =>
    rw [Node.hasCall_iff]
    simp [Stmt.calls, Node.children, Expr.mem_calls]
  | print first args =>
    rw [Node.hasCall_iff, Stmt.calls, Code.mem_callsAll_exprs]
    simp [Node.children, Expr.mem_calls]
  | decl first param value =>
    rw [Node.hasCall_iff]
    simp [Stmt.calls, Node.children, Expr.mem_calls, Node.not_hasCall_param]
  | call first callee args =>
    -- the call is listed as the expression below the statement would be
    rw [Node.hasCall_iff, show Stmt.calls (.call first callee args) =
      Expr.calls (.call first callee args) from rfl, Expr.mem_calls]
    simp [Node.children]

theorem Function.callsTo_iff {f : Function} :
    f.CallsTo name ↔ ∃ start, (start, name) ∈ Stmt.callsAll f.body := by
  refine exists_congr fun start => ?_
  rw [Code.mem_callsAll_stmts, Node.hasCall_block]
  exact exists_congr fun s => and_congr_right fun _ => Stmt.mem_calls.symm

end Calls

end Tree

namespace Code

open Stackling.Tree Stackling.Symbols

theorem calls_iff_callsTo {f : Symbols.Function} {name : String} :
    Calls f name ↔ f.decl.CallsTo name :=
  Function.callsTo_iff.symm

/-! ## The search -/

section Search

variable {t : Table}

/-- What holds of the queue and passes along calls holds of everything that is listed. -/
theorem discover_forall {P : Symbols.Function → Prop}
    (hcall : ∀ {f g : Symbols.Function}, P f → Calls f g.name → g ∈ t → P g) {s : Search}
    {order : List Symbols.Function} (h : discover t s = .ok order) (hp : ∀ f ∈ s.pending, P f)
    (hu : s.unseen ⊆ t) : ∀ f ∈ order, P f := by
  induction s using discover.induct t generalizing order with
  | case1 unseen =>
    rw [discover] at h
    cases h
    exact hp
  | case2 f pending unseen e he =>
    obtain ⟨s', rest, hs', -⟩ := discover_cons_iff.mp h
    rw [he] at hs'
    cases hs'
  | case3 f pending unseen s' hs' hlt ih =>
    obtain ⟨s₁, rest, hs₁, hrest, rfl⟩ := discover_cons_iff.mp h
    rw [hs'] at hs₁
    cases hs₁
    have hext := Search.follow_extends hs'
    have hf := hp f List.mem_cons_self
    refine List.forall_mem_cons.mpr ⟨hf, ih hrest ?_ fun g hg => hu (hext.unseen hg)⟩
    intro g hg
    rcases hext.found g hg with hg | ⟨hg, hn⟩
    · exact hp g (List.mem_cons_of_mem _ hg)
    · obtain ⟨⟨first, name⟩, hc, rfl⟩ := List.mem_map.mp hn
      exact hcall hf ⟨first, hc⟩ (hu hg)

theorem perm_eraseP {name : String} {f : Symbols.Function} (hf : t.find? name = some f) :
    (f :: t.eraseP fun g => g.name == name).Perm t := by
  obtain ⟨hname, front, back, rfl, hfront⟩ := List.find?_eq_some_iff_append.mp hf
  rw [List.eraseP_append_right _ (by simpa using hfront), List.eraseP_cons, hname]
  exact List.perm_middle.symm

/-- Finding a function moves it. -/
theorem Search.find_perm (s : Search) (name : String) :
    ((s.find name).pending ++ (s.find name).unseen).Perm (s.pending ++ s.unseen) := by
  unfold find
  split
  · exact .refl _
  · next f hf =>
    rw [List.append_assoc]
    exact (perm_eraseP hf).append_left _

theorem Search.follow_perm {s s' : Search} {calls : List (Token × String)}
    (h : s.follow t calls = .ok s') :
    (s'.pending ++ s'.unseen).Perm (s.pending ++ s.unseen) := by
  induction calls generalizing s with
  | nil =>
    cases h
    exact .refl _
  | cons c rest ih =>
    unfold follow at h
    split at h
    · cases h
    · exact (ih h).trans (s.find_perm c.2)

/-- Nothing is listed more often than the search had it. -/
theorem discover_subperm {s : Search} {order : List Symbols.Function}
    (h : discover t s = .ok order) : order.Subperm (s.pending ++ s.unseen) := by
  induction s using discover.induct t generalizing order with
  | case1 unseen =>
    rw [discover] at h
    cases h
    exact List.nil_subperm
  | case2 f pending unseen e he =>
    obtain ⟨s', rest, hs', -⟩ := discover_cons_iff.mp h
    rw [he] at hs'
    cases hs'
  | case3 f pending unseen s' hs' hlt ih =>
    obtain ⟨s₁, rest, hs₁, hrest, rfl⟩ := discover_cons_iff.mp h
    rw [hs'] at hs₁
    cases hs₁
    exact (List.subperm_cons f).mpr ((ih hrest).trans (Search.follow_perm hs').subperm)

end Search

/-! ## What is laid out -/

section Reachable

variable {p : Tree.Program} {t : Table} {name : String} {f : Symbols.Function}
  {order : List Symbols.Function}

/-- No function is laid out twice. -/
theorem reachable_nodup (hc : Collected p t) (hf : t.find? name = some f)
    (h : reachable t f = .ok order) : (order.map (·.name)).Nodup := by
  have hname : t.find? f.name = some f := (Table.mem_of_find? hf).2 ▸ hf
  obtain ⟨kept, hperm, hsub⟩ := (discover_subperm h).trans (perm_eraseP hname).subperm
  rw [← (hperm.map (·.name)).nodup_iff]
  exact hc.nodup.sublist (hsub.map (·.name))

/-- **What is laid out is what can be reached.** -/
theorem mem_reachable (hc : Collected p t) (hf : t.find? name = some f)
    (h : reachable t f = .ok order) (d : Tree.Function) :
    d ∈ order.map (·.decl) ↔ Reached p name d := by
  have hdecl : ∀ {g : Symbols.Function}, g ∈ t → g.decl ∈ p.functions ∧ g.name = g.decl.name := by
    intro g hg
    exact ⟨hc.decls ▸ List.mem_map_of_mem hg, (hc.faithful g hg).name⟩
  obtain ⟨hmem, hname⟩ := Table.mem_of_find? hf
  refine ⟨?_, ?_⟩
  · rw [List.mem_map]
    rintro ⟨g, hg, rfl⟩
    refine discover_forall (P := fun g => Reached p name g.decl) ?_ h ?_
      (fun g hg => List.mem_of_mem_eraseP hg) g hg
    · intro g g' hg hcalls hg'
      rw [calls_iff_callsTo, (hdecl hg').2] at hcalls
      exact .call hg hcalls (hdecl hg').1
    · intro g hg
      rw [List.mem_singleton.mp hg]
      exact .entry (hdecl hmem).1 ((hdecl hmem).2 ▸ hname)
  · -- an entry of the table is known by the name of its function
    have hlisted : ∀ {d : Tree.Function} {g : Symbols.Function}, d ∈ p.functions → g ∈ t →
        g.name = d.name → g.decl = d := by
      intro d g hd hg heq
      rw [← hc.decls] at hd
      obtain ⟨g', hg', rfl⟩ := List.mem_map.mp hd
      rw [← (hdecl hg').2] at heq
      rw [List.inj_on_of_nodup_map hc.nodup hg hg' heq]
    intro hd
    induction hd with
    | @entry d hd hdname =>
      obtain ⟨hhead, -⟩ := reachable_spec h
      refine List.mem_map.mpr ⟨f, List.mem_of_head? hhead, hlisted hd hmem ?_⟩
      rw [hname, hdname]
    | @call d d' _ hcalls hd' ih =>
      obtain ⟨g, hg, rfl⟩ := List.mem_map.mp ih
      obtain ⟨g', hg', hname'⟩ := reachable_closed h hg (calls_iff_callsTo.mpr hcalls)
      exact List.mem_map.mpr ⟨g', hg', hlisted hd' (reachable_subset hmem h hg') hname'⟩

end Reachable

end Code

end Stackling
