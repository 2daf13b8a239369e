import Stackling.Proofs.Code.Erasure
import Stackling.Proofs.Code.Reachability
import Stackling.Proofs.Correctness

/-!
# What code depends on

The code of a program depends only on the functions that its entry function reaches through calls.
Two programs that are accepted and declare these functions alike, up to tokens, have the same code,
function table and texts, whatever else they declare and in whatever order (`compile_eq_of_agree`).

The search for reachable functions grows while it is scanned, so its two runs are compared step by
step: the functions that are waiting are the same in both, and so is what every name that is reached
still leads to (`Search.Alike`). The orders of the two runs are then the same up to tokens, and the
code depends on nothing else (`emitFunctions_erase`).
-/

namespace Stackling

open Stackling.Tree Stackling.Symbols Stackling.Typing

/-! ## Reachable names -/

/-- The names that `entry` reaches through calls. -/
inductive Tree.Program.Reaches (p : Tree.Program) (entry : String) : String → Prop
  | entry : Reaches p entry entry
  | call {name callee : String} {f : Tree.Function} (h : Reaches p entry name)
      (hf : p.find? name = some f) (hc : callee ∈ callees (Stmt.callsAll f.body)) :
      Reaches p entry callee

namespace Code

theorem calls_iff {f : Symbols.Function} {name : String} :
    Calls f name ↔ name ∈ callees (Stmt.callsAll f.decl.body) := by
  rw [Calls, callees, List.mem_map]
  constructor
  · rintro ⟨first, hc⟩
    exact ⟨_, hc, rfl⟩
  · rintro ⟨⟨first, callee⟩, hc, rfl⟩
    exact ⟨first, hc⟩

/-! ## Two searches -/

theorem find?_eraseP_of_ne {t : Table} {name sought : String} (h : name ≠ sought) :
    Table.find? (t.eraseP fun g => g.name == sought) name = t.find? name := by
  induction t with
  | nil => rfl
  | cons g t ih =>
    by_cases hg : g.name = sought
    · have hne : g.name ≠ name := fun hname => h (hname.symm.trans hg)
      rw [List.eraseP_cons_of_pos (by simpa using hg), Table.find?, Table.find?,
        List.find?_cons_of_neg (by simpa using hne)]
    · rw [List.eraseP_cons_of_neg (by simpa using hg)]
      by_cases hname : g.name = name
      · rw [Table.find?, Table.find?, List.find?_cons_of_pos (by simpa using hname),
          List.find?_cons_of_pos (by simpa using hname)]
      · rw [Table.find?, Table.find?, List.find?_cons_of_neg (by simpa using hname),
          List.find?_cons_of_neg (by simpa using hname)]
        exact ih

theorem find?_eraseP_self {t : Table} (hnd : (t.map (·.name)).Nodup) (name : String) :
    Table.find? (t.eraseP fun g => g.name == name) name = none := by
  induction t with
  | nil => rfl
  | cons g t ih =>
    obtain ⟨hfresh, hnd⟩ := List.nodup_cons.mp hnd
    by_cases hg : g.name = name
    · rw [List.eraseP_cons_of_pos (by simpa using hg), Table.find?, List.find?_eq_none]
      intro g' hg' hname
      exact hfresh (List.mem_map.mpr ⟨g', hg', (beq_iff_eq.mp hname).trans hg.symm⟩)
    · rw [List.eraseP_cons_of_neg (by simpa using hg), Table.find?,
        List.find?_cons_of_neg (by simpa using hg)]
      exact ih hnd

/-- Two searches at the same point: the same functions are waiting, and a name in `A` leads both to
the same function. -/
structure Search.Alike (A : String → Prop) (s s' : Search) : Prop where
  pending : s.pending.map Symbols.Function.erase = s'.pending.map Symbols.Function.erase
  unseen : ∀ name, A name → (s.unseen.find? name).map Symbols.Function.erase =
    (s'.unseen.find? name).map Symbols.Function.erase
  nodup : (s.unseen.map (·.name)).Nodup
  nodup' : (s'.unseen.map (·.name)).Nodup

namespace Search.Alike

variable {A : String → Prop} {s s' : Search}

/-- What a name leads to is taken out of both searches. -/
theorem unseen_eraseP (h : s.Alike A s') (sought : String) :
    ∀ name, A name →
      (Table.find? (s.unseen.eraseP fun g => g.name == sought) name).map Symbols.Function.erase =
        (Table.find? (s'.unseen.eraseP fun g => g.name == sought) name).map
          Symbols.Function.erase := by
  intro name hname
  by_cases hne : name = sought
  · subst hne
    rw [find?_eraseP_self h.nodup, find?_eraseP_self h.nodup']
  · rw [find?_eraseP_of_ne hne, find?_eraseP_of_ne hne, h.unseen name hname]

theorem find (h : s.Alike A s') {name : String} (hname : A name) :
    (s.find name).Alike A (s'.find name) := by
  have hsame := h.unseen name hname
  cases hf : s.unseen.find? name with
  | none =>
    rw [hf, Option.map_none, eq_comm, Option.map_eq_none_iff] at hsame
    simp only [Search.find, hf, hsame]
    exact h
  | some f =>
    rw [hf, Option.map_some, eq_comm, Option.map_eq_some_iff] at hsame
    obtain ⟨f', hf', herase⟩ := hsame
    simp only [Search.find, hf, hf']
    exact {
      pending := by simp only [List.map_append, h.pending, List.map_singleton, herase]
      unseen := h.unseen_eraseP name
      nodup := h.nodup.sublist (List.eraseP_sublist.map _)
      nodup' := h.nodup'.sublist (List.eraseP_sublist.map _) }

/-- Following the same calls keeps two searches alike. -/
theorem follow (h : s.Alike A s') {t t' : Table} {calls calls' : List (Token × String)}
    (hcalls : callees calls = callees calls') (hall : ∀ name ∈ callees calls, A name)
    {s₁ s₁' : Search} (hs : s.follow t calls = .ok s₁) (hs' : s'.follow t' calls' = .ok s₁') :
    s₁.Alike A s₁' := by
  induction calls generalizing calls' s s' with
  | nil =>
    obtain rfl : calls' = [] := List.map_eq_nil_iff.mp hcalls.symm
    cases hs
    cases hs'
    exact h
  | cons c calls ih =>
    cases calls' with
    | nil => cases hcalls
    | cons c' calls' =>
      obtain ⟨hc, hrest⟩ := List.cons.inj hcalls
      obtain ⟨hA, hall⟩ := List.forall_mem_cons.mp hall
      unfold Search.follow at hs hs'
      split at hs
      · cases hs
      · split at hs'
        · cases hs'
        · rw [← hc] at hs'
          exact ih (h.find hA) hrest hall hs hs'

end Search.Alike

/-- **Two searches that are alike find the same functions in the same order**, if what they look
into leads to names in `A` only. -/
theorem discover_alike {A : String → Prop} {t t' : Table}
    (hclosed : ∀ f ∈ t, A f.name → ∀ name, Calls f name → A name) {s s' : Search}
    (h : s.Alike A s') (hpending : ∀ f ∈ s.pending, f ∈ t ∧ A f.name) (hunseen : s.unseen ⊆ t)
    {order order' : List Symbols.Function} (hd : discover t s = .ok order)
    (hd' : discover t' s' = .ok order') :
    order.map Symbols.Function.erase = order'.map Symbols.Function.erase := by
  induction s using discover.induct t generalizing s' order order' with
  | case1 unseen =>
    obtain ⟨pending', unseen'⟩ := s'
    obtain rfl : pending' = [] := List.map_eq_nil_iff.mp h.pending.symm
    rw [discover] at hd hd'
    cases hd
    cases hd'
    rfl
  | case2 f pending unseen e he =>
    obtain ⟨s₁, rest, hs₁, -⟩ := discover_cons_iff.mp hd
    rw [he] at hs₁
    cases hs₁
  | case3 f pending unseen s₁ hs₁ _ ih =>
    obtain ⟨pending', unseen'⟩ := s'
    obtain ⟨f', pending', rfl⟩ : ∃ g gs, pending' = g :: gs := by
      cases pending' with
      | nil => cases h.pending
      | cons g gs => exact ⟨g, gs, rfl⟩
    obtain ⟨herase, hrest⟩ := List.cons.inj h.pending
    obtain ⟨_, rest, hs, hrun, rfl⟩ := discover_cons_iff.mp hd
    obtain ⟨s₁', rest', hs₁', hrun', rfl⟩ := discover_cons_iff.mp hd'
    rw [hs₁] at hs
    cases hs
    obtain ⟨⟨hft, hfA⟩, hpending⟩ := List.forall_mem_cons.mp hpending
    have hcallees : ∀ name ∈ callees (Stmt.callsAll f.decl.body), A name := fun name hname =>
      hclosed f hft hfA name (calls_iff.mpr hname)
    have hpopped : Search.Alike A ⟨pending, unseen⟩ ⟨pending', unseen'⟩ :=
      ⟨hrest, h.unseen, h.nodup, h.nodup'⟩
    have hsame := Tree.Function.callees_eq_of_erase (Symbols.Function.decl_eq_of_erase herase)
    have halike : s₁.Alike A s₁' := hpopped.follow hsame hcallees hs₁ hs₁'
    have hext := Search.follow_extends hs₁
    have hpending₁ : ∀ g ∈ s₁.pending, g ∈ t ∧ A g.name := by
      intro g hg
      rcases hext.found g hg with hg | ⟨hg, hname⟩
      · exact hpending g hg
      · exact ⟨hunseen hg, hcallees g.name hname⟩
    rw [List.map_cons, List.map_cons, herase,
      ih halike hpending₁ (fun g hg => hunseen (hext.unseen hg)) hrun hrun']

end Code

/-! ## Programs that declare the same -/

namespace Symbols

variable {p q : Tree.Program} {t t' : Table}

theorem Collected.find?_map_decl (hc : Collected p t) (name : String) :
    (t.find? name).map (·.decl) = p.find? name := by
  cases hf : t.find? name with
  | some f => rw [hc.program_find? hf, Option.map_some]
  | none =>
    rw [Option.map_none, eq_comm, Program.find?, List.find?_eq_none, ← hc.decls]
    refine List.forall_mem_map.mpr fun g hg hname => ?_
    rw [← (hc.faithful g hg).name] at hname
    exact List.find?_eq_none.mp hf g hg hname

/-- What two programs declare alike, their tables describe alike. -/
theorem find?_erase_eq (hp : collect p = .ok t) (hq : collect q = .ok t') {name : String}
    (h : (p.find? name).map Tree.Function.erase = (q.find? name).map Tree.Function.erase) :
    (t.find? name).map Function.erase = (t'.find? name).map Function.erase := by
  rw [← (Collected.of_collect hp).find?_map_decl, ← (Collected.of_collect hq).find?_map_decl] at h
  cases hf : t.find? name with
  | none =>
    rw [hf, Option.map_none, Option.map_none, eq_comm, Option.map_map, Option.map_eq_none_iff] at h
    rw [h]
  | some f =>
    rw [hf, Option.map_some, Option.map_some, eq_comm, Option.map_map, Option.map_eq_some_iff] at h
    obtain ⟨f', hf', herase⟩ := h
    have hg := collectFunction_of_mem hp (Table.mem_of_find? hf).1
    have hg' := collectFunction_of_mem hq (Table.mem_of_find? hf').1
    obtain ⟨g, hcollect, hsame⟩ := exists_collectFunction_of_erase herase.symm hg
    rw [hg'] at hcollect
    cases hcollect
    rw [hf', Option.map_some, Option.map_some, hsame]

end Symbols

namespace Code

/-- The functions that are laid out are in the table, and those that they call are laid out. -/
theorem reachable_lists {p : Tree.Program} {t : Table} (hc : Collected p t) {f : Symbols.Function}
    (hf : f ∈ t) {order : List Symbols.Function} (h : reachable t f = .ok order) :
    ∀ g ∈ order, t.find? g.name = some g :=
  fun _ hg => hc.find?_of_mem (reachable_subset hf h hg)

/-- **Programs that declare the reachable functions alike have the same code.** -/
theorem emit_eq_of_agree {p q : Tree.Program} {t t' : Table} (hp : collect p = .ok t)
    (hq : collect q = .ok t') {entry : String} {prog prog' : Program}
    (h : ∀ name, p.Reaches entry name →
      (p.find? name).map Tree.Function.erase = (q.find? name).map Tree.Function.erase)
    (hemit : emit t entry p = .ok prog) (hemit' : emit t' entry q = .ok prog') : prog = prog' := by
  have hc := Collected.of_collect hp
  have hc' := Collected.of_collect hq
  obtain ⟨f, order, hf, horder, hcode⟩ := emit_eq_ok hemit
  obtain ⟨f', order', hf', horder', hcode'⟩ := emit_eq_ok hemit'
  obtain ⟨hft, hname⟩ := Table.mem_of_find? hf
  obtain ⟨hft', hname'⟩ := Table.mem_of_find? hf'
  -- both searches start by finding the entry function in the whole table
  have hwhole : Search.Alike (p.Reaches entry) ⟨[], t⟩ ⟨[], t'⟩ :=
    ⟨rfl, fun name hreach => find?_erase_eq hp hq (h name hreach), hc.nodup, hc'.nodup⟩
  have hstart := hwhole.find .entry
  simp only [Search.find, hf, hf', List.nil_append] at hstart
  rw [reachable, hname] at horder
  rw [reachable, hname'] at horder'
  have hclosed : ∀ g ∈ t, p.Reaches entry g.name → ∀ name, Calls g name → p.Reaches entry name :=
    fun g hg hreach name hcalls => .call hreach (hc.program_find? (hc.find?_of_mem hg))
      (calls_iff.mp hcalls)
  have horders := discover_alike hclosed hstart (by simp [hft, hname, Tree.Program.Reaches.entry])
    List.eraseP_subset horder horder'
  rw [← hname, ← reachable] at horder
  rw [← hname', ← reachable] at horder'
  have hprog := emitFunctions_erase (reachable_lists hc hft horder)
    (fun g hg name => reachable_closed horder hg) (List.Subset.refl order) hcode
  have hprog' := emitFunctions_erase (reachable_lists hc' hft' horder')
    (fun g hg name => reachable_closed horder' hg) (List.Subset.refl order') hcode'
  rw [horders, hprog'] at hprog
  exact (Except.ok.inj hprog).symm

end Code

/-! ## Declaration order and additions -/

namespace Typing

variable {p q : Tree.Program} {t : Table} {entry : String}

/-- A name leads to the one function that has it. -/
theorem find?_eq_some_iff (hnd : (p.functions.map (·.name)).Nodup) {name : String}
    {f : Tree.Function} : p.find? name = some f ↔ f ∈ p.functions ∧ f.name = name := by
  constructor
  · intro h
    have hname := List.find?_some h
    exact ⟨List.mem_of_find?_eq_some h, beq_iff_eq.mp hname⟩
  · rintro ⟨hf, rfl⟩
    cases hg : p.find? f.name with
    | none => exact absurd (beq_self_eq_true f.name) (List.find?_eq_none.mp hg f hf)
    | some g =>
      have hname := List.find?_some hg
      rw [List.inj_on_of_nodup_map hnd (List.mem_of_find?_eq_some hg) hf (beq_iff_eq.mp hname)]

/-- The functions that are reached are those whose names are. -/
theorem reached_iff_reaches (hnd : (p.functions.map (·.name)).Nodup) {f : Tree.Function} :
    Reached p entry f ↔ f ∈ p.functions ∧ p.Reaches entry f.name := by
  have hcalls {g : Tree.Function} {name : String} :
      g.CallsTo name ↔ name ∈ callees (Stmt.callsAll g.body) := by
    simp [Function.callsTo_iff, callees]
  constructor
  · intro h
    induction h with
    | entry hf hname => exact ⟨hf, hname ▸ .entry⟩
    | call _ hcall hg ih =>
      obtain ⟨hf, hreach⟩ := ih
      exact ⟨hg, .call hreach ((find?_eq_some_iff hnd).mpr ⟨hf, rfl⟩) (hcalls.mp hcall)⟩
  · rintro ⟨hf, h⟩
    generalize hname : f.name = name at h
    induction h generalizing f with
    | entry => exact .entry hf hname
    | call _ hg hc ih =>
      obtain ⟨hg, hgname⟩ := (find?_eq_some_iff hnd).mp hg
      exact .call (ih hg hgname) (hcalls.mpr (hname ▸ hc)) hf

/-- A program that declares all that another one does leads its names to the same functions. -/
theorem find?_erase_of_subset (hnd : (q.functions.map (·.name)).Nodup)
    (h : p.functions.map Tree.Function.erase ⊆ q.functions.map Tree.Function.erase) {name : String}
    {f : Tree.Function} (hf : p.find? name = some f) :
    ∃ g, q.find? name = some g ∧ g.erase = f.erase := by
  have hname := List.find?_some hf
  obtain ⟨g, hg, herase⟩ := List.mem_map.mp
    (h (List.mem_map_of_mem (List.mem_of_find?_eq_some hf)))
  refine ⟨g, (find?_eq_some_iff hnd).mpr ⟨hg, ?_⟩, herase⟩
  rw [Tree.Function.name_eq_of_erase herase, beq_iff_eq.mp hname]

theorem map_name_erase (p : Tree.Program) :
    p.functions.map (·.name) = (p.functions.map Tree.Function.erase).map (·.name) := by
  rw [List.map_map]
  rfl

/-- A program that declares the same functions in another order leads all names to the same
functions. -/
theorem find?_erase_of_perm (hnd : (p.functions.map (·.name)).Nodup)
    (h : (p.functions.map Tree.Function.erase).Perm (q.functions.map Tree.Function.erase)) :
    (q.functions.map (·.name)).Nodup ∧ ∀ name,
      (p.find? name).map Tree.Function.erase = (q.find? name).map Tree.Function.erase := by
  have hnd' : (q.functions.map (·.name)).Nodup := by
    rw [map_name_erase] at hnd ⊢
    exact (h.map _).nodup_iff.mp hnd
  refine ⟨hnd', fun name => ?_⟩
  cases hf : p.find? name with
  | some f =>
    obtain ⟨g, hg, herase⟩ := find?_erase_of_subset hnd' h.subset hf
    rw [hg, Option.map_some, Option.map_some, herase]
  | none =>
    cases hg : q.find? name with
    | none => rfl
    | some g =>
      obtain ⟨f, hf', -⟩ := find?_erase_of_subset hnd h.symm.subset hg
      rw [hf] at hf'
      cases hf'

theorem exists_forall₂ {α β : Type} {R : α → β → Prop} {as : List α} (h : ∀ a ∈ as, ∃ b, R a b) :
    ∃ bs, List.Forall₂ R as bs := by
  induction as with
  | nil => exact ⟨[], .nil⟩
  | cons a as ih =>
    obtain ⟨⟨b, hb⟩, has⟩ := List.forall_mem_cons.mp h
    obtain ⟨bs, hbs⟩ := ih has
    exact ⟨b :: bs, .cons hb hbs⟩

/-- **Programs that lead all names to the same functions are accepted alike.** -/
theorem exists_check_of_agree (hc : collect p = .ok t) (hcheck : check t entry p = .ok ())
    (hnd : (q.functions.map (·.name)).Nodup)
    (h : ∀ name, (p.find? name).map Tree.Function.erase = (q.find? name).map Tree.Function.erase) :
    ∃ t', collect q = .ok t' ∧ check t' entry q = .ok () := by
  have hp := Collected.of_collect hc
  have hnd' : (p.functions.map (·.name)).Nodup := (collect_eq_ok_iff.mp hc).1
  -- every function of `q` is one of `p`, up to tokens
  have hdeclared : ∀ g ∈ q.functions, ∃ f ∈ p.functions, f.erase = g.erase := by
    intro g hg
    have hfind := h g.name
    rw [(find?_eq_some_iff hnd).mpr ⟨hg, rfl⟩, Option.map_some, Option.map_eq_some_iff] at hfind
    obtain ⟨f, hf, herase⟩ := hfind
    exact ⟨f, ((find?_eq_some_iff hnd').mp hf).1, herase⟩
  obtain ⟨t', ht'⟩ : ∃ t' : Table,
      List.Forall₂ (fun g e => collectFunction [] g = .ok e) q.functions t' := by
    refine exists_forall₂ fun g hg => ?_
    obtain ⟨f, hf, herase⟩ := hdeclared g hg
    rw [← hp.decls] at hf
    obtain ⟨e, he, rfl⟩ := List.mem_map.mp hf
    obtain ⟨e', he', -⟩ := exists_collectFunction_of_erase herase (collectFunction_of_mem hc he)
    exact ⟨e', he'⟩
  have hc' : collect q = .ok t' := collect_eq_ok_iff.mpr ⟨hnd, ht'⟩
  have htables : ∀ name, (t.find? name).map Symbols.Function.erase =
      (t'.find? name).map Symbols.Function.erase := fun name => find?_erase_eq hc hc' (h name)
  refine ⟨t', hc', check_eq_ok_iff.mpr ⟨?_, fun g hg => ?_⟩⟩
  · obtain ⟨hentry, -⟩ := check_eq_ok_iff.mp hcheck
    obtain ⟨f, hf, hparams, hreturns⟩ := checkEntry_eq_ok_iff.mp hentry
    have hsame := htables entry
    rw [hf, Option.map_some, eq_comm, Option.map_eq_some_iff] at hsame
    obtain ⟨f', hf', herase⟩ := hsame
    refine checkEntry_eq_ok_iff.mpr ⟨f', hf', ?_, ?_⟩
    · rw [Symbols.Function.params_eq_of_erase herase, hparams]
    · rwa [Symbols.Function.returns_eq_of_erase herase]
  · obtain ⟨f, hf, herase⟩ := hdeclared g hg
    obtain ⟨e, he, hscope⟩ := scopeOf_eq hp hf
    obtain ⟨e', he', hscope'⟩ := scopeOf_eq (Collected.of_collect hc') hg
    have hsame := htables g.name
    rw [he', ← Tree.Function.name_eq_of_erase herase, he, Option.map_some, Option.map_some,
      Option.some.injEq] at hsame
    have htyped := (check_eq_ok_iff.mp hcheck).2 f hf
    rw [hscope] at htyped
    rw [hscope']
    have hagrees : Scope.Agrees ⟨t, e⟩ ⟨t', e'⟩ := ⟨htables, hsame⟩
    exact hagrees.functionTyped herase htyped

/-- All names that are reached in an accepted program are declared. -/
theorem Accepted.exists_of_reaches (ha : Accepted p t) {f : Symbols.Function}
    (hf : t.find? entry = some f) {name : String} (h : p.Reaches entry name) :
    ∃ g, p.find? name = some g := by
  have hfound : ∃ g, t.find? name = some g := by
    induction h with
    | entry => exact ⟨f, hf⟩
    | @call name callee g _ hg hc ih =>
      obtain ⟨e, he⟩ := ih
      rw [ha.collected.program_find? he] at hg
      cases hg
      obtain ⟨⟨first, _⟩, hmem, rfl⟩ := List.mem_map.mp hc
      obtain ⟨s, hs, hmem⟩ := Code.mem_callsAll_stmts.mp hmem
      exact Code.StmtTyped.find?_of_mem_calls
        ((ha.functions e (Table.mem_of_find? he).1).body s hs) hmem
  obtain ⟨g, hg⟩ := hfound
  exact ⟨_, ha.collected.program_find? hg⟩

/-- The names that are reached in an accepted program are those of the functions that are. -/
theorem Accepted.reaches_iff (ha : Accepted p t) {f : Symbols.Function}
    (hf : t.find? entry = some f) {name : String} :
    p.Reaches entry name ↔ ∃ g, Reached p entry g ∧ g.name = name := by
  have hnd : (p.functions.map (·.name)).Nodup := by
    have hnames : t.map (·.name) = t.map fun g => g.decl.name :=
      List.map_congr_left fun g hg => (ha.collected.faithful g hg).name
    rw [← ha.collected.decls, List.map_map]
    exact hnames ▸ ha.collected.nodup
  constructor
  · intro h
    obtain ⟨g, hg⟩ := ha.exists_of_reaches hf h
    obtain ⟨hmem, rfl⟩ := (find?_eq_some_iff hnd).mp hg
    exact ⟨g, (reached_iff_reaches hnd).mpr ⟨hmem, h⟩, rfl⟩
  · rintro ⟨g, hg, rfl⟩
    exact ((reached_iff_reaches hnd).mp hg).2

end Typing

/-! ## Compiled programs -/

/-- **Code depends only on the functions that are reached.** Take a source text that compiles.
Another one that compiles for the same entry has the same code, function table and texts if it
declares the functions reached from the entry alike, up to tokens; so it has if it declares all that
the first one does and more, which is then never reached. And a text that declares the same
functions in another order compiles, too, and to the same program. -/
theorem compile_eq_of_agree {source : Bytes} {entry : String} {unit : Compiled}
    (h : compile source entry = .ok unit) (other : Bytes) :
    (∀ unit', compile other entry = .ok unit' →
      (∀ name, unit.tree.Reaches (entryName entry) name →
        (unit.tree.find? name).map Tree.Function.erase =
          (unit'.tree.find? name).map Tree.Function.erase) →
      unit'.program = unit.program) ∧
    (∀ unit', compile other entry = .ok unit' →
      unit.tree.functions.map Tree.Function.erase ⊆
        unit'.tree.functions.map Tree.Function.erase →
      unit'.program = unit.program) ∧
    (∀ tokens tree, Token.ofText (Utf8.decode other) = .ok tokens →
      Tree.Program.ofTokens tokens = .ok tree →
      (unit.tree.functions.map Tree.Function.erase).Perm
        (tree.functions.map Tree.Function.erase) →
      ∃ unit', compile other entry = .ok unit' ∧ unit'.program = unit.program) := by
  obtain ⟨-, -, hcollect, hcheck, hemit⟩ := compile_eq_ok_iff.mp h
  obtain ⟨ha, f, hf, -⟩ := accepted_of_check hcollect hcheck
  have hnd : (unit.tree.functions.map (·.name)).Nodup := (collect_eq_ok_iff.mp hcollect).1
  refine ⟨fun unit' h' hagree => ?_, fun unit' h' hsub => ?_, fun tokens tree hts htree hperm => ?_⟩
  · obtain ⟨-, -, hcollect', -, hemit'⟩ := compile_eq_ok_iff.mp h'
    exact (Code.emit_eq_of_agree hcollect hcollect' hagree hemit hemit').symm
  · obtain ⟨-, -, hcollect', -, hemit'⟩ := compile_eq_ok_iff.mp h'
    refine (Code.emit_eq_of_agree hcollect hcollect' (fun name hreach => ?_) hemit hemit').symm
    obtain ⟨g, hg⟩ := ha.exists_of_reaches hf hreach
    obtain ⟨g', hg', herase⟩ := find?_erase_of_subset (collect_eq_ok_iff.mp hcollect').1 hsub hg
    rw [hg, hg', Option.map_some, Option.map_some, herase]
  · obtain ⟨hnd', hagree⟩ := find?_erase_of_perm hnd hperm
    obtain ⟨t', hcollect', hcheck'⟩ := exists_check_of_agree hcollect hcheck hnd' hagree
    obtain ⟨ha', f', hf', -⟩ := accepted_of_check hcollect' hcheck'
    obtain ⟨prog, hemit'⟩ := Code.exists_emit ha' hf'
    exact ⟨⟨tokens, tree, t', prog⟩,
      compile_eq_ok_iff.mpr ⟨hts, htree, hcollect', hcheck', hemit'⟩,
      (Code.emit_eq_of_agree hcollect hcollect' (fun name _ => hagree name) hemit hemit').symm⟩

namespace Sample

/-! Two functions, each on one line behind `c` characters, and their trees. -/

def callerTokens (c : Nat) : List Token :=
  [key .function (c + 1), name "main" (c + 10), mark .lparen (c + 14), mark .rparen (c + 15),
    mark .lbrace (c + 17), op .arrow (c + 19), name "f" (c + 22), mark .lparen (c + 23),
    mark .rparen (c + 24), mark .semicolon (c + 25), mark .rbrace (c + 27)]

def callerTree (c : Nat) : Tree.Function :=
  ⟨key .function (c + 1), "main", [], none, mark .lbrace (c + 17),
    [.call (op .arrow (c + 19)) "f" []]⟩

def printerTokens (c : Nat) : List Token :=
  [key .function (c + 1), name "f" (c + 10), mark .lparen (c + 11), mark .rparen (c + 12),
    mark .lbrace (c + 14), key .print (c + 16), mark .lparen (c + 21), number "1" (c + 22),
    mark .rparen (c + 23), mark .semicolon (c + 24), mark .rbrace (c + 26)]

def printerTree (c : Nat) : Tree.Function :=
  ⟨key .function (c + 1), "f", [], none, mark .lbrace (c + 14),
    [.print (key .print (c + 16)) [.int (number "1" (c + 22)) 1]]⟩

def callerFirst : Bytes :=
  Bytes.ofString "function main() \x7b -> f(); \x7d function f() \x7b print(1); \x7d"

def printerFirst : Bytes :=
  Bytes.ofString "function f() \x7b print(1); \x7d function main() \x7b -> f(); \x7d"

set_option maxRecDepth 100000 in
theorem swapped_tokens :
    Token.ofText (Utf8.decode callerFirst) = .ok (callerTokens 0 ++ printerTokens 28) ∧
    Token.ofText (Utf8.decode printerFirst) = .ok (printerTokens 0 ++ callerTokens 27) := by
  decide +kernel

end Sample

/-- The order of two functions does not matter. -/
theorem compile_eq_of_agree_swapped : ∃ unit unit', compile Sample.callerFirst "" = .ok unit ∧
    compile Sample.printerFirst "" = .ok unit' ∧ unit'.program = unit.program ∧
    unit.tree.functions.map (·.name) = ["main", "f"] := by
  obtain ⟨unit, h, htree⟩ : ∃ unit, compile Sample.callerFirst "" = .ok unit ∧
      unit.tree.functions = [Sample.callerTree 0, Sample.printerTree 28] := by
    rw [compile_of_tokens Sample.swapped_tokens.1]
    exact ⟨_, by cbv, by cbv⟩
  obtain ⟨-, -, hperm⟩ := compile_eq_of_agree h Sample.printerFirst
  obtain ⟨unit', h', hsame⟩ := hperm _ ⟨Sample.key .function 1,
    [Sample.printerTree 0, Sample.callerTree 27]⟩ Sample.swapped_tokens.2 (by cbv) (by
      rw [htree]
      exact .swap ..)
  exact ⟨unit, unit', h, h', hsame, by rw [htree]; rfl⟩

end Stackling
