import Mathlib.Data.List.Nodup
import Stackling.Proofs.Except
import Stackling.Symbols

/-!
# What a collected table says

`collect` builds a table by appending: to a function's variables one declaration after the other,
to the table one function after the other. This file states once what the result is, so that
nothing later unfolds those two loops.

* `Slotted vars` — a variable's slot is its place in the list, no name is used twice and no
  variable is `void`.
* `Faithful f` — a table entry agrees with its declaration: name, result type, parameters in front
  of the local variables.
* `Collected p t` — the entries of `t` are the functions of `p`, in order, under different names.
-/

namespace Stackling.Symbols

open Stackling.Tree

/-! ## Variables -/

/-- Variables with their own places as slots, different names and types of values. -/
structure Slotted (vars : List Variable) : Prop where
  /-- a slot is a place in the list -/
  slot : ∀ {i : Nat} {v : Variable}, vars[i]? = some v → v.slot = i
  /-- no name is used twice -/
  nodup : (vars.map (·.name)).Nodup
  /-- every variable holds a value -/
  type_ne_void : ∀ v ∈ vars, v.type ≠ .void

theorem Slotted.nil : Slotted [] := by
  refine ⟨?_, List.nodup_nil, ?_⟩
  · intro i v h
    simp at h
  · intro v h
    cases h

theorem Slotted.append_singleton {vars : List Variable} (hs : Slotted vars) {v : Variable}
    (hslot : v.slot = vars.length) (hname : ∀ w ∈ vars, w.name ≠ v.name) (hty : v.type ≠ .void) :
    Slotted (vars ++ [v]) := by
  refine ⟨?_, ?_, ?_⟩
  · intro i w h
    rcases Nat.lt_trichotomy i vars.length with hlt | rfl | hgt
    · rw [List.getElem?_append_left hlt] at h
      exact hs.slot h
    · rw [List.getElem?_concat_length] at h
      rw [← Option.some.inj h]
      exact hslot
    · rw [List.getElem?_eq_none (by simp; omega)] at h
      cases h
  · rw [List.map_append, List.nodup_append]
    refine ⟨hs.nodup, by simp, ?_⟩
    intro a ha b hb
    obtain ⟨w, hw, rfl⟩ := List.mem_map.mp ha
    rw [List.map_singleton, List.mem_singleton] at hb
    rw [hb]
    exact hname w hw
  · intro w hw
    rcases List.mem_append.mp hw with hw | hw
    · exact hs.type_ne_void w hw
    · rw [List.mem_singleton.mp hw]
      exact hty

theorem resolve_ne_void {t : TypeName} {ty : Ty} (h : resolve t = .ok ty) : ty ≠ .void := by
  unfold resolve at h
  split at h <;> cases h <;> intro hv <;> cases hv

/-- Inversion for `declare`: the name was free, the type exists, and the variable comes last. -/
theorem declare_eq_ok {function : String} {isParam : Bool} {vars vars' : List Variable}
    {p : Param} (h : declare function isParam vars p = .ok vars') :
    ∃ type, resolve p.type = .ok type ∧ (∀ v ∈ vars, v.name ≠ p.name.lexeme) ∧
      vars' = vars ++ [⟨p.name.lexeme, type, vars.length, isParam⟩] := by
  unfold declare at h
  split at h
  · cases h
  · next hfree =>
    rcases hr : resolve p.type with e | type <;> rw [hr] at h <;> cases h
    refine ⟨type, rfl, ?_, rfl⟩
    intro v hv hn
    exact hfree (List.any_eq_true.mpr ⟨v, hv, beq_iff_eq.mpr hn⟩)

/-- **Declaring a list of parameters** appends one variable for each, in order, all of one kind. -/
theorem foldlM_declare {function : String} {isParam : Bool} {ps : List Param} :
    ∀ {vars vars' : List Variable}, Slotted vars →
      ps.foldlM (declare function isParam) vars = .ok vars' →
      Slotted vars' ∧ ∃ new, vars' = vars ++ new ∧
        new.map (·.name) = ps.map (·.name.lexeme) ∧ ∀ v ∈ new, v.isParam = isParam := by
  induction ps with
  | nil =>
    intro vars vars' hs h
    cases h
    exact ⟨hs, [], (List.append_nil _).symm, rfl, fun v hv => by cases hv⟩
  | cons p ps ih =>
    intro vars vars' hs h
    rw [List.foldlM_cons] at h
    rcases hd : declare function isParam vars p with e | vars₁ <;> rw [hd] at h
    · cases h
    · obtain ⟨type, hty, hfree, rfl⟩ := declare_eq_ok hd
      have hs₁ := hs.append_singleton (v := ⟨p.name.lexeme, type, vars.length, isParam⟩) rfl
        hfree (resolve_ne_void hty)
      obtain ⟨hs', new, rfl, hnames, hkind⟩ := ih hs₁ h
      refine ⟨hs', ⟨p.name.lexeme, type, vars.length, isParam⟩ :: new, by simp, by simp [hnames],
        ?_⟩
      intro v hv
      rcases List.mem_cons.mp hv with rfl | hv
      · rfl
      · exact hkind v hv

/-! ## Functions -/

/-- A table entry that agrees with its declaration. -/
structure Faithful (f : Function) : Prop where
  name : f.name = f.decl.name
  /-- only a function without a result type gives `void` -/
  returns : f.returns = .void ↔ f.decl.returns = none
  slotted : Slotted f.vars
  /-- the parameters are the first variables -/
  params_prefix : f.params <+: f.vars
  /-- they are those of the declaration -/
  params_names : f.params.map (·.name) = f.decl.params.map (·.name.lexeme)

/-- Inversion for `collectFunction`: the name was free, and the entry agrees with `f`. -/
theorem collectFunction_eq_ok {t : Table} {f : Tree.Function} {g : Function}
    (h : collectFunction t f = .ok g) :
    (∀ g' ∈ t, g'.name ≠ f.name) ∧ g.decl = f ∧ Faithful g := by
  obtain ⟨returns, params, vars, hnew, hret, hp, hv, rfl⟩ : ∃ returns params vars,
      ¬ (t.find? f.name).isSome ∧ (returns = .void ↔ f.returns = none) ∧
      f.params.foldlM (declare f.name true) [] = .ok params ∧
      (declarations f.body).foldlM (declare f.name false) params = .ok vars ∧
      ⟨f.name, returns, vars, f⟩ = g := by
    simp only [collectFunction, throw_bind, guard_eq_ok] at h
    obtain ⟨hnew, h⟩ := h
    -- the result type is read in one of two ways; the rest is the same for both
    rcases hr : f.returns with _ | type <;> simp only [hr, bind_eq_ok, pure_eq_ok] at h
    · obtain ⟨_, rfl, params, hp, vars, hv, rfl⟩ := h
      exact ⟨.void, params, vars, hnew, by simp, hp, hv, rfl⟩
    · obtain ⟨ty, hty, params, hp, vars, hv, rfl⟩ := h
      exact ⟨ty, params, vars, hnew, by simp [resolve_ne_void hty], hp, hv, rfl⟩
  obtain ⟨hsp, ps, hps, hnames, hkind⟩ := foldlM_declare Slotted.nil hp
  obtain ⟨hsv, ls, rfl, -, hkind'⟩ := foldlM_declare hsp hv
  rw [List.nil_append] at hps
  subst hps
  have hparams : (params ++ ls).filter (·.isParam) = params := by
    rw [List.filter_append, List.filter_eq_self.mpr hkind,
      List.filter_eq_nil_iff.mpr (fun v hm => by rw [hkind' v hm]; decide), List.append_nil]
  refine ⟨?_, rfl, rfl, hret, hsv, ?_, ?_⟩
  · intro g' hg' hn
    exact hnew (List.find?_isSome.mpr ⟨g', hg', beq_iff_eq.mpr hn⟩)
  · rw [Function.params, hparams]
    exact List.prefix_append params ls
  · rw [Function.params, hparams]
    exact hnames

namespace Function

variable {f : Function}

/-- A variable that is found stands in its slot. -/
theorem getElem?_of_lookup? (hf : Slotted f.vars) {name : String} {v : Variable}
    (h : f.lookup? name = some v) : f.vars[v.slot]? = some v ∧ v.name = name := by
  obtain ⟨i, hi⟩ := List.getElem?_of_mem (List.mem_of_find?_eq_some h)
  have hname := List.find?_some h
  rw [hf.slot hi]
  exact ⟨hi, beq_iff_eq.mp hname⟩

theorem type_ne_void_of_lookup? (hf : Slotted f.vars) {name : String} {v : Variable}
    (h : f.lookup? name = some v) : v.type ≠ .void :=
  hf.type_ne_void v (List.mem_of_find?_eq_some h)

/-- The slots are those of the parameters and those of the locals. -/
theorem params_add_localCount (hf : Faithful f) :
    f.params.length + f.localCount = f.vars.length := by
  have := hf.params_prefix.length_le
  unfold localCount slotCount
  omega

end Function

/-! ## Tables -/

/-- A table that lists the functions of a program. -/
structure Collected (p : Program) (t : Table) : Prop where
  /-- the entries are the functions of the program, in order -/
  decls : t.map (·.decl) = p.functions
  /-- no name is used twice -/
  nodup : (t.map (·.name)).Nodup
  faithful : ∀ f ∈ t, Faithful f

/-- **The loop over the functions** of a program appends one entry for each. -/
theorem foldlM_collectFunction {fs : List Tree.Function} :
    ∀ {t t' : Table}, (t.map (·.name)).Nodup → (∀ f ∈ t, Faithful f) →
      fs.foldlM (fun t f => do return t ++ [← collectFunction t f]) t = .ok t' →
      t'.map (·.decl) = t.map (·.decl) ++ fs ∧ (t'.map (·.name)).Nodup ∧ ∀ f ∈ t', Faithful f := by
  induction fs with
  | nil =>
    intro t t' hnd hf h
    cases h
    exact ⟨(List.append_nil _).symm, hnd, hf⟩
  | cons f fs ih =>
    intro t t' hnd hf h
    simp only [List.foldlM_cons, bind_eq_ok, pure_eq_ok] at h
    obtain ⟨t₁, ⟨g, hg, rfl⟩, h⟩ := h
    obtain ⟨hnew, rfl, hfaith⟩ := collectFunction_eq_ok hg
    have hnd₁ : ((t ++ [g]).map (·.name)).Nodup := by
      rw [List.map_append, List.nodup_append]
      refine ⟨hnd, by simp, ?_⟩
      intro a ha b hb
      obtain ⟨g', hg', rfl⟩ := List.mem_map.mp ha
      rw [List.map_singleton, List.mem_singleton] at hb
      rw [hb, hfaith.name]
      exact hnew g' hg'
    have hf₁ : ∀ f ∈ t ++ [g], Faithful f := by
      intro f hm
      rcases List.mem_append.mp hm with hm | hm
      · exact hf f hm
      · rw [List.mem_singleton.mp hm]
        exact hfaith
    obtain ⟨hdecls, hnd', hf'⟩ := ih hnd₁ hf₁ h
    exact ⟨by rw [hdecls]; simp, hnd', hf'⟩

/-- A table that was collected from a program lists its functions. -/
theorem Collected.of_collect {p : Program} {t : Table} (h : collect p = .ok t) :
    Collected p t := by
  obtain ⟨hdecls, hnd, hf⟩ := foldlM_collectFunction (t := []) List.nodup_nil (by simp) h
  exact ⟨hdecls, hnd, hf⟩

/-- A function that is found is in the table, under that name. -/
theorem Table.mem_of_find? {t : Table} {name : String} {f : Function}
    (h : t.find? name = some f) : f ∈ t ∧ f.name = name := by
  have hname := List.find?_some h
  exact ⟨List.mem_of_find?_eq_some h, beq_iff_eq.mp hname⟩

namespace Collected

variable {p : Program} {t : Table}

theorem find?_of_mem (hc : Collected p t) {f : Function} (hf : f ∈ t) :
    t.find? f.name = some f := by
  rcases hg : t.find? f.name with _ | g
  · exact absurd (beq_self_eq_true f.name) (List.find?_eq_none.mp hg f hf)
  · obtain ⟨hmem, hname⟩ := Table.mem_of_find? hg
    rw [List.inj_on_of_nodup_map hc.nodup hmem hf hname]

/-- The table and the program find the same function under a name. -/
theorem program_find? (hc : Collected p t) {name : String} {f : Function}
    (h : t.find? name = some f) : p.find? name = some f.decl := by
  have hname : ∀ g ∈ t, (g.decl.name == name) = (g.name == name) := by
    intro g hg
    rw [(hc.faithful g hg).name]
  have hfind : ∀ s : Table, (∀ g ∈ s, g ∈ t) →
      (s.map (·.decl)).find? (fun f => f.name == name) = (s.find? name).map (·.decl) := by
    intro s hs
    induction s with
    | nil => rfl
    | cons g s ih =>
      rw [List.map_cons, List.find?_cons, hname g (hs g (by simp)), Table.find?, List.find?_cons]
      split
      · rfl
      · exact ih fun g' hg' => hs g' (by simp [hg'])
  rw [Program.find?, ← hc.decls, hfind t fun _ hg => hg, h]
  rfl

end Collected

end Stackling.Symbols
