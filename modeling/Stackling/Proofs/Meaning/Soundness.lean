import Stackling.Proofs.Meaning
import Stackling.Proofs.Typing
import Stackling.Proofs.Value

/-!
# Evaluation of a well-typed program is never stuck

The evaluator gives up where the rules say nothing. In a program that the checker accepts this
never happens: every expression comes out with a value of its type, every variable keeps a value
of its type, and a function with a result type returns one.

`Result.Satisfies P` says that a result is not `stuck` and that `P` holds of what it finished
with. It goes through `>>=` (`Satisfies.bind`), so each rule of the type system becomes one short
composition, and the calls are closed off by induction on the fuel (`invoke_satisfies`).
-/

namespace Stackling.Meaning

open Stackling.Tree Stackling.Symbols Stackling.Typing
open Machine (Value)

/-! ## Slots -/

/-- The values of a function's variables, slot by slot. -/
def slots (f : Symbols.Function) (store : Store) : List Value :=
  f.vars.map fun v => store v.name

@[simp] theorem length_slots (f : Symbols.Function) (store : Store) :
    (slots f store).length = f.vars.length := by
  simp [slots]

/-- The value of a variable is in its slot. -/
theorem getElem?_slots {f : Symbols.Function} {store : Store} (hf : Slotted f.vars)
    {name : String} {v : Variable} (hv : f.lookup? name = some v) :
    (slots f store)[v.slot]? = some (store name) := by
  obtain ⟨hslot, rfl⟩ := Function.getElem?_of_lookup? hf hv
  rw [slots, List.getElem?_map, hslot]
  rfl

/-- Storing in a variable writes its slot and no other, for no other variable has the name. -/
theorem slots_set {f : Symbols.Function} {store : Store} (hf : Slotted f.vars) {name : String}
    {v : Variable} (hv : f.lookup? name = some v) (x : Value) :
    slots f (store.set name x) = (slots f store).set v.slot x := by
  obtain ⟨hslot, rfl⟩ := Function.getElem?_of_lookup? hf hv
  apply List.ext_getElem?
  intro i
  rw [List.getElem?_set, slots, slots, List.getElem?_map, List.getElem?_map, List.length_map]
  by_cases hi : v.slot = i
  · subst hi
    have hlt := (List.getElem?_eq_some_iff.mp hslot).1
    rw [hslot, if_pos rfl, if_pos hlt]
    simp [Store.set]
  · rw [if_neg hi]
    rcases hw : f.vars[i]? with _ | w
    · rfl
    · have hne : w.name ≠ v.name := by
        intro hname
        have hmem := List.mem_of_getElem? hw
        have hvm := List.mem_of_getElem? hslot
        have : w = v := List.inj_on_of_nodup_map hf.nodup hmem hvm hname
        exact hi (this ▸ hf.slot hw)
      simp [Store.set, hne]

/-- Names with values, looked up one by one, give the values back. -/
theorem map_lookup_zip {names : List String} {args : List Value} (hlen : names.length = args.length)
    (hnd : names.Nodup) :
    names.map (fun n => ((names.zip args).lookup n).getD .zero) = args := by
  induction names generalizing args with
  | nil => exact (List.eq_nil_of_length_eq_zero hlen.symm).symm
  | cons n names ih =>
    obtain ⟨a, args, rfl⟩ := List.exists_cons_of_length_eq_add_one hlen.symm
    obtain ⟨hn, hnd⟩ := List.nodup_cons.mp hnd
    have htail : names.map (fun m => (((n, a) :: names.zip args).lookup m).getD .zero) =
        names.map (fun m => ((names.zip args).lookup m).getD .zero) := by
      apply List.map_congr_left
      intro m hm
      have hne : (m == n) = false := by
        rw [beq_eq_false_iff_ne]
        rintro rfl
        exact hn hm
      rw [List.lookup_cons, hne]
    rw [List.map_cons, List.zip_cons_cons, htail, ih (by simpa using hlen) hnd]
    simp

/-- **The slots at the start of a call**: the arguments, then a zero for each local variable. -/
theorem slots_ofArgs {f : Symbols.Function} (hf : Faithful f) {args : List Value}
    (hlen : args.length = f.params.length) :
    slots f (.ofArgs f.decl.params args) = args ++ List.replicate f.localCount Value.zero := by
  obtain ⟨locals, hvars⟩ := hf.params_prefix
  have hcount : f.localCount = locals.length := by
    have := f.params_add_localCount hf
    rw [← hvars, List.length_append] at this
    omega
  have hnd := hf.slotted.nodup
  rw [← hvars, List.map_append, List.nodup_append] at hnd
  obtain ⟨hps, -, hdisj⟩ := hnd
  simp only [slots, Store.ofArgs, ← hf.params_names]
  rw [← hvars, List.map_append, hcount]
  refine congrArg₂ (· ++ ·) ?_ ?_
  · have hlen' : (f.params.map (·.name)).length = args.length := by simp [hlen]
    have := map_lookup_zip hlen' hps
    rw [List.map_map] at this
    exact this
  · rw [List.eq_replicate_iff]
    refine ⟨by simp, ?_⟩
    intro x hx
    obtain ⟨v, hv, rfl⟩ := List.mem_map.mp hx
    have hnone : ((f.params.map (·.name)).zip args).lookup v.name = none := by
      rw [List.lookup_eq_none_iff]
      rintro ⟨n, a⟩ hmem
      have hn := (List.of_mem_zip hmem).1
      exact bne_iff_ne.mpr (Ne.symm (hdisj n hn v.name (List.mem_map_of_mem hv)))
    rw [hnone]
    rfl

/-! ## Results that are not stuck -/

/-- A result that is not stuck, and `P` holds of what it finished with. -/
def Result.Satisfies {α : Type} (P : α → Prop) : Result α → Prop
  | .done a _ => P a
  | .divisionByZero _ => True
  | .unfinished _ => True
  | .stuck => False

namespace Result.Satisfies

variable {α β : Type} {P : α → Prop}

/-- What is printed before does not matter. -/
theorem after {r : Result α} (h : r.Satisfies P) (out : Bytes) : (r.after out).Satisfies P := by
  cases r <;> exact h

/-- One evaluation after another, where the second one may use how the first came out. -/
theorem bind_of_eq {Q : β → Prop} {r : Result α} {f : α → Result β} (hr : r.Satisfies P)
    (hf : ∀ a out, r = .done a out → P a → (f a).Satisfies Q) : (r >>= f).Satisfies Q := by
  cases r with
  | done a out => exact (hf a out rfl hr).after out
  | divisionByZero out | unfinished out => trivial
  | stuck => exact hr.elim

/-- One evaluation after another. -/
theorem bind {Q : β → Prop} {r : Result α} {f : α → Result β} (hr : r.Satisfies P)
    (hf : ∀ a, P a → (f a).Satisfies Q) : (r >>= f).Satisfies Q :=
  hr.bind_of_eq fun a _ _ ha => hf a ha

end Result.Satisfies

/-- What an expression of type `ty` comes out with: nothing for `void`, else a value of the
type. -/
def Yields (ty : Ty) : Option Value → Prop
  | none => ty = .void
  | some v => Fits v ty

/-- An expression of a type that has values has one. -/
theorem asValue_satisfies {ty : Ty} (hty : ty ≠ .void) {r : Option Value} (h : Yields ty r) :
    (asValue r).Satisfies (Fits · ty) := by
  rcases r with _ | v
  · exact absurd h hty
  · exact h

theorem asInt_satisfies {r : Option Value} (h : Yields .int r) :
    (asInt r).Satisfies fun _ => True := by
  rcases r with _ | v
  · cases h
  · obtain ⟨i, rfl⟩ := fits_int_iff.mp h
    trivial

theorem asTruth_satisfies {r : Option Value} (h : Yields .bool r) :
    (asTruth r).Satisfies fun _ => True := by
  rcases r with _ | v
  · cases h
  · obtain rfl | rfl := fits_bool_iff.mp h <;> trivial

theorem fits_truth (b : Bool) : Fits (truth b) .bool := .ofBool b

/-- An operator on operands of its type has a value of its result type. Only a division by zero
comes in between. -/
theorem combine_satisfies {op : BinaryOp} {l r : Result (Option Value)}
    (hl : l.Satisfies (Yields op.operandTy)) (hr : r.Satisfies (Yields op.operandTy)) :
    (combine op l r).Satisfies (Yields op.resultTy) := by
  cases op with
  | and | or =>
    refine hl.bind fun v hv => (asTruth_satisfies hv).bind fun b _ => ?_
    cases b
    all_goals first
      | exact fits_truth _
      | exact hr.bind fun w hw => (asTruth_satisfies hw).bind fun c _ => fits_truth c
  | divide =>
    refine hl.bind fun v hv => (asInt_satisfies hv).bind fun i _ => ?_
    refine hr.bind fun w hw => (asInt_satisfies hw).bind fun j _ => ?_
    by_cases hj : j = 0
    · simp only [operate, if_pos hj]
      trivial
    · simp only [operate, if_neg hj]
      exact .int _
  | plus | minus | times =>
    refine hl.bind fun v hv => (asInt_satisfies hv).bind fun i _ => ?_
    exact hr.bind fun w hw => (asInt_satisfies hw).bind fun j _ => .int _
  | eq | ne | gt | ge | lt | le =>
    refine hl.bind fun v hv => (asInt_satisfies hv).bind fun i _ => ?_
    exact hr.bind fun w hw => (asInt_satisfies hw).bind fun j _ => fits_truth _

/-! ## Expressions and statements -/

/-- Calls with arguments of the parameters' types give a result of the declared type. -/
def CallsTyped (t : Table) (call : Calls) : Prop :=
  ∀ {name : String} {f : Symbols.Function} {vs : List Value}, t.find? name = some f →
    FitsAll vs (f.params.map (·.type)) → (call name vs).Satisfies (Yields f.returns)

/-- Every variable of `f` holds a value of its type. -/
def StoreTyped (f : Symbols.Function) (store : Store) : Prop :=
  ∀ {name : String} {v : Variable}, f.lookup? name = some v → Fits (store name) v.type

/-- Storing a value of the right type keeps the store typed. -/
theorem StoreTyped.set {f : Symbols.Function} {store : Store} (hs : StoreTyped f store)
    {name : String} {v : Variable} (hv : f.lookup? name = some v) {x : Value}
    (hx : Fits x v.type) : StoreTyped f (store.set name x) := by
  intro name' w hw
  rw [Store.set]
  split
  · next hn =>
    subst hn
    rw [hv] at hw
    cases hw
    exact hx
  · exact hs hw

section Typed

variable {t : Table} {f : Symbols.Function} {call : Calls}

/-- The case of arguments in the induction for `evalExpr_satisfies`. -/
theorem evalArgs_satisfies_of {store : Store} {args : List Expr} {tys : List Ty}
    (h : List.Forall₂ (fun a ty => ty ≠ .void ∧ (evalExpr call store a).Satisfies (Yields ty))
      args tys) : (evalArgs call store args).Satisfies (FitsAll · tys) := by
  induction h with
  | nil => exact .nil
  | cons ha _ ih =>
    rw [evalArgs]
    refine ha.2.bind fun r hr => (asValue_satisfies ha.1 hr).bind fun v hv => ?_
    exact ih.bind fun vs hvs => .cons hv hvs

variable (hcall : CallsTyped t call) (hvoid : ∀ f ∈ t, ∀ p ∈ f.params, p.type ≠ .void)
include hcall hvoid

/-- **Expressions**: an expression of a type comes out with a value of that type. -/
theorem evalExpr_satisfies {store : Store} (hs : StoreTyped f store) {e : Expr} {ty : Ty}
    (he : HasType ⟨t, f⟩ e ty) : (evalExpr call store e).Satisfies (Yields ty) := by
  induction he with
  | int literal value =>
    rw [evalExpr]
    exact Fits.int value
  | bool literal value =>
    rw [evalExpr]
    exact fits_truth value
  | str literal =>
    rw [evalExpr]
    exact Fits.str _
  | var hv =>
    rw [evalExpr]
    exact hs hv
  | arithmetic hop _ _ ihl ihr =>
    rw [evalExpr]
    rcases hop with rfl | rfl | rfl | rfl <;> exact combine_satisfies ihl ihr
  | comparison hop _ _ ihl ihr =>
    rw [evalExpr]
    rcases hop with rfl | rfl | rfl | rfl | rfl | rfl <;> exact combine_satisfies ihl ihr
  | logical hop _ _ ihl ihr =>
    rw [evalExpr]
    rcases hop with rfl | rfl <;> exact combine_satisfies ihl ihr
  | call hg hlen _ ih =>
    rename_i args g _
    rw [evalExpr]
    have hargs : List.Forall₂ (fun a ty => ty ≠ .void ∧
        (evalExpr call store a).Satisfies (Yields ty)) args (g.params.map (·.type)) := by
      rw [List.forall₂_map_right_iff, List.forall₂_iff_zip]
      refine ⟨hlen, ?_⟩
      intro a p hap
      exact ⟨hvoid g (Table.mem_of_find? hg).1 p (List.of_mem_zip hap).2, ih a p hap⟩
    exact (evalArgs_satisfies_of hargs).bind fun vs hvs => hcall hg hvs

/-- How a well-typed statement of `f` may end: with the variables of their types, or with a result
of the declared type. -/
def ExitTyped (f : Symbols.Function) : Exit → Prop
  | .next store => StoreTyped f store
  | .returned r => f.returns ≠ .void → Yields f.returns r

omit hcall hvoid in
/-- The case of a block in the induction for `evalStmt_satisfies`. -/
theorem evalStmts_satisfies_of {ss : List Stmt}
    (h : ∀ s ∈ ss, ∀ store, StoreTyped f store →
      (evalStmt call store s).Satisfies (ExitTyped f)) {store : Store} (hs : StoreTyped f store) :
    (evalStmts call store ss).Satisfies (ExitTyped f) := by
  induction ss generalizing store with
  | nil =>
    rw [evalStmts]
    exact hs
  | cons s ss ih =>
    rw [evalStmts]
    refine (h s (by simp) store hs).bind fun exit hexit => ?_
    cases exit with
    | next store' => exact ih (fun s' hs' => h s' (by simp [hs'])) hexit
    | returned r => exact hexit

/-- **Statements**: a well-typed statement keeps the variables and returns what it should. -/
theorem evalStmt_satisfies (hf : Slotted f.vars) {s : Stmt} {atTop : Bool}
    (hty : StmtTyped ⟨t, f⟩ atTop s) {store : Store} (hs : StoreTyped f store) :
    (evalStmt call store s).Satisfies (ExitTyped f) := by
  induction hty generalizing store with
  | ret hv hret =>
    rw [evalStmt]
    refine (evalExpr_satisfies hcall hvoid hs hv).bind fun r hr => ?_
    intro hne
    exact hret hne ▸ hr
  | cond ht _ ih =>
    rw [evalStmt]
    refine (evalExpr_satisfies hcall hvoid hs ht).bind fun r hr =>
      (asTruth_satisfies hr).bind fun b _ => ?_
    split
    · exact evalStmts_satisfies_of (fun s hm store hs => ih s hm hs) hs
    · exact hs
  | assign hv he =>
    rw [evalStmt]
    refine (evalExpr_satisfies hcall hvoid hs he).bind fun r hr => ?_
    exact (asValue_satisfies (Function.type_ne_void_of_lookup? hf hv) hr).bind
      fun x hx => hs.set hv hx
  | print ha =>
    rename_i args
    rw [evalStmt]
    have hargs : ∃ tys, List.Forall₂ (fun a ty => ty ≠ .void ∧
        (evalExpr call store a).Satisfies (Yields ty)) args tys := by
      induction args with
      | nil => exact ⟨[], .nil⟩
      | cons a args ih =>
        obtain ⟨ty, hne, hty⟩ := ha a (by simp)
        obtain ⟨tys, htys⟩ := ih fun b hb => ha b (by simp [hb])
        exact ⟨ty :: tys, .cons ⟨hne, evalExpr_satisfies hcall hvoid hs hty⟩ htys⟩
    obtain ⟨tys, htys⟩ := hargs
    exact (evalArgs_satisfies_of htys).bind fun vs _ => hs
  | decl hv he =>
    rw [evalStmt]
    refine (evalExpr_satisfies hcall hvoid hs he).bind fun r hr => ?_
    exact (asValue_satisfies (Function.type_ne_void_of_lookup? hf hv) hr).bind
      fun x hx => hs.set hv hx
  | call hc =>
    rw [evalStmt]
    exact (evalExpr_satisfies hcall hvoid hs hc).bind fun r _ => hs

end Typed

/-! ## Calls -/

/-- A body that ends in a `return` is never left by running to its end. -/
theorem evalStmts_ne_next {call : Calls} {ss : List Stmt} {start : Token} {value : Expr}
    (h : ss.getLast? = some (.ret start value)) {store store' : Store} {out : Bytes} :
    evalStmts call store ss ≠ .done (.next store') out := by
  induction ss generalizing store store' out with
  | nil => cases h
  | cons s ss ih =>
    rw [evalStmts]
    intro hdone
    rcases hs : evalStmt call store s with ⟨exit, out₁⟩ | _ | _ | _ <;> rw [hs] at hdone
    · cases exit with
      | returned r => cases hdone
      | next store₁ =>
        rcases ss with _ | ⟨s', ss⟩
        · -- the last statement is the `return`, which does not go on to a next one
          obtain rfl : s = .ret start value := by simpa using h
          rw [evalStmt] at hs
          rcases he : evalExpr call store value with _ | _ | _ | _ <;> rw [he] at hs <;> cases hs
        · rw [List.getLast?_cons_cons] at h
          rcases hm : evalStmts call store₁ (s' :: ss) with ⟨exit, more⟩ | _ | _ | _
          · cases exit with
            | next store₂ => exact ih h hm
            | returned r =>
              simp only [bind, Result.bind, hm, Result.after] at hdone
              cases hdone
          all_goals
            simp only [bind, Result.bind, hm, Result.after] at hdone
            cases hdone
    all_goals cases hdone

/-- Variables start with values of their types if the arguments have them. -/
theorem storeTyped_ofArgs {f : Symbols.Function} (hf : Faithful f) {vs : List Value}
    (hvs : FitsAll vs (f.params.map (·.type))) : StoreTyped f (.ofArgs f.decl.params vs) := by
  have hlen : vs.length = f.params.length := by simpa using hvs.length_eq
  obtain ⟨locals, hvars⟩ := hf.params_prefix
  have hcount : f.localCount = (locals.map (·.type)).length := by
    have := f.params_add_localCount hf
    rw [← hvars, List.length_append] at this
    simp
    omega
  have hlocals : ∀ ty ∈ locals.map (·.type), ty ≠ .void := by
    intro ty hty
    obtain ⟨v, hv, rfl⟩ := List.mem_map.mp hty
    exact hf.slotted.type_ne_void v (hvars ▸ List.mem_append_right _ hv)
  have hall : FitsAll (slots f (.ofArgs f.decl.params vs)) (f.vars.map (·.type)) := by
    rw [slots_ofArgs hf hlen, ← hvars, List.map_append, hcount]
    exact List.rel_append hvs (FitsAll.replicate_zero hlocals)
  intro name v hv
  have hslot := (Function.getElem?_of_lookup? hf.slotted hv).1
  have htype : (f.vars.map (·.type))[v.slot]? = some v.type := by simp [hslot]
  obtain ⟨x, hx, hfit⟩ := hall.getElem? htype
  rw [getElem?_slots hf.slotted hv] at hx
  cases hx
  exact hfit

/-- **Calls**: a call with arguments of the parameters' types is never stuck, and gives a value of
the result type if it finishes. -/
theorem invoke_satisfies {p : Program} {t : Table} (h : Accepted p t) (fuel : Nat) :
    CallsTyped t (invoke p fuel) := by
  induction fuel with
  | zero =>
    intro name f vs _ _
    trivial
  | succ fuel ih =>
    intro name f vs hf hvs
    obtain ⟨hmem, -⟩ := Table.mem_of_find? hf
    have hfaith := h.collected.faithful f hmem
    have hlen : f.decl.params.length = vs.length := by
      have := congrArg List.length hfaith.params_names
      simp only [List.length_map] at this
      rw [← this]
      simpa using hvs.length_eq.symm
    have hvoid : ∀ g ∈ t, ∀ p ∈ g.params, p.type ≠ .void := by
      intro g hg p hp
      have hg := h.collected.faithful g hg
      exact hg.slotted.type_ne_void p (hg.params_prefix.subset hp)
    rw [invoke, h.collected.program_find? hf]
    dsimp only
    rw [invokeFunction, if_pos hlen]
    have hbody : ∀ s ∈ f.decl.body, ∀ store, StoreTyped f store →
        (evalStmt (invoke p fuel) store s).Satisfies (ExitTyped f) := by
      intro s hs store hstore
      exact evalStmt_satisfies ih hvoid hfaith.slotted ((h.functions f hmem).body s hs) hstore
    refine (evalStmts_satisfies_of hbody (storeTyped_ofArgs hfaith hvs)).bind_of_eq ?_
    intro exit out hexit hty
    unfold leave
    rcases hret : f.decl.returns with _ | type
    · exact hfaith.returns.mpr hret
    · have hne : f.returns ≠ .void := by
        rw [Ne, hfaith.returns, hret]
        exact Option.some_ne_none type
      cases exit with
      | next store =>
        obtain ⟨start, value, hlast⟩ := (h.functions f hmem).ends type hret
        exact absurd hexit (evalStmts_ne_next hlast)
      | returned r =>
        rcases r with _ | v
        · exact absurd (hty hne) hne
        · exact hty hne

end Stackling.Meaning
