import Mathlib.Data.List.Forall2
import Stackling.Machine.Stack
import Stackling.Ty

/-!
# Values of a type

`Fits v ty` says that `v` may be found where `ty` is declared: integers for `int`, the integers 0
and 1 for `bool`, texts for `string`. A `string` variable that nothing was stored in holds the
integer 0, which is what every local variable starts as, so that value fits `string` too.
-/

namespace Stackling

open Machine (Value)

/-- `Fits v ty`: a place of type `ty` may hold `v`. -/
inductive Fits : Value → Ty → Prop where
  | int (i : Int32) : Fits (.int i) .int
  | no : Fits (.int 0) .bool
  | yes : Fits (.int 1) .bool
  | str (s : Bytes) : Fits (.str s) .string
  /-- what a text variable holds before the first store -/
  | unset : Fits (.int 0) .string

/-- Every variable starts with a value that fits it. -/
theorem Fits.zero {ty : Ty} (h : ty ≠ .void) : Fits .zero ty := by
  cases ty with
  | void => exact absurd rfl h
  | int => exact .int 0
  | string => exact .unset
  | bool => exact .no

theorem Fits.ofBool (b : Bool) : Fits (.int (if b then 1 else 0)) .bool := by
  cases b
  · exact .no
  · exact .yes

theorem fits_int_iff {v : Value} : Fits v .int ↔ ∃ i, v = .int i := by
  refine ⟨?_, ?_⟩
  · rintro ⟨⟩
    exact ⟨_, rfl⟩
  · rintro ⟨i, rfl⟩
    exact .int i

theorem fits_bool_iff {v : Value} : Fits v .bool ↔ v = .int 0 ∨ v = .int 1 := by
  refine ⟨?_, ?_⟩
  · rintro ⟨⟩
    · exact .inl rfl
    · exact .inr rfl
  · rintro (rfl | rfl)
    · exact .no
    · exact .yes

/-- Values with their types, place by place. -/
abbrev FitsAll (vs : List Value) (tys : List Ty) : Prop := List.Forall₂ Fits vs tys

theorem FitsAll.getElem? {vs : List Value} {tys : List Ty} (h : FitsAll vs tys) {i : Nat} {ty : Ty}
    (hi : tys[i]? = some ty) : ∃ v, vs[i]? = some v ∧ Fits v ty := by
  obtain ⟨hlt, rfl⟩ := List.getElem?_eq_some_iff.mp hi
  have hlt' : i < vs.length := h.length_eq ▸ hlt
  exact ⟨vs[i], List.getElem?_eq_getElem hlt', h.get hlt' hlt⟩

theorem FitsAll.append {vs ws : List Value} {tys tys' : List Ty} (h : FitsAll vs tys)
    (h' : FitsAll ws tys') : FitsAll (vs ++ ws) (tys ++ tys') :=
  List.rel_append h h'

/-- The values of two lists of types, the first ones first. -/
theorem FitsAll.split {vs : List Value} {tys tys' : List Ty} (h : FitsAll vs (tys ++ tys')) :
    ∃ us ws, vs = us ++ ws ∧ FitsAll us tys ∧ FitsAll ws tys' :=
  ⟨_, _, (List.take_append_drop tys.length vs).symm, List.forall₂_take_append vs tys tys' h,
    List.forall₂_drop_append vs tys tys' h⟩

/-- The value on top and those below it. -/
theorem FitsAll.split_last {vs : List Value} {tys : List Ty} {ty : Ty}
    (h : FitsAll vs (tys ++ [ty])) : ∃ us v, vs = us ++ [v] ∧ FitsAll us tys ∧ Fits v ty := by
  obtain ⟨us, ws, rfl, hus, hws⟩ := h.split
  obtain ⟨v, _, hv, hnil, rfl⟩ := List.forall₂_cons_right_iff.mp hws
  cases hnil
  exact ⟨us, v, rfl, hus, hv⟩

/-- The two operands of an operation on integers. -/
theorem FitsAll.split_ints {vs : List Value} {tys : List Ty}
    (h : FitsAll vs (tys ++ [Ty.int, Ty.int])) :
    ∃ us l r, vs = us ++ [Value.int l, Value.int r] ∧ FitsAll us tys := by
  have h' : FitsAll vs (tys ++ [Ty.int] ++ [Ty.int]) := by rwa [List.append_assoc]
  obtain ⟨us', v, rfl, hus', hv⟩ := h'.split_last
  obtain ⟨us, w, rfl, hus, hw⟩ := hus'.split_last
  obtain ⟨r, rfl⟩ := fits_int_iff.mp hv
  obtain ⟨l, rfl⟩ := fits_int_iff.mp hw
  exact ⟨us, l, r, by simp, hus⟩

theorem FitsAll.set {vs : List Value} {tys : List Ty} (h : FitsAll vs tys) {i : Nat} {v : Value}
    {ty : Ty} (hi : tys[i]? = some ty) (hv : Fits v ty) : FitsAll (vs.set i v) tys := by
  induction h generalizing i with
  | nil => cases hi
  | cons hw hws ih =>
    rcases i with _ | i
    · cases hi
      exact .cons hv hws
    · exact .cons hw (ih hi)

/-- Local variables that nothing was stored in. -/
theorem FitsAll.replicate_zero {tys : List Ty} (h : ∀ ty ∈ tys, ty ≠ .void) :
    FitsAll (List.replicate tys.length .zero) tys := by
  induction tys with
  | nil => exact .nil
  | cons ty tys ih =>
    rw [List.length_cons, List.replicate_succ]
    exact .cons (Fits.zero (h ty (by simp))) (ih fun ty' hty => h ty' (by simp [hty]))

end Stackling
