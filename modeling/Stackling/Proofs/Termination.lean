import Mathlib.Algebra.BigOperators.Group.Finset.Basic
import Mathlib.Algebra.Order.Ring.Nat
import Stackling.Proofs.Code.Flow
import Stackling.Proofs.Machine.Outcome
import Stackling.Proofs.Machine.Weight
import Stackling.Proofs.Safety

/-!
# Programs without recursion terminate

The language has no loops, so a program can run forever only by recursion. If no function that the
entry function reaches calls itself, not even by way of others, then every run of the compiled
program ends, and `Program.stepBound` says after how many instructions at the latest
(`compile_terminates`). The bound looks at the code and the function table alone.

The proof gives weights to the instructions (`weightAt`). A function has a rank, the number of
functions that it reaches through calls, and a call goes to a function of smaller rank. With the
length of the code plus one as the base, an instruction of a function of rank `r` counts `base ^ r`,
which is more than all the code of a function of smaller rank counts.
-/

namespace Stackling

namespace Tree

/-- The body of `f` has a call of the function `g` of the program. -/
def Program.Calls (p : Program) (f g : Function) : Prop := g ∈ p.functions ∧ f.CallsTo g.name

/-- No function that can be reached from the one called `entry` calls itself, not even by way of
others. -/
def Program.Acyclic (p : Program) (entry : String) : Prop :=
  ∀ f, Reached p entry f → ¬ Relation.TransGen p.Calls f f

/-- A program whose functions can be ranked by their names, so that calls go down, has no
recursion. -/
theorem Program.acyclic_of_rank {p : Program} {entry : String} (rank : String → Nat)
    (h : ∀ f ∈ p.functions, ∀ call ∈ Stmt.callsAll f.body, rank call.2 < rank f.name) :
    p.Acyclic entry := by
  have hstep : ∀ {f g : Function}, f ∈ p.functions → p.Calls f g → rank g.name < rank f.name := by
    rintro f g hf ⟨-, hcall⟩
    obtain ⟨start, hcall⟩ := Function.callsTo_iff.mp hcall
    exact h f hf _ hcall
  have hrun : ∀ {f g : Function}, f ∈ p.functions → Relation.TransGen p.Calls f g →
      g ∈ p.functions ∧ rank g.name < rank f.name := by
    intro f g hf hcalls
    induction hcalls with
    | single hc => exact ⟨hc.1, hstep hf hc⟩
    | tail _ hc ih => exact ⟨hc.1, Nat.lt_trans (hstep ih.1 hc) ih.2⟩
  intro f _ hcalls
  obtain ⟨_, -, hlast⟩ := Relation.TransGen.tail'_iff.mp hcalls
  exact Nat.lt_irrefl _ (hrun hlast.1 hcalls).2

end Tree

namespace Code

open Stackling.Tree Stackling.Symbols Stackling.Typing
open Machine (Task Pays argument?)

/-- How many instructions a program without recursion executes at most. -/
def Program.stepBound (p : Program) : Nat := (p.code.length + 1) ^ p.functions.length

/-! ## Ranks -/

section Rank

open scoped Classical

variable {order : List Symbols.Function} {i j : Nat}

/-- The function number `i` calls the function number `j`. -/
def CallsNumber (order : List Symbols.Function) (i j : Nat) : Prop :=
  ∃ f g, order[i]? = some f ∧ order[j]? = some g ∧ Calls f g.name

/-- No function of the order calls itself, not even by way of others. -/
def Layered (order : List Symbols.Function) : Prop :=
  ∀ i, ¬ Relation.TransGen (CallsNumber order) i i

/-- The number of functions that the function number `i` reaches through calls. -/
noncomputable def rank (order : List Symbols.Function) (i : Nat) : Nat :=
  ((Finset.range order.length).filter (Relation.TransGen (CallsNumber order) i)).card

theorem CallsNumber.lt_length (h : CallsNumber order i j) : j < order.length := by
  obtain ⟨-, g, -, hg, -⟩ := h
  exact (List.getElem?_eq_some_iff.mp hg).1

/-- A call goes to a function of smaller rank. -/
theorem rank_lt_of_calls (hl : Layered order) (h : CallsNumber order i j) :
    rank order j < rank order i := by
  refine Finset.card_lt_card ⟨fun k hk => ?_, fun hsub => ?_⟩
  · rw [Finset.mem_filter] at hk ⊢
    exact ⟨hk.1, .head h hk.2⟩
  · -- what `i` reaches has `j` among it, and what `j` reaches has not
    have hj := hsub (Finset.mem_filter.mpr ⟨Finset.mem_range.mpr h.lt_length, .single h⟩)
    exact hl j (Finset.mem_filter.mp hj).2

theorem rank_lt_length (hl : Layered order) (hi : i < order.length) :
    rank order i < order.length := by
  have hlt : rank order i < (Finset.range order.length).card := by
    refine Finset.card_lt_card ⟨Finset.filter_subset _ _, fun hsub => ?_⟩
    exact hl i (Finset.mem_filter.mp (hsub (Finset.mem_range.mpr hi))).2
  rwa [Finset.card_range] at hlt

/-- Functions that call each other in the order do so in the tree. -/
theorem transGen_calls {p : Tree.Program} {t : Table} (hc : Collected p t)
    (hmem : ∀ g ∈ order, g ∈ t) (h : Relation.TransGen (CallsNumber order) i j)
    {f g : Symbols.Function} (hf : order[i]? = some f) (hg : order[j]? = some g) :
    Relation.TransGen p.Calls f.decl g.decl := by
  have hcalls : ∀ {i j : Nat} {f g : Symbols.Function}, CallsNumber order i j →
      order[i]? = some f → order[j]? = some g → p.Calls f.decl g.decl := by
    rintro i j f g ⟨f', g', hf', hg', h⟩ hf hg
    obtain rfl := Option.some.inj (hf'.symm.trans hf)
    obtain rfl := Option.some.inj (hg'.symm.trans hg)
    have hgt := hmem g' (List.mem_of_getElem? hg)
    rw [calls_iff_callsTo, (hc.faithful g' hgt).name] at h
    exact ⟨hc.decls ▸ List.mem_map_of_mem hgt, h⟩
  induction h generalizing g with
  | single h => exact .single (hcalls h hf hg)
  | tail _ h ih =>
    have ⟨f', _, hf', _⟩ := h
    exact (ih hf').tail (hcalls h hf' hg)

/-- What is laid out for a program without recursion has no recursion. -/
theorem layered_of_acyclic {p : Tree.Program} {t : Table} (hc : Collected p t) {name : String}
    {f : Symbols.Function} (hf : t.find? name = some f) (horder : reachable t f = .ok order)
    (ha : p.Acyclic name) : Layered order := by
  intro i h
  have hmem : ∀ g ∈ order, g ∈ t :=
    fun g hg => reachable_subset (Table.mem_of_find? hf).1 horder hg
  obtain ⟨g, hg⟩ : ∃ g, order[i]? = some g := by
    obtain ⟨k, -, hk⟩ := Relation.TransGen.tail'_iff.mp h
    exact ⟨_, List.getElem?_eq_getElem hk.lt_length⟩
  have hreached : Reached p name g.decl :=
    (mem_reachable hc hf horder _).mp (List.mem_map_of_mem (List.mem_of_getElem? hg))
  exact ha g.decl hreached (transGen_calls hc hmem h hg hg)

end Rank

/-! ## Weights -/

section Weight

variable {t : Table} {order : List Symbols.Function} (base : Nat) {i pc dest : Nat}

/-- The weight of an address: for each instruction from there to the end of the function, a power of
the base with the rank of the function. Only the function that the address is in contributes. -/
noncomputable def weightAt (t : Table) (order : List Symbols.Function) (base pc : Nat) : Nat :=
  ∑ i ∈ Finset.range order.length, if entryOf t order i ≤ pc
    then (entryOf t order (i + 1) - pc) * base ^ rank order i else 0

theorem weightAt_eq (hi : i < order.length) (hle : entryOf t order i ≤ pc)
    (hlt : pc < entryOf t order (i + 1)) :
    weightAt t order base pc = (entryOf t order (i + 1) - pc) * base ^ rank order i := by
  rw [weightAt, Finset.sum_eq_single_of_mem i (Finset.mem_range.mpr hi), if_pos hle]
  intro j _ hne
  rcases Nat.lt_or_gt_of_ne hne with hji | hij
  · have hmono := entryOf_mono t order (show j + 1 ≤ i from hji)
    rw [Nat.sub_eq_zero_of_le (Nat.le_trans hmono hle), Nat.zero_mul, ite_self]
  · have hmono := entryOf_mono t order (show i + 1 ≤ j from hij)
    exact if_neg (by omega)

/-- The end of the code weighs nothing. -/
theorem weightAt_end : weightAt t order base (entryOf t order order.length) = 0 := by
  refine Finset.sum_eq_zero fun j hj => ?_
  have hmono := entryOf_mono t order (Nat.succ_le_of_lt (Finset.mem_range.mp hj))
  rw [Nat.sub_eq_zero_of_le hmono, Nat.zero_mul, ite_self]

/-- Further on in a function, or at the end of the code, there is less: one instruction at least. -/
theorem weightAt_later (hi : i < order.length) (hle : entryOf t order i ≤ pc)
    (hlt : pc < entryOf t order (i + 1)) (hdest : pc < dest)
    (h : dest < entryOf t order (i + 1) ∨ dest = entryOf t order order.length) :
    weightAt t order base dest + base ^ rank order i ≤ weightAt t order base pc := by
  rw [weightAt_eq base hi hle hlt]
  rcases h with h | rfl
  · rw [weightAt_eq base hi (by omega) h, ← Nat.succ_mul]
    exact Nat.mul_le_mul_right _ (by omega)
  · rw [weightAt_end, Nat.zero_add]
    exact Nat.le_mul_of_pos_left _ (by omega)

/-- No instruction of a program weighs as much as an instruction of larger rank counts. -/
theorem weightAt_lt_pow (hi : i < order.length) (hle : entryOf t order i ≤ pc)
    (hlt : pc < entryOf t order (i + 1)) (hbase : entryOf t order order.length < base) {r : Nat}
    (hr : rank order i < r) : weightAt t order base pc < base ^ r := by
  have hmono := entryOf_mono t order (show i + 1 ≤ order.length from hi)
  have hpos : 0 < base := by omega
  rw [weightAt_eq base hi hle hlt]
  calc (entryOf t order (i + 1) - pc) * base ^ rank order i
      < base * base ^ rank order i :=
        Nat.mul_lt_mul_of_pos_right (by omega) (Nat.pow_pos hpos)
    _ = base ^ (rank order i + 1) := (Nat.pow_succ').symm
    _ ≤ base ^ r := Nat.pow_le_pow_right hpos hr

end Weight

section Laid

variable {p : Tree.Program} {t : Table} {f : Symbols.Function} {order : List Symbols.Function}
  {prog : Program} (hlaid : Laid (.ofProgram prog) t order f) (hl : Layered order)
include hlaid hl

/-- **The weights of a program without recursion pay for its steps.** -/
theorem Laid.pays (ha : Accepted p t) (hlen : prog.functions.length = order.length) :
    Pays (.ofProgram prog) (weightAt t order (prog.code.length + 1)) := by
  have hpow : ∀ r, 0 < (prog.code.length + 1) ^ r := fun r => Nat.pow_pos (Nat.succ_pos _)
  have later : ∀ {i pc dest : Nat} {op : Opcode} {arg : Int32}, i < order.length →
      Flow (.ofProgram prog) t order i pc op arg → pc < dest →
      dest < entryOf t order (i + 1) ∨ dest = (Task.ofProgram prog).code.size →
      weightAt t order (prog.code.length + 1) dest + (prog.code.length + 1) ^ rank order i ≤
        weightAt t order (prog.code.length + 1) pc := by
    intro i pc dest op arg hlt hflow hdest h
    rw [hlaid.size] at h
    exact weightAt_later _ hlt hflow.inside.1 hflow.inside.2 hdest h
  refine ⟨?_, ?_, ?_, ?_⟩
  · intro pc op arg hi hret _
    obtain ⟨i, hlt, hflow⟩ := hlaid.flow ha hlen hi
    have hnext := later hlt hflow (Nat.lt_add_one pc) (hflow.next hret)
    have := hpow (rank order i)
    omega
  · intro pc dest op arg hi hop hto
    obtain ⟨i, hlt, hflow⟩ := hlaid.flow ha hlen hi
    obtain ⟨hdest, hinside⟩ := hflow.jump hop hto
    have hjump := later hlt hflow hdest hinside
    have := hpow (rank order i)
    omega
  · intro pc entry arg g hi hg hentry
    obtain ⟨i, hlt, hflow⟩ := hlaid.flow ha hlen hi
    have hnext := later hlt hflow (Nat.lt_add_one pc) (hflow.next (by decide))
    obtain ⟨caller, callee, j, hcaller, harg, hcallee, hcalls⟩ := hflow.call rfl
    have hj := (List.getElem?_eq_some_iff.mp hcallee).1
    -- the table has the callee's address, and there is code for it
    obtain rfl : entry = entryOf t order j := by
      rw [Machine.argument?_natCast harg, (hlaid.functions hcallee).1] at hg
      obtain rfl := Option.some.inj hg
      exact Int.ofNat.inj hentry.symm
    have hne : prog.code ≠ [] := by
      rintro hnil
      have hsize := hi.lt_size
      simp [Task.ofProgram, hnil] at hsize
    have hrank := rank_lt_of_calls hl ⟨caller, callee, hcaller, hcallee, hcalls⟩
    have hcost := weightAt_lt_pow (prog.code.length + 1) hj (Nat.le_refl _)
      (hlaid.entryOf_lt hne hj) (by rw [← hlaid.length_code]; omega) hrank
    omega
  · intro pc arg hi
    obtain ⟨i, hlt, hflow⟩ := hlaid.flow ha hlen hi
    rw [weightAt_eq _ hlt hflow.inside.1 hflow.inside.2]
    exact Nat.mul_pos (Nat.sub_pos_of_lt hflow.inside.2) (hpow _)

/-- A run starts with less than the bound. -/
theorem Laid.weightAt_zero_lt (hlen : prog.functions.length = order.length) :
    weightAt t order (prog.code.length + 1) 0 < prog.stepBound := by
  rw [Program.stepBound, hlen]
  have hpos : 0 < order.length := (List.getElem?_eq_some_iff.mp hlaid.first).1
  have hzero : entryOf t order 0 = 0 := by simp [entryOf]
  by_cases hne : prog.code = []
  · -- there is nothing but the end of the code
    have hend : 0 = entryOf t order order.length := by
      rw [← hlaid.length_code, hne, List.length_nil]
    rw [hend, weightAt_end]
    exact Nat.pow_pos (Nat.succ_pos _)
  · have hlt := hlaid.entryOf_lt hne hpos
    refine weightAt_lt_pow _ hpos (Nat.le_of_eq hzero) (by omega) ?_ (rank_lt_length hl hpos)
    rw [← hlaid.length_code]
    omega

end Laid

end Code

/-! ## Termination -/

/-- **Programs without recursion terminate.** Whatever the capacity of the stack, a run without a
limit on its steps comes to an end, and it has executed at most `stepBound` instructions by then. -/
theorem compile_terminates {source : Bytes} {entry : String} {unit : Compiled}
    (hc : compile source entry = .ok unit) (hcode : unit.program.code.length < 2 ^ 31)
    (hacyclic : unit.tree.Acyclic (entryName entry)) {limits : Limits} (hlimit : limits.steps ≤ 0) :
    ∃ ran, ran.steps ≤ unit.program.stepBound ∧
      ∀ fuel ≥ unit.program.stepBound, execute unit.program limits fuel = some ran := by
  obtain ⟨hcollect, hcheck, hemit⟩ := compile_eq_ok hc
  obtain ⟨ha, f, hname, hparams, -⟩ := Typing.accepted_of_check hcollect hcheck
  obtain ⟨hstrs, hfuns⟩ := Code.emit_tables hemit
  obtain ⟨map, hm⟩ := exists_mapped hc hcode (by omega) (by omega)
  obtain ⟨order, horder, hlaid⟩ :=
    Code.laid_of_emit ha hname hparams hemit hcode (by omega) (by omega)
  have hlen := Code.length_functions_of_emit hname horder hemit
  have hl := Code.layered_of_acyclic ha.collected hname horder hacyclic
  have hweight : (Machine.start (.empty limits.stack)).config.weight
      (Code.weightAt unit.symbols order (unit.program.code.length + 1)) <
        unit.program.stepBound := hlaid.weightAt_zero_lt hl hlen
  obtain ⟨e, he, hsteps⟩ : ∃ e, Machine.runFrom (.ofProgram unit.program) limits.steps
      unit.program.stepBound 0 (Machine.start (.empty limits.stack)) = some e ∧ _ :=
    hm.closed.runFrom_ends (hlaid.pays hl ha hlen) hlimit (hm.start _) (fits_start _) hweight
  refine ⟨.ofEnding e, by simp only [Ran.ofEnding]; omega, fun fuel hfuel => ?_⟩
  obtain ⟨more, rfl⟩ := Nat.exists_eq_add_of_le hfuel
  rw [execute, Machine.run, Machine.runFrom_mono he, Option.map_some]

/-- `Sample.asking` ends within 225 instructions on a stack of any capacity. -/
theorem compile_terminates_asking : ∃ unit, compile Sample.asking "" = .ok unit ∧
    unit.program.code.length < 2 ^ 31 ∧ unit.tree.Acyclic "main" ∧ ∀ capacity : Int,
      ∃ ran, ran.steps ≤ 225 ∧ execute unit.program ⟨capacity, 0⟩ 225 = some ran := by
  have hfacts : ((compile Sample.asking "").toOption.map fun unit => (unit.program,
      unit.tree.functions.all fun f => (Tree.Stmt.callsAll f.body).all fun call =>
        decide (call.2 = "two" ∧ f.name = "main"))) = some (Sample.askingProgram, true) := by
    rw [compile_of_tokens Sample.asking_tokens]
    cbv
  obtain ⟨unit, hc, hfacts⟩ := map_toOption_eq_some.mp hfacts
  obtain ⟨hprogram, hcalls⟩ := Prod.mk.inj hfacts
  have hcode : unit.program.code.length < 2 ^ 31 := by
    rw [hprogram]
    decide
  have hacyclic : unit.tree.Acyclic "main" := by
    refine Tree.Program.acyclic_of_rank (fun name => if name = "main" then 1 else 0) ?_
    intro f hf call hcall
    have hboth := List.all_eq_true.mp (List.all_eq_true.mp hcalls f hf) call hcall
    obtain ⟨hcallee, hcaller⟩ := of_decide_eq_true hboth
    simp [hcallee, hcaller]
  have hbound : unit.program.stepBound = 225 := by
    rw [hprogram]
    decide
  refine ⟨unit, hc, hcode, hacyclic, fun capacity => ?_⟩
  have hlimit : (Limits.mk capacity 0).steps ≤ 0 := Int.le_refl 0
  obtain ⟨ran, hsteps, hrun⟩ := compile_terminates hc hcode hacyclic hlimit
  rw [hbound] at hsteps hrun
  exact ⟨ran, hsteps, hrun 225 (Nat.le_refl _)⟩

end Stackling
