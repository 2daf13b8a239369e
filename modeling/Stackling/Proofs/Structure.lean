import Stackling.Proofs.Code.Ranges
import Stackling.Proofs.Code.Reachability
import Stackling.Proofs.Code.Tables
import Stackling.Proofs.Correctness

/-!
# The structure of compiled programs

What can be read off a compiled program without running it (`compile_structured`). Its function
table lists the functions that the entry function reaches. Their code ranges divide the code, and
every instruction refers to something that exists: a jump to an instruction further on in the same
function, a slot to a variable of the function, a call to the table and a text to the pool.

The ranges are read from the table alone: a function's code goes from its entry to the entry of the
next one.
-/

namespace Stackling

namespace Code

open Stackling.Tree Stackling.Symbols Stackling.Typing
open Machine (Task)

/-! ## Ranges -/

namespace Program

/-- Where the code of function number `i` ends: where the next one starts, or where the code
ends. -/
def stopOf (p : Program) (i : Nat) : Int :=
  match p.functions[i + 1]? with
  | some f => f.entry
  | none => p.code.length

/-- The instruction at `pc` is in the code range of function number `i`. -/
def Owns (p : Program) (i pc : Nat) : Prop :=
  ∃ f, p.functions[i]? = some f ∧ f.entry ≤ pc ∧ pc < p.stopOf i

/-- The code ranges divide the code: each starts where the one before it ends, and none is empty. -/
structure Divided (p : Program) : Prop where
  first : p.code ≠ [] → ∃ f, p.functions[0]? = some f ∧ f.entry = 0
  increasing : p.code ≠ [] → (p.functions.map (·.entry)).Pairwise (· < ·)
  nonempty : p.code ≠ [] → ∀ i < p.functions.length, ∃ pc, p.Owns i pc
  /-- the ranges are within the code, and cover it -/
  covers : ∀ pc, pc < p.code.length ↔ ∃ i, p.Owns i pc
  disjoint : ∀ {i j pc : Nat}, p.Owns i pc → p.Owns j pc → i = j
  /-- looking up an address gives the function that has it -/
  functionAt : ∀ {i pc : Nat}, p.Owns i pc → p.functionAt? pc = p.functions[i]?

/-- What the instruction at `pc` refers to is there. It belongs to the function `f`, which has
number `i`. -/
structure Refers (p : Program) (i : Nat) (f : Function) (pc : Nat) (ins : Instruction) :
    Prop where
  /-- a jump goes forward, to an instruction of the function; it goes to the end of the code only
  where the function is the only one -/
  jump : ins.op? = some .branch ∨ ins.op? = some .branchZero → pc < ins.arg.toInt ∧
    (ins.arg.toInt < p.stopOf i ∨ p.functions.length = 1 ∧ ins.arg.toInt = p.code.length)
  slot : ins.op? = some .loadLocal ∨ ins.op? = some .storeLocal →
    0 ≤ ins.arg.toInt ∧ ins.arg.toInt < f.params + f.locals
  call : ins.op? = some .call → 0 ≤ ins.arg.toInt ∧ ins.arg.toInt < p.functions.length
  text : ins.op? = some .pushStr → 0 ≤ ins.arg.toInt ∧ ins.arg.toInt < p.strings.length
  /-- a return has a result where the function has one -/
  ret : ins.op? = some .ret → ins.arg = if f.returns then 1 else 0

end Program

/-- The table entry `f` is that of the function `d`. -/
structure Describes (f : Function) (d : Tree.Function) : Prop where
  name : f.name = Bytes.ofString d.name
  params : f.params = d.params.length
  returns : f.returns = d.returns.isSome

/-- A program whose tables and code fit together, and that has the code of the functions that
`entry` reaches in `tree`. -/
structure Structured (p : Program) (tree : Tree.Program) (entry : String) : Prop where
  /-- the table lists the functions that are reached, each once, the entry function first -/
  table : ∃ ds : List Tree.Function, List.Forall₂ Describes p.functions ds ∧
    (ds.map (·.name)).Nodup ∧ (∃ d, ds.head? = some d ∧ d.name = entry) ∧
    ∀ d, d ∈ ds ↔ Reached tree entry d
  divided : p.Divided
  refers : ∀ {i pc : Nat} {f : Function} {ins : Instruction}, p.functions[i]? = some f →
    p.Owns i pc → p.code[pc]? = some ins → p.Refers i f pc ins
  /-- no text is in the pool twice -/
  strings : p.strings.Nodup
  /-- and each of them is pushed -/
  pushed : ∀ n < p.strings.length, ∃ ins ∈ p.code,
    ins.op? = some .pushStr ∧ ins.arg.toInt = n

/-! ## Looking up an address -/

/-- The step of `functionAt?`. -/
abbrev nearer (pc : Int) (found : Option Function) (f : Function) : Option Function :=
  if f.entry ≤ pc ∧ (found.all fun g => g.entry ≤ f.entry) then some f else found

/-- Functions that start after the address are passed over. -/
theorem foldl_nearer_of_lt {pc : Int} {fs : List Function} (h : ∀ f ∈ fs, pc < f.entry)
    (found : Option Function) : fs.foldl (nearer pc) found = found := by
  induction fs with
  | nil => rfl
  | cons f fs ih =>
    have hlt := h f (by simp)
    rw [List.foldl_cons, nearer, if_neg (by omega), ih fun g hg => h g (by simp [hg])]

theorem mem_of_foldl_nearer {pc : Int} {fs : List Function} {found : Option Function}
    {f : Function} (h : fs.foldl (nearer pc) found = some f) : found = some f ∨ f ∈ fs := by
  induction fs generalizing found with
  | nil => exact .inl h
  | cons g fs ih =>
    rcases ih h with h | h
    · unfold nearer at h
      split at h
      · exact .inr (List.mem_cons.mpr (.inl (Option.some.inj h).symm))
      · exact .inl h
    · exact .inr (List.mem_cons_of_mem _ h)

/-- Where entries increase, looking up an address gives the last function that starts before it. -/
theorem functionAt?_eq {p : Program} {front back : List Function} {f : Function} {pc : Int}
    (hfs : p.functions = front ++ f :: back) (hfront : ∀ g ∈ front, g.entry ≤ f.entry)
    (hle : f.entry ≤ pc) (hback : ∀ g ∈ back, pc < g.entry) : p.functionAt? pc = some f := by
  have hfold : p.functionAt? pc = (front ++ f :: back).foldl (nearer pc) none := by
    rw [← hfs]
    rfl
  have hall : ((front.foldl (nearer pc) none).all fun g => g.entry ≤ f.entry) = true := by
    cases hfound : front.foldl (nearer pc) none with
    | none => rfl
    | some g =>
      have hg := (mem_of_foldl_nearer hfound).resolve_left nofun
      simpa using hfront g hg
  rw [hfold, List.foldl_append, List.foldl_cons, foldl_nearer_of_lt hback, nearer,
    if_pos ⟨hle, hall⟩]

/-! ## Programs that are laid out -/

section Laid

variable {p : Tree.Program} {t : Table} {f : Symbols.Function} {order : List Symbols.Function}
  {prog : Program} (hlaid : Laid (.ofProgram prog) t order f)
  (hlen : prog.functions.length = order.length)
include hlaid

theorem Laid.getElem?_functions {i : Nat} {g : Symbols.Function} (hg : order[i]? = some g) :
    prog.functions[i]? = some (describe g (entryOf t order i)) := by
  simpa [Task.ofProgram] using (hlaid.functions hg).1

theorem Laid.length_code : prog.code.length = entryOf t order order.length := by
  simpa [Task.ofProgram] using hlaid.size

/-- In a program with code every function has some. -/
theorem Laid.entryOf_lt (hne : prog.code ≠ []) {i : Nat} (hi : i < order.length) :
    entryOf t order i < entryOf t order (i + 1) := by
  have hget := List.getElem?_eq_getElem hi
  by_cases hone : order.length = 1
  · have hpos := List.length_pos_iff.mpr hne
    rw [hlaid.length_code] at hpos
    obtain rfl : i = 0 := by omega
    rw [show 0 + 1 = order.length from hone.symm]
    simpa [entryOf] using hpos
  · have hsize : 0 < functionSize ⟨t, order, order[i]⟩ :=
      functionSize_pos (beq_eq_false_iff_ne.mpr hone)
    rw [entryOf_succ hget]
    omega

include hlen

theorem Laid.exists_getElem? {i : Nat} {g : Function} (hg : prog.functions[i]? = some g) :
    ∃ g', order[i]? = some g' ∧ g = describe g' (entryOf t order i) := by
  have hlt := (List.getElem?_eq_some_iff.mp hg).1
  have hget := List.getElem?_eq_getElem (hlen ▸ hlt)
  rw [hlaid.getElem?_functions hget] at hg
  exact ⟨_, hget, (Option.some.inj hg).symm⟩

theorem Laid.stopOf_eq {i : Nat} (hi : i < order.length) :
    prog.stopOf i = entryOf t order (i + 1) := by
  unfold Program.stopOf
  split
  · next g hg =>
    obtain ⟨g', -, rfl⟩ := hlaid.exists_getElem? hlen hg
    rfl
  · next hnone =>
    have hge := List.getElem?_eq_none_iff.mp hnone
    rw [hlaid.length_code, show i + 1 = order.length by omega]

theorem Laid.owns_iff {i pc : Nat} : prog.Owns i pc ↔
    i < order.length ∧ entryOf t order i ≤ pc ∧ pc < entryOf t order (i + 1) := by
  refine ⟨?_, ?_⟩
  · rintro ⟨g, hg, hle, hlt⟩
    obtain ⟨g', hg', rfl⟩ := hlaid.exists_getElem? hlen hg
    have hi := (List.getElem?_eq_some_iff.mp hg').1
    rw [hlaid.stopOf_eq hlen hi] at hlt
    simp only [describe] at hle
    exact ⟨hi, by omega, by omega⟩
  · rintro ⟨hi, hle, hlt⟩
    refine ⟨_, hlaid.getElem?_functions (List.getElem?_eq_getElem hi), ?_, ?_⟩
    · simp only [describe]
      omega
    · rw [hlaid.stopOf_eq hlen hi]
      omega

theorem Laid.divided : prog.Divided where
  first _ := ⟨_, hlaid.getElem?_functions hlaid.first, by simp [describe, entryOf]⟩
  increasing hne := by
    rw [List.pairwise_iff_getElem]
    intro i j hi hj hij
    rw [List.length_map] at hi hj
    have hlt := hlaid.entryOf_lt hne (i := i) (by omega)
    have hle := entryOf_mono t order (show i + 1 ≤ j from hij)
    obtain ⟨g, -, hg⟩ := hlaid.exists_getElem? hlen (List.getElem?_eq_getElem hi)
    obtain ⟨g', -, hg'⟩ := hlaid.exists_getElem? hlen (List.getElem?_eq_getElem hj)
    simp only [List.getElem_map, hg, hg', describe]
    omega
  nonempty hne i hi := by
    have hlt := hlaid.entryOf_lt hne (i := i) (by omega)
    exact ⟨_, (hlaid.owns_iff hlen).mpr ⟨by omega, Nat.le_refl _, hlt⟩⟩
  covers pc := by
    rw [hlaid.length_code]
    refine ⟨?_, ?_⟩
    · intro h
      obtain ⟨i, hi, hpc⟩ := exists_entryOf h
      exact ⟨i, (hlaid.owns_iff hlen).mpr ⟨hi, hpc⟩⟩
    · rintro ⟨i, h⟩
      obtain ⟨hi, -, hlt⟩ := (hlaid.owns_iff hlen).mp h
      exact Nat.lt_of_lt_of_le hlt (entryOf_mono t order hi)
  disjoint {i j pc} hi hj := by
    obtain ⟨-, hle, hlt⟩ := (hlaid.owns_iff hlen).mp hi
    obtain ⟨-, hle', hlt'⟩ := (hlaid.owns_iff hlen).mp hj
    rcases Nat.lt_trichotomy i j with h | h | h
    · have := entryOf_mono t order (show i + 1 ≤ j from h)
      omega
    · exact h
    · have := entryOf_mono t order (show j + 1 ≤ i from h)
      omega
  functionAt {i pc} h := by
    obtain ⟨hi, hle, hlt⟩ := (hlaid.owns_iff hlen).mp h
    have hget := hlaid.getElem?_functions (List.getElem?_eq_getElem hi)
    have hsplit := List.take_append_drop i prog.functions
    rw [List.drop_eq_getElem_cons (hlen ▸ hi)] at hsplit
    rw [List.getElem?_eq_getElem (hlen ▸ hi)]
    have hentry : prog.functions[i].entry = entryOf t order i := by
      rw [List.getElem?_eq_getElem (hlen ▸ hi)] at hget
      rw [Option.some.inj hget, describe]
    refine functionAt?_eq hsplit.symm ?_ (by omega) ?_
    · intro g hg
      obtain ⟨j, hj⟩ := List.getElem?_of_mem hg
      rw [List.getElem?_take] at hj
      split at hj
      · next hji =>
        obtain ⟨g', -, rfl⟩ := hlaid.exists_getElem? hlen hj
        have := entryOf_mono t order (Nat.le_of_lt hji)
        simp only [hentry, describe]
        omega
      · cases hj
    · intro g hg
      obtain ⟨j, hj⟩ := List.getElem?_of_mem hg
      rw [List.getElem?_drop] at hj
      obtain ⟨g', -, rfl⟩ := hlaid.exists_getElem? hlen hj
      have := entryOf_mono t order (show i + 1 ≤ i + 1 + j by omega)
      simp only [describe]
      omega

/-- The instructions of a function that is laid out keep to it. -/
theorem Laid.instruction (ha : Accepted p t) {i pc : Nat} {g : Symbols.Function}
    (hg : order[i]? = some g) (howns : prog.Owns i pc) : ∃ limit op arg,
      (Task.ofProgram prog).At pc op arg ∧ Keeps (.ofProgram prog) g limit pc op arg ∧
      ((limit : Int) < prog.stopOf i ∨ prog.functions.length = 1 ∧
        (limit : Int) = prog.stopOf i ∧ (limit : Int) = prog.code.length) := by
  have hmem := hlaid.members g (List.mem_of_getElem? hg)
  have hfaith := ha.collected.faithful g hmem
  obtain ⟨hi, hle, hlt⟩ := (hlaid.owns_iff hlen).mp howns
  obtain ⟨-, stop, hat⟩ := hlaid.functions hg
  -- only a function without a result may end in something else than a `return`
  have hvoid : g.decl.endsInReturn = false → g.returns = .void := by
    intro hends
    rw [hfaith.returns, Option.eq_none_iff_forall_not_mem]
    intro type htype
    rw [endsInReturn_iff.mpr ((ha.functions g hmem).ends type htype)] at hends
    cases hends
  obtain ⟨limit, hstretch, hlimit⟩ :=
    hat.stretch hfaith.slotted (hlaid.slots g (List.mem_of_getElem? hg)) hvoid
  rw [← entryOf_succ hg] at hstretch hlimit
  obtain ⟨op, arg, hins, hkeeps⟩ := hstretch pc hle hlt
  refine ⟨limit, op, arg, hins, hkeeps, ?_⟩
  rw [hlaid.stopOf_eq hlen hi]
  refine hlimit.imp (by omega) ?_
  rintro ⟨halone, rfl⟩
  have hone : order.length = 1 := beq_iff_eq.mp halone
  rw [hlaid.length_code, hlen, hone, show i + 1 = 1 by omega]
  exact ⟨rfl, rfl, rfl⟩

end Laid

/-- What an instruction that keeps to its function refers to. -/
theorem Keeps.refers {prog : Program} {g : Symbols.Function} (hg : Faithful g)
    {entry i pc limit : Nat} {op : Opcode} {arg : Int32}
    (h : Keeps (.ofProgram prog) g limit pc op arg)
    (hlimit : (limit : Int) < prog.stopOf i ∨ prog.functions.length = 1 ∧
      (limit : Int) = prog.stopOf i ∧ (limit : Int) = prog.code.length)
    (htext : op = .pushStr → 0 ≤ arg.toInt ∧ arg.toInt < prog.strings.length) :
    prog.Refers i (describe g entry) pc (.withArg op arg) := by
  have hvars := Function.params_add_localCount hg
  refine ⟨?_, ?_, ?_, by simpa using htext, ?_⟩
  · intro hop
    simp only [Instruction.op?_withArg, Option.some.injEq] at hop
    obtain ⟨dest, harg, hlt, hle⟩ : ∃ dest : Nat, arg.toInt = dest ∧ pc < dest ∧ dest ≤ limit := by
      rcases hop with rfl | rfl <;> exact h
    simp only [Instruction.withArg, harg]
    omega
  · intro hop
    simp only [Instruction.op?_withArg, Option.some.injEq] at hop
    obtain ⟨slot, harg, hlt⟩ : ∃ slot : Nat, arg.toInt = slot ∧ slot < g.vars.length := by
      rcases hop with rfl | rfl <;> exact h
    simp only [Instruction.withArg, describe, harg]
    omega
  · intro hop
    simp only [Instruction.op?_withArg, Option.some.injEq] at hop
    subst hop
    obtain ⟨k, harg, hlt⟩ := h
    simp only [Task.ofProgram, List.size_toArray] at hlt
    simp only [Instruction.withArg, harg]
    omega
  · intro hop
    simp only [Instruction.op?_withArg, Option.some.injEq] at hop
    subst hop
    rw [show (Instruction.withArg .ret arg).arg = arg from rfl, show arg = _ from h]
    by_cases hv : g.returns = .void <;> simp [describe, hv]

theorem describes_decl {g : Symbols.Function} (hg : Faithful g) (entry : Nat) :
    Describes (describe g entry) g.decl := by
  refine ⟨by rw [describe, hg.name], ?_, ?_⟩
  · have := congrArg List.length hg.params_names
    simp only [List.length_map] at this
    simp [describe, this]
  · cases hr : g.decl.returns with
    | none => simp [describe, hg.returns.mpr hr]
    | some type =>
      have hne : g.returns ≠ .void := fun hv => by rw [hg.returns.mp hv] at hr; cases hr
      simp [describe, hne]

section

variable {p : Tree.Program} {t : Table} (ha : Accepted p t) {name : String} {f : Symbols.Function}
  {order : List Symbols.Function} {prog : Program}
  (hlaid : Laid (.ofProgram prog) t order f) (hlen : prog.functions.length = order.length)
include ha hlaid hlen

/-- The table of a program that is laid out. -/
theorem Laid.table (hf : t.find? name = some f) (horder : reachable t f = .ok order) :
    ∃ ds : List Tree.Function, List.Forall₂ Describes prog.functions ds ∧
      (ds.map (·.name)).Nodup ∧ (∃ d, ds.head? = some d ∧ d.name = name) ∧
      ∀ d, d ∈ ds ↔ Reached p name d := by
  have hfaith : ∀ g ∈ order, Faithful g := fun g hg =>
    ha.collected.faithful g (hlaid.members g hg)
  refine ⟨order.map (·.decl), ?_, ?_, ?_, mem_reachable ha.collected hf horder⟩
  · rw [List.forall₂_iff_get]
    refine ⟨by simpa using hlen, ?_⟩
    intro i hi hi'
    obtain ⟨g, hg, heq⟩ := hlaid.exists_getElem? hlen (List.getElem?_eq_getElem hi)
    have hget := (List.getElem?_eq_some_iff.mp hg).2
    simp only [List.get_eq_getElem, List.getElem_map, heq, hget]
    exact describes_decl (hfaith g (List.mem_of_getElem? hg)) _
  · have hnames : (order.map (·.decl)).map (·.name) = order.map (·.name) := by
      rw [List.map_map]
      exact List.map_congr_left fun g hg => (hfaith g hg).name.symm
    rw [hnames]
    exact reachable_nodup ha.collected hf horder
  · obtain ⟨hhead, -⟩ := reachable_spec horder
    refine ⟨f.decl, by rw [List.head?_map, hhead]; rfl, ?_⟩
    rw [← (hfaith f (List.mem_of_head? hhead)).name]
    exact (Table.mem_of_find? hf).2

/-- What its instructions refer to. Which texts there are is not a matter of the layout, but of how
the code was emitted. -/
theorem Laid.refers (hem : Emission [] prog.code prog.strings)
    (hstrs : prog.strings.length < 2 ^ 31) {i pc : Nat} {g : Function} {ins : Instruction}
    (hg : prog.functions[i]? = some g) (howns : prog.Owns i pc) (hins : prog.code[pc]? = some ins) :
    prog.Refers i g pc ins := by
  obtain ⟨g', hg', rfl⟩ := hlaid.exists_getElem? hlen hg
  obtain ⟨limit, op, arg, hat, hkeeps, hlimit⟩ := hlaid.instruction hlen ha hg' howns
  obtain rfl : Instruction.withArg op arg = ins := by
    simpa [Task.At, Task.ofProgram, hins, eq_comm] using hat
  have hfaith := ha.collected.faithful g' (hlaid.members g' (List.mem_of_getElem? hg'))
  refine hkeeps.refers hfaith hlimit ?_
  rintro rfl
  obtain ⟨n, hn, harg⟩ := hem.arg_of_mem (List.mem_of_getElem? hins) (by simp)
  rw [show arg = index n from harg, toInt_index (by omega)]
  omega

end

theorem length_functions_of_emit {p : Tree.Program} {t : Table} {name : String}
    {f : Symbols.Function} (hf : t.find? name = some f) {order : List Symbols.Function}
    (horder : reachable t f = .ok order) {prog : Program} (h : emit t name p = .ok prog) :
    prog.functions.length = order.length := by
  obtain ⟨f', order', hf', horder', hfs⟩ := emit_eq_ok h
  rw [hf] at hf'
  cases hf'
  rw [horder] at horder'
  cases horder'
  exact (emitFunctions_length hfs).1

/-- What is emitted for an accepted program has the structure of it. -/
theorem structured_of_emit {p : Tree.Program} {t : Table} (ha : Accepted p t) {name : String}
    {f : Symbols.Function} (hf : t.find? name = some f) (hparams : f.params = []) {prog : Program}
    (h : emit t name p = .ok prog) (hcode : prog.code.length < 2 ^ 31) :
    Structured prog p name := by
  obtain ⟨hstrs, hfuns⟩ := emit_tables h
  obtain ⟨order, horder, hlaid⟩ := laid_of_emit ha hf hparams h hcode (by omega) (by omega)
  have hlen := length_functions_of_emit hf horder h
  have hem := emit_emission h
  refine ⟨hlaid.table ha hlen hf horder, hlaid.divided hlen, ?_, hem.nodup List.nodup_nil, ?_⟩
  · intro i pc g ins
    exact hlaid.refers ha hlen hem (by omega)
  · intro n hn
    refine ⟨_, hem.push_mem (Nat.zero_le n) hn, by simp, ?_⟩
    exact toInt_index (by omega)

end Code

/-- **The structure of compiled programs.** The program that a source text compiles to has the
functions that the entry function reaches and no other, their code ranges divide its code, and its
instructions refer to what is there. -/
theorem compile_structured {source : Bytes} {entry : String} {unit : Compiled}
    (hc : compile source entry = .ok unit) (hcode : unit.program.code.length < 2 ^ 31) :
    Code.Structured unit.program unit.tree (entryName entry) := by
  obtain ⟨hcollect, hcheck, hemit⟩ := compile_eq_ok hc
  obtain ⟨ha, f, hname, hparams, -⟩ := Typing.accepted_of_check hcollect hcheck
  exact Code.structured_of_emit ha hname hparams hemit hcode

namespace Sample

/-- Prints a text if one of two conditions holds, the first of which is a call. Nothing calls the
last function. -/
def asking : Bytes :=
  Bytes.ofString "function main() \x7b if -> two(2) || false \x7b print(\"yes\"); \x7d \x7d " ++
    Bytes.ofString "function two(n: int) -> bool \x7b return n == 2; \x7d function idle() \x7b\x7d"

def askingTokens : List Token :=
  [key .function 1, name "main" 10, mark .lparen 14, mark .rparen 15, mark .lbrace 17, key .cond 19,
    op .arrow 22, name "two" 25, mark .lparen 28, number "2" 29, mark .rparen 30, op .or 32,
    name "false" 35, mark .lbrace 41, key .print 43, mark .lparen 48, ⟨.string, "yes", ⟨1, 49⟩⟩,
    mark .rparen 54, mark .semicolon 55, mark .rbrace 57, mark .rbrace 59, key .function 61,
    name "two" 70, mark .lparen 73, name "n" 74, mark .colon 75, key .int 77, mark .rparen 80,
    op .arrow 82, key .bool 85, mark .lbrace 90, key .ret 92, name "n" 99, op .eq 101,
    number "2" 104, mark .semicolon 105, mark .rbrace 107, key .function 109, name "idle" 118,
    mark .lparen 122, mark .rparen 123, mark .lbrace 125, mark .rbrace 126]

set_option maxRecDepth 100000 in
theorem asking_tokens : Token.ofText (Utf8.decode asking) = .ok askingTokens := by
  decide +kernel

def askingProgram : Code.Program where
  code := [.withArg .pushInt 2, .withArg .call 1, .withArg .branchZero 5, .withArg .pushInt 1,
    .withArg .branch 6, .withArg .pushInt 0, .withArg .branchZero 9, .withArg .pushStr 0,
    .withArg .print 1, .withArg .ret 0, .withArg .loadLocal 0, .withArg .pushInt 2, .plain .eq,
    .withArg .ret 1]
  functions := [⟨Bytes.ofString "main", 0, 0, 0, false⟩, ⟨Bytes.ofString "two", 10, 1, 0, true⟩]
  strings := [Bytes.ofString "yes"]

theorem compile_asking :
    (compile asking "").toOption.map (fun unit => unit.program) = some askingProgram := by
  rw [compile_of_tokens asking_tokens]
  cbv

end Sample

/-- `Sample.asking` compiles to a program of two functions, which has the structure of its tree. -/
theorem compile_structured_asking : ∃ unit, compile Sample.asking "" = .ok unit ∧
    unit.program = Sample.askingProgram ∧ unit.program.code.length < 2 ^ 31 ∧
    Code.Structured Sample.askingProgram unit.tree "main" := by
  obtain ⟨unit, hc, hprogram⟩ := map_toOption_eq_some.mp Sample.compile_asking
  have hcode : unit.program.code.length < 2 ^ 31 := by
    rw [hprogram]
    decide
  have hstructured := compile_structured hc hcode
  rw [hprogram] at hstructured
  exact ⟨unit, hc, hprogram, hcode, hstructured⟩

end Stackling
