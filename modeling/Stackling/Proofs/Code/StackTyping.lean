import Stackling.Proofs.Code.StackMap

/-!
# Every instruction finds its operands

The spots of an accepted program obey their rules. The argument follows the tree: code that lies in
the task, with its spots in the map and the right spot after it, obeys the rules, and so does every
part of it. What joins the parts is that the spot after one is the spot before the next.
-/

namespace Stackling.Code

open Stackling.Tree Stackling.Symbols Stackling.Typing
open Machine (Task argument? target?)

/-! ## Checked code -/

/-- The code of an expression stands at its place, and leads from the spot where it starts to one
with the value of the expression on top. -/
structure Part.Placed (task : Task) (t : Table) (order : List Symbols.Function)
    (map : Nat → Option Spot) (p : Part) : Prop where
  code : ExprAt task ⟨t, order, p.function⟩ p.start p.expr p.stop
  typed : ∃ ty types, HasType ⟨t, p.function⟩ p.expr ty ∧
    map p.start = some ⟨p.function, types⟩ ∧ map p.stop = some ⟨p.function, types ++ results ty⟩

/-- What is known of functions before their code is looked at: where they start, and what their
slots are. -/
structure Charted (task : Task) (t : Table) (order : List Symbols.Function)
    (map : Nat → Option Spot) : Prop where
  slotted : ∀ g ∈ order, Slotted g.vars
  slots : ∀ g ∈ order, g.vars.length < 2 ^ 31
  entries : ∀ {i entry : Nat} {g : Symbols.Function}, order[i]? = some g →
    task.functions[i]? = some (describe g entry) →
    map entry = some ⟨g, g.params.map (·.type)⟩

section Checked

variable {task : Task} {t : Table} {order : List Symbols.Function} {parts : List Part}
  {map : Nat → Option Spot}

variable (task t order parts map) in
/-- Spots from `start` on that obey their rules, and expressions that are placed. -/
structure Checked (start : Nat) (spots : List Spot) (ps : List Part) : Prop where
  rules : Along (Rule task parts map) start spots
  placed : ∀ p ∈ ps, p.Placed task t order map

namespace Checked

variable {start : Nat} {xs ys : List Spot} {ps qs : List Part}

theorem nil : Checked task t order parts map start [] [] :=
  ⟨along_nil, fun p hp => by cases hp⟩

/-- Two stretches of the map, one behind the other. -/
theorem append (h : Checked task t order parts map start xs ps)
    (h' : Checked task t order parts map (start + xs.length) ys qs) :
    Checked task t order parts map start (xs ++ ys) (ps ++ qs) := by
  refine ⟨along_append.mpr ⟨h.rules, h'.rules⟩, ?_⟩
  intro p hp
  rcases List.mem_append.mp hp with hp | hp
  · exact h.placed p hp
  · exact h'.placed p hp

/-- One more spot in front, if the instruction there keeps the rule of its spot. -/
theorem cons {spot : Spot} (hr : Rule task parts map start spot)
    (h : Checked task t order parts map (start + 1) xs ps) :
    Checked task t order parts map start (spot :: xs) ps :=
  ⟨along_cons.mpr ⟨hr, h.rules⟩, h.placed⟩

/-- More instructions, without expressions of their own. -/
theorem extend (h : Checked task t order parts map start xs ps)
    (h' : Checked task t order parts map (start + xs.length) ys []) :
    Checked task t order parts map start (xs ++ ys) ps := by
  have happ := h.append h'
  rwa [List.append_nil] at happ

/-- One more expression. -/
theorem add {p : Part} (hp : p.Placed task t order map)
    (h : Checked task t order parts map start xs ps) :
    Checked task t order parts map start xs (p :: ps) := by
  refine ⟨h.rules, ?_⟩
  intro q hq
  rcases List.mem_cons.mp hq with rfl | hq
  · exact hp
  · exact h.placed q hq

end Checked

/-! ## Expressions -/

/-- An operator leaves one value. -/
theorem results_resultTy (op : BinaryOp) : results op.resultTy = [op.resultTy] := by
  cases op <;> rfl

/-- An operator that is emitted as one operation takes integers. -/
theorem operandTy_of_operation {op : BinaryOp} {opcode : Opcode}
    (hop : strategy op = .operation opcode) : op.operandTy = .int := by
  cases op <;> cases hop <;> rfl

/-- Operations on integers give integers, comparisons 0 or 1. -/
theorem fits_arithmetic {op : BinaryOp} {opcode : Opcode} (hop : strategy op = .operation opcode)
    (l r : Int32) : Fits (.int (Machine.arithmetic opcode l r)) op.resultTy := by
  cases op <;> cases hop
  case plus | minus | times | divide => exact .int _
  case eq | ne | gt | ge | lt | le => exact .ofBool _

variable {g : Symbols.Function}

variable (task t order parts map g) in
/-- Wherever the code of an expression lies in the task and its spots in the map, it is checked. -/
def ExprChecked (e : Expr) : Prop :=
  ∀ {start stop : Nat} {types : List Ty} {ty : Ty}, ExprAt task ⟨t, order, g⟩ start e stop →
    HasType ⟨t, g⟩ e ty → slotTypes g <+: types →
    Lies map start (exprSpots ⟨t, order, g⟩ types e) →
    map stop = some ⟨g, types ++ results ty⟩ → exprParts g start e ⊆ parts →
    Checked task t order parts map start (exprSpots ⟨t, order, g⟩ types e) (exprParts g start e)

/-- A part of the code is placed if it starts and ends with the stack that the map says. -/
theorem placed_of {e : Expr} {start stop : Nat} {types : List Ty} {ty : Ty}
    (hat : ExprAt task ⟨t, order, g⟩ start e stop) (hty : HasType ⟨t, g⟩ e ty)
    (hm : Lies map start (exprSpots ⟨t, order, g⟩ types e))
    (hs : map stop = some ⟨g, types ++ results ty⟩) :
    Part.Placed task t order map ⟨g, start, e⟩ := by
  obtain rfl := hat.stop_eq
  exact ⟨hat, ty, types, hty, exprSpots_start hm, hs⟩

/-- Arguments one after the other, if it is so for each. The stack grows by the value of each. -/
theorem exprsSpots_checked {es : List Expr}
    (h : ∀ e ∈ es, ExprChecked task t order parts map g e) {start stop : Nat} {types : List Ty}
    (hat : ExprsAt task ⟨t, order, g⟩ start es stop) (hty : ∀ e ∈ es, ∃ ty, HasType ⟨t, g⟩ e ty)
    (hpre : slotTypes g <+: types) (hm : Lies map start (exprsSpots ⟨t, order, g⟩ types es))
    (hs : map stop = some ⟨g, types ++ pushedTypes ⟨t, order, g⟩ es⟩)
    (hp : exprsParts g start es ⊆ parts) :
    Checked task t order parts map start (exprsSpots ⟨t, order, g⟩ types es)
      (exprsParts g start es) := by
  induction es generalizing start types with
  | nil => exact .nil
  | cons e es ih =>
    cases hat with
    | cons he hes =>
      obtain rfl := he.stop_eq
      obtain rfl := hes.stop_eq
      obtain ⟨ty, hty₁⟩ := hty e (by simp)
      simp only [exprsSpots, along_append, length_exprSpots] at hm
      rw [exprsParts, List.append_subset] at hp
      rw [pushedTypes, List.flatMap_cons, ← List.append_assoc] at hs
      have hmid := exprsSpots_start hm.2 hs
      rw [outerType_eq hty₁] at hmid
      refine .append (h e (by simp) he hty₁ hpre hm.1 hmid hp.1) ?_
      rw [length_exprSpots]
      exact ih (fun e' he' => h e' (by simp [he'])) hes (fun e' he' => hty e' (by simp [he']))
        (hpre.trans (List.prefix_append _ _)) hm.2 hs hp.2

/-- An operator. For `and` and `or` both ways through the code have to meet in the same stack. -/
theorem binary_checked {op : BinaryOp} {left right : Expr}
    (hl : ExprChecked task t order parts map g left)
    (hr : ExprChecked task t order parts map g right) :
    ExprChecked task t order parts map g (.binary op left right) := by
  intro start stop types ty hat hty hpre hm hs hp
  have hown := placed_of hat hty hm hs
  obtain ⟨htl, htr, rfl⟩ := hasType_binary_iff.mp hty
  rw [results_resultTy] at hs
  cases hat with
  | operation hop hatl hatr hi =>
    obtain rfl := hatl.stop_eq
    obtain rfl := hatr.stop_eq
    rw [operandTy_of_operation hop] at htl htr
    simp only [exprSpots, exprParts, gap, hop, along_append, along_cons, length_exprSpots,
      Nat.add_zero, List.cons_subset, List.append_subset] at hm hp ⊢
    obtain ⟨hml, hmr, hmi, -⟩ := hm
    obtain ⟨-, hpl, hpr⟩ := hp
    have hleft := hl hatl htl hpre hml (exprSpots_start hmr) hpl
    have hright := hr hatr htr (hpre.trans (List.prefix_append _ _)) hmr
      (by rw [List.append_assoc]; exact hmi) hpr
    refine .add hown (hleft.append ?_)
    rw [length_exprSpots]
    refine hright.extend (.cons ?_ .nil)
    rw [length_exprSpots]
    exact .operate hi (mem_arithmeticOps hop) (fits_arithmetic hop) hs
  | both hop hatl hz hno hatr hb hend hi =>
    obtain rfl := hatl.stop_eq
    obtain rfl := hatr.stop_eq
    obtain rfl := eq_and_of_both hop
    simp only [exprSpots, exprParts, gap, hop, along_append, along_cons, length_exprSpots,
      List.cons_subset, List.append_subset] at hm hp ⊢
    obtain ⟨hml, hmz, hmr, hmb, hmi, -⟩ := hm
    obtain ⟨-, hpl, hpr⟩ := hp
    refine .add hown (.append (hl hatl htl hpre hml hmz hpl) ?_)
    rw [length_exprSpots]
    refine .cons (.branchZero hz hno (exprSpots_start hmr) hmi) ?_
    refine .extend (hr hatr htr hpre hmr hmb hpr) ?_
    rw [length_exprSpots]
    exact .cons (.branch hb hend hs) (.cons (.pushInt hi .no hs) .nil)
  | either hop hatl hz hright hi hb hend hatr =>
    obtain rfl := hatl.stop_eq
    obtain rfl := hatr.stop_eq
    obtain rfl := eq_or_of_either hop
    simp only [exprSpots, exprParts, gap, hop, along_append, along_cons, length_exprSpots,
      List.cons_subset, List.append_subset] at hm hp ⊢
    obtain ⟨hml, hmz, hmi, hmb, hmr⟩ := hm
    obtain ⟨-, hpl, hpr⟩ := hp
    refine .add hown (.append (hl hatl htl hpre hml hmz hpl) ?_)
    rw [length_exprSpots]
    refine .cons (.branchZero hz hright hmi (exprSpots_start hmr)) ?_
    refine .cons (.pushInt hi .yes hmb) (.cons (.branch hb hend hs) ?_)
    exact hr hatr htr hpre hmr hs hpr

/-- Arguments push values of the types of the parameters. -/
theorem pushedTypes_eq {args : List Expr} {ps : List Variable} (hlen : args.length = ps.length)
    (h : ∀ a p, (a, p) ∈ args.zip ps → HasType ⟨t, g⟩ a p.type) (hv : ∀ p ∈ ps, p.type ≠ .void) :
    pushedTypes ⟨t, order, g⟩ args = ps.map (·.type) := by
  induction args generalizing ps with
  | nil =>
    obtain rfl := List.eq_nil_of_length_eq_zero hlen.symm
    rfl
  | cons a args ih =>
    obtain ⟨p, ps, rfl⟩ := List.exists_cons_of_length_eq_add_one hlen.symm
    have htail := ih (by simpa using hlen) (fun b q hbq => h b q (by simp [hbq]))
      fun q hq => hv q (by simp [hq])
    rw [pushedTypes, List.flatMap_cons, outerType_eq (h a p (by simp)),
      results_of_ne_void (hv p (by simp)), ← pushedTypes, htail]
    rfl

section Expr

variable (hc : Charted task t order map) (hg : g ∈ order)
include hc hg

/-- A slot fits into an argument, and has its type wherever the frame's types are known. -/
theorem slot_typed {name : String} {v : Variable} (hv : g.lookup? name = some v) {types : List Ty}
    (hpre : slotTypes g <+: types) :
    (index v.slot).toInt = v.slot ∧ types[v.slot]? = some v.type := by
  obtain ⟨hget, -⟩ := Function.getElem?_of_lookup? (hc.slotted g hg) hv
  have hlt := (List.getElem?_eq_some_iff.mp hget).1
  have hslots := hc.slots g hg
  refine ⟨toInt_index (by omega), ?_⟩
  obtain ⟨pushed, rfl⟩ := hpre
  rw [List.getElem?_append_left (by simpa [slotTypes] using hlt), slotTypes, List.getElem?_map,
    hget]
  rfl

omit hg in
/-- A call. The stack above the arguments is that of the callee's first slots. -/
theorem call_checked {first : Token} {callee : String} {args : List Expr}
    (ih : ∀ a ∈ args, ExprChecked task t order parts map g a) :
    ExprChecked task t order parts map g (.call first callee args) := by
  intro start stop types ty hat hty hpre hm hs hp
  have hown := placed_of hat hty hm hs
  have hargty : ∀ a ∈ args, ∃ ty, HasType ⟨t, g⟩ a ty := fun a ha => hty.exists_of_mem ha
  cases hty with
  | call hf hlen hargs =>
    cases hat with
    | call hf' ha hi harg hord hfun hentry =>
      rw [hf] at hf'
      cases hf'
      obtain rfl := ha.stop_eq
      have hslotted := hc.slotted _ (List.mem_of_getElem? hord)
      have hpushed : pushedTypes ⟨t, order, g⟩ args = _ := pushedTypes_eq hlen hargs
        fun p hp => hslotted.type_ne_void p (List.mem_of_mem_filter hp)
      simp only [exprSpots, exprParts, along_append, along_cons, length_exprsSpots,
        List.cons_subset] at hm hp ⊢
      refine .add hown (.extend (exprsSpots_checked ih ha hargty hpre hm.1 hm.2.1 hp.2) ?_)
      rw [length_exprsSpots, hpushed]
      refine .cons (.call hi ?_ hentry (hc.entries hord hfun) hs) .nil
      rw [Machine.argument?_natCast harg, hfun]

/-- **Expressions** are checked. -/
theorem exprChecked (e : Expr) : ExprChecked task t order parts map g e := by
  induction e using Expr.induction with
  | int literal value =>
    intro start stop types ty hat hty _ hm hs _
    have hown := placed_of hat hty hm hs
    cases hty
    cases hat with
    | int hi => exact .add hown (.cons (.pushInt hi (.int _) hs) .nil)
  | bool literal value =>
    intro start stop types ty hat hty _ hm hs _
    have hown := placed_of hat hty hm hs
    cases hty
    cases hat with
    | bool hi => exact .add hown (.cons (.pushInt hi (.ofBool _) hs) .nil)
  | str literal =>
    intro start stop types ty hat hty _ hm hs _
    have hown := placed_of hat hty hm hs
    cases hty
    cases hat with
    | str hi ht => exact .add hown (.cons (.pushStr hi ht hs) .nil)
  | var name =>
    intro start stop types ty hat hty hpre hm hs hp
    have hown := placed_of hat hty hm hs
    cases hty with
    | @var _ v hv =>
      cases hat with
      | var hv' hi =>
        rw [hv] at hv'
        cases hv'
        obtain ⟨harg, hslot⟩ := slot_typed hc hg hv hpre
        have hne := g.type_ne_void_of_lookup? (hc.slotted g hg) hv
        rw [results_of_ne_void hne] at hs
        have hpart : ⟨g, start, .var name⟩ ∈ parts := hp (by simp [exprParts])
        exact .add hown (.cons (.load hpart hi harg hslot hs) .nil)
  | binary op left right ihl ihr => exact binary_checked ihl ihr
  | call first callee args ih => exact call_checked hc ih

end Expr

/-! ## Statements -/

/-- Only at the end of the code is anything left but the slots. -/
theorem exitTypes_eq {env : Env} {final : Bool} {ss : List Stmt} {types : List Ty}
    (hnot : (final && env.isAlone) = false) (h : exitTypes env final ss = some types) :
    types = slotTypes env.function := by
  unfold exitTypes at h
  split at h <;> simp_all

variable (task t order parts map g) in
/-- Wherever the code of a statement lies in the task and its spots in the map, it is checked. -/
def StmtChecked (s : Stmt) : Prop :=
  ∀ {final atTop : Bool} {start stop : Nat}, StmtAt task ⟨t, order, g⟩ final start s stop →
    StmtTyped ⟨t, g⟩ atTop s → Lies map start (stmtSpots ⟨t, order, g⟩ final s) →
    (∀ types, exitTypes ⟨t, order, g⟩ final [s] = some types → map stop = some ⟨g, types⟩) →
    stmtParts ⟨t, order, g⟩ start s ⊆ parts →
    Checked task t order parts map start (stmtSpots ⟨t, order, g⟩ final s)
      (stmtParts ⟨t, order, g⟩ start s)

/-- Statements one after the other, if it is so for each. Between them the stack has the slots
alone. -/
theorem stmtsSpots_checked {ss : List Stmt} (h : ∀ s ∈ ss, StmtChecked task t order parts map g s)
    {final atTop : Bool} {start stop : Nat} (hat : StmtsAt task ⟨t, order, g⟩ final start ss stop)
    (hty : ∀ s ∈ ss, StmtTyped ⟨t, g⟩ atTop s)
    (hm : Lies map start (stmtsSpots ⟨t, order, g⟩ final ss))
    (hs : ∀ types, exitTypes ⟨t, order, g⟩ final ss = some types → map stop = some ⟨g, types⟩)
    (hp : stmtsParts ⟨t, order, g⟩ start ss ⊆ parts) :
    Checked task t order parts map start (stmtsSpots ⟨t, order, g⟩ final ss)
      (stmtsParts ⟨t, order, g⟩ start ss) := by
  induction ss generalizing start with
  | nil => exact .nil
  | cons s ss ih =>
    cases hat with
    | cons hat hats =>
      have hstop := hats.stop_eq
      simp only [stmtsSpots, along_append, length_stmtSpots] at hm
      rw [stmtsParts, List.append_subset] at hp
      rcases ss with _ | ⟨s', ss⟩
      · cases hats
        simp only [List.isEmpty_nil, Bool.and_true] at hat hm
        have hown := h s (by simp) hat (hty s (by simp)) hm.1 hs hp.1
        simpa [stmtsSpots, stmtsParts] using hown
      · simp only [List.isEmpty_cons, Bool.and_false] at hat hm
        obtain rfl := hat.stop_eq
        have hexit : exitTypes ⟨t, order, g⟩ final (s :: s' :: ss) =
            exitTypes ⟨t, order, g⟩ final (s' :: ss) := by
          rw [exitTypes, exitTypes, List.getLast?_cons_cons]
        rw [hexit] at hs
        have hmid := stmtsSpots_start hm.2 (hstop ▸ hs)
        have hown := h s (by simp) hat (hty s (by simp)) hm.1
          (fun types htypes => exitTypes_eq rfl htypes ▸ hmid) hp.1
        have hrest := ih (fun s'' hs'' => h s'' (by simp [hs'']))
          hats (fun s'' hs'' => hty s'' (by simp [hs''])) hm.2 hs hp.2
        simp only [stmtsSpots, stmtsParts, List.isEmpty_cons, Bool.and_false] at hrest ⊢
        refine hown.append ?_
        rwa [length_stmtSpots]

/-- Arguments that are printed leave one value each. -/
theorem length_pushedTypes {args : List Expr}
    (h : ∀ a ∈ args, ∃ ty, ty ≠ .void ∧ HasType ⟨t, g⟩ a ty) :
    (pushedTypes ⟨t, order, g⟩ args).length = args.length := by
  induction args with
  | nil => rfl
  | cons a args ih =>
    obtain ⟨ty, hne, hty⟩ := h a (by simp)
    rw [pushedTypes, List.flatMap_cons, outerType_eq hty, results_of_ne_void hne, ← pushedTypes,
      List.length_append, ih fun b hb => h b (by simp [hb]), List.length_cons, Nat.add_comm]
    rfl

section Stmt

variable (hc : Charted task t order map) (hg : g ∈ order)
include hc hg

/-- The code that stores the value of an expression. -/
theorem store_checked {start stop : Nat} {name : String} {v : Variable} {value : Expr}
    (hv : g.lookup? name = some v) (he : ExprAt task ⟨t, order, g⟩ start value stop)
    (hi : task.At stop .storeLocal (index v.slot)) (hty : HasType ⟨t, g⟩ value v.type)
    (hm : Lies map start (exprSpots ⟨t, order, g⟩ (slotTypes g) value ++
      [⟨g, slotTypes g ++ results (outerType ⟨t, order, g⟩ value)⟩]))
    (hs : map (stop + 1) = some ⟨g, slotTypes g⟩) (hp : exprParts g start value ⊆ parts) :
    Checked task t order parts map start (exprSpots ⟨t, order, g⟩ (slotTypes g) value ++
      [⟨g, slotTypes g ++ results (outerType ⟨t, order, g⟩ value)⟩]) (exprParts g start value) := by
  have hne := g.type_ne_void_of_lookup? (hc.slotted g hg) hv
  obtain ⟨harg, hslot⟩ := slot_typed hc hg hv List.prefix_rfl
  obtain rfl := he.stop_eq
  have hout : outerType ⟨t, order, g⟩ value = v.type := outerType_eq hty
  simp only [along_append, along_cons, length_exprSpots, hout] at hm ⊢
  refine .extend (exprChecked hc hg value he hty List.prefix_rfl hm.1 hm.2.1 hp) ?_
  rw [length_exprSpots, results_of_ne_void hne]
  exact .cons (.store hi harg hslot hs) .nil

/-- A return keeps the rules of its spots. -/
theorem ret_checked {first : Token} {value : Expr} :
    StmtChecked task t order parts map g (.ret first value) := by
  intro final atTop start stop hat hty hm hs hp
  cases hty with
  | @ret _ _ _ ty hv hret =>
    have hout : outerType ⟨t, order, g⟩ value = ty := outerType_eq hv
    cases hat with
    | retAlone halone he =>
      simp only [stmtSpots, stmtParts, halone, Bool.and_self, if_true, List.append_nil] at hm hp ⊢
      refine exprChecked hc hg value he hv List.prefix_rfl hm (hs _ ?_) hp
      simp [exitTypes, halone, hout]
    | ret hnot he hi =>
      obtain rfl := he.stop_eq
      simp only [stmtSpots, stmtParts, hnot, Bool.false_eq_true, if_false, hout, along_append,
        along_cons, length_exprSpots] at hm hp ⊢
      refine .extend (exprChecked hc hg value he hv List.prefix_rfl hm.1 hm.2.1 hp) ?_
      rw [length_exprSpots]
      refine .cons ?_ .nil
      by_cases hvoid : g.returns = .void
      · rw [if_pos hvoid] at hi
        exact .ret hi hvoid
      · obtain rfl := hret hvoid
        rw [if_neg hvoid] at hi
        rw [results_of_ne_void hvoid]
        exact .retValue hi (by decide) hvoid

/-- A condition keeps the rules of its spots. The branch over the block meets the end of the block
in the same stack. -/
theorem cond_checked {first brace : Token} {test : Expr} {body : List Stmt}
    (ih : ∀ s ∈ body, StmtChecked task t order parts map g s) :
    StmtChecked task t order parts map g (.cond first test brace body) := by
  intro final atTop start stop hat hty hm hs hp
  cases hty with
  | cond htt htb =>
    cases hat with
    | cond ht hz hto hb =>
      obtain rfl := ht.stop_eq
      have hdest : map stop = some ⟨g, slotTypes g⟩ := hs _ rfl
      simp only [stmtSpots, stmtParts, along_append, along_cons, length_exprSpots,
        List.append_subset] at hm hp ⊢
      obtain ⟨hmt, hmz, hmb⟩ := hm
      -- the block never ends a function, so it leaves the slots and nothing else
      have hexit : ∀ types, exitTypes ⟨t, order, g⟩ false body = some types →
          map stop = some ⟨g, types⟩ := fun types htypes => exitTypes_eq rfl htypes ▸ hdest
      have hnext := stmtsSpots_start hmb (hb.stop_eq ▸ hexit)
      refine .append (exprChecked hc hg test ht htt List.prefix_rfl hmt hmz hp.1) ?_
      rw [length_exprSpots]
      exact .cons (.branchZero hz hto hnext hdest)
        (stmtsSpots_checked ih hb htb hmb hexit hp.2)

/-- Printing keeps the rules of its spots. -/
theorem print_checked {first : Token} {args : List Expr} :
    StmtChecked task t order parts map g (.print first args) := by
  intro final atTop start stop hat hty hm hs hp
  cases hty with
  | print hta =>
    cases hat with
    | print ha hi harg =>
      obtain rfl := ha.stop_eq
      simp only [stmtSpots, stmtParts, along_append, along_cons, length_exprsSpots] at hm hp ⊢
      have hargs := exprsSpots_checked (fun a _ => exprChecked hc hg a) ha
        (fun a ham => (hta a ham).imp fun _ h => h.2) List.prefix_rfl hm.1 hm.2.1 hp
      refine hargs.extend (.cons ?_ .nil)
      rw [length_exprsSpots]
      have hlen : (pushedTypes ⟨t, order, g⟩ args).length = args.length := length_pushedTypes hta
      exact .print hi (hlen ▸ harg) (hs _ rfl)

/-- A call for its effects: a result, if there is one, is popped. -/
theorem callStmt_checked {first : Token} {callee : String} {args : List Expr} :
    StmtChecked task t order parts map g (.call first callee args) := by
  intro final atTop start stop hat hty hm hs hp
  cases hty with
  | @call _ _ _ _ ty htc =>
    have hout : outerType ⟨t, order, g⟩ (.call first callee args) = ty := outerType_eq htc
    have hres : leavesResult ⟨t, order, g⟩ callee = (ty != .void) := by
      cases htc with
      | call hf => simp [leavesResult, hf]
    cases hat with
    | callPop hpop he hi =>
      obtain rfl := he.stop_eq
      have hne : ty ≠ .void := by simpa [hpop] using hres
      simp only [stmtSpots, stmtParts, hpop, if_true, hout, along_append, along_cons,
        length_exprSpots] at hm hp ⊢
      refine .extend (exprChecked hc hg _ he htc List.prefix_rfl hm.1 hm.2.1 hp) ?_
      rw [length_exprSpots, results_of_ne_void hne]
      exact .cons (.pop hi (hs _ rfl)) .nil
    | call hpop he =>
      obtain rfl : ty = .void := by simpa [hpop] using hres
      simp only [stmtSpots, stmtParts, hpop, Bool.false_eq_true, if_false, List.append_nil]
        at hm hp ⊢
      refine exprChecked hc hg _ he htc List.prefix_rfl hm ?_ hp
      simpa [results] using hs _ rfl

/-- **Statements** are checked. -/
theorem stmtChecked (s : Stmt) : StmtChecked task t order parts map g s := by
  induction s using Stmt.induction with
  | ret first value => exact ret_checked hc hg
  | cond first test brace body ih => exact cond_checked hc hg ih
  | assign target value =>
    intro final atTop start stop hat hty hm hs hp
    cases hty with
    | assign hv he =>
      cases hat with
      | assign hv' hat hi =>
        rw [hv] at hv'
        cases hv'
        simp only [stmtSpots, stmtParts] at hm hp ⊢
        exact store_checked hc hg hv hat hi he hm (hs _ rfl) hp
  | print first args => exact print_checked hc hg
  | decl first param value =>
    intro final atTop start stop hat hty hm hs hp
    cases hty with
    | decl hv he =>
      cases hat with
      | decl hv' hat hi =>
        rw [hv] at hv'
        cases hv'
        simp only [stmtSpots, stmtParts] at hm hp ⊢
        exact store_checked hc hg hv hat hi he hm (hs _ rfl) hp
  | call first callee args => exact callStmt_checked hc hg

end Stmt

/-! ## Functions -/

section Function

variable {entry : Nat} (hfaith : Faithful g)
  (hm : Lies map entry (functionSpots ⟨t, order, g⟩))
  (hend : (⟨t, order, g⟩ : Env).isAlone = true → ∀ types,
    exitTypes ⟨t, order, g⟩ true g.decl.body = some types →
    map (entry + g.localCount + stmtsSize ⟨t, order, g⟩ true g.decl.body) = some ⟨g, types⟩)
include hm hend

/-- What stands at the end of a function's body. -/
theorem body_exit {types : List Ty}
    (h : exitTypes ⟨t, order, g⟩ true g.decl.body = some types) :
    map (entry + g.localCount + stmtsSize ⟨t, order, g⟩ true g.decl.body) = some ⟨g, types⟩ := by
  by_cases halone : (⟨t, order, g⟩ : Env).isAlone = true
  · exact hend halone types h
  rw [Bool.not_eq_true] at halone
  by_cases hends : g.decl.endsInReturn = true
  · obtain ⟨first, value, hlast⟩ := endsInReturn_iff.mp hends
    simp [exitTypes, hlast, halone] at h
  · rw [exitTypes_eq (by simp [halone]) h]
    simp only [functionSpots, hends, halone, Bool.or_false, Bool.false_eq_true, if_false,
      along_append, along_cons, List.length_append, List.length_map, List.length_range,
      length_stmtsSpots, ← Nat.add_assoc] at hm
    exact hm.2.1

include hfaith

/-- The local variables are pushed one after the other. -/
theorem reserve_spot {k : Nat} (hk : k ≤ g.localCount) :
    map (entry + k) = some ⟨g, (slotTypes g).take (g.params.length + k)⟩ := by
  have hexit : ∀ types, exitTypes ⟨t, order, g⟩ true g.decl.body = some types → _ :=
    fun _ => body_exit hm hend
  simp only [functionSpots, along_append, List.length_map, List.length_range] at hm
  obtain ⟨⟨hreserve, hbody⟩, -⟩ := hm
  rcases Nat.lt_or_eq_of_le hk with hlt | rfl
  · exact hreserve k _ (by simp [hlt, Env.spot])
  · have hvars := g.params_add_localCount hfaith
    rw [List.take_of_length_le (by rw [slotTypes, List.length_map]; omega)]
    exact stmtsSpots_start hbody hexit

/-- A function starts with its parameters on the stack. -/
theorem entry_spot : map entry = some ⟨g, g.params.map (·.type)⟩ := by
  have hspot := reserve_spot hfaith hm hend (Nat.zero_le _)
  obtain ⟨locals, hvars⟩ := hfaith.params_prefix
  rwa [slotTypes, ← List.map_take, ← hvars, Nat.add_zero, Nat.add_zero, List.take_left] at hspot

/-- The zeros that are pushed for local variables. -/
theorem reserve_checked
    (hi : ∀ k < g.localCount, task.At (entry + k) .pushInt 0) :
    Checked task t order parts map entry ((List.range g.localCount).map fun k =>
      ⟨g, (slotTypes g).take (g.params.length + k)⟩) [] := by
  refine ⟨?_, fun p hp => by cases hp⟩
  intro k spot hk
  obtain ⟨hlt, rfl⟩ := List.getElem?_eq_some_iff.mp hk
  rw [List.length_map, List.length_range] at hlt
  have hvars := g.params_add_localCount hfaith
  have hslot : g.params.length + k < g.vars.length := by omega
  have hget : (slotTypes g)[g.params.length + k]? = some g.vars[g.params.length + k].type := by
    rw [slotTypes, List.getElem?_map, List.getElem?_eq_getElem hslot]
    rfl
  have hne := hfaith.slotted.type_ne_void _ (List.getElem_mem hslot)
  have hnext := reserve_spot hfaith hm hend (k := k + 1) hlt
  rw [← Nat.add_assoc, ← Nat.add_assoc, List.take_add_one, hget] at hnext
  rw [List.getElem_map, List.getElem_range]
  exact .pushInt (hi k hlt) (.zero hne) hnext

/-- **Functions** are checked. -/
theorem function_checked (hc : Charted task t order map) (hg : g ∈ order)
    (hty : FunctionTyped ⟨t, g⟩ g.decl) {stop : Nat}
    (hat : FunctionAt task ⟨t, order, g⟩ entry stop)
    (hp : stmtsParts ⟨t, order, g⟩ (entry + g.localCount) g.decl.body ⊆ parts) :
    Checked task t order parts map entry (functionSpots ⟨t, order, g⟩)
      (stmtsParts ⟨t, order, g⟩ (entry + g.localCount) g.decl.body) := by
  have hexit : ∀ types, exitTypes ⟨t, order, g⟩ true g.decl.body = some types → _ :=
    fun _ => body_exit hm hend
  have hreserve : Checked task t order parts map entry _ [] :=
    reserve_checked hfaith hm hend hat.reserve
  obtain rfl := hat.body.stop_eq
  simp only [functionSpots, along_append, List.length_map, List.length_range] at hm ⊢
  have hbody :=
    stmtsSpots_checked (fun s _ => stmtChecked hc hg s) hat.body hty.body hm.1.2 hexit hp
  refine .extend (.append hreserve ?_) ?_
  · rwa [List.length_map, List.length_range]
  split
  · exact .nil
  · next hnot =>
    rw [Bool.or_eq_true, not_or, Bool.not_eq_true, Bool.not_eq_true] at hnot
    have hleave := hat.leave
    rw [if_neg (by simp [hnot.2])] at hleave
    refine .cons ?_ .nil
    rw [List.length_append, List.length_map, List.length_range, length_stmtsSpots, ← Nat.add_assoc]
    refine .ret (hleave hnot.1) (hfaith.returns.mpr ?_)
    rcases hdecl : g.decl.returns with _ | type
    · rfl
    · rw [endsInReturn_iff.mpr (hty.ends type hdecl)] at hnot
      cases hnot.1

end Function

end Checked

/-! ## Programs -/

/-- The spot at an address of a program. -/
def programMap (t : Table) (order : List Symbols.Function) (pc : Nat) : Option Spot :=
  (programSpots t order)[pc]?

/-- Where the spots of a function are. -/
theorem length_take_spots {t : Table} {order : List Symbols.Function} {i : Nat}
    (hi : i ≤ order.length) :
    ((order.map (fun g => functionSpots ⟨t, order, g⟩) ++
      [endSpots t order]).take i).flatten.length = entryOf t order i := by
  rw [List.take_append_of_le_length (by simpa using hi), ← List.map_take, List.length_flatten,
    List.map_map, entryOf]
  congr 1
  exact List.map_congr_left fun g _ => length_functionSpots _

/-- In the map of the program the spots of a function start at its entry. -/
theorem lies_functionSpots {t : Table} {order : List Symbols.Function} {i : Nat}
    {g : Symbols.Function} (hg : order[i]? = some g) :
    Lies (programMap t order) (entryOf t order i) (functionSpots ⟨t, order, g⟩) := by
  have hlt := (List.getElem?_eq_some_iff.mp hg).1
  rw [← length_take_spots (Nat.le_of_lt hlt)]
  refine lies_flatten ?_
  rw [List.getElem?_append_left (by simpa using hlt), List.getElem?_map, hg]
  rfl

theorem lies_endSpots (t : Table) (order : List Symbols.Function) :
    Lies (programMap t order) (entryOf t order order.length) (endSpots t order) := by
  rw [← length_take_spots (Nat.le_refl _)]
  refine lies_flatten ?_
  rw [List.getElem?_append_right (by simp)]
  simp

section Program

variable {p : Tree.Program} {task : Task} {t : Table} {order : List Symbols.Function}
  {f : Symbols.Function} (hlaid : Laid task t order f)
include hlaid

/-- A function that is alone comes to the end of the code. -/
theorem end_spot {i : Nat} {g : Symbols.Function} (hg : order[i]? = some g)
    (halone : (⟨t, order, g⟩ : Env).isAlone = true) (types : List Ty)
    (h : exitTypes ⟨t, order, g⟩ true g.decl.body = some types) :
    programMap t order (entryOf t order i + g.localCount +
      stmtsSize ⟨t, order, g⟩ true g.decl.body) = some ⟨g, types⟩ := by
  obtain ⟨-, stop, hat⟩ := hlaid.functions hg
  have hstop := hat.leave
  rw [if_pos halone, hat.body.stop_eq, hlaid.size] at hstop
  dsimp only at hstop
  rw [hstop]
  have hone : order.length = 1 := beq_iff_eq.mp halone
  obtain ⟨g', rfl⟩ := List.length_eq_one_iff.mp hone
  have hi := (List.getElem?_eq_some_iff.mp hg).1
  obtain rfl : i = 0 := by omega
  cases hg
  have hspot := (along_cons.mp (lies_endSpots t [g])).1
  rw [h] at hspot
  exact hspot

variable (ha : Accepted p t)
include ha

/-- The map of the program keeps all rules: it says of every instruction what stack it finds. -/
theorem charted : Charted task t order (programMap t order) where
  slotted g hg := (ha.collected.faithful g (hlaid.members g hg)).slotted
  slots := hlaid.slots
  entries := by
    intro i entry g hord hfun
    obtain ⟨rfl, -⟩ := hlaid.functionAt hord hfun
    have hfaith := ha.collected.faithful g (hlaid.members g (List.mem_of_getElem? hord))
    exact entry_spot hfaith (lies_functionSpots hord) (end_spot hlaid hord)

/-- **Every spot of an accepted program obeys its rule**, and the code of every expression is
placed. -/
theorem spots_checked : Checked task t order (programParts t order) (programMap t order) 0
    (programSpots t order) (programParts t order) := by
  have hfunction : ∀ {i : Nat} {g : Symbols.Function}, order[i]? = some g →
      Checked task t order (programParts t order) (programMap t order) (entryOf t order i)
        (functionSpots ⟨t, order, g⟩)
        (stmtsParts ⟨t, order, g⟩ (entryOf t order i + g.localCount) g.decl.body) := by
    intro i g hg
    have hmem := List.mem_of_getElem? hg
    obtain ⟨-, stop, hat⟩ := hlaid.functions hg
    refine function_checked (ha.collected.faithful g (hlaid.members g hmem))
      (lies_functionSpots hg) (end_spot hlaid hg) (charted hlaid ha) hmem
      (ha.functions g (hlaid.members g hmem)) hat ?_
    intro q hq
    exact List.mem_flatMap.mpr ⟨(g, i), List.mk_mem_zipIdx_iff_getElem?.mpr hg, hq⟩
  refine ⟨along_flatten.mpr ?_, ?_⟩
  · intro i spots hi
    have hlt := (List.getElem?_eq_some_iff.mp hi).1
    rw [List.length_append, List.length_map, List.length_singleton] at hlt
    rw [length_take_spots (by omega), Nat.zero_add]
    rcases Nat.lt_or_eq_of_le (Nat.le_of_lt_succ hlt) with hlt | rfl
    · rw [List.getElem?_append_left (by simpa using hlt), List.getElem?_map,
        List.getElem?_eq_getElem hlt] at hi
      cases hi
      exact (hfunction (List.getElem?_eq_getElem hlt)).rules
    · -- past the last function there is no code
      intro k spot _
      refine .stop (Array.getElem?_eq_none ?_)
      rw [hlaid.size]
      omega
  · intro q hq
    obtain ⟨⟨g, i⟩, hg, hq⟩ := List.mem_flatMap.mp hq
    exact (hfunction (List.mk_mem_zipIdx_iff_getElem?.mp hg)).placed q hq

end Program

end Stackling.Code
