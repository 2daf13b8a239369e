import Stackling.Proofs.Code.Program
import Stackling.Proofs.Meaning.Soundness

/-!
# Code does what the tree means

The machine follows the evaluator. `Meets task n c r K` says that from the configuration `c` the
steps come out as the result `r` says: they print the same text, and where evaluation finished
with `a` they reach a configuration of which `K a` holds; where it divided by zero they reach such
a division; where it ran out of fuel they go on for `n` steps at least, so that an evaluation that
never finishes is matched by steps without end. Of a stuck evaluation nothing is said.

`Meets.bind` makes the proofs follow the evaluator's own `do` blocks: one lemma for each function
of the evaluator, and one rule for each instruction in between.
-/

namespace Stackling.Code

open Stackling.Tree Stackling.Symbols Stackling.Typing Stackling.Meaning
open Machine (Value Task Config Step Runs Frame DividesByZero baseOf target? arithmetic
  arithmeticOps)

/-! ## Meeting a result -/

/-- From `c` the steps come out as the result says. -/
def Meets {α : Type} (task : Task) (n : Nat) (c : Config) (r : Result α)
    (K : α → Config → Prop) : Prop :=
  match r with
  | .done a out => ∃ m c', Runs task m c c' ∧ c'.output = c.output ++ out ∧ K a c'
  | .divisionByZero out =>
    ∃ m c', Runs task m c c' ∧ c'.output = c.output ++ out ∧ DividesByZero task c'
  | .unfinished out => ∃ m c', Runs task m c c' ∧ c'.output = c.output ++ out ∧ n ≤ m
  | .stuck => True

namespace Meets

variable {α β : Type} {task : Task} {m n : Nat} {c c₁ : Config}

theorem pure {K : α → Config → Prop} {a : α} (h : K a c) :
    Meets task n c (Pure.pure a) K :=
  ⟨0, c, .refl c, (List.append_nil _).symm, h⟩

/-- Steps that print nothing, before the rest. -/
theorem runs {K : α → Config → Prop} {r : Result α} (h : Runs task m c c₁)
    (ho : c₁.output = c.output) (hr : Meets task n c₁ r K) : Meets task (m + n) c r K := by
  cases r with
  | done | divisionByZero =>
    obtain ⟨k, c₂, hruns, hout, hk⟩ := hr
    exact ⟨m + k, c₂, h.trans hruns, ho ▸ hout, hk⟩
  | unfinished =>
    obtain ⟨k, c₂, hruns, hout, hk⟩ := hr
    exact ⟨m + k, c₂, h.trans hruns, ho ▸ hout, Nat.add_le_add_left hk m⟩
  | stuck => trivial

/-- A step that prints nothing, before the rest. -/
theorem step {K : α → Config → Prop} {r : Result α} (h : Step task c c₁)
    (ho : c₁.output = c.output) (hr : Meets task n c₁ r K) : Meets task (n + 1) c r K :=
  Nat.add_comm 1 n ▸ hr.runs (.one h) ho

/-- Whoever can make many steps without an end can make fewer. -/
theorem mono {K : α → Config → Prop} {r : Result α} (hle : m ≤ n) (h : Meets task n c r K) :
    Meets task m c r K := by
  cases r with
  | done | divisionByZero => exact h
  | unfinished =>
    obtain ⟨k, c₂, hruns, hout, hk⟩ := h
    exact ⟨k, c₂, hruns, hout, Nat.le_trans hle hk⟩
  | stuck => trivial

/-- What is known of the configuration may be said in other words, using the result. -/
theorem imp_of_eq {K K' : α → Config → Prop} {r : Result α} (h : Meets task n c r K)
    (hk : ∀ a out c', r = .done a out → K a c' → K' a c') : Meets task n c r K' := by
  cases r with
  | done =>
    obtain ⟨m, c', hruns, hout, ha⟩ := h
    exact ⟨m, c', hruns, hout, hk _ _ _ rfl ha⟩
  | divisionByZero | unfinished => exact h
  | stuck => trivial

theorem imp {K K' : α → Config → Prop} {r : Result α} (h : Meets task n c r K)
    (hk : ∀ a c', K a c' → K' a c') : Meets task n c r K' :=
  h.imp_of_eq fun a _ c' _ => hk a c'

/-- **Sequencing**: the rest goes on from where the first part ended. -/
theorem bind {K : α → Config → Prop} {K' : β → Config → Prop} {r : Result α}
    {f : α → Result β} (hr : Meets task n c r K)
    (hf : ∀ a c', K a c' → Meets task n c' (f a) K') : Meets task n c (r >>= f) K' := by
  cases r with
  | done a out =>
    obtain ⟨m, c', hruns, hout, hk⟩ := hr
    have hrest := hf a c' hk
    show Meets task n c ((f a).after out) K'
    cases hfa : f a with
    | done | divisionByZero =>
      rw [hfa] at hrest
      obtain ⟨m', c'', hruns', hout', hk'⟩ := hrest
      exact ⟨m + m', c'', hruns.trans hruns', by rw [hout', hout, List.append_assoc], hk'⟩
    | unfinished =>
      rw [hfa] at hrest
      obtain ⟨m', c'', hruns', hout', hk'⟩ := hrest
      exact ⟨m + m', c'', hruns.trans hruns', by rw [hout', hout, List.append_assoc], by omega⟩
    | stuck => trivial
  | divisionByZero => exact hr
  | unfinished => exact hr
  | stuck => trivial

/-- A value that the evaluator looks at: the machine does nothing for it. -/
theorem asValue {v : Option Value} :
    Meets task n c (Meaning.asValue v) fun x c' => c = c' ∧ v = some x := by
  rcases v with _ | v
  · trivial
  · exact .pure ⟨rfl, rfl⟩

/-- A value that has to be an integer is one, or the meaning is stuck. -/
theorem asInt {v : Option Value} :
    Meets task n c (Meaning.asInt v) fun i c' => c = c' ∧ v = some (.int i) := by
  rcases v with _ | _ | _
  · trivial
  · exact .pure ⟨rfl, rfl⟩
  · trivial

/-- A value that has to be a truth value is one, or the meaning is stuck. -/
theorem asTruth {v : Option Value} :
    Meets task n c (Meaning.asTruth v) fun b c' => c = c' ∧ v = some (truth b) := by
  rcases v with _ | i | _
  · trivial
  · rw [Meaning.asTruth]
    split
    · next hi => exact .pure ⟨rfl, by simp [truth, hi]⟩
    · split
      · next hi => exact .pure ⟨rfl, by simp [truth, hi]⟩
      · trivial
  · trivial

end Meets

/-! ## Expressions -/

/-- The evaluator's integer operators are the machine's. -/
theorem operate_eq {op : BinaryOp} {opcode : Opcode} (hop : strategy op = .operation opcode)
    (l r : Int32) : operate op l r =
      if opcode = .div ∧ r = 0 then .divisionByZero []
      else pure (.int (arithmetic opcode l r)) := by
  cases op <;> cases hop
  case divide =>
    by_cases hr : r = 0
    · simp [operate, hr]
    · have : Int32.ofInt (l.toInt.tdiv r.toInt) = l / r := by
        rw [Int32.ofInt_tdiv l.minValue_le_toInt l.toInt_le r.minValue_le_toInt r.toInt_le,
          Int32.ofInt_toInt, Int32.ofInt_toInt]
      simp [operate, hr, arithmetic, this]
  case plus | minus | times =>
    simp [operate, arithmetic, Int32.ofInt_add, Int32.ofInt_sub, Int32.ofInt_mul,
      Int32.ofInt_toInt]
  case eq | ne | gt | ge | lt | le =>
    simp [operate, arithmetic, truth, Int32.toInt_inj, Int32.lt_iff_toInt_lt,
      Int32.le_iff_toInt_le]

/-- The meaning of an operator that is emitted as one operation. -/
theorem combine_operation {op : BinaryOp} {opcode : Opcode}
    (hop : strategy op = .operation opcode) (left right : Result (Option Value)) :
    combine op left right = (do
      let l ← asInt (← left)
      let r ← asInt (← right)
      return some (← operate op l r)) := by
  cases op <;> cases hop <;> rfl

/-- `Reaches c pc values c'`: in the frame of `c`, the machine got to `pc` with these values. -/
structure Reaches (c : Config) (pc : Nat) (values : List Value) (c' : Config) : Prop where
  pc : c'.pc = pc
  frames : c'.frames = c.frames
  values : c'.values = values

/-- The slots of the innermost frame hold the variables of `f`. -/
def Holds (f : Symbols.Function) (store : Store) (c : Config) : Prop :=
  ∃ below ops, c.values = below ++ slots f store ++ ops ∧ baseOf c.frames = below.length

/-- The slots on the stack hold the store. -/
theorem Holds.of_slots {f : Symbols.Function} {store : Store} {c : Config} {below : List Value}
    (hv : c.values = below ++ slots f store) (hb : baseOf c.frames = below.length) :
    Holds f store c :=
  ⟨below, [], by rw [hv, List.append_nil], hb⟩

/-- What is pushed leaves the slots alone. -/
theorem Holds.reaches {f : Symbols.Function} {store : Store} {c c' : Config} {pc : Nat}
    {vs : List Value} (h : Holds f store c) (hr : Reaches c pc (c.values ++ vs) c') :
    Holds f store c' := by
  obtain ⟨below, ops, hv, hb⟩ := h
  refine ⟨below, ops ++ vs, ?_, hr.frames ▸ hb⟩
  rw [hr.values, hv, List.append_assoc]

/-- A jump does not change the slots. -/
theorem Holds.jumps {f : Symbols.Function} {store : Store} {c c' : Config} {pc : Nat}
    (h : Holds f store c) (hr : Reaches c pc c.values c') : Holds f store c' :=
  have hr' : Reaches c pc (c.values ++ []) c' := by rwa [List.append_nil]
  h.reaches hr'

/-- A variable is found in its slot. -/
theorem Holds.getElem? {f : Symbols.Function} (hf : Slotted f.vars) {store : Store} {c : Config}
    (h : Holds f store c) {name : String} {v : Variable} (hv : f.lookup? name = some v) :
    c.values[baseOf c.frames + v.slot]? = some (store name) := by
  obtain ⟨below, ops, hvals, hb⟩ := h
  have hslot : (slots f store)[v.slot]? = some (store name) := getElem?_slots hf hv
  have hlt := (List.getElem?_eq_some_iff.mp hslot).1
  rw [hvals, hb, List.append_assoc, List.getElem?_append_right (Nat.le_add_right _ _),
    Nat.add_sub_cancel_left, List.getElem?_append_left hlt, hslot]

/-- Calls come out as `call` says: started at the callee's entry they return to the caller with the
result in place of the arguments. Only a function without a result type gives none. -/
def CallsMeet (task : Task) (t : Table) (order : List Symbols.Function) (n : Nat)
    (call : Meaning.Calls) : Prop :=
  ∀ {name : String} {i entry : Nat} {f : Symbols.Function}, t.find? name = some f →
    order[i]? = some f → task.functions[i]? = some (describe f entry) →
    ∀ (back : Nat) (frames : List Frame) (below args : List Value) (out : Bytes),
      args.length = f.params.length →
      Meets task n ⟨entry, ⟨back, below.length⟩ :: frames, below ++ args, out⟩ (call name args)
        fun r c' => c'.pc = back ∧ c'.frames = frames ∧ c'.values = below ++ r.toList ∧
          (r = none ↔ f.returns = .void)

/-- The code of `e` pushes its value. -/
def Evaluates (task : Task) (env : Env) (n : Nat) (call : Meaning.Calls) (store : Store)
    (e : Expr) : Prop :=
  ∀ {start stop : Nat} {c : Config}, ExprAt task env start e stop → c.pc = start →
    Holds env.function store c →
    Meets task n c (evalExpr call store e) fun r => Reaches c stop (c.values ++ r.toList)

/-- An expression whose code is one push. -/
theorem Meets.push {task : Task} {n : Nat} {c : Config} {v : Value}
    (h : Step task c (c.next (c.values ++ [v]))) :
    Meets task n c (Pure.pure (some v)) fun r => Reaches c (c.pc + 1) (c.values ++ r.toList) :=
  ⟨1, _, .one h, (List.append_nil _).symm, rfl, rfl, rfl⟩

/-- A conditional jump on a truth value. -/
theorem step_branchZero {task : Task} {c : Config} {arg : Int32} {dest : Nat} {vs : List Value}
    {b : Bool} (hz : task.At c.pc .branchZero arg) (hdest : target? task arg = some dest)
    (hv : c.values = vs ++ [truth b]) :
    Step task c { c with pc := if b then c.pc + 1 else dest, values := vs } := by
  have h := Step.branchZero hz hdest hv
  cases b
  · exact h
  · exact h

section Exprs

variable {task : Task} {env : Env} {n : Nat} {call : Meaning.Calls} {store : Store}

/-- Arguments one after the other, if it is so for each. Their values pile up on the stack. -/
theorem evalArgs_meets {es : List Expr} (h : ∀ e ∈ es, Evaluates task env n call store e)
    {start stop : Nat} {c : Config} (hat : ExprsAt task env start es stop) (hpc : c.pc = start)
    (hc : Holds env.function store c) : Meets task n c (evalArgs call store es) fun vs c' =>
      Reaches c stop (c.values ++ vs) c' ∧ vs.length = es.length := by
  induction es generalizing start c with
  | nil =>
    cases hat
    rw [evalArgs]
    exact .pure ⟨⟨hpc, rfl, (List.append_nil _).symm⟩, rfl⟩
  | cons e es ih =>
    cases hat with
    | cons he hes =>
      rw [evalArgs]
      refine (h e (by simp) he hpc hc).bind fun r c₁ h₁ => ?_
      refine Meets.asValue.bind ?_
      rintro v _ ⟨rfl, rfl⟩
      have hc₁ := hc.reaches h₁
      refine (ih (fun e' he' => h e' (by simp [he'])) hes h₁.pc hc₁).bind ?_
      rintro vs c₂ ⟨h₂, hlen⟩
      refine .pure ⟨⟨h₂.pc, h₂.frames.trans h₁.frames, ?_⟩, by simp [hlen]⟩
      rw [h₂.values, h₁.values]
      simp

/-- The code of a binary expression. -/
theorem binary_evaluates {op : BinaryOp} {left right : Expr}
    (hl : Evaluates task env n call store left) (hr : Evaluates task env n call store right) :
    Evaluates task env n call store (.binary op left right) := by
  intro start stop c hat hpc hc
  rw [evalExpr]
  cases hat with
  | @operation _ _ _ _ opcode _ _ hop hatl hatr hi =>
    rw [combine_operation hop]
    refine (hl hatl hpc hc).bind fun v c₁ h₁ => ?_
    refine Meets.asInt.bind ?_
    rintro l _ ⟨rfl, rfl⟩
    refine (hr hatr h₁.pc (hc.reaches h₁)).bind fun w c₂ h₂ => ?_
    refine Meets.asInt.bind ?_
    rintro r _ ⟨rfl, rfl⟩
    have hvals : c₂.values = c.values ++ [Value.int l, Value.int r] := by
      rw [h₂.values, h₁.values]
      simp
    rw [← h₂.pc] at hi
    rw [operate_eq hop]
    split
    · next hz =>
      obtain ⟨rfl, rfl⟩ := hz
      exact ⟨0, c₂, .refl _, (List.append_nil _).symm, 0, _, l, hi, hvals⟩
    · next hz =>
      refine ⟨1, _, .one (.operate hi (mem_arithmeticOps hop) hvals hz),
        (List.append_nil _).symm, ?_⟩
      exact ⟨congrArg (· + 1) h₂.pc, h₂.frames.trans h₁.frames, rfl⟩
  | @both _ _ no _ _ _ argNo argEnd hop hatl hz hno hatr hb hend hi =>
    obtain rfl := eq_and_of_both hop
    refine (hl hatl hpc hc).bind fun v c₁ h₁ => ?_
    refine Meets.asTruth.bind ?_
    rintro l _ ⟨rfl, rfl⟩
    have hstep := step_branchZero (h₁.pc ▸ hz) hno h₁.values
    cases l with
    | false =>
      -- the left side settles it
      exact ⟨2, _, .head hstep (.one (.pushInt hi)), (List.append_nil _).symm, rfl, h₁.frames, rfl⟩
    | true =>
      have hjump : Holds env.function store { c₁ with pc := c₁.pc + 1, values := c.values } :=
        hc.jumps ⟨rfl, h₁.frames, rfl⟩
      refine .mono (Nat.le_succ n) (.step hstep rfl ?_)
      refine (hr hatr (congrArg (· + 1) h₁.pc) hjump).bind fun w c₂ h₂ => ?_
      refine Meets.asTruth.bind ?_
      rintro r _ ⟨rfl, rfl⟩
      refine ⟨1, _, .one (.branch (h₂.pc ▸ hb) hend), (List.append_nil _).symm, rfl, ?_, h₂.values⟩
      exact h₂.frames.trans h₁.frames
  | @either _ mid _ _ _ _ _ _ hop hatl hz hright hi hb hend hatr =>
    obtain rfl := eq_or_of_either hop
    refine (hl hatl hpc hc).bind fun v c₁ h₁ => ?_
    refine Meets.asTruth.bind ?_
    rintro l _ ⟨rfl, rfl⟩
    have hstep := step_branchZero (h₁.pc ▸ hz) hright h₁.values
    cases l with
    | false =>
      have hjump : Holds env.function store { c₁ with pc := mid + 3, values := c.values } :=
        hc.jumps ⟨rfl, h₁.frames, rfl⟩
      refine .mono (Nat.le_succ n) (.step hstep rfl ?_)
      refine (hr hatr rfl hjump).bind fun w c₂ h₂ => ?_
      refine Meets.asTruth.bind ?_
      rintro r _ ⟨rfl, rfl⟩
      exact .pure ⟨h₂.pc, h₂.frames.trans h₁.frames, h₂.values⟩
    | true =>
      -- the left side settles it
      rw [← h₁.pc] at hi hb
      exact ⟨3, _, .head hstep (.head (.pushInt hi) (.one (.branch hb hend))),
        (List.append_nil _).symm, rfl, h₁.frames, rfl⟩

/-- The code of a call pushes the arguments and leaves the result. -/
theorem call_meets (hcalls : CallsMeet task env.table env.order n call) {first : Token}
    {callee : String} {args : List Expr} {ty : Ty}
    (hty : HasType ⟨env.table, env.function⟩ (.call first callee args) ty)
    (hargs : ∀ a ∈ args, Evaluates task env (n + 1) call store a) {start stop : Nat} {c : Config}
    (hat : ExprAt task env start (.call first callee args) stop) (hpc : c.pc = start)
    (hc : Holds env.function store c) :
    Meets task (n + 1) c (evalExpr call store (.call first callee args)) fun r c' =>
      Reaches c stop (c.values ++ r.toList) c' ∧
        (r = none ↔ leavesResult env callee = false) := by
  cases hat with
  | @call _ stop i entry _ _ _ f arg hfind ha hi harg hord hfun hentry =>
    have harity : args.length = f.params.length := by
      cases hty with
      | call hg hlen =>
        rw [hfind] at hg
        cases hg
        exact hlen
    rw [evalExpr]
    refine (evalArgs_meets hargs ha hpc hc).bind ?_
    rintro vs c₁ ⟨h₁, hlen⟩
    have hbase : baseOf c₁.frames ≤ c.values.length := by
      obtain ⟨below, ops, hvals, hb⟩ := hc
      rw [h₁.frames, hb, hvals]
      simp
    have hstep := Step.call (h₁.pc ▸ hi) (Machine.argument?_natCast harg ▸ hfun) rfl hentry
      h₁.values (by simp [describe, hlen, harity]) hbase
    refine .step hstep rfl ?_
    have hcall := hcalls hfind hord hfun (c₁.pc + 1) c₁.frames c.values vs c₁.output
      (hlen.trans harity)
    rw [← h₁.values] at hcall
    refine hcall.imp ?_
    rintro r c₂ ⟨hpc₂, hframes₂, hvals₂, hres⟩
    refine ⟨⟨by rw [hpc₂, h₁.pc], hframes₂.trans h₁.frames, hvals₂⟩, ?_⟩
    rw [hres, leavesResult, hfind]
    simp

/-- **Expressions**: the code of a well-typed expression pushes its value. Calls take a step of
their own, so an evaluation that runs out of fuel in a call is met by one step more. -/
theorem evaluates_of_hasType (hf : Slotted env.function.vars)
    (hsize : env.function.vars.length < 2 ^ 31)
    (hcalls : CallsMeet task env.table env.order n call) {e : Expr} {ty : Ty}
    (hty : HasType ⟨env.table, env.function⟩ e ty) :
    Evaluates task env (n + 1) call store e := by
  induction e using Expr.induction generalizing ty with
  | int literal value =>
    intro start stop c hat hpc hc
    cases hat with
    | int hi =>
      subst hpc
      rw [evalExpr]
      exact .push (.pushInt hi)
  | bool literal value =>
    intro start stop c hat hpc hc
    cases hat with
    | bool hi =>
      subst hpc
      rw [evalExpr]
      exact .push (.pushInt hi)
  | str literal =>
    intro start stop c hat hpc hc
    cases hat with
    | str hi ht =>
      subst hpc
      rw [evalExpr]
      exact .push (.pushStr hi ht)
  | var name =>
    intro start stop c hat hpc hc
    cases hat with
    | @var _ _ v hv hi =>
      subst hpc
      rw [evalExpr]
      have hslot := (Function.getElem?_of_lookup? hf hv).1
      have hlt := (List.getElem?_eq_some_iff.mp hslot).1
      exact .push (.load hi (toInt_index (by omega)) (hc.getElem? hf hv))
  | binary op left right ihl ihr =>
    obtain ⟨htl, htr, -⟩ := hasType_binary_iff.mp hty
    exact binary_evaluates (ihl htl) (ihr htr)
  | call first callee args ih =>
    intro start stop c hat hpc hc
    have hargs : ∀ a ∈ args, Evaluates task env (n + 1) call store a := by
      intro a ham
      obtain ⟨ty', hty'⟩ := hty.exists_of_mem ham
      exact ih a ham hty'
    exact (call_meets hcalls hty hargs hat hpc hc).imp fun r c' h => h.1

end Exprs

/-! ## Statements -/

/-- Where the machine is when control leaves a statement whose code ends at `stop`: there, with the
variables in the slots, or at an instruction that returns. A function that is alone has no such
instruction at its end. -/
def Leaves (task : Task) (env : Env) (final : Bool) (stop : Nat) (below : List Value)
    (frames : List Frame) : Exit → Config → Prop
  | .next store, c =>
    c.pc = stop ∧ c.frames = frames ∧ c.values = below ++ slots env.function store
  | .returned r, c => c.frames = frames ∧ (∃ locals, c.values = below ++ locals ++ r.toList) ∧
      (task.At c.pc .ret (if env.function.returns = .void then 0 else 1) ∨
        final = true ∧ env.isAlone = true ∧ c.pc = stop)

/-- The code of `s` does what the statement says. -/
def Executes (task : Task) (env : Env) (n : Nat) (call : Meaning.Calls) (s : Stmt) : Prop :=
  ∀ {final : Bool} {start stop : Nat} {below : List Value} {store : Store} {c : Config},
    StmtAt task env final start s stop → c.pc = start →
    c.values = below ++ slots env.function store → baseOf c.frames = below.length →
    Meets task n c (evalStmt call store s) (Leaves task env final stop below c.frames)

section Stmts

variable {task : Task} {env : Env} {n : Nat} {call : Meaning.Calls}

/-- Statements one after the other, if it is so for each. A return among them leaves the others out.
-/
theorem evalStmts_meets {ss : List Stmt} (h : ∀ s ∈ ss, Executes task env n call s) {final : Bool}
    {start stop : Nat} {below : List Value} {store : Store} {c : Config}
    (hat : StmtsAt task env final start ss stop) (hpc : c.pc = start)
    (hv : c.values = below ++ slots env.function store) (hb : baseOf c.frames = below.length) :
    Meets task n c (evalStmts call store ss) (Leaves task env final stop below c.frames) := by
  induction ss generalizing start store c with
  | nil =>
    cases hat
    rw [evalStmts]
    exact .pure ⟨hpc, rfl, hv⟩
  | cons s ss ih =>
    cases hat with
    | cons hs hss =>
      rw [evalStmts]
      refine (h s (by simp) hs hpc hv hb).bind fun exit c₁ h₁ => ?_
      cases exit with
      | next store₁ =>
        obtain ⟨hpc₁, hf₁, hv₁⟩ := h₁
        rw [← hf₁] at hb ⊢
        exact ih (fun s' hs' => h s' (by simp [hs'])) hss hpc₁ hv₁ hb
      | returned r =>
        obtain ⟨hf₁, hv₁, hret | ⟨hfinal, halone, hpc₁⟩⟩ := h₁
        · exact .pure ⟨hf₁, hv₁, .inl hret⟩
        · -- only the last statement returns without an instruction
          obtain ⟨hfin, hlast⟩ := Bool.and_eq_true_iff.mp hfinal
          obtain rfl := List.isEmpty_iff.mp hlast
          cases hss
          exact .pure ⟨hf₁, hv₁, .inr ⟨hfin, halone, hpc₁⟩⟩

/-- The code that stores the value of an expression in a variable. -/
theorem store_meets (hf : Slotted env.function.vars) (hsize : env.function.vars.length < 2 ^ 31)
    {value : Expr} {start mid : Nat} {below : List Value} {store : Store} {c : Config}
    (he : Evaluates task env n call store value) (hat : ExprAt task env start value mid)
    {name : String} {v : Variable} (hv : env.function.lookup? name = some v)
    (hi : task.At mid .storeLocal (index v.slot)) (hpc : c.pc = start)
    (hc : c.values = below ++ slots env.function store) (hb : baseOf c.frames = below.length)
    (final : Bool) : Meets task n c (do
        let x ← asValue (← evalExpr call store value)
        return .next (store.set name x)) (Leaves task env final (mid + 1) below c.frames) := by
  refine (he hat hpc (.of_slots hc hb)).bind fun r c₁ h₁ => Meets.asValue.bind ?_
  rintro x _ ⟨rfl, rfl⟩
  have hslot := (Function.getElem?_of_lookup? hf hv).1
  have hlt := (List.getElem?_eq_some_iff.mp hslot).1
  have hbase : baseOf c₁.frames = below.length := h₁.frames ▸ hb
  rw [← h₁.pc] at hi ⊢
  refine ⟨1, _, .one (.store hi (toInt_index (by omega)) h₁.values ?_), (List.append_nil _).symm,
    rfl, h₁.frames, ?_⟩
  · rw [hbase, hc, List.length_append, length_slots]
    omega
  · rw [slots_set hf hv]
    simp [Config.next, hbase, hc]

/-- A return meets its meaning: the value is on the stack when the function is left. -/
theorem ret_executes {first : Token} {value : Expr}
    (he : ∀ store, Evaluates task env n call store value) :
    Executes task env n call (.ret first value) := by
  intro final start stop below store c hat hpc hv hb
  rw [evalStmt]
  cases hat with
  | retAlone halone hat =>
    refine (he store hat hpc (.of_slots hv hb)).bind fun r c₁ h₁ => ?_
    refine .pure ⟨h₁.frames, ⟨slots env.function store, by rw [h₁.values, hv]⟩, ?_⟩
    exact .inr ⟨rfl, halone, h₁.pc⟩
  | ret _ hat hi =>
    refine (he store hat hpc (.of_slots hv hb)).bind fun r c₁ h₁ => ?_
    refine .pure ⟨h₁.frames, ⟨slots env.function store, by rw [h₁.values, hv]⟩, ?_⟩
    exact .inl (h₁.pc ▸ hi)

/-- A condition meets its meaning, whether its block is run or branched over. -/
theorem cond_executes {first brace : Token} {test : Expr} {body : List Stmt}
    (ht : ∀ store, Evaluates task env n call store test)
    (hbody : ∀ s ∈ body, Executes task env n call s) :
    Executes task env n call (.cond first test brace body) := by
  intro final start stop below store c hat hpc hv hb
  cases hat with
  | cond hat hz hdest hats =>
    rw [evalStmt]
    refine (ht store hat hpc (.of_slots hv hb)).bind fun r c₁ h₁ => ?_
    refine Meets.asTruth.bind ?_
    rintro b _ ⟨rfl, rfl⟩
    have hstep := step_branchZero (h₁.pc ▸ hz) hdest h₁.values
    refine .mono (Nat.le_succ _) (.step hstep rfl ?_)
    rw [← h₁.frames] at hb ⊢
    cases b with
    | false => exact .pure ⟨rfl, rfl, hv⟩
    | true =>
      have hrun := evalStmts_meets hbody hats
        (c := { c₁ with pc := c₁.pc + 1, values := c.values }) (congrArg (· + 1) h₁.pc) hv hb
      refine hrun.imp fun exit c₂ h₂ => ?_
      cases exit with
      | next store₂ => exact h₂
      | returned r =>
        -- no statement of the block is the last one of the function
        obtain ⟨hf₂, hv₂, hret | ⟨hfalse, -⟩⟩ := h₂
        · exact ⟨hf₂, hv₂, .inl hret⟩
        · cases hfalse

/-- Printing meets its meaning. -/
theorem print_executes {first : Token} {args : List Expr}
    (ha : ∀ store, ∀ a ∈ args, Evaluates task env n call store a) :
    Executes task env n call (.print first args) := by
  intro final start stop below store c hat hpc hv hb
  cases hat with
  | print hat hi harg =>
    rw [evalStmt]
    refine (evalArgs_meets (ha store) hat hpc (.of_slots hv hb)).bind ?_
    rintro vs c₁ ⟨h₁, hlen⟩
    have hbase : baseOf c₁.frames ≤ c.values.length := by
      rw [h₁.frames, hb, hv]
      simp
    have hstep := Step.print (h₁.pc ▸ hi) (hlen ▸ harg) h₁.values hbase
    have hline : Meets task n c₁ (Result.write (line vs)) fun _ c₂ =>
        c₂ = { c₁.next c.values with output := c₁.output ++ line vs } :=
      ⟨1, _, .one hstep, rfl, rfl⟩
    refine hline.bind ?_
    rintro _ _ rfl
    exact .pure ⟨congrArg (· + 1) h₁.pc, h₁.frames, hv⟩

/-- A call whose result nobody wants. -/
theorem call_executes (hcalls : CallsMeet task env.table env.order n call) {first : Token}
    {callee : String} {args : List Expr} {ty : Ty}
    (hty : HasType ⟨env.table, env.function⟩ (.call first callee args) ty)
    (ha : ∀ store, ∀ a ∈ args, Evaluates task env (n + 1) call store a) :
    Executes task env (n + 1) call (.call first callee args) := by
  intro final start stop below store c hat hpc hv hb
  rw [evalStmt]
  cases hat with
  | callPop hres hat hi =>
    refine (call_meets hcalls hty (ha store) hat hpc (.of_slots hv hb)).bind ?_
    rintro r c₁ ⟨h₁, hnone⟩
    rcases r with _ | x
    · rw [hnone.mp rfl] at hres
      cases hres
    · exact ⟨1, _, .one (.pop (h₁.pc ▸ hi) h₁.values), (List.append_nil _).symm,
        congrArg (· + 1) h₁.pc, h₁.frames, hv⟩
  | call hres hat =>
    refine (call_meets hcalls hty (ha store) hat hpc (.of_slots hv hb)).bind ?_
    rintro r c₁ ⟨h₁, hnone⟩
    obtain rfl := hnone.mpr hres
    exact .pure ⟨h₁.pc, h₁.frames, by simpa [hv] using h₁.values⟩

/-- **Statements**: the code of a well-typed statement does what it says. -/
theorem executes_of_stmtTyped (hf : Slotted env.function.vars)
    (hsize : env.function.vars.length < 2 ^ 31)
    (hcalls : CallsMeet task env.table env.order n call) {s : Stmt} {atTop : Bool}
    (hty : StmtTyped ⟨env.table, env.function⟩ atTop s) : Executes task env (n + 1) call s := by
  have hexpr : ∀ {e : Expr} {ty : Ty}, HasType ⟨env.table, env.function⟩ e ty →
      ∀ store, Evaluates task env (n + 1) call store e :=
    fun h _ => evaluates_of_hasType hf hsize hcalls h
  induction s using Stmt.induction generalizing atTop with
  | ret first value =>
    cases hty with
    | ret hte =>
      apply ret_executes
      exact hexpr hte
  | cond first test brace body ih =>
    cases hty with
    | cond htt htb =>
      apply cond_executes
      · exact hexpr htt
      · intro s hs
        exact ih s hs (htb s hs)
  | assign target value =>
    intro final start stop below store c hat hpc hv hb
    cases hty with
    | assign _ hte =>
      cases hat with
      | assign hlook he hi =>
        rw [evalStmt]
        exact store_meets hf hsize (hexpr hte store) he hlook hi hpc hv hb final
  | print first args =>
    cases hty with
    | print hta =>
      apply print_executes
      intro store a ham
      obtain ⟨ty, -, hty⟩ := hta a ham
      exact hexpr hty store
  | decl first param value =>
    intro final start stop below store c hat hpc hv hb
    cases hty with
    | decl _ hte =>
      cases hat with
      | decl hlook he hi =>
        rw [evalStmt]
        exact store_meets hf hsize (hexpr hte store) he hlook hi hpc hv hb final
  | call first callee args =>
    cases hty with
    | call htc =>
      apply call_executes hcalls htc
      intro store a ham
      obtain ⟨ty, hty⟩ := htc.exists_of_mem ham
      exact hexpr hty store

end Stmts

/-! ## Functions -/

/-- The zeros that reserve the slots of local variables. -/
theorem reserve_runs {task : Task} {count entry : Nat}
    (h : ∀ k < count, task.At (entry + k) .pushInt 0) (frames : List Frame) (vs : List Value)
    (out : Bytes) : Runs task count ⟨entry, frames, vs, out⟩
      ⟨entry + count, frames, vs ++ List.replicate count Value.zero, out⟩ := by
  induction count generalizing entry vs with
  | zero =>
    rw [List.replicate_zero, List.append_nil]
    exact .refl _
  | succ count ih =>
    have hrest : ∀ k < count, task.At (entry + 1 + k) .pushInt 0 := by
      intro k hk
      rw [Nat.add_assoc, Nat.add_comm 1]
      exact h (k + 1) (by omega)
    have hruns := ih hrest (vs ++ [Value.zero])
    rw [List.append_assoc, List.singleton_append, ← List.replicate_succ, Nat.add_assoc,
      Nat.add_comm 1] at hruns
    exact .head (.pushInt (h 0 (by omega))) hruns

section Functions

variable {task : Task} {p : Tree.Program} {t : Table} {order : List Symbols.Function}
  {f : Symbols.Function} (ha : Accepted p t) (hlaid : Laid task t order f)
include ha hlaid

/-- **Bodies**: started at its entry with arguments, a function does what its body says. It runs to
the end of its code only if its last statement is no `return`. -/
theorem body_meets {n : Nat} {call : Meaning.Calls} (hcalls : CallsMeet task t order n call)
    {i entry : Nat} {g : Symbols.Function} (hord : order[i]? = some g)
    (hfun : task.functions[i]? = some (describe g entry)) (frames : List Frame)
    (below : List Value) {args : List Value} (out : Bytes)
    (hargs : args.length = g.params.length) (hb : baseOf frames = below.length) :
    ∃ stop, FunctionAt task ⟨t, order, g⟩ entry stop ∧
      Meets task (n + 1) ⟨entry, frames, below ++ args, out⟩
        (evalStmts call (.ofArgs g.decl.params args) g.decl.body) fun exit c =>
          Leaves task ⟨t, order, g⟩ true stop below frames exit c ∧
            ((∃ store, exit = .next store) → g.decl.endsInReturn = false) := by
  have hmem := List.mem_of_getElem? hord
  have hfaith := ha.collected.faithful g (hlaid.members g hmem)
  have htyped := ha.functions g (hlaid.members g hmem)
  obtain ⟨stop, hat⟩ := (hlaid.functionAt hord hfun).2
  refine ⟨stop, hat, ?_⟩
  have hruns := reserve_runs hat.reserve frames (below ++ args) out
  rw [List.append_assoc, ← slots_ofArgs hfaith hargs] at hruns
  have hbody : ∀ s ∈ g.decl.body, Executes task ⟨t, order, g⟩ (n + 1) call s := by
    intro s hs
    exact executes_of_stmtTyped hfaith.slotted (hlaid.slots g hmem) hcalls (htyped.body s hs)
  have hmeets := evalStmts_meets hbody hat.body rfl rfl hb
    (c := ⟨_, frames, below ++ slots g (.ofArgs g.decl.params args), out⟩)
  refine .mono (Nat.le_add_left _ _) (.runs hruns rfl (hmeets.imp_of_eq ?_))
  intro exit out' c hdone hleaves
  refine ⟨hleaves, ?_⟩
  rintro ⟨store, rfl⟩
  rw [← Bool.not_eq_true, endsInReturn_iff]
  rintro ⟨first, value, hlast⟩
  exact evalStmts_ne_next hlast hdone

/-- A call of a laid out function is the evaluation of its body, and then leaving it. -/
theorem invoke_succ {n i : Nat} {name : String} {g : Symbols.Function} {args : List Value}
    (hg : t.find? name = some g) (hord : order[i]? = some g)
    (hargs : args.length = g.params.length) : invoke p (n + 1) name args =
      evalStmts (invoke p n) (.ofArgs g.decl.params args) g.decl.body >>= leave g.decl := by
  have hfaith := ha.collected.faithful g (hlaid.members g (List.mem_of_getElem? hord))
  have hlen := congrArg List.length hfaith.params_names
  simp only [List.length_map] at hlen
  rw [invoke, ha.collected.program_find? hg]
  dsimp only
  rw [invokeFunction, if_pos (by omega)]

/-- **Calls** between several functions: every body ends at an instruction that returns. -/
theorem callsMeet_invoke (hnot : order.length ≠ 1) (n : Nat) :
    CallsMeet task t order n (invoke p n) := by
  induction n with
  | zero =>
    intro name i entry g _ _ _ back frames below args out _
    exact ⟨0, _, .refl _, (List.append_nil _).symm, Nat.le_refl 0⟩
  | succ n ih =>
    intro name i entry g hg hord hfun back frames below args out hargs
    have halone : (⟨t, order, g⟩ : Env).isAlone = false := by simpa [Env.isAlone] using hnot
    have hfaith := ha.collected.faithful g (hlaid.members g (List.mem_of_getElem? hord))
    obtain ⟨stop, hat, hbody⟩ := body_meets ha hlaid ih hord hfun
      (⟨back, below.length⟩ :: frames) below out hargs rfl
    rw [invoke_succ ha hlaid hg hord hargs]
    refine hbody.bind ?_
    rintro exit c ⟨hleaves, hends⟩
    have hleave := hat.leave
    simp only [halone, Bool.false_eq_true, if_false] at hleave
    rw [leave.eq_def]
    cases exit with
    | next store =>
      obtain ⟨hpc, hframes, hvals⟩ := hleaves
      have hret := hleave (hends ⟨store, rfl⟩)
      rcases hdecl : g.decl.returns with _ | type
      · exact ⟨1, _, .one (.ret (hpc ▸ hret) hframes hvals), (List.append_nil _).symm, rfl, rfl,
          (List.append_nil _).symm, by simp [hfaith.returns, hdecl]⟩
      · trivial
    | returned r =>
      obtain ⟨hframes, ⟨locals, hvals⟩, hret | ⟨-, hfalse, -⟩⟩ := hleaves
      · rcases hdecl : g.decl.returns with _ | type
        · simp only [if_pos (hfaith.returns.mpr hdecl)] at hret
          rw [List.append_assoc] at hvals
          exact ⟨1, _, .one (.ret hret hframes hvals), (List.append_nil _).symm, rfl, rfl,
            (List.append_nil _).symm, by simp [hfaith.returns, hdecl]⟩
        · have hvoid : ¬g.returns = .void := by simp [hfaith.returns, hdecl]
          simp only [if_neg hvoid] at hret
          rcases r with _ | v
          · trivial
          · exact ⟨1, _, .one (.retValue hret (by decide) hframes hvals),
              (List.append_nil _).symm, rfl, rfl, rfl, by simp [hvoid]⟩
      · rw [halone] at hfalse
        cases hfalse

/-- **Calls** of a function that is alone: it calls itself with no arguments, so as long as it does
not finish with less fuel, no call inside it finishes. That its code may end without an
instruction that returns is never noticed. -/
theorem callsMeet_alone {name : String} (hname : t.find? name = some f) (hparams : f.params = [])
    (hone : order.length = 1) {n : Nat}
    (h : ∀ m ≤ n, ∃ out, Meaning.evaluate p name m = .unfinished out) :
    CallsMeet task t order n (invoke p n) := by
  induction n with
  | zero =>
    intro name i entry g _ _ _ back frames below args out _
    exact ⟨0, _, .refl _, (List.append_nil _).symm, Nat.le_refl 0⟩
  | succ n ih =>
    intro name' i entry g hg hord hfun back frames below args out hargs
    have hcalls : CallsMeet task t order n (invoke p n) := ih fun m hm => h m (by omega)
    obtain ⟨stop, hat, hbody⟩ := body_meets ha hlaid hcalls hord hfun
      (⟨back, below.length⟩ :: frames) below out hargs rfl
    obtain ⟨out', hout⟩ := h (n + 1) (Nat.le_refl _)
    -- the callee is the function itself
    have hi : i = 0 := by
      have := (List.getElem?_eq_some_iff.mp hord).1
      omega
    subst hi
    rw [hlaid.first] at hord
    cases hord
    obtain rfl : name' = name := by
      rw [← (Table.mem_of_find? hg).2, (Table.mem_of_find? hname).2]
    obtain rfl : args = [] := List.eq_nil_of_length_eq_zero (by rw [hargs, hparams]; rfl)
    rw [Meaning.evaluate] at hout
    have hmeets : Meets task (n + 1) ⟨entry, ⟨back, below.length⟩ :: frames, below ++ [], out⟩
        (invoke p (n + 1) name' []) fun _ _ => True := by
      rw [invoke_succ ha hlaid hg hlaid.first hargs]
      refine hbody.bind fun exit c _ => ?_
      rw [leave.eq_def]
      split
      · exact .pure trivial
      · exact .pure trivial
      · trivial
    rw [hout] at hmeets ⊢
    exact hmeets

/-! ## Programs -/

/-- How a run ends whose evaluation finished with `r`: it is over, and the value is on top. -/
def Finishes (task : Task) (r : Option Value) (c : Config) : Prop :=
  Machine.Halts task c ∧ ∀ v, r = some v → ∃ vs, c.values = vs ++ [v]

/-- The configuration in which a program starts. -/
def initial : Config := ⟨0, [], [], []⟩

/-- The run of a program meets the meaning of its entry function. -/
theorem entry_meets {name : String} (hname : t.find? name = some f) (hparams : f.params = [])
    {n : Nat} (hcalls : CallsMeet task t order n (invoke p n)) :
    Meets task (n + 1) initial (Meaning.evaluate p name (n + 1)) (Finishes task) := by
  have hargs : ([] : List Value).length = f.params.length := by rw [hparams]; rfl
  obtain ⟨stop, hat, hbody⟩ := body_meets ha hlaid hcalls hlaid.first hlaid.entry [] [] []
    hargs rfl
  rw [Meaning.evaluate, invoke_succ ha hlaid hname hlaid.first hargs]
  refine hbody.bind ?_
  rintro exit c ⟨hleaves, hends⟩
  have hleave := hat.leave
  -- a return from the outermost frame and the end of the code are both the end of the run
  have hhalts : Machine.Halts task c := by
    cases exit with
    | next store =>
      obtain ⟨hpc, hframes, -⟩ := hleaves
      split at hleave
      · exact .inl (Array.getElem?_eq_none (by omega))
      · exact .inr ⟨hframes, 0, hpc ▸ hleave (hends ⟨store, rfl⟩)⟩
    | returned r =>
      obtain ⟨hframes, -, hret | ⟨-, halone, hpc⟩⟩ := hleaves
      · exact .inr ⟨hframes, _, hret⟩
      · rw [if_pos halone] at hleave
        exact .inl (Array.getElem?_eq_none (by omega))
  rw [leave.eq_def]
  split
  · exact .pure ⟨hhalts, fun v hv => by cases hv⟩
  · obtain ⟨-, ⟨locals, hvals⟩, -⟩ := hleaves
    refine .pure ⟨hhalts, ?_⟩
    rintro v ⟨⟩
    exact ⟨_, hvals⟩
  · trivial

/-- **The machine follows the evaluation of a program**, for fuel that no smaller amount makes
superfluous. -/
theorem evaluate_meets {name : String} (hname : t.find? name = some f) (hparams : f.params = [])
    {n : Nat} (h : ∀ m < n, ∃ out, Meaning.evaluate p name m = .unfinished out) :
    Meets task n initial (Meaning.evaluate p name n) (Finishes task) := by
  rcases n with _ | n
  · exact ⟨0, _, .refl _, rfl, Nat.le_refl 0⟩
  · refine entry_meets ha hlaid hname hparams ?_
    by_cases hone : order.length = 1
    · exact callsMeet_alone ha hlaid hname hparams hone fun m hm => h m (by omega)
    · exact callsMeet_invoke ha hlaid hone n

end Functions

end Stackling.Code
