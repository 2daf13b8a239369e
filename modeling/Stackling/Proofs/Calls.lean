import Mathlib.Data.List.GetD
import Stackling.Proofs.Grammar.Plan
import Stackling.Proofs.Parsing

/-!
# The calls of the parser

The parser holds its tokens with an end of input as the last one, and a position among them. Going
on from the last token leaves it where it is, so a loop that did so would never end. That no loop
does is shown by running the plans of the readers and counting their calls.

Calls are paid for by tokens: every token that is taken pays for eleven calls. A routine has a
`price`, which is what a call of it takes beyond that if it succeeds, and a `fee` for the case that
it fails. `Plan.Within` checks a plan against an allowance for each of the two cases, call by call,
with the prices of the routines that it calls; and that a plan goes on only from a token that it has
looked at and that is no end of input. It is a check of the text of a plan and runs nothing.

If all plans pass it, then everything follows by one induction (`Routine.exec_sound`): the calls
come to an end, because a routine that is called before a token was taken has a smaller fee; their
number is bounded by that of the tokens; and a routine whose price is negative must have taken a
token when it succeeds, for there is nothing else that its own call could have been paid with.
-/

namespace Stackling

open Stackling.Tree

/-- The tokens as the parser holds them. An end of input is added if there is none at the end. -/
def Tree.sealed (ts : List Token) : List Token :=
  if ts.getLast? = some (endOfInput ts) then ts else ts ++ [endOfInput ts]

namespace Grammar

variable {α : Type} {ts : List Token}

/-! ## Running a plan -/

/-- A call of a routine that has returned. -/
structure Run where
  routine : Routine
  /-- the position at which it was called -/
  start : Nat
  /-- the position at which it returned -/
  stop : Nat
  result : Except ParseError routine.Value

/-- What comes of running a plan. -/
structure Outcome (α : Type) where
  result : Except ParseError α
  /-- the position at the end -/
  stop : Nat
  /-- all calls, also those that other calls made -/
  runs : List Run

/-- The token at a position. -/
def seenAt (ts : List Token) (p : Nat) : Token := (sealed ts).getD p (endOfInput ts)

/-- The position after `p`. There is none after the last token. -/
def nextAt (ts : List Token) (p : Nat) : Nat := if p + 1 < (sealed ts).length then p + 1 else p

/-- Runs a plan from a position, with `call` to run the routines that it calls. -/
def Plan.exec (ts : List Token) (call : (c : Routine) → Nat → Option (Outcome c.Value)) :
    Plan α → Nat → Option (Outcome α)
  | .done a, p => some ⟨.ok a, p, []⟩
  | .fail e, p => some ⟨.error e, p, []⟩
  | .look f, p => (f (seenAt ts p)).exec ts call p
  | .advance w, p => w.exec ts call (nextAt ts p)
  | .call c k, p => (call c p).bind fun o =>
    match o.result with
    | .error e => some ⟨.error e, o.stop, o.runs⟩
    | .ok a => ((k a).exec ts call o.stop).map fun o' => { o' with runs := o.runs ++ o'.runs }

/-- Runs a routine from a position. There is no outcome if calls are nested more than `depth`
deep. -/
def Routine.exec (ts : List Token) :
    (depth : Nat) → (c : Routine) → Nat → Option (Outcome c.Value)
  | 0, _, _ => none
  | depth + 1, c, p => (c.plan.exec ts (Routine.exec ts depth) p).map fun o =>
    { o with runs := ⟨c, p, o.stop, o.result⟩ :: o.runs }

/-- Runs a plan from the first token. -/
def Plan.run (w : Plan α) (ts : List Token) (depth : Nat) : Option (Outcome α) :=
  w.exec ts (Routine.exec ts depth) 0

/-! ## Positions -/

theorem length_sealed_pos (ts : List Token) : 0 < (sealed ts).length := by
  unfold sealed
  split
  · next h => exact List.length_pos_iff.mpr (by rintro rfl; cases h)
  · simp

/-- The tokens are sealed with the end of input. -/
theorem getLast?_sealed (ts : List Token) : (sealed ts).getLast? = some (endOfInput ts) := by
  unfold sealed
  split
  · next h => exact h
  · simp

/-- A reader that has the tokens from a position on sees the token at that position. -/
theorem seenAt_eq_current (ts : List Token) (p : Nat) :
    seenAt ts p = current (endOfInput ts) (ts.drop p) := by
  have hcurrent : current (endOfInput ts) (ts.drop p) = ts.getD p (endOfInput ts) := by
    rw [current, List.headD_eq_head?_getD, List.head?_drop, List.getD_eq_getElem?_getD]
  rw [hcurrent, seenAt, sealed]
  split
  · rfl
  · rcases Nat.lt_or_ge p ts.length with hp | hp
    · exact List.getD_append _ _ _ _ hp
    · rw [List.getD_append_right _ _ _ _ hp, List.getD_eq_default _ _ hp]
      cases p - ts.length <;> rfl

/-- The position can be left if there is no end of input at it. -/
theorem nextAt_eq {p : Nat} (hp : p < (sealed ts).length) (h : (seenAt ts p).kind ≠ .eof) :
    nextAt ts p = p + 1 ∧ p + 1 < (sealed ts).length := by
  have hlast : p + 1 ≠ (sealed ts).length := by
    intro heq
    have hend := getLast?_sealed ts
    rw [List.getLast?_eq_getElem?, ← heq, Nat.add_sub_cancel] at hend
    apply h
    rw [seenAt, List.getD_eq_getElem?_getD, hend]
    exact endOfInput_kind ts
  have hlt : p + 1 < (sealed ts).length := by omega
  exact ⟨if_pos hlt, hlt⟩

/-! ## Allowances -/

/-- The routines that may succeed without a token: the rounds of loops that may be the last one, and
what may be missing. -/
def Routine.optional : Routine → Bool
  | .tail _ _ | .comparison _ | .returns | .functions => true
  | _ => false

/-- What a call of a routine takes if it succeeds, beyond the calls that its tokens pay for. -/
@[simp]
def Routine.price : Routine → Int
  | .token _ _ | .typeName | .phrase .atom | .call | .stmt | .function => -10
  | .series _ _ | .stmts => -9
  | .phrase (.chain .product) => -8
  | .phrase (.chain .term) => -6
  | .phrase .relation => -4
  | .phrase (.chain .logical) => -2
  | .element _ => -1
  | .tail _ _ | .comparison _ | .returns | .functions => 1

/-- What it takes if it fails. -/
@[simp]
def Routine.fee : Routine → Int
  | .token _ _ | .typeName | .phrase .atom | .tail _ _ | .comparison _ | .stmt | .returns => 1
  | .phrase (.chain .product) | .call | .stmts | .function => 2
  | .phrase (.chain .term) | .functions => 3
  | .phrase .relation => 4
  | .phrase (.chain .logical) => 5
  | .element _ => 6
  | .series _ _ => 7

/-- Every call costs something. -/
theorem Routine.fee_pos (c : Routine) : 0 < c.fee := by
  cases c with
  | phrase r => rcases r with (_ | _ | _) | _ | _ <;> decide
  | _ => exact Int.natCast_pos.mpr (Nat.succ_pos _)

/-- A routine that takes a token at least gains more by it than its call costs. -/
theorem Routine.price_neg {c : Routine} (h : c.optional = false) : c.price < 0 := by
  cases c with
  | phrase r => rcases r with (_ | _ | _) | _ | _ <;> decide
  | tail | comparison | returns | functions => cases h
  | _ => exact Int.negSucc_lt_zero _

/-- The plan keeps to the allowances: `ok` calls if it succeeds and `err` calls if it fails, with
eleven more for every token. The current token is `cur`, if the plan knows it. -/
@[simp]
def Plan.Within : Plan α → (cur : Option Token) → (ok err : Int) → Prop
  | .done _, _, ok, _ => 0 ≤ ok
  | .fail _, _, _, err => 0 ≤ err
  | .look f, _, ok, err => ∀ t, (f t).Within (some t) ok err
  | .advance w, cur, ok, err => (∃ t ∈ cur, t.kind ≠ .eof) ∧ w.Within none (ok + 11) (err + 11)
  | .call c k, _, ok, err => c.fee ≤ err ∧ ∀ a, (k a).Within none (ok - c.price) (err - c.price)

/-- Taking a token earns ten, with which the rest of the plan may go on. -/
@[simp]
theorem Plan.mark_within {k : Kind} {hk : k ≠ .eof} {w : Plan α} {cur : Option Token}
    {ok err : Int} :
    (Plan.mark k hk w).Within cur ok err ↔ 1 ≤ err ∧ w.Within none (ok + 10) (err + 10) := by
  have : Nonempty (Routine.token k hk).Value := ⟨endOfInput []⟩
  simp [Plan.mark]

/-- The plan of an operand stays within its means, whatever the first token is. -/
theorem Plan.operand_within (t : Token) : (Plan.operand t).Within (some t) (-11) 0 := by
  unfold Plan.operand
  split
  case h_2 hk =>
    split <;> simp [hk]
  all_goals simp [*]

/-- The plan of a statement stays within its means, whatever the first token is. -/
theorem Plan.statement_within (t : Token) : (Plan.statement t).Within (some t) (-11) 0 := by
  unfold Plan.statement
  split <;> simp [*]

/-- The plan of the items of a list stays within its means. -/
theorem Plan.members_within (i : Item) {cur : Option Token} {ok err : Int} (hok : -10 ≤ ok)
    (herr : 6 ≤ err) : (Plan.members i).Within cur ok err := by
  refine ⟨herr, fun v => ⟨?_, fun vs => ?_⟩⟩
  · change 7 ≤ err - -1
    omega
  · change 0 ≤ ok - -1 - -9
    omega

theorem ne_eof_of_binaryOp? {l : Level} {t : Token} {op : BinaryOp}
    (h : binaryOp? l t = some op) : t.kind ≠ .eof := by
  rw [(binaryOp?_eq_some.mp h).1]
  nofun

/-- The plan behind an operator stays within its means. -/
theorem Plan.operator_within {l : Level} {left : Tree.Expr} {more : BinaryOp → Plan Tree.Expr}
    {ok err : Int} (hok : 0 ≤ ok) (hmore : ∀ op, (more op).Within none (ok + 11) (err + 11))
    (t : Token) : (Plan.operator l left more t).Within (some t) ok err := by
  cases hop : binaryOp? l t with
  | none =>
    rw [Plan.operator_of_none hop]
    exact hok
  | some op =>
    rw [Plan.operator_of_some hop]
    exact ⟨⟨t, rfl, ne_eof_of_binaryOp? hop⟩, hmore op⟩

/-- Every plan keeps to the price and the fee of its routine, less the call of the routine. -/
theorem Routine.plan_within (c : Routine) : c.plan.Within none (c.price - 1) (c.fee - 1) := by
  cases c with
  | token k hk =>
    intro t
    dsimp only
    split
    · next h => simpa [h] using hk
    · simp
  | typeName =>
    intro t
    dsimp only
    split
    · next h =>
      have hne : t.kind ≠ .eof := by
        intro heof
        rw [heof] at h
        cases h
      simpa using hne
    · simp
  | phrase r =>
    cases r with
    | chain j => cases j <;> simp [plan, Joint.operand]
    | relation => simp [plan]
    | atom => exact Plan.operand_within
  | tail j left =>
    refine Plan.operator_within (by simp) fun op => ?_
    cases j <;> simp [Joint.operand]
  | comparison left => exact Plan.operator_within (by simp) fun op => by simp
  | call => simp [plan]
  | element i => cases i <;> simp [plan]
  | series i first =>
    intro t
    dsimp only
    split
    · simp
    · split
      · exact Plan.members_within i (by simp) (by simp)
      · exact Plan.mark_within.mpr ⟨by simp, Plan.members_within i (by simp) (by simp)⟩
  | stmt => exact Plan.statement_within
  | stmts =>
    intro t
    dsimp only
    split
    · simp
    · split <;> simp
  | returns =>
    intro t
    dsimp only
    split
    · next h => simp [h]
    · simp
  | function => simp [plan]
  | functions =>
    intro t
    dsimp only
    split <;> simp

/-! ## What a call does -/

/-- A run is what its reader does with the tokens from its start on. It goes forward, stays among
the tokens and takes no end of input. -/
structure Run.Proper (ts : List Token) (r : Run) : Prop where
  reads : r.routine.read (endOfInput ts) (ts.drop r.start) = r.result.map (·, ts.drop r.stop)
  forward : r.start ≤ r.stop
  inside : r.stop < (sealed ts).length
  noEof : ∀ p, r.start ≤ p → p < r.stop → (seenAt ts p).kind ≠ .eof
  /-- a reader that has to read something has moved on when it succeeds -/
  advances : r.routine.optional = false → ∀ a, r.result = .ok a → r.start < r.stop

/-- The allowance that counts. -/
def allowance (ok err : Int) : Except ParseError α → Int
  | .ok _ => ok
  | .error _ => err

/-- Means that are handed on are added. -/
theorem allowance_add (ok err k : Int) (x : Except ParseError α) :
    allowance (ok + k) (err + k) x = allowance ok err x + k := by
  cases x <;> rfl

/-- An outcome of a plan that was run from the position `p`, within its allowances. -/
structure Outcome.Sound (ts : List Token) (p : Nat) (ok err : Int) (o : Outcome α) : Prop where
  forward : p ≤ o.stop
  inside : o.stop < (sealed ts).length
  noEof : ∀ q, p ≤ q → q < o.stop → (seenAt ts q).kind ≠ .eof
  proper : ∀ r ∈ o.runs, r.Proper ts
  calls : o.runs.length ≤ allowance ok err o.result + 11 * (o.stop - p)

namespace Outcome.Sound

variable {p : Nat} {ok err : Int} {o : Outcome α}

/-- Nothing was called and the position is the same. -/
theorem here {x : Except ParseError α} (hp : p < (sealed ts).length) (h : 0 ≤ allowance ok err x) :
    Outcome.Sound ts p ok err ⟨x, p, []⟩ where
  forward := Nat.le_refl p
  inside := hp
  noEof q hq hq' := absurd hq' (Nat.not_lt.mpr hq)
  proper r hr := absurd hr List.not_mem_nil
  calls := by simpa using h

/-- One token was taken before. -/
theorem advance (hp : (seenAt ts p).kind ≠ .eof) (h : o.Sound ts (p + 1) (ok + 11) (err + 11)) :
    o.Sound ts p ok err where
  forward := Nat.le_of_succ_le h.forward
  inside := h.inside
  noEof q hq hq' := by
    rcases Nat.eq_or_lt_of_le hq with rfl | hlt
    · exact hp
    · exact h.noEof q hlt hq'
  proper := h.proper
  calls := by
    have hcalls := h.calls
    rw [allowance_add] at hcalls
    omega

/-- A routine was called before and succeeded. -/
theorem append {β : Type} {price fee : Int} {before : Outcome β} {b : β}
    (hbefore : before.Sound ts p price fee) (hb : before.result = .ok b)
    (h : o.Sound ts before.stop (ok - price) (err - price)) :
    Outcome.Sound ts p ok err ⟨o.result, o.stop, before.runs ++ o.runs⟩ where
  forward := hbefore.forward.trans h.forward
  inside := h.inside
  noEof q hq hq' := by
    rcases Nat.lt_or_ge q before.stop with hlt | hge
    · exact hbefore.noEof q hq hlt
    · exact h.noEof q hge hq'
  proper r hr := by
    rcases List.mem_append.mp hr with hr | hr
    · exact hbefore.proper r hr
    · exact h.proper r hr
  calls := by
    have hcalls := hbefore.calls
    have hcalls' := h.calls
    rw [hb, allowance] at hcalls
    rw [Int.sub_eq_add_neg, Int.sub_eq_add_neg, allowance_add] at hcalls'
    dsimp only
    rw [List.length_append]
    omega

end Outcome.Sound

/-- The induction over a plan. The routines that it calls return if their fees, with what the tokens
that are left could pay for, are no more than `n`. -/
theorem Plan.exec_sound {call : (c : Routine) → Nat → Option (Outcome c.Value)} {n : Int}
    (hcall : ∀ c p, p < (sealed ts).length → c.fee + 11 * ((sealed ts).length - 1 - p) ≤ n →
      ∃ o, call c p = some o ∧ o.runs ≠ [] ∧ o.Sound ts p c.price c.fee ∧
        c.read (endOfInput ts) (ts.drop p) = o.result.map (·, ts.drop o.stop))
    (w : Plan α) {cur : Option Token} {p : Nat} {ok err : Int} (hw : w.Within cur ok err)
    (hcur : ∀ t ∈ cur, seenAt ts p = t) (hp : p < (sealed ts).length)
    (hn : err + 11 * ((sealed ts).length - 1 - p) ≤ n) :
    ∃ o, w.exec ts call p = some o ∧ o.Sound ts p ok err ∧
      w.read (endOfInput ts) (ts.drop p) = o.result.map (·, ts.drop o.stop) := by
  induction w generalizing cur p ok err with
  | done a => exact ⟨_, rfl, .here hp hw, rfl⟩
  | fail e => exact ⟨_, rfl, .here hp hw, rfl⟩
  | look f ih =>
    rw [Plan.read_look, ← seenAt_eq_current]
    exact ih _ (hw _) (by rintro t ⟨⟩; rfl) hp hn
  | advance w ih =>
    obtain ⟨⟨t, ht, hne⟩, hw⟩ := hw
    have htoken : (seenAt ts p).kind ≠ .eof := by rwa [hcur t ht]
    obtain ⟨hnext, hlt⟩ := nextAt_eq hp htoken
    obtain ⟨o, ho, hsound, hread⟩ := ih hw nofun hlt (by omega)
    refine ⟨o, ?_, hsound.advance htoken, ?_⟩
    · rw [Plan.exec, hnext, ho]
    · rw [Plan.read, List.tail_drop, hread]
  | call c k ih =>
    obtain ⟨hfee, hk⟩ := hw
    obtain ⟨o, ho, hruns, hsound, hread⟩ := hcall c p hp (by omega)
    have hcalls := hsound.calls
    have hpos := List.length_pos_iff.mpr hruns
    rw [Plan.read_call, hread]
    cases hresult : o.result with
    | error e =>
      rw [hresult, allowance] at hcalls
      refine ⟨⟨.error e, o.stop, o.runs⟩, ?_, ?_, rfl⟩
      · simp only [Plan.exec, ho, Option.bind_some, hresult]
      · refine ⟨hsound.forward, hsound.inside, hsound.noEof, hsound.proper, ?_⟩
        dsimp only [allowance]
        omega
    | ok a =>
      rw [hresult, allowance] at hcalls
      obtain ⟨o', ho', hsound', hread'⟩ := ih a (hk a) nofun hsound.inside (by omega)
      refine ⟨_, ?_, hsound.append hresult hsound', hread'⟩
      simp only [Plan.exec, ho, Option.bind_some, hresult, ho', Option.map_some]

/-- **A routine returns.** The depth that suffices is what its calls may cost. -/
theorem Routine.exec_sound (depth : Nat) : ∀ (c : Routine) (p : Nat), p < (sealed ts).length →
    c.fee + 11 * ((sealed ts).length - 1 - p : Int) ≤ depth →
      ∃ o, c.exec ts depth p = some o ∧ o.runs ≠ [] ∧ o.Sound ts p c.price c.fee ∧
        c.read (endOfInput ts) (ts.drop p) = o.result.map (·, ts.drop o.stop) := by
  induction depth with
  | zero =>
    intro c p hp hdepth
    have hfee := c.fee_pos
    omega
  | succ depth ih =>
    intro c p hp hdepth
    obtain ⟨o, ho, hsound, hread⟩ := Plan.exec_sound ih c.plan c.plan_within nofun hp (by omega)
    rw [c.plan_read (endOfInput_kind ts)] at hread
    have hcalls := hsound.calls
    rw [Int.sub_eq_add_neg, Int.sub_eq_add_neg, allowance_add] at hcalls
    -- nothing but a token pays for the call itself if the price is negative
    have hproper : Run.Proper ts ⟨c, p, o.stop, o.result⟩ := by
      refine ⟨hread, hsound.forward, hsound.inside, hsound.noEof, fun hopt a ha => ?_⟩
      have hprice : c.price < 0 := Routine.price_neg hopt
      dsimp only at ha ⊢
      rw [ha, allowance] at hcalls
      omega
    refine ⟨⟨o.result, o.stop, ⟨c, p, o.stop, o.result⟩ :: o.runs⟩, ?_, List.cons_ne_nil _ _, ?_,
      hread⟩
    · rw [Routine.exec, ho, Option.map_some]
    · refine ⟨hsound.forward, hsound.inside, hsound.noEof, ?_, ?_⟩
      · rintro r (_ | ⟨_, hr⟩)
        · exact hproper
        · exact hsound.proper r hr
      · dsimp only
        rw [List.length_cons]
        omega

/-! ## The parsers -/

/-- Parsing a program. -/
def Plan.program : Plan Tree.Program :=
  .look fun t => .call .functions fun fs => .done ⟨t, fs⟩

/-- Parsing an expression that is all there is. -/
def Plan.expression : Plan Tree.Expr :=
  .call (.phrase .expr) fun e => .look fun t =>
    if t.kind = .eof then .done e else .fail (.unexpected (.kind .eof) t)

/-- The plan of a program reads what the parser reads. -/
theorem Plan.program_read (ts : List Token) :
    (Plan.program.read (endOfInput ts) ts).map Prod.fst = Tree.Program.ofTokens ts := by
  have hprogram := Script.map_fst_program (endOfInput ts) ts
  simp only [Tree.Program.ofTokens, ← hprogram]
  change (Script.program (endOfInput ts) ts >>= _).map Prod.fst = _
  cases Script.program (endOfInput ts) ts <;> rfl

/-- The plan of an expression reads what the parser reads. -/
theorem Plan.expression_read (ts : List Token) :
    (Plan.expression.read (endOfInput ts) ts).map Prod.fst = Tree.Expr.ofTokens ts := by
  rw [Script.ofTokens_expr]
  congr 1
  refine bind_congr fun r => ?_
  simp only [Plan.read_look, Script.finish]
  split <;> rfl

theorem Plan.program_within : Plan.program.Within none 1 5 :=
  fun _ => ⟨by decide, fun _ => by simp⟩

theorem Plan.expression_within : Plan.expression.Within none (-2) 5 := by
  refine ⟨by decide, fun e t => ?_⟩
  dsimp only
  split <;> simp

/-- An outcome of parsing `ts`. -/
structure Outcome.Orderly (ts : List Token) (o : Outcome α) : Prop where
  calls : o.runs.length ≤ 11 * (sealed ts).length
  inside : o.stop < (sealed ts).length
  proper : ∀ r ∈ o.runs, r.Proper ts

/-- A plan that makes no more than five calls without a token comes to an end. -/
theorem Plan.exists_run {w : Plan α} {ok : Int} (hok : ok ≤ 5) (hw : w.Within none ok 5)
    (ts : List Token) (spare : Nat) :
    ∃ o, w.run ts (11 * (sealed ts).length + spare) = some o ∧
      o.result = (w.read (endOfInput ts) ts).map Prod.fst ∧ o.Orderly ts := by
  have hpos := length_sealed_pos ts
  obtain ⟨o, ho, hsound, hread⟩ :=
    Plan.exec_sound (Routine.exec_sound (11 * (sealed ts).length + spare)) w hw nofun hpos
      (by omega)
  refine ⟨o, ho, ?_, ?_, hsound.inside, hsound.proper⟩
  · rw [List.drop_zero] at hread
    rw [hread]
    cases o.result <;> rfl
  · have hcalls := hsound.calls
    have hallowed : allowance ok 5 o.result ≤ 5 := by
      cases o.result with
      | ok a => exact hok
      | error e => exact le_refl _
    have hinside := hsound.inside
    omega

end Grammar

/-- **The parser comes to an end and stays within its tokens.** The tokens are any tokens. There is
an end of input at the last position. The parsers of programs and of expressions return, after no
more calls than eleven for each position, and never leave the positions. Every call that was made
on the way, of whatever reader, did what that reader does with the tokens from there on. It went on
only over tokens that are no end of input, and if the reader has to read something and succeeded, it
went on by one token at least. -/
theorem ofTokens_returns (ts : List Token) (spare : Nat) :
    (∃ t, (sealed ts).getLast? = some t ∧ t.kind = .eof) ∧
    (∃ o, Grammar.Plan.program.run ts (11 * (sealed ts).length + spare) = some o ∧
      o.result = Tree.Program.ofTokens ts ∧ o.Orderly ts) ∧
    ∃ o, Grammar.Plan.expression.run ts (11 * (sealed ts).length + spare) = some o ∧
      o.result = Tree.Expr.ofTokens ts ∧ o.Orderly ts := by
  refine ⟨⟨_, Grammar.getLast?_sealed ts, endOfInput_kind ts⟩, ?_, ?_⟩
  · rw [← Grammar.Plan.program_read]
    exact Grammar.Plan.exists_run (by decide) Grammar.Plan.program_within ts spare
  · rw [← Grammar.Plan.expression_read]
    exact Grammar.Plan.exists_run (by decide) Grammar.Plan.expression_within ts spare

end Stackling
