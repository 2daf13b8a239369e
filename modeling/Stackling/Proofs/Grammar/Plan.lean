import Stackling.Proofs.Grammar.Script

/-!
# The readers step by step

The readers are functions that call one another, and of a function only its values can be seen. Here
each reader has a name, a `Routine`, and a `Plan`, which is what it does from one call to the next:
it looks at the current token, goes on to the next one, calls another routine, and ends with a value
or with an error. A plan does not recurse. It names the routines that it calls, and what comes after
a call waits for the value.

What a plan reads is settled by what the readers that it calls read, and so the plan of a routine
can be compared with the reader that the routine names: they read the same (`Routine.plan_read`).

Loops are routines of their own, since a round of a loop is a call: the rest of a chain, of a list,
of a block and of a program.
-/

namespace Stackling.Grammar

open Stackling.Tree

/-! ## Programs that leave tokens -/

/-- Takes functions up to the first end of input, and leaves it there. -/
def Script.program (eof : Token) (ts : List Token) :
    Except ParseError (List Tree.Function × List Token) := do
  if (current eof ts).kind = .eof then return ([], ts)
  else
    let f ← readFunction eof ts
    have := f.lt
    let more ← Script.program eof f.rest
    return (f.value :: more.1, more.2)
termination_by ts.length

/-- The script of a program reads what the parser reads. -/
theorem Script.map_fst_program (eof : Token) (ts : List Token) :
    (Script.program eof ts).map Prod.fst = readFunctions eof ts := by
  fun_induction readFunctions eof ts with
  | case1 ts next hnext =>
    rw [Script.program, if_pos hnext]
    rfl
  | case2 ts next hnext ih =>
    rw [Script.program, if_neg hnext]
    cases hf : readFunction eof ts with
    | error e => rfl
    | ok f =>
      have hmore := ih f
      simp only [bind, Except.bind, ← hmore]
      cases Script.program eof f.rest <;> rfl

/-! ## Routines and plans -/

/-- The readers by name. The end of input is no token that is ever asked for. -/
inductive Routine where
  | token (k : Kind) (hk : k ≠ .eof)
  | typeName
  | phrase (r : Rank)
  | tail (j : Joint) (left : Tree.Expr)
  | comparison (left : Tree.Expr)
  | call
  | element (i : Item)
  | series (i : Item) (first : Bool)
  | stmt
  | stmts
  | returns
  | function
  | functions

namespace Routine

/-- What a routine reads. -/
abbrev Value : Routine → Type
  | token _ _ => Token
  | typeName => TypeName
  | phrase _ => Tree.Expr
  | tail _ _ => Tree.Expr
  | comparison _ => Tree.Expr
  | call => String × List Tree.Expr
  | element i => i.Value
  | series i _ => List i.Value
  | stmt => Tree.Stmt
  | stmts => List Tree.Stmt
  | returns => Option TypeName
  | function => Tree.Function
  | functions => List Tree.Function

/-- What the reader that a routine names does. -/
def read : (c : Routine) → (eof : Token) → List Token → Except ParseError (c.Value × List Token)
  | token k _, eof, ts => bare (expect k eof ts)
  | typeName, eof, ts => bare (readType eof ts)
  | phrase r, eof, ts => bare (readPhrase eof r ts)
  | tail j left, eof, ts => bare (readTail eof j left ts)
  | comparison left, eof, ts => Script.comparison left eof ts
  | call, eof, ts => bare (readCall eof ts)
  | element i, eof, ts => bare (readElement eof i ts)
  | series i first, eof, ts => bare (readSeries eof i first ts)
  | stmt, eof, ts => bare (readStmt eof ts)
  | stmts, eof, ts => bare (readStmts eof ts)
  | returns, eof, ts => bare (readReturns eof ts)
  | function, eof, ts => bare (readFunction eof ts)
  | functions, eof, ts => Script.program eof ts

end Routine

/-- What a reader does. -/
inductive Plan (α : Type) where
  | done (a : α)
  | fail (e : ParseError)
  /-- looks at the current token -/
  | look (f : Token → Plan α)
  /-- goes on to the next token -/
  | advance (p : Plan α)
  /-- calls a routine and goes on with what that reads -/
  | call (c : Routine) (k : c.Value → Plan α)

namespace Plan

variable {α : Type}

/-- What a plan does if the readers that it calls do what they do. -/
def read (eof : Token) : Plan α → List Token → Except ParseError (α × List Token)
  | done a, ts => .ok (a, ts)
  | fail e, _ => .error e
  | look f, ts => (f (current eof ts)).read eof ts
  | advance p, ts => p.read eof ts.tail
  | call c k, ts => c.read eof ts >>= fun r => (k r.1).read eof r.2

/-- Calls for a token of the kind `k`, and does not need it any more. -/
def mark (k : Kind) (hk : k ≠ .eof) (p : Plan α) : Plan α := .call (.token k hk) fun _ => p

/-- What to do with `t` as the first token of an operand. -/
def operand (t : Token) : Plan Tree.Expr :=
  match t.kind with
  | .operator .arrow => .advance <| .call .call fun c => .done (.call t c.1 c.2)
  | .number =>
    match int32? t.lexeme with
    | some v => .advance <| .done (.int t v)
    | none => .fail (.outOfRange t)
  | .string => .advance <| .done (.str t)
  | .ident => .advance <| .done (if t.lexeme = "true" then .bool t true
      else if t.lexeme = "false" then .bool t false else .var t)
  | .delimiter .lparen => .advance <| .call (.phrase .expr) fun e =>
      .mark (.delimiter .rparen) nofun <| .done e
  | _ => .fail (.unexpected .expression t)

/-- What to do with `t` as the first token of a statement. -/
def statement (t : Token) : Plan Tree.Stmt :=
  match t.kind with
  | .keyword .ret => .advance <| .call (.phrase .expr) fun value =>
      .mark (.delimiter .semicolon) nofun <| .done (.ret t value)
  | .keyword .cond => .advance <| .call (.phrase .expr) fun test =>
      .call (.token (.delimiter .lbrace) nofun) fun brace =>
      .call .stmts fun body => .done (.cond t test brace body)
  | .ident => .advance <| .mark (.operator .assign) nofun <| .call (.phrase .expr) fun value =>
      .mark (.delimiter .semicolon) nofun <| .done (.assign t value)
  | .keyword .print => .advance <| .mark (.delimiter .lparen) nofun <|
      .call (.series .arg true) fun args =>
      .mark (.delimiter .semicolon) nofun <| .done (.print t args)
  | .keyword .var => .advance <| .call (.element .param) fun p =>
      .mark (.operator .assign) nofun <| .call (.phrase .expr) fun value =>
      .mark (.delimiter .semicolon) nofun <| .done (.decl t p value)
  | .operator .arrow => .advance <| .call .call fun c =>
      .mark (.delimiter .semicolon) nofun <| .done (.call t c.1 c.2)
  | _ => .fail (.unexpected .statement t)

/-- What to do with `t` behind the operand `left`: an operator of the level is taken and `more`
comes next, and in front of any other token `left` is all there is. -/
def operator (l : Level) (left : Tree.Expr) (more : BinaryOp → Plan Tree.Expr) (t : Token) :
    Plan Tree.Expr :=
  match binaryOp? l t with
  | none => .done left
  | some op => .advance (more op)

/-- Reads a member of a list and the rest of the list behind it. -/
def members (i : Item) : Plan (List i.Value) :=
  .call (.element i) fun v => .call (.series i false) fun vs => .done (v :: vs)

end Plan

theorem ident_ne_eof : Kind.ident ≠ .eof := nofun

/-- What a routine does. -/
def Routine.plan : (c : Routine) → Plan c.Value
  | token k _ => .look fun t =>
      if t.kind = k then .advance (.done t) else .fail (.unexpected (.kind k) t)
  | typeName => .look fun t =>
      if t.kind.isType = true then .advance (.done ⟨t⟩) else .fail (.unexpected .type t)
  | phrase (.chain j) => .call (.phrase j.operand) fun left => .call (.tail j left) .done
  | phrase .relation => .call (.phrase .term) fun left => .call (.comparison left) .done
  | phrase .atom => .look .operand
  | tail j left => .look <| .operator j.level left fun op => .call (.phrase j.operand) fun right =>
      .call (.tail j (.binary op left right)) .done
  | comparison left => .look <| .operator .relational left fun op =>
      .call (.phrase .term) fun right => .done (.binary op left right)
  | call => .call (.token .ident ident_ne_eof) fun name => .mark (.delimiter .lparen) nofun <|
      .call (.series .arg true) fun args => .done (name.lexeme, args)
  | element .arg => .call (.phrase .expr) .done
  | element .param => .call (.token .ident ident_ne_eof) fun name =>
      .mark (.delimiter .colon) nofun <| .call .typeName fun type => .done ⟨name, type⟩
  | series i first => .look fun t =>
      if t.kind = .delimiter .rparen then .mark (.delimiter .rparen) nofun <| .done []
      else if first = true then .members i
      else .mark (.delimiter .comma) nofun (.members i)
  | stmt => .look .statement
  | stmts => .look fun t =>
      if t.kind = .delimiter .rbrace then .mark (.delimiter .rbrace) nofun <| .done []
      else if t.kind = .eof then .fail (.unexpected (.kind (.delimiter .rbrace)) t)
      else .call .stmt fun s => .call .stmts fun ss => .done (s :: ss)
  | returns => .look fun t =>
      if t.kind = .operator .arrow then .advance <| .call .typeName fun type => .done (some type)
      else .done none
  | function => .call (.token (.keyword .function) nofun) fun start =>
      .call (.token .ident ident_ne_eof) fun name => .mark (.delimiter .lparen) nofun <|
      .call (.series .param true) fun params => .call .returns fun type =>
      .call (.token (.delimiter .lbrace) nofun) fun brace => .call .stmts fun body =>
      .done ⟨start, name.lexeme, params, type, brace, body⟩
  | functions => .look fun t =>
      if t.kind = .eof then .done []
      else .call .function fun f => .call .functions fun fs => .done (f :: fs)

/-! ## Plans do what the readers do -/

variable {eof : Token} {ts : List Token}

/-- The end of input is no operator either. -/
theorem NoOp.current {l : Level} (h : NoOp l ts) (heof : eof.kind = .eof) :
    binaryOp? l (Tree.current eof ts) = none := by
  rcases ts with _ | ⟨t, ts⟩
  · simp [Tree.current, binaryOp?, heof]
  · exact h t rfl

namespace Plan

variable {α : Type}

theorem read_look_nil (f : Token → Plan α) : (look f).read eof [] = (f eof).read eof [] := rfl

theorem read_look_cons (f : Token → Plan α) (t : Token) :
    (look f).read eof (t :: ts) = (f t).read eof (t :: ts) := rfl

/-- Looking at a token takes none. -/
theorem read_look (f : Token → Plan α) :
    (look f).read eof ts = (f (current eof ts)).read eof ts := rfl

/-- Calling a routine is reading what it reads, and going on with the plan behind it. -/
theorem read_call (c : Routine) (k : c.Value → Plan α) :
    (call c k).read eof ts = c.read eof ts >>= fun r => (k r.1).read eof r.2 := rfl

theorem read_call_done (c : Routine) : (call c done).read eof ts = c.read eof ts := by
  rw [read_call]
  cases c.read eof ts <;> rfl

/-- Without an operator the plan is done. -/
theorem operator_of_none {l : Level} {left : Tree.Expr} {more : BinaryOp → Plan Tree.Expr}
    {t : Token} (h : binaryOp? l t = none) : Plan.operator l left more t = .done left := by
  rw [Plan.operator, h]

/-- An operator is taken, and the plan goes on behind it. -/
theorem operator_of_some {l : Level} {left : Tree.Expr} {more : BinaryOp → Plan Tree.Expr}
    {t : Token} {op : BinaryOp} (h : binaryOp? l t = some op) :
    Plan.operator l left more t = .advance (more op) := by
  rw [Plan.operator, h]

/-- The plan of an operand reads what its script reads. -/
theorem operand_read (t : Token) (ts : List Token) :
    (Plan.operand t).read eof (t :: ts) =
      Script.lead .expression Script.operand eof (t :: ts) := by
  unfold Plan.operand
  split
  case h_2 hk =>
    simp only [Script.lead, Script.operand, hk]
    cases int32? t.lexeme <;> rfl
  case h_6 =>
    have hnone : Script.operand t = none := by
      unfold Script.operand
      split <;> first | contradiction | rfl
    simp only [Script.lead, hnone]
    rfl
  all_goals
    next hk =>
    simp only [Script.lead, Script.operand, hk]
    rfl

/-- The plan of a statement reads what its script reads. -/
theorem statement_read (t : Token) (ts : List Token) :
    (Plan.statement t).read eof (t :: ts) =
      Script.lead .statement Script.statement eof (t :: ts) := by
  unfold Plan.statement
  split
  case h_7 =>
    have hnone : Script.statement t = none := by
      unfold Script.statement
      split <;> first | contradiction | rfl
    simp only [Script.lead, hnone]
    rfl
  all_goals
    next hk =>
    simp only [Script.lead, Script.statement, hk]
    rfl

end Plan

namespace Routine

/-- **The plan of a routine is what its reader does.** -/
theorem plan_read (c : Routine) (heof : eof.kind = .eof) : c.plan.read eof ts = c.read eof ts := by
  cases c with
  | token k hk =>
    rcases ts with _ | ⟨t, ts⟩
    · have hne : eof.kind ≠ k := heof ▸ hk.symm
      rw [plan, Plan.read_look_nil, if_neg hne]
      rfl
    · rw [plan, Plan.read_look_cons, read, expect]
      split <;> rfl
  | typeName =>
    rcases ts with _ | ⟨t, ts⟩
    · have hne : ¬eof.kind.isType = true := by simp [heof, Kind.isType]
      rw [plan, Plan.read_look_nil, if_neg hne]
      rfl
    · rw [plan, Plan.read_look_cons, read, readType]
      split <;> rfl
  | phrase r =>
    cases r with
    | chain j =>
      refine Eq.trans ?_ (congrFun₂ (Script.chain_eq j).symm eof ts)
      exact bind_congr fun r => Plan.read_call_done (tail j r.1)
    | relation =>
      refine Eq.trans ?_ (congrFun₂ Script.relation_eq.symm eof ts)
      exact bind_congr fun r => Plan.read_call_done (comparison r.1)
    | atom =>
      change _ = Script.phrase .atom eof ts
      rw [Script.atom_eq]
      rcases ts with _ | ⟨t, ts⟩
      · rw [plan, Plan.read_look_nil, Plan.operand]
        simp only [heof]
        rfl
      · exact Plan.operand_read t ts
  | tail j left =>
    change _ = Script.tail j left eof ts
    rcases noOp_or j.level ts with hno | ⟨t, more, op, rfl, hop⟩
    · rw [Script.tail_of_noOp hno, plan, Plan.read_look, Plan.operator_of_none (hno.current heof)]
      rfl
    · rw [Script.tail_of_op hop, plan, Plan.read_look_cons, Plan.operator_of_some hop]
      exact bind_congr fun r => Plan.read_call_done (tail j (.binary op left r.1))
  | comparison left =>
    change _ = Script.comparison left eof ts
    rcases noOp_or .relational ts with hno | ⟨t, more, op, rfl, hop⟩
    · rw [Script.comparison_of_noOp hno, plan, Plan.read_look,
        Plan.operator_of_none (hno.current heof)]
      rfl
    · rw [Script.comparison_of_op hop, plan, Plan.read_look_cons, Plan.operator_of_some hop]
      rfl
  | call =>
    change _ = Script.call eof ts
    rw [Script.call_eq]
    rfl
  | element i =>
    cases i with
    | arg => exact Plan.read_call_done _
    | param =>
      change _ = Script.param eof ts
      rw [Script.param_eq]
      rfl
  | series i first =>
    change _ = Script.series i first eof ts
    rw [plan, Plan.read_look]
    by_cases hc : (current eof ts).kind = .delimiter .rparen
    · rw [Script.series_close hc, if_pos hc]
      rfl
    cases first with
    | true =>
      rw [Script.series_first hc, if_neg hc, if_pos rfl]
      rfl
    | false =>
      rw [Script.series_next hc, if_neg hc, if_neg Bool.false_ne_true]
      rfl
  | stmt =>
    change _ = Script.stmt eof ts
    rw [Script.stmt_eq]
    rcases ts with _ | ⟨t, ts⟩
    · rw [plan, Plan.read_look_nil, Plan.statement]
      simp only [heof]
      rfl
    · exact Plan.statement_read t ts
  | stmts =>
    change _ = Script.stmts eof ts
    rw [plan, Plan.read_look]
    by_cases hb : (current eof ts).kind = .delimiter .rbrace
    · rw [Script.stmts_close hb, if_pos hb]
      rfl
    by_cases he : (current eof ts).kind = .eof
    · rw [Script.stmts_eof he, if_neg hb, if_pos he]
      rfl
    · rw [Script.stmts_cons hb he, if_neg hb, if_neg he]
      rfl
  | returns =>
    change _ = Script.returns eof ts
    rcases ts with _ | ⟨t, ts⟩
    · have hne : eof.kind ≠ .operator .arrow := by simp [heof]
      rw [plan, Plan.read_look_nil, if_neg hne]
      rfl
    rw [plan, Plan.read_look_cons]
    by_cases ha : t.kind = .operator .arrow
    · rw [Script.returns_cons ha, if_pos ha]
      rfl
    · rw [Script.returns_none (by simpa using ha), if_neg ha]
      rfl
  | function =>
    change _ = Script.function eof ts
    rw [Script.function_eq]
    rfl
  | functions =>
    change _ = Script.program eof ts
    rw [plan, Plan.read_look, Script.program]
    split
    · rfl
    · change (bare (readFunction eof ts) >>= _) = _
      cases readFunction eof ts <;> rfl

end Routine

end Stackling.Grammar
