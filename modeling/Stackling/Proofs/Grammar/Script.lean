import Stackling.Proofs.Grammar.Reading

/-!
# The readers as scripts

A reader carries a bound along for its termination. Without the bound readers form a monad, and each
of them is a short script: a few readers in sequence, after a look at the next token. What is proved
of scripts in general can then be used for all readers.

The lemmas on what is read say when a reader succeeds; the equations here say what it does in every
case. Where a reader looks at the next token first, there is an equation for each thing that it may
do then.
-/

namespace Stackling.Grammar

open Stackling.Tree

/-! ## Readers without bounds -/

/-- A reader: given the end of input and the tokens that are left, it gives a value and leaves
tokens. -/
def Script (α : Type) := Token → List Token → Except ParseError (α × List Token)

instance : Monad Script where
  pure a := fun _ ts => .ok (a, ts)
  bind m f := fun eof ts => m eof ts >>= fun r => f r.1 eof r.2

variable {α β : Type}

theorem Script.bind_of_ok {m : Script α} {f : α → Script β} {eof : Token} {ts rest : List Token}
    {a : α} (h : m eof ts = .ok (a, rest)) : (m >>= f) eof ts = f a eof rest := by
  change (m eof ts >>= fun r => f r.1 eof r.2) = _
  rw [h]
  rfl

theorem Script.bind_of_error {m : Script α} {f : α → Script β} {eof : Token} {ts : List Token}
    {e : ParseError} (h : m eof ts = .error e) : (m >>= f) eof ts = .error e := by
  change (m eof ts >>= fun r => f r.1 eof r.2) = _
  rw [h]
  rfl

/-- The result of a reading, without its bound. -/
def bare {n : Nat} (r : Reading α n) : Except ParseError (α × List Token) :=
  r.map fun p => (p.value, p.rest)

/-- A reader that starts with another one is that one in sequence with what it does next. -/
theorem bare_bind {m n : Nat} {r : Reading α m} {f : Parsed α m → Reading β n} {s : Script α}
    {g : α → Script β} {eof : Token} {ts : List Token} (hr : bare r = s eof ts)
    (hf : ∀ p, bare (f p) = g p.value eof p.rest) : bare (r >>= f) = (s >>= g) eof ts := by
  change _ = s eof ts >>= fun q => g q.1 eof q.2
  rw [← hr]
  cases r with
  | error e => rfl
  | ok p => exact hf p

/-- A larger bound makes no difference. -/
theorem bare_relax {m n : Nat} {r : Reading α m} (h : m ≤ n) :
    bare (r >>= fun p => pure (p.relax h)) = bare r := by
  cases r <;> rfl

/-- The reader that does, after the next token, what `f` says for that token. If there is no next
token, or `f` has nothing to say, it complains about not finding `x`. -/
def Script.lead (x : Expected) (f : Token → Option (Script α)) : Script α := fun eof ts =>
  match ts with
  | [] => fail x eof []
  | t :: rest =>
    match f t with
    | some s => s eof rest
    | none => fail x eof (t :: rest)

/-- The reader that takes a token of a kind. -/
def token (k : Kind) : Script Token := fun eof ts => bare (expect k eof ts)

/-- The reader that takes a type name. -/
def typeName : Script TypeName := fun eof ts => bare (readType eof ts)

/-- Taking a token is looking at it and going on if it is of the right kind. -/
theorem token_eq (k : Kind) :
    token k = .lead (.kind k) fun t => if t.kind = k then some (pure t) else none := by
  funext eof ts
  rcases ts with _ | ⟨t, rest⟩
  · rfl
  · simp only [token, expect, Script.lead]
    split <;> rfl

theorem typeName_eq :
    typeName = .lead .type fun t => if t.kind.isType = true then some (pure ⟨t⟩) else none := by
  funext eof ts
  rcases ts with _ | ⟨t, rest⟩
  · rfl
  · simp only [typeName, readType, Script.lead]
    split <;> rfl

/-! ## The readers of the parser -/

namespace Script

def phrase (r : Rank) : Script Tree.Expr := fun eof ts => bare (readPhrase eof r ts)

def tail (j : Joint) (left : Tree.Expr) : Script Tree.Expr :=
  fun eof ts => bare (readTail eof j left ts)

def call : Script (String × List Tree.Expr) := fun eof ts => bare (readCall eof ts)

def element (i : Item) : Script i.Value := fun eof ts => bare (readElement eof i ts)

def series (i : Item) (first : Bool) : Script (List i.Value) :=
  fun eof ts => bare (readSeries eof i first ts)

def param : Script Tree.Param := fun eof ts => bare (readParam eof ts)

def stmt : Script Tree.Stmt := fun eof ts => bare (readStmt eof ts)

def stmts : Script (List Tree.Stmt) := fun eof ts => bare (readStmts eof ts)

def returns : Script (Option TypeName) := fun eof ts => bare (readReturns eof ts)

def function : Script Tree.Function := fun eof ts => bare (readFunction eof ts)

/-- The reader of programs. It leaves nothing. -/
def functions : Script (List Tree.Function) := fun eof ts => (readFunctions eof ts).map (·, [])

/-- The reader that takes nothing and is content at the end of input only. -/
def finish (e : Tree.Expr) : Script Tree.Expr := fun eof ts =>
  if (current eof ts).kind = .eof then .ok (e, ts) else fail (.kind .eof) eof ts

/-- What may follow the first term of a relation. -/
def comparison (left : Tree.Expr) : Script Tree.Expr := fun eof ts =>
  match ts with
  | [] => .ok (left, [])
  | t :: rest =>
    match binaryOp? .relational t with
    | none => .ok (left, t :: rest)
    | some op => (do return .binary op left (← phrase .term) : Script Tree.Expr) eof rest

/-- A chain is an operand with a tail. -/
theorem chain_eq (j : Joint) : phrase (.chain j) = phrase j.operand >>= tail j := by
  funext eof ts
  cases j with
  | logical =>
    change bare (readExpr eof ts) = _
    rw [readExpr]
    exact bare_bind rfl fun left => bare_relax _
  | term =>
    change bare (readTerm eof ts) = _
    rw [readTerm]
    exact bare_bind rfl fun left => bare_relax _
  | product =>
    change bare (readProduct eof ts) = _
    rw [readProduct]
    exact bare_bind rfl fun left => bare_relax _

/-- A relation is a term and at most one comparison. -/
theorem relation_eq : phrase .relation = phrase .term >>= comparison := by
  funext eof ts
  change bare (readRelation eof ts) = _
  rw [readRelation]
  refine bare_bind rfl ?_
  rintro ⟨left, _ | ⟨t, rest⟩, hlt⟩
  · rfl
  · simp only [comparison]
    rcases binaryOp? .relational t with _ | op
    · rfl
    · exact bare_bind rfl fun right => rfl

/-- Without an operator there is nothing to compare with. -/
theorem comparison_of_noOp {left : Tree.Expr} {eof : Token} {ts : List Token}
    (h : NoOp .relational ts) : comparison left eof ts = .ok (left, ts) := by
  rcases ts with _ | ⟨t, ts⟩
  · rfl
  · simp only [comparison, h t rfl]

/-- Behind a comparison is one more term. -/
theorem comparison_of_op {left : Tree.Expr} {t : Token} {op : BinaryOp}
    (h : binaryOp? .relational t = some op) (eof : Token) (ts : List Token) :
    comparison left eof (t :: ts) =
      (phrase .term >>= fun right => pure (.binary op left right)) eof ts := by
  simp only [comparison, h]

/-- Without an operator the tail is over. -/
theorem tail_of_noOp {j : Joint} {left : Tree.Expr} {eof : Token} {ts : List Token}
    (h : NoOp j.level ts) : tail j left eof ts = .ok (left, ts) := by
  rcases ts with _ | ⟨t, ts⟩
  · cases j <;> simp only [tail, readTail, readLogicalTail, readTermTail, readProductTail] <;> rfl
  · have ht := h t rfl
    cases j <;> simp only [Joint.level] at ht <;>
      simp only [tail, readTail, readLogicalTail, readTermTail, readProductTail, ht] <;> rfl

/-- Behind an operator is one more operand, and then the tail goes on with what has been read as
left operand. -/
theorem tail_of_op {j : Joint} {left : Tree.Expr} {t : Token} {op : BinaryOp}
    (h : binaryOp? j.level t = some op) (eof : Token) (ts : List Token) :
    tail j left eof (t :: ts) =
      (phrase j.operand >>= fun right => tail j (.binary op left right)) eof ts := by
  cases j <;> simp only [Joint.level] at h <;>
    simp only [tail, readTail, readLogicalTail, readTermTail, readProductTail, h] <;>
    exact bare_bind rfl fun right => bare_relax _

/-- What is left to read of an operand after its first token, if that can be one. -/
def operand (t : Token) : Option (Script Tree.Expr) :=
  match t.kind with
  | .operator .arrow => some (call >>= fun c => pure (.call t c.1 c.2))
  | .number =>
    match int32? t.lexeme with
    | some v => some (pure (.int t v))
    | none => some fun _ _ => .error (.outOfRange t)
  | .string => some (pure (.str t))
  | .ident => some (pure (if t.lexeme = "true" then .bool t true
      else if t.lexeme = "false" then .bool t false else .var t))
  | .delimiter .lparen => some do
    let e ← phrase .expr
    let _ ← token (.delimiter .rparen)
    return e
  | _ => none

/-- An operand is told by its first token. -/
theorem atom_eq : phrase .atom = .lead .expression operand := by
  funext eof ts
  rcases ts with _ | ⟨t, ts⟩
  · simp only [phrase, readPhrase, readAtom]
    rfl
  simp only [phrase, readPhrase, readAtom, lead]
  split
  · next hk =>
    simp only [operand, hk]
    exact bare_bind rfl fun c => rfl
  · next hk =>
    simp only [operand, hk]
    cases int32? t.lexeme <;> rfl
  · next hk =>
    simp only [operand, hk]
    rfl
  · next hk =>
    simp only [operand, hk]
    rfl
  · next hk =>
    simp only [operand, hk]
    exact bare_bind rfl fun e => bare_bind rfl fun close => rfl
  · have hnone : operand t = none := by
      unfold operand
      split <;> first | contradiction | rfl
    rw [hnone]
    rfl

/-- Behind the arrow a call is a name and a list of arguments. -/
theorem call_eq : call = (do
    let name ← token .ident
    let _ ← token (.delimiter .lparen)
    let args ← series .arg true
    return (name.lexeme, args)) := by
  funext eof ts
  simp only [call, readCall]
  exact bare_bind rfl fun name => bare_bind rfl fun lparen => bare_bind rfl fun args => rfl

theorem param_eq : param = (do
    let name ← token .ident
    let _ ← token (.delimiter .colon)
    let type ← typeName
    return ⟨name, type⟩) := by
  funext eof ts
  simp only [param, readParam]
  exact bare_bind rfl fun name => bare_bind rfl fun colon => bare_bind rfl fun type => rfl

section Series

variable {i : Item} {first : Bool} {eof : Token} {ts : List Token}

/-- A list is over at a closing parenthesis. -/
theorem series_close (h : (current eof ts).kind = .delimiter .rparen) :
    series i first eof ts = (token (.delimiter .rparen) >>= fun _ => pure []) eof ts := by
  rw [series, readSeries_eq, if_pos h]
  exact bare_bind rfl fun close => rfl

/-- The first item comes without a comma. -/
theorem series_first (h : (current eof ts).kind ≠ .delimiter .rparen) :
    series i true eof ts =
      (element i >>= fun v => series i false >>= fun vs => pure (v :: vs)) eof ts := by
  rw [series, readSeries_eq, if_neg h, if_pos rfl]
  exact bare_bind rfl fun v => bare_bind rfl fun vs => rfl

/-- Every other item comes behind a comma. -/
theorem series_next (h : (current eof ts).kind ≠ .delimiter .rparen) :
    series i false eof ts = (token (.delimiter .comma) >>= fun _ =>
      element i >>= fun v => series i false >>= fun vs => pure (v :: vs)) eof ts := by
  rw [series, readSeries_eq, if_neg h, if_neg Bool.false_ne_true]
  exact bare_bind rfl fun comma => bare_bind rfl fun v => bare_bind rfl fun vs => rfl

end Series

/-- What is left to read of a statement after its first token, if that can be one. -/
def statement (t : Token) : Option (Script Tree.Stmt) :=
  match t.kind with
  | .keyword .ret => some do
    let value ← phrase .expr
    let _ ← token (.delimiter .semicolon)
    return .ret t value
  | .keyword .cond => some do
    let test ← phrase .expr
    let brace ← token (.delimiter .lbrace)
    let body ← stmts
    return .cond t test brace body
  | .ident => some do
    let _ ← token (.operator .assign)
    let value ← phrase .expr
    let _ ← token (.delimiter .semicolon)
    return .assign t value
  | .keyword .print => some do
    let _ ← token (.delimiter .lparen)
    let args ← series .arg true
    let _ ← token (.delimiter .semicolon)
    return .print t args
  | .keyword .var => some do
    let p ← param
    let _ ← token (.operator .assign)
    let value ← phrase .expr
    let _ ← token (.delimiter .semicolon)
    return .decl t p value
  | .operator .arrow => some do
    let c ← call
    let _ ← token (.delimiter .semicolon)
    return .call t c.1 c.2
  | _ => none

/-- A statement is told by its first token. -/
theorem stmt_eq : stmt = .lead .statement statement := by
  funext eof ts
  rcases ts with _ | ⟨t, ts⟩
  · simp only [stmt, readStmt]
    rfl
  simp only [stmt, readStmt, lead]
  split
  · next hk =>
    simp only [statement, hk]
    exact bare_bind rfl fun value => bare_bind rfl fun semi => rfl
  · next hk =>
    simp only [statement, hk]
    exact bare_bind rfl fun test => bare_bind rfl fun brace => bare_bind rfl fun body => rfl
  · next hk =>
    simp only [statement, hk]
    exact bare_bind rfl fun assign => bare_bind rfl fun value => bare_bind rfl fun semi => rfl
  · next hk =>
    simp only [statement, hk]
    exact bare_bind rfl fun lparen => bare_bind rfl fun args => bare_bind rfl fun semi => rfl
  · next hk =>
    simp only [statement, hk]
    exact bare_bind rfl fun p => bare_bind rfl fun assign => bare_bind rfl fun value =>
      bare_bind rfl fun semi => rfl
  · next hk =>
    simp only [statement, hk]
    exact bare_bind rfl fun c => bare_bind rfl fun semi => rfl
  · have hnone : statement t = none := by
      unfold statement
      split <;> first | contradiction | rfl
    rw [hnone]
    rfl

section Stmts

variable {eof : Token} {ts : List Token}

/-- A block is over at a closing brace. -/
theorem stmts_close (h : (current eof ts).kind = .delimiter .rbrace) :
    stmts eof ts = (token (.delimiter .rbrace) >>= fun _ => pure []) eof ts := by
  rw [stmts, readStmts]
  simp only [if_pos h]
  exact bare_bind rfl fun close => rfl

/-- A block that is not closed is an error at the end of input, and not in the statement that does
not come. -/
theorem stmts_eof (h : (current eof ts).kind = .eof) :
    stmts eof ts = fail (.kind (.delimiter .rbrace)) eof ts := by
  rw [stmts, readStmts]
  simp only [h, reduceCtorEq, if_false, if_true]
  rfl

/-- Anything else is one more statement. -/
theorem stmts_cons (hb : (current eof ts).kind ≠ .delimiter .rbrace)
    (he : (current eof ts).kind ≠ .eof) :
    stmts eof ts = (stmt >>= fun s => stmts >>= fun ss => pure (s :: ss)) eof ts := by
  rw [stmts, readStmts]
  simp only [if_neg hb, if_neg he]
  exact bare_bind rfl fun s => bare_bind rfl fun ss => rfl

end Stmts

/-- Behind an arrow is a result type. -/
theorem returns_cons {t : Token} (h : t.kind = .operator .arrow) (eof : Token) (ts : List Token) :
    returns eof (t :: ts) = (typeName >>= fun type => pure (some type)) eof ts := by
  simp only [returns, readReturns, if_pos h]
  exact bare_bind rfl fun type => rfl

/-- Without an arrow there is none. -/
theorem returns_none {ts : List Token} (h : ∀ t ∈ ts.head?, t.kind ≠ .operator .arrow)
    (eof : Token) : returns eof ts = .ok (none, ts) := by
  rcases ts with _ | ⟨t, ts⟩
  · rfl
  · simp only [returns, readReturns, if_neg (h t rfl)]
    rfl

/-- The parts of a function in the order of its tokens. -/
theorem function_eq : function = (do
    let start ← token (.keyword .function)
    let name ← token .ident
    let _ ← token (.delimiter .lparen)
    let params ← series .param true
    let type ← returns
    let brace ← token (.delimiter .lbrace)
    let body ← stmts
    return ⟨start, name.lexeme, params, type, brace, body⟩) := by
  funext eof ts
  simp only [function, readFunction]
  exact bare_bind rfl fun start => bare_bind rfl fun name => bare_bind rfl fun lparen =>
    bare_bind rfl fun params => bare_bind rfl fun type => bare_bind rfl fun brace =>
      bare_bind rfl fun body => rfl

theorem functions_nil {eof : Token} (heof : eof.kind = .eof) : functions eof [] = .ok ([], []) := by
  rw [functions, readFunctions_eof (show (current eof []).kind = .eof from heof)]
  rfl

/-- One more function, as long as the input lasts. -/
theorem functions_cons {eof : Token} {ts : List Token} (h : (current eof ts).kind ≠ .eof) :
    functions eof ts = (function >>= fun f => functions >>= fun fs => pure (f :: fs)) eof ts := by
  rw [functions, readFunctions]
  simp only [if_neg h]
  rcases hf : readFunction eof ts with e | ⟨f, rest, hlt⟩
  · rw [bind_of_error (show function eof ts = .error e by rw [function, hf]; rfl)]
    rfl
  rw [bind_of_ok (show function eof ts = .ok (f, rest) by rw [function, hf]; rfl)]
  rcases hfs : readFunctions eof rest with e | fs
  · rw [bind_of_error (show functions eof rest = .error e by rw [functions, hfs]; rfl)]
    simp only [Except.map, bind, Except.bind, hfs]
  · rw [bind_of_ok (show functions eof rest = .ok (fs, []) by rw [functions, hfs]; rfl)]
    simp only [Except.map, bind, Except.bind, hfs]
    rfl

/-! The parsers run these scripts on a whole text. -/

/-- A program is read as functions up to the end of input. -/
theorem ofTokens_program (ts : List Token) : Tree.Program.ofTokens ts =
    (functions (endOfInput ts) ts).map fun r => ⟨current (endOfInput ts) ts, r.1⟩ := by
  simp only [Tree.Program.ofTokens, functions]
  cases readFunctions (endOfInput ts) ts <;> rfl

/-- An expression is read as a phrase, behind which nothing may come. -/
theorem ofTokens_expr (ts : List Token) : Tree.Expr.ofTokens ts =
    ((phrase .expr >>= finish) (endOfInput ts) ts).map fun r => r.1 := by
  change _ = (bare (readExpr (endOfInput ts) ts) >>= fun r => finish r.1 _ r.2).map _
  simp only [Tree.Expr.ofTokens]
  rcases readExpr (endOfInput ts) ts with e | p
  · rfl
  · simp only [bare, Except.map, bind, Except.bind, finish]
    split <;> rfl

end Script

end Stackling.Grammar
