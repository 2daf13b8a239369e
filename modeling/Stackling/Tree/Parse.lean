import Stackling.Tree

/-!
# Reading trees from tokens

A recursive-descent reader with one token of lookahead. The grammar:

    program  := function*
    function := 'function' ident '(' [param (',' param)*] ')' ['->' type] block
    param    := ident ':' type
    block    := '{' stmt* '}'
    stmt     := 'return' expr ';' | 'if' expr block | ident '=' expr ';'
              | 'print' args ';' | 'var' param '=' expr ';' | call ';'
    expr     := relation (('&&' | '||') relation)*
    relation := term [relop term]
    term     := product (('+' | '-') product)*
    product  := atom (('*' | '/') atom)*
    atom     := call | number | string | 'true' | 'false' | ident | '(' expr ')'
    call     := '->' ident args
    args     := '(' [expr (',' expr)*] ')'

The two logical operators bind equally; comparisons do not chain; everything else associates to
the left.

A reader takes the tokens that are left and gives back a value with the tokens that it leaves.
`Parsed α n` carries the fact that fewer than `n` are left, which is what the recursion decreases.
The end of input is a token of its own, used where the list has run out; a list may also hold such
tokens, and no reader consumes one.
-/

namespace Stackling

/-- What a reader was looking for. -/
inductive Expected where
  | kind (k : Kind)
  | statement
  | expression
  | type
  deriving DecidableEq, Repr

/-- How a message names what was looked for. -/
def Expected.describe : Expected → String
  | kind k => k.describe
  | statement => "statement"
  | expression => "expression"
  | type => "type"

/-- Why tokens form no tree. -/
inductive ParseError where
  | unexpected (expected : Expected) (found : Token)
  | outOfRange (literal : Token)
  deriving DecidableEq, Repr

namespace ParseError

/-- The token at which reading failed. -/
def token : ParseError → Token
  | unexpected _ found => found
  | outOfRange literal => literal

/-- Where reading failed. -/
def pos (e : ParseError) : Position := e.token.pos

/-- The message, without a position. -/
def message : ParseError → String
  | unexpected expected found =>
    "expected " ++ expected.describe ++ ", found " ++ found.describe
  | outOfRange literal => "integer literal " ++ literal.lexeme ++ " out of range"

end ParseError

namespace Tree

/-! ## Results -/

/-- A value read from tokens, and the tokens that are left: fewer than `bound`. -/
structure Parsed (α : Type) (bound : Nat) where
  /-- what was read -/
  value : α
  /-- what is left -/
  rest : List Token
  /-- less is left than the bound says -/
  lt : rest.length < bound

/-- A value, or the reason why there is none. -/
abbrev Reading (α : Type) (bound : Nat) := Except ParseError (Parsed α bound)

namespace Parsed

variable {α β : Type} {m n : Nat}

/-- The same result under a larger bound. -/
def relax (p : Parsed α m) (h : m ≤ n) : Parsed α n :=
  ⟨p.value, p.rest, Nat.lt_of_lt_of_le p.lt h⟩

/-- Another value with the same rest. -/
def map (f : α → β) (p : Parsed α n) : Parsed β n := ⟨f p.value, p.rest, p.lt⟩

end Parsed

/-! ## Single tokens -/

/-- The token at the front, or the end of input. -/
def current (eof : Token) (ts : List Token) : Token := ts.headD eof

/-- Fails at the current token. -/
def fail {α : Type} (expected : Expected) (eof : Token) (ts : List Token) : Except ParseError α :=
  .error (.unexpected expected (current eof ts))

/-- Takes a token of the given kind. -/
def expect (kind : Kind) (eof : Token) (ts : List Token) : Reading Token ts.length :=
  match ts with
  | [] => fail (.kind kind) eof []
  | t :: rest =>
    if t.kind = kind then .ok ⟨t, rest, by simp⟩ else fail (.kind kind) eof (t :: rest)

/-- Takes a type name. -/
def readType (eof : Token) (ts : List Token) : Reading TypeName ts.length :=
  match ts with
  | [] => fail .type eof []
  | t :: rest => if t.kind.isType then .ok ⟨⟨t⟩, rest, by simp⟩ else fail .type eof (t :: rest)

/-- Takes `name: type`. -/
def readParam (eof : Token) (ts : List Token) : Reading Param ts.length := do
  let name ← expect .ident eof ts
  let colon ← expect (.delimiter .colon) eof name.rest
  let type ← readType eof colon.rest
  return ⟨⟨name.value, type.value⟩, type.rest, by
    have := name.lt
    have := colon.lt
    have := type.lt
    omega⟩

/-- The value of a number literal that fits 32 bits. A sign may stand in front. -/
def int32? (s : String) : Option Int32 :=
  let read (digits : List Char) : Option Int :=
    if digits.isEmpty || !digits.all Char.isDigit then none
    else some (digits.foldl (fun n c => n * 10 + Int.ofNat (c.toNat - '0'.toNat)) 0)
  let value :=
    match s.toList with
    | '-' :: digits => (read digits).map (- ·)
    | '+' :: digits => read digits
    | digits => read digits
  value.bind fun v => if -2147483648 ≤ v ∧ v ≤ 2147483647 then some (Int32.ofInt v) else none

/-- The binary operator of a level that a token spells. -/
def binaryOp? (level : Level) (t : Token) : Option BinaryOp :=
  match t.kind with
  | .operator o => (BinaryOp.ofOperator? o).filter fun op => op.level == level
  | _ => none

/-! ## Expressions -/

mutual

/-- Takes an expression. -/
def readExpr (eof : Token) (ts : List Token) : Reading Expr ts.length := do
  let left ← readRelation eof ts
  have := left.lt
  let all ← readLogicalTail eof left.value left.rest
  return all.relax left.lt
termination_by (ts.length, 5)

/-- Takes the rest of a chain of logical operators after its left operand. -/
def readLogicalTail (eof : Token) (left : Expr) (ts : List Token) :
    Reading Expr (ts.length + 1) :=
  match ts with
  | [] => .ok ⟨left, [], by simp⟩
  | t :: rest =>
    match binaryOp? .logical t with
    | none => .ok ⟨left, t :: rest, by simp⟩
    | some op => do
      let right ← readRelation eof rest
      have : right.rest.length < rest.length + 1 := Nat.lt_succ_of_lt right.lt
      let all ← readLogicalTail eof (.binary op left right.value) right.rest
      return all.relax (Nat.le_succ_of_le this)
termination_by (ts.length, 4)

/-- Takes a term or a comparison of two. -/
def readRelation (eof : Token) (ts : List Token) : Reading Expr ts.length := do
  let left ← readTerm eof ts
  match h : left.rest with
  | [] => return left
  | t :: rest =>
    match binaryOp? .relational t with
    | none => return left
    | some op =>
      have hlt : rest.length + 1 < ts.length := by have := left.lt; simpa [h] using this
      let right ← readTerm eof rest
      return (right.map (.binary op left.value)).relax (by omega)
termination_by (ts.length, 3)

/-- Takes a sum. -/
def readTerm (eof : Token) (ts : List Token) : Reading Expr ts.length := do
  let left ← readProduct eof ts
  have := left.lt
  let all ← readTermTail eof left.value left.rest
  return all.relax left.lt
termination_by (ts.length, 2)

/-- Takes the rest of a sum after its left operand. -/
def readTermTail (eof : Token) (left : Expr) (ts : List Token) :
    Reading Expr (ts.length + 1) :=
  match ts with
  | [] => .ok ⟨left, [], by simp⟩
  | t :: rest =>
    match binaryOp? .term t with
    | none => .ok ⟨left, t :: rest, by simp⟩
    | some op => do
      let right ← readProduct eof rest
      have : right.rest.length < rest.length + 1 := Nat.lt_succ_of_lt right.lt
      let all ← readTermTail eof (.binary op left right.value) right.rest
      return all.relax (Nat.le_succ_of_le this)
termination_by (ts.length, 1)

/-- Takes a product. -/
def readProduct (eof : Token) (ts : List Token) : Reading Expr ts.length := do
  let left ← readAtom eof ts
  have := left.lt
  let all ← readProductTail eof left.value left.rest
  return all.relax left.lt
termination_by (ts.length, 1)

/-- Takes the rest of a product after its left operand. -/
def readProductTail (eof : Token) (left : Expr) (ts : List Token) :
    Reading Expr (ts.length + 1) :=
  match ts with
  | [] => .ok ⟨left, [], by simp⟩
  | t :: rest =>
    match binaryOp? .product t with
    | none => .ok ⟨left, t :: rest, by simp⟩
    | some op => do
      let right ← readAtom eof rest
      have : right.rest.length < rest.length + 1 := Nat.lt_succ_of_lt right.lt
      let all ← readProductTail eof (.binary op left right.value) right.rest
      return all.relax (Nat.le_succ_of_le this)
termination_by (ts.length, 0)

/-- Takes an operand. The words `true` and `false` are identifiers that stand for values. -/
def readAtom (eof : Token) (ts : List Token) : Reading Expr ts.length :=
  match ts with
  | [] => fail .expression eof []
  | t :: rest =>
    match t.kind with
    | .operator .arrow => do
      let call ← readCall eof rest
      return (call.map fun c => .call t c.1 c.2).relax (Nat.le_succ _)
    | .number =>
      match int32? t.lexeme with
      | some v => .ok ⟨.int t v, rest, by simp⟩
      | none => .error (.outOfRange t)
    | .string => .ok ⟨.str t, rest, by simp⟩
    | .ident =>
      let value : Expr :=
        if t.lexeme = "true" then .bool t true
        else if t.lexeme = "false" then .bool t false
        else .var t
      .ok ⟨value, rest, by simp⟩
    | .delimiter .lparen => do
      let inner ← readExpr eof rest
      let close ← expect (.delimiter .rparen) eof inner.rest
      return ⟨inner.value, close.rest, by have := inner.lt; have := close.lt; simp; omega⟩
    | _ => fail .expression eof (t :: rest)
termination_by (ts.length, 0)

/-- Takes the rest of a call after its arrow: the name of the function and the arguments. -/
def readCall (eof : Token) (ts : List Token) : Reading (String × List Expr) ts.length := do
  let name ← expect .ident eof ts
  let lparen ← expect (.delimiter .lparen) eof name.rest
  have : lparen.rest.length < ts.length := Nat.lt_trans lparen.lt name.lt
  let args ← readArgs eof true lparen.rest
  return (args.map fun as => (name.value.lexeme, as)).relax (Nat.le_of_lt this)
termination_by (ts.length, 0)

/-- Takes arguments up to and including the closing parenthesis. All but the first follow a
comma. -/
def readArgs (eof : Token) (first : Bool) (ts : List Token) : Reading (List Expr) ts.length := do
  if (current eof ts).kind = .delimiter .rparen then
    let close ← expect (.delimiter .rparen) eof ts
    return close.map fun _ => []
  else if first then
    let arg ← readExpr eof ts
    have := arg.lt
    let more ← readArgs eof false arg.rest
    return (more.map (arg.value :: ·)).relax (Nat.le_of_lt this)
  else
    let comma ← expect (.delimiter .comma) eof ts
    have := comma.lt
    let arg ← readExpr eof comma.rest
    have : arg.rest.length < ts.length := Nat.lt_trans arg.lt comma.lt
    let more ← readArgs eof false arg.rest
    return (more.map (arg.value :: ·)).relax (Nat.le_of_lt this)
termination_by (ts.length, 6)

end

/-! ## Statements -/

mutual

/-- Takes a statement. -/
def readStmt (eof : Token) (ts : List Token) : Reading Stmt ts.length :=
  match ts with
  | [] => fail .statement eof []
  | t :: rest =>
    match t.kind with
    | .keyword .ret => do
      let value ← readExpr eof rest
      let semi ← expect (.delimiter .semicolon) eof value.rest
      return ⟨.ret t value.value, semi.rest, by have := value.lt; have := semi.lt; simp; omega⟩
    | .keyword .cond => do
      let test ← readExpr eof rest
      let brace ← expect (.delimiter .lbrace) eof test.rest
      have : brace.rest.length < rest.length + 1 := by
        have := test.lt; have := brace.lt; omega
      let body ← readStmts eof brace.rest
      return (body.map (.cond t test.value brace.value)).relax (Nat.le_of_lt this)
    | .ident => do
      let assign ← expect (.operator .assign) eof rest
      let value ← readExpr eof assign.rest
      let semi ← expect (.delimiter .semicolon) eof value.rest
      return ⟨.assign t value.value, semi.rest, by
        have := assign.lt; have := value.lt; have := semi.lt; simp; omega⟩
    | .keyword .print => do
      let lparen ← expect (.delimiter .lparen) eof rest
      let args ← readArgs eof true lparen.rest
      let semi ← expect (.delimiter .semicolon) eof args.rest
      return ⟨.print t args.value, semi.rest, by
        have := lparen.lt; have := args.lt; have := semi.lt; simp; omega⟩
    | .keyword .var => do
      let param ← readParam eof rest
      let assign ← expect (.operator .assign) eof param.rest
      let value ← readExpr eof assign.rest
      let semi ← expect (.delimiter .semicolon) eof value.rest
      return ⟨.decl t param.value value.value, semi.rest, by
        have := param.lt; have := assign.lt; have := value.lt; have := semi.lt; simp; omega⟩
    | .operator .arrow => do
      let call ← readCall eof rest
      let semi ← expect (.delimiter .semicolon) eof call.rest
      return ⟨.call t call.value.1 call.value.2, semi.rest, by
        have := call.lt; have := semi.lt; simp; omega⟩
    | _ => fail .statement eof (t :: rest)
termination_by (ts.length, 0)

/-- Takes statements up to and including the closing brace. -/
def readStmts (eof : Token) (ts : List Token) : Reading (List Stmt) ts.length := do
  let next := (current eof ts).kind
  if next = .delimiter .rbrace then
    let close ← expect (.delimiter .rbrace) eof ts
    return close.map fun _ => []
  else if next = .eof then fail (.kind (.delimiter .rbrace)) eof ts
  else
    let s ← readStmt eof ts
    have := s.lt
    let more ← readStmts eof s.rest
    return (more.map (s.value :: ·)).relax (Nat.le_of_lt this)
termination_by (ts.length, 1)

end

/-! ## Functions and programs -/

/-- Takes parameters up to and including the closing parenthesis. All but the first follow a
comma. -/
def readParams (eof : Token) (first : Bool) (ts : List Token) : Reading (List Param) ts.length := do
  if (current eof ts).kind = .delimiter .rparen then
    let close ← expect (.delimiter .rparen) eof ts
    return close.map fun _ => []
  else if first then
    let param ← readParam eof ts
    have := param.lt
    let more ← readParams eof false param.rest
    return (more.map (param.value :: ·)).relax (Nat.le_of_lt this)
  else
    let comma ← expect (.delimiter .comma) eof ts
    let param ← readParam eof comma.rest
    have : param.rest.length < ts.length := Nat.lt_trans param.lt comma.lt
    let more ← readParams eof false param.rest
    return (more.map (param.value :: ·)).relax (Nat.le_of_lt this)
termination_by ts.length

/-- Takes a result type if an arrow announces one. -/
def readReturns (eof : Token) (ts : List Token) : Reading (Option TypeName) (ts.length + 1) :=
  match ts with
  | [] => .ok ⟨none, [], by simp⟩
  | t :: rest =>
    if t.kind = .operator .arrow then do
      let type ← readType eof rest
      return (type.map some).relax (by simp; omega)
    else .ok ⟨none, t :: rest, by simp⟩

/-- Takes a function. -/
def readFunction (eof : Token) (ts : List Token) : Reading Function ts.length := do
  let start ← expect (.keyword .function) eof ts
  let name ← expect .ident eof start.rest
  let lparen ← expect (.delimiter .lparen) eof name.rest
  let params ← readParams eof true lparen.rest
  let returns ← readReturns eof params.rest
  let brace ← expect (.delimiter .lbrace) eof returns.rest
  let body ← readStmts eof brace.rest
  return ⟨⟨start.value, name.value.lexeme, params.value, returns.value, brace.value, body.value⟩,
    body.rest, by
      have := start.lt; have := name.lt; have := lparen.lt; have := params.lt
      have := returns.lt; have := brace.lt; have := body.lt; omega⟩

/-- Takes functions up to the end of input. -/
def readFunctions (eof : Token) (ts : List Token) : Except ParseError (List Function) := do
  let next := (current eof ts).kind
  if next = .eof then return []
  else
    let f ← readFunction eof ts
    have := f.lt
    let more ← readFunctions eof f.rest
    return f.value :: more
termination_by ts.length

/-- The token that ends the list: its last one if that is an end of input, otherwise one that
stands right after the last token's text. -/
def endOfInput (ts : List Token) : Token :=
  match ts.getLast? with
  | none => ⟨.eof, "", .start⟩
  | some last =>
    if last.kind = .eof then last
    else ⟨.eof, "", ⟨last.pos.line, last.pos.column + last.lexeme.length⟩⟩

/-- The program that a list of tokens spells. -/
def Program.ofTokens (ts : List Token) : Except ParseError Program := do
  let eof := endOfInput ts
  let functions ← readFunctions eof ts
  return ⟨current eof ts, functions⟩

/-- The expression that a list of tokens spells. -/
def Expr.ofTokens (ts : List Token) : Except ParseError Expr := do
  let eof := endOfInput ts
  let e ← readExpr eof ts
  if (current eof e.rest).kind = .eof then return e.value
  else fail (.kind .eof) eof e.rest

end Tree

end Stackling
