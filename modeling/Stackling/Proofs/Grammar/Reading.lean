import Mathlib.Tactic.Ring
import Stackling.Proofs.Except
import Stackling.Proofs.Grammar
import Stackling.Tree.Parse

/-!
# What the readers do

Each reader of the parser takes a value off the front of a list of tokens. `Reads r a rest` says
that the reading `r` succeeds with `a` and leaves `rest`, without the bound that the readers carry
along for their termination. There is one lemma for each reader that says when it reads what, in
terms of the readers it calls; nothing after this module opens a reader.

The three readers of chains are one reader with the joint as a parameter, and so are the two readers
of lists.
-/

namespace Stackling.Grammar

open Stackling.Tree

variable {α β : Type} {m n : Nat} {eof : Token} {ts rest : List Token}

/-- The reading succeeds with `a` and leaves `rest`. -/
def Reads (r : Reading α n) (a : α) (rest : List Token) : Prop :=
  ∃ h, r = .ok ⟨a, rest, h⟩

/-- A reader takes a token at least. -/
theorem Reads.lt {r : Reading α n} {a : α} (h : Reads r a rest) : rest.length < n :=
  h.1

/-! ## Composition -/

/-- Two readers one after the other. -/
theorem reads_bind {r : Reading α m} {f : Parsed α m → Reading β n} {b : β} :
    Reads (r >>= f) b rest ↔ ∃ a mid, ∃ h : Reads r a mid, Reads (f ⟨a, mid, h.lt⟩) b rest := by
  simp only [Reads, bind_eq_ok]
  constructor
  · rintro ⟨h, ⟨a, mid, hlt⟩, hr, hf⟩
    exact ⟨a, mid, ⟨hlt, hr⟩, h, hf⟩
  · rintro ⟨a, mid, ⟨hlt, hr⟩, h, hf⟩
    exact ⟨h, ⟨a, mid, hlt⟩, hr, hf⟩

theorem reads_ok {p : Parsed α n} {a : α} :
    Reads (.ok p) a rest ↔ p.value = a ∧ p.rest = rest := by
  obtain ⟨value, rest', hlt⟩ := p
  simp only [Reads, Except.ok.injEq, Parsed.mk.injEq]
  exact ⟨fun ⟨_, h⟩ => h, fun h => ⟨h.2 ▸ hlt, h⟩⟩

theorem reads_pure {p : Parsed α n} {a : α} :
    Reads (pure p) a rest ↔ p.value = a ∧ p.rest = rest :=
  reads_ok

theorem not_reads_error {e : ParseError} {a : α} : ¬Reads (.error e : Reading α n) a rest := by
  rintro ⟨_, h⟩
  cases h

/-- A reader that fails reads nothing. -/
theorem not_reads_fail {x : Expected} {a : α} : ¬Reads (fail x eof ts : Reading α n) a rest :=
  not_reads_error

/-! ## Single tokens -/

/-- A token of a kind is read if it comes next. -/
theorem expect_reads {k : Kind} {t : Token} :
    Reads (expect k eof ts) t rest ↔ ts = t :: rest ∧ t.kind = k := by
  rcases ts with _ | ⟨t', ts⟩
  · simp only [expect, reduceCtorEq, false_and, iff_false]
    exact not_reads_fail
  · rw [expect]
    split
    · next hk =>
      rw [reads_ok, List.cons.injEq]
      refine ⟨fun h => ⟨h, h.1 ▸ hk⟩, fun h => h.1⟩
    · next hk =>
      refine iff_of_false not_reads_fail ?_
      rintro ⟨heq, hk'⟩
      cases heq
      exact hk hk'

/-- A type is read if the word of one comes next. -/
theorem readType_reads {t : TypeName} :
    Reads (readType eof ts) t rest ↔ ts = t.token :: rest ∧ t.token.kind.isType = true := by
  rcases ts with _ | ⟨t', ts⟩
  · simp only [readType, reduceCtorEq, false_and, iff_false]
    exact not_reads_fail
  · rw [readType]
    obtain ⟨t⟩ := t
    split
    · next hk =>
      rw [reads_ok, List.cons.injEq, TypeName.mk.injEq]
      exact ⟨fun h => ⟨h, h.1 ▸ hk⟩, fun h => h.1⟩
    · next hk =>
      refine iff_of_false not_reads_fail ?_
      rintro ⟨heq, hk'⟩
      cases heq
      exact hk hk'

/-- A token is an operator of a level if its kind and its level say so. -/
theorem binaryOp?_eq_some {l : Level} {t : Token} {op : BinaryOp} :
    binaryOp? l t = some op ↔ t.kind = .operator op.operator ∧ op.level = l := by
  rw [binaryOp?]
  split
  · next o ho =>
    rw [Option.filter_eq_some_iff, ho, Kind.operator.injEq, beq_iff_eq]
    refine and_congr_left fun _ => ⟨?_, ?_⟩
    · intro h
      cases o <;> cases h <;> rfl
    · rintro rfl
      exact BinaryOp.ofOperator?_operator op
  · next hno =>
    refine iff_of_false nofun ?_
    rintro ⟨h, -⟩
    exact hno _ h

/-! ## Numbers -/

/-- The first digit counts the most. -/
theorem numeral_cons (c : Char) (cs : List Char) :
    numeral (c :: cs) = (c.toNat - '0'.toNat) * 10 ^ cs.length + numeral cs := by
  simp only [numeral, List.reverse_cons, List.map_append, Nat.ofDigits_append, List.map_cons,
    List.map_nil, Nat.ofDigits_singleton, List.length_map, List.length_reverse]
  rw [Nat.add_comm, Nat.mul_comm]

/-- Reading digits from the left, on top of what was read before. -/
theorem foldl_digits (cs : List Char) (n : Int) :
    cs.foldl (fun n c => n * 10 + Int.ofNat (c.toNat - '0'.toNat)) n =
      n * 10 ^ cs.length + numeral cs := by
  induction cs generalizing n with
  | nil => simp [numeral]
  | cons c cs ih =>
    rw [List.foldl_cons, ih, numeral_cons, List.length_cons, Int.ofNat_eq_natCast]
    push_cast
    ring

/-- Digits are read as the number they spell, if it fits 32 bits. -/
theorem int32?_of_digits {s : String} (hne : s.toList ≠ [])
    (hd : ∀ c ∈ s.toList, c.isDigit = true) :
    int32? s = if numeral s.toList ≤ 2147483647 then some (Int32.ofNat (numeral s.toList))
      else none := by
  have hall : (s.toList.isEmpty || !s.toList.all Char.isDigit) = false := by
    simpa [hne] using hd
  have hread := foldl_digits s.toList 0
  rw [Int.zero_mul, Int.zero_add] at hread
  unfold int32?
  split
  -- A sign in front would be a digit.
  · next h => exact absurd (hd '-' (by simp [h])) (by decide)
  · next h => exact absurd (hd '+' (by simp [h])) (by decide)
  · simp only [hall, Bool.false_eq_true, if_false, hread, Option.bind_some, Int32.ofInt_eq_ofNat]
    refine if_congr ?_ rfl rfl
    omega

/-! ## Expressions -/

/-- The reader of a rank. -/
def readPhrase (eof : Token) : (r : Rank) → (ts : List Token) → Reading Tree.Expr ts.length
  | .chain .logical => readExpr eof
  | .chain .term => readTerm eof
  | .chain .product => readProduct eof
  | .relation => readRelation eof
  | .atom => readAtom eof

/-- The reader of the rest of a chain. -/
def readTail (eof : Token) :
    (j : Joint) → (left : Tree.Expr) → (ts : List Token) → Reading Tree.Expr (ts.length + 1)
  | .logical => readLogicalTail eof
  | .term => readTermTail eof
  | .product => readProductTail eof

/-- The reader of a member of a list. -/
def readElement (eof : Token) : (i : Item) → (ts : List Token) → Reading i.Value ts.length
  | .arg => readExpr eof
  | .param => readParam eof

/-- The reader of a list. -/
def readSeries (eof : Token) :
    (i : Item) → (first : Bool) → (ts : List Token) → Reading (List i.Value) ts.length
  | .arg => readArgs eof
  | .param => readParams eof

/-- What reading a chain takes: an operand, and the tail behind it. -/
theorem readChain_reads {j : Joint} {e : Tree.Expr} :
    Reads (readPhrase eof (.chain j) ts) e rest ↔ ∃ left mid,
      Reads (readPhrase eof j.operand ts) left mid ∧ Reads (readTail eof j left mid) e rest := by
  cases j with
  | logical =>
    simp only [readPhrase, Joint.operand, readTail, readExpr, reads_bind, reads_pure, Parsed.relax]
    simp
  | term =>
    simp only [readPhrase, Joint.operand, readTail, readTerm, reads_bind, reads_pure, Parsed.relax]
    simp
  | product =>
    simp only [readPhrase, Joint.operand, readTail, readProduct, reads_bind, reads_pure,
      Parsed.relax]
    simp

/-- The next token is no operator of the level. -/
def NoOp (l : Level) (ts : List Token) : Prop := ∀ t ∈ ts.head?, binaryOp? l t = none

/-- Either an operator of the level comes next or none does. -/
theorem noOp_or (l : Level) (ts : List Token) :
    NoOp l ts ∨ ∃ t more op, ts = t :: more ∧ binaryOp? l t = some op := by
  rcases ts with _ | ⟨t, more⟩
  · exact .inl (by simp [NoOp])
  · cases hop : binaryOp? l t with
    | none => exact .inl (by simpa [NoOp] using hop)
    | some op => exact .inr ⟨t, more, op, rfl, hop⟩

/-- A chain ends where no operator of its level follows. -/
theorem readTail_of_noOp {j : Joint} {left e : Tree.Expr} (h : NoOp j.level ts) :
    Reads (readTail eof j left ts) e rest ↔ left = e ∧ ts = rest := by
  rcases ts with _ | ⟨t, ts⟩
  · cases j <;> simp [readTail, readLogicalTail, readTermTail, readProductTail, reads_ok]
  · have ht := h t (by simp)
    cases j <;> simp only [Joint.level] at ht <;>
      simp [readTail, readLogicalTail, readTermTail, readProductTail, reads_ok, ht]

/-- It goes on with an operand after an operator of its level. -/
theorem readTail_of_op {j : Joint} {left e : Tree.Expr} {t : Token} {op : BinaryOp}
    (h : binaryOp? j.level t = some op) :
    Reads (readTail eof j left (t :: ts)) e rest ↔ ∃ right mid,
      Reads (readPhrase eof j.operand ts) right mid ∧
      Reads (readTail eof j (.binary op left right) mid) e rest := by
  cases j <;> simp only [Joint.level] at h <;>
    simp only [readTail, readPhrase, Joint.operand, readLogicalTail, readTermTail, readProductTail,
      h, reads_bind, reads_pure, Parsed.relax] <;>
    simp

/-- What reading a relation takes: a term, and behind it a comparison if one comes. -/
theorem readRelation_reads {e : Tree.Expr} :
    Reads (readPhrase eof .relation ts) e rest ↔ ∃ left mid,
      Reads (readPhrase eof .term ts) left mid ∧
      (NoOp .relational mid ∧ left = e ∧ mid = rest ∨
        ∃ t more op right, mid = t :: more ∧ binaryOp? .relational t = some op ∧
          .binary op left right = e ∧ Reads (readPhrase eof .term more) right rest) := by
  simp only [readPhrase, readRelation, reads_bind]
  refine exists_congr fun left => exists_congr fun mid => ?_
  rcases mid with _ | ⟨t, more⟩
  · simp [reads_pure, NoOp, and_left_comm]
  · rcases hop : binaryOp? .relational t with _ | op
    · simp [reads_pure, NoOp, hop, and_left_comm]
    · simp only [hop, reads_bind, reads_pure, Parsed.map, Parsed.relax]
      simp [NoOp, hop]

/-- What reading a call takes, behind the arrow. -/
theorem readCall_reads {c : String × List Tree.Expr} :
    Reads (readCall eof ts) c rest ↔ ∃ name lparen mid args, ts = name :: lparen :: mid ∧
      name.kind = .ident ∧ lparen.kind = .delimiter .lparen ∧
      Reads (readSeries eof .arg true mid) args rest ∧ (name.lexeme, args) = c := by
  simp only [readSeries, readCall, reads_bind, reads_pure, Parsed.relax, Parsed.map, expect_reads]
  constructor
  · rintro ⟨name, _, ⟨rfl, hname⟩, lparen, mid, ⟨rfl, hlparen⟩, args, _, hargs, rfl, rfl⟩
    exact ⟨name, lparen, mid, args, rfl, hname, hlparen, hargs, rfl⟩
  · rintro ⟨name, lparen, mid, args, rfl, hname, hlparen, hargs, rfl⟩
    exact ⟨name, _, ⟨rfl, hname⟩, lparen, mid, ⟨rfl, hlparen⟩, args, _, hargs, rfl, rfl⟩

/-- What reading an operand takes. -/
inductive AtomReads (eof : Token) (rest : List Token) : List Token → Tree.Expr → Prop where
  | call {t : Token} {more : List Token} {c : String × List Tree.Expr}
      (hk : t.kind = .operator .arrow) (hc : Reads (readCall eof more) c rest) :
      AtomReads eof rest (t :: more) (.call t c.1 c.2)
  | number {t : Token} {v : Int32} (hk : t.kind = .number) (hv : int32? t.lexeme = some v) :
      AtomReads eof rest (t :: rest) (.int t v)
  | string {t : Token} (hk : t.kind = .string) : AtomReads eof rest (t :: rest) (.str t)
  | truth {t : Token} {value : Bool} (hk : t.kind = .ident) (h : t.lexeme = spelling value) :
      AtomReads eof rest (t :: rest) (.bool t value)
  | ident {t : Token} (hk : t.kind = .ident) (h : ∀ value, t.lexeme ≠ spelling value) :
      AtomReads eof rest (t :: rest) (.var t)
  | parens {t rparen : Token} {more : List Token} {e : Tree.Expr}
      (hk : t.kind = .delimiter .lparen) (he : Reads (readPhrase eof .expr more) e (rparen :: rest))
      (hr : rparen.kind = .delimiter .rparen) : AtomReads eof rest (t :: more) e

/-- What reading an operand takes. There is one case for each kind of token it may start with. -/
theorem readAtom_reads {e : Tree.Expr} :
    Reads (readPhrase eof .atom ts) e rest ↔ AtomReads eof rest ts e := by
  change Reads (readAtom eof ts) e rest ↔ _
  constructor
  · intro h
    rcases ts with _ | ⟨t, ts⟩
    · exact absurd h (by simp [readAtom, not_reads_fail])
    rw [readAtom] at h
    split at h
    · next hk =>
      simp only [reads_bind, reads_pure, Parsed.relax, Parsed.map] at h
      obtain ⟨c, _, hc, rfl, rfl⟩ := h
      exact .call hk hc
    · next hk =>
      split at h
      · next v hv =>
        obtain ⟨rfl, rfl⟩ := reads_ok.mp h
        exact .number hk hv
      · exact absurd h not_reads_error
    · next hk =>
      obtain ⟨rfl, rfl⟩ := reads_ok.mp h
      exact .string hk
    · next hk =>
      obtain ⟨rfl, rfl⟩ := reads_ok.mp h
      dsimp only
      split
      · next ht => exact .truth hk ht
      · next ht =>
        split
        · next hf => exact .truth hk hf
        · next hf => exact .ident hk fun value => by cases value <;> assumption
    · next hk =>
      simp only [reads_bind, reads_pure, expect_reads] at h
      obtain ⟨e', _, he, rparen, _, ⟨rfl, hr⟩, rfl, rfl⟩ := h
      exact .parens hk he hr
    · exact absurd h not_reads_fail
  · intro h
    cases h with
    | call hk hc =>
      simp only [readAtom, hk, reads_bind, reads_pure, Parsed.relax, Parsed.map]
      exact ⟨_, _, hc, rfl, rfl⟩
    | number hk hv => simp [readAtom, hk, hv, reads_ok]
    | string hk => simp [readAtom, hk, reads_ok]
    | @truth t value hk h =>
      cases value <;> simp [readAtom, hk, h, spelling, reads_ok]
    | ident hk h =>
      have ht := h true
      have hf := h false
      simp only [spelling] at ht hf
      simp [readAtom, hk, ht, hf, reads_ok]
    | parens hk he hr =>
      simp only [readAtom, hk, reads_bind, reads_pure, expect_reads]
      exact ⟨_, _, he, _, _, ⟨rfl, hr⟩, rfl, rfl⟩

/-! ## Lists -/

/-- What reading a parameter takes. -/
theorem readParam_reads {p : Tree.Param} :
    Reads (readParam eof ts) p rest ↔ ∃ colon, ts = p.name :: colon :: p.type.token :: rest ∧
      p.name.kind = .ident ∧ colon.kind = .delimiter .colon ∧
      p.type.token.kind.isType = true := by
  simp only [readParam, reads_bind, reads_pure, expect_reads, readType_reads]
  constructor
  · rintro ⟨name, _, ⟨rfl, hname⟩, colon, _, ⟨rfl, hcolon⟩, type, _, ⟨rfl, htype⟩, rfl, rfl⟩
    exact ⟨colon, rfl, hname, hcolon, htype⟩
  · rintro ⟨colon, rfl, hname, hcolon, htype⟩
    exact ⟨p.name, _, ⟨rfl, hname⟩, colon, _, ⟨rfl, hcolon⟩, p.type, _, ⟨rfl, htype⟩, rfl, rfl⟩

/-- Reading a list, without the measure that shows that it ends. -/
theorem readSeries_eq (i : Item) (first : Bool) : readSeries eof i first ts = (do
    if (current eof ts).kind = .delimiter .rparen then
      let close ← expect (.delimiter .rparen) eof ts
      return close.map fun _ => []
    else if first then
      let v ← readElement eof i ts
      let more ← readSeries eof i false v.rest
      return (more.map (v.value :: ·)).relax (Nat.le_of_lt v.lt)
    else
      let comma ← expect (.delimiter .comma) eof ts
      let v ← readElement eof i comma.rest
      let more ← readSeries eof i false v.rest
      return (more.map (v.value :: ·)).relax (Nat.le_of_lt (Nat.lt_trans v.lt comma.lt))) := by
  cases i with
  | arg => exact readArgs.eq_def eof first ts
  | param => exact readParams.eq_def eof first ts

/-- A list ends with a closing parenthesis. -/
theorem readSeries_close {i : Item} {first : Bool} {vs : List i.Value}
    (hc : (current eof ts).kind = .delimiter .rparen) :
    Reads (readSeries eof i first ts) vs rest ↔
      [] = vs ∧ ∃ rparen, ts = rparen :: rest ∧ rparen.kind = .delimiter .rparen := by
  rw [readSeries_eq]
  simp only [if_pos hc, reads_bind, reads_pure, Parsed.map, expect_reads]
  simp

/-- Otherwise it goes on with a member. -/
theorem readSeries_first {i : Item} {vs : List i.Value}
    (hc : (current eof ts).kind ≠ .delimiter .rparen) :
    Reads (readSeries eof i true ts) vs rest ↔ ∃ v ws mid, v :: ws = vs ∧
      Reads (readElement eof i ts) v mid ∧ Reads (readSeries eof i false mid) ws rest := by
  rw [readSeries_eq]
  simp only [if_neg hc, if_true, reads_bind, reads_pure, Parsed.map, Parsed.relax]
  constructor
  · rintro ⟨v, mid, hv, ws, _, hws, rfl, rfl⟩
    exact ⟨v, ws, mid, rfl, hv, hws⟩
  · rintro ⟨v, ws, mid, rfl, hv, hws⟩
    exact ⟨v, mid, hv, ws, _, hws, rfl, rfl⟩

/-- After a member there is a comma first. -/
theorem readSeries_next {i : Item} {vs : List i.Value}
    (hc : (current eof ts).kind ≠ .delimiter .rparen) :
    Reads (readSeries eof i false ts) vs rest ↔ ∃ comma more v ws mid, ts = comma :: more ∧
      comma.kind = .delimiter .comma ∧ v :: ws = vs ∧ Reads (readElement eof i more) v mid ∧
      Reads (readSeries eof i false mid) ws rest := by
  rw [readSeries_eq]
  simp only [if_neg hc, Bool.false_eq_true, if_false, reads_bind, reads_pure, Parsed.map,
    Parsed.relax, expect_reads]
  constructor
  · rintro ⟨comma, more, ⟨rfl, hcomma⟩, v, mid, hv, ws, _, hws, rfl, rfl⟩
    exact ⟨comma, more, v, ws, mid, rfl, hcomma, rfl, hv, hws⟩
  · rintro ⟨comma, more, v, ws, mid, rfl, hcomma, rfl, hv, hws⟩
    exact ⟨comma, more, ⟨rfl, hcomma⟩, v, mid, hv, ws, _, hws, rfl, rfl⟩

/-! ## Statements -/

/-- What reading a statement takes. -/
inductive StmtReads (eof : Token) (rest : List Token) : List Token → Tree.Stmt → Prop where
  | ret {t semi : Token} {more : List Token} {value : Tree.Expr} (hk : t.kind = .keyword .ret)
      (hv : Reads (readPhrase eof .expr more) value (semi :: rest))
      (hs : semi.kind = .delimiter .semicolon) : StmtReads eof rest (t :: more) (.ret t value)
  | cond {t lbrace : Token} {more mid : List Token} {test : Tree.Expr} {body : List Tree.Stmt}
      (hk : t.kind = .keyword .cond) (ht : Reads (readPhrase eof .expr more) test (lbrace :: mid))
      (hl : lbrace.kind = .delimiter .lbrace) (hb : Reads (readStmts eof mid) body rest) :
      StmtReads eof rest (t :: more) (.cond t test lbrace body)
  | assign {t eq semi : Token} {more : List Token} {value : Tree.Expr} (hk : t.kind = .ident)
      (he : eq.kind = .operator .assign)
      (hv : Reads (readPhrase eof .expr more) value (semi :: rest))
      (hs : semi.kind = .delimiter .semicolon) :
      StmtReads eof rest (t :: eq :: more) (.assign t value)
  | print {t lparen semi : Token} {more : List Token} {args : List Tree.Expr}
      (hk : t.kind = .keyword .print) (hl : lparen.kind = .delimiter .lparen)
      (ha : Reads (readSeries eof .arg true more) args (semi :: rest))
      (hs : semi.kind = .delimiter .semicolon) :
      StmtReads eof rest (t :: lparen :: more) (.print t args)
  | decl {t eq semi : Token} {more mid : List Token} {param : Tree.Param} {value : Tree.Expr}
      (hk : t.kind = .keyword .var) (hp : Reads (readParam eof more) param (eq :: mid))
      (he : eq.kind = .operator .assign)
      (hv : Reads (readPhrase eof .expr mid) value (semi :: rest))
      (hs : semi.kind = .delimiter .semicolon) :
      StmtReads eof rest (t :: more) (.decl t param value)
  | call {t semi : Token} {more : List Token} {c : String × List Tree.Expr}
      (hk : t.kind = .operator .arrow) (hc : Reads (readCall eof more) c (semi :: rest))
      (hs : semi.kind = .delimiter .semicolon) : StmtReads eof rest (t :: more) (.call t c.1 c.2)

/-- What reading a statement takes. There is one case for each kind of token it may start with. -/
theorem readStmt_reads {s : Tree.Stmt} :
    Reads (readStmt eof ts) s rest ↔ StmtReads eof rest ts s := by
  constructor
  · intro h
    rcases ts with _ | ⟨t, ts⟩
    · exact absurd h (by simp [readStmt, not_reads_fail])
    rw [readStmt] at h
    split at h
    · next hk =>
      simp only [reads_bind, reads_pure, expect_reads] at h
      obtain ⟨value, _, hv, semi, _, ⟨rfl, hs⟩, rfl, rfl⟩ := h
      exact .ret hk hv hs
    · next hk =>
      simp only [reads_bind, reads_pure, expect_reads, Parsed.map, Parsed.relax] at h
      obtain ⟨test, _, ht, lbrace, mid, ⟨rfl, hl⟩, body, _, hb, rfl, rfl⟩ := h
      exact .cond hk ht hl hb
    · next hk =>
      simp only [reads_bind, reads_pure, expect_reads] at h
      obtain ⟨eq, _, ⟨rfl, he⟩, value, _, hv, semi, _, ⟨rfl, hs⟩, rfl, rfl⟩ := h
      exact .assign hk he hv hs
    · next hk =>
      simp only [reads_bind, reads_pure, expect_reads] at h
      obtain ⟨lparen, _, ⟨rfl, hl⟩, args, _, ha, semi, _, ⟨rfl, hs⟩, rfl, rfl⟩ := h
      exact .print hk hl ha hs
    · next hk =>
      simp only [reads_bind, reads_pure, expect_reads] at h
      obtain ⟨param, _, hp, eq, mid, ⟨rfl, he⟩, value, _, hv, semi, _, ⟨rfl, hs⟩, rfl, rfl⟩ := h
      exact .decl hk hp he hv hs
    · next hk =>
      simp only [reads_bind, reads_pure, expect_reads] at h
      obtain ⟨c, _, hc, semi, _, ⟨rfl, hs⟩, rfl, rfl⟩ := h
      exact .call hk hc hs
    · exact absurd h not_reads_fail
  · intro h
    cases h with
    | ret hk hv hs =>
      simp only [readStmt, hk, reads_bind, reads_pure, expect_reads]
      exact ⟨_, _, hv, _, _, ⟨rfl, hs⟩, rfl, rfl⟩
    | cond hk ht hl hb =>
      simp only [readStmt, hk, reads_bind, reads_pure, expect_reads, Parsed.map, Parsed.relax]
      exact ⟨_, _, ht, _, _, ⟨rfl, hl⟩, _, _, hb, rfl, rfl⟩
    | assign hk he hv hs =>
      simp only [readStmt, hk, reads_bind, reads_pure, expect_reads]
      exact ⟨_, _, ⟨rfl, he⟩, _, _, hv, _, _, ⟨rfl, hs⟩, rfl, rfl⟩
    | print hk hl ha hs =>
      simp only [readStmt, hk, reads_bind, reads_pure, expect_reads]
      exact ⟨_, _, ⟨rfl, hl⟩, _, _, ha, _, _, ⟨rfl, hs⟩, rfl, rfl⟩
    | decl hk hp he hv hs =>
      simp only [readStmt, hk, reads_bind, reads_pure, expect_reads]
      exact ⟨_, _, hp, _, _, ⟨rfl, he⟩, _, _, hv, _, _, ⟨rfl, hs⟩, rfl, rfl⟩
    | call hk hc hs =>
      simp only [readStmt, hk, reads_bind, reads_pure, expect_reads]
      exact ⟨_, _, hc, _, _, ⟨rfl, hs⟩, rfl, rfl⟩

/-- A block ends with a closing brace. -/
theorem readStmts_close {ss : List Tree.Stmt} (hc : (current eof ts).kind = .delimiter .rbrace) :
    Reads (readStmts eof ts) ss rest ↔
      [] = ss ∧ ∃ rbrace, ts = rbrace :: rest ∧ rbrace.kind = .delimiter .rbrace := by
  rw [readStmts]
  simp only [if_pos hc, reads_bind, reads_pure, Parsed.map, expect_reads]
  simp

/-- Otherwise it goes on with a statement, and not with the end of input. -/
theorem readStmts_cons {ss : List Tree.Stmt} (hc : (current eof ts).kind ≠ .delimiter .rbrace) :
    Reads (readStmts eof ts) ss rest ↔ (current eof ts).kind ≠ .eof ∧ ∃ s more mid,
      s :: more = ss ∧ Reads (readStmt eof ts) s mid ∧ Reads (readStmts eof mid) more rest := by
  rw [readStmts]
  simp only [if_neg hc]
  by_cases he : (current eof ts).kind = .eof
  · simp [he, not_reads_fail]
  · simp only [if_neg he, reads_bind, reads_pure, Parsed.map, Parsed.relax]
    constructor
    · rintro ⟨s, mid, hs, more, _, hm, rfl, rfl⟩
      exact ⟨he, s, more, mid, rfl, hs, hm⟩
    · rintro ⟨-, s, more, mid, rfl, hs, hm⟩
      exact ⟨s, mid, hs, more, _, hm, rfl, rfl⟩

/-! ## Functions -/

/-- What reading a result type takes: nothing, or an arrow and a type. -/
theorem readReturns_reads {r : Option TypeName} :
    Reads (readReturns eof ts) r rest ↔
      (none = r ∧ ts = rest ∧ ∀ t ∈ ts.head?, t.kind ≠ .operator .arrow) ∨
      ∃ arrow t, some t = r ∧ ts = arrow :: t.token :: rest ∧ arrow.kind = .operator .arrow ∧
        t.token.kind.isType = true := by
  rcases ts with _ | ⟨t, ts⟩
  · simp [readReturns, reads_ok]
  rw [readReturns]
  split
  · next hk =>
    simp only [reads_bind, reads_pure, Parsed.map, Parsed.relax, readType_reads]
    simp [hk]
  · next hk =>
    simp [reads_ok, hk]

/-- What reading a function takes. -/
theorem readFunction_reads {f : Tree.Function} :
    Reads (readFunction eof ts) f rest ↔ ∃ name lparen mid mid' mid'',
      ts = f.start :: name :: lparen :: mid ∧ f.start.kind = .keyword .function ∧
      name.kind = .ident ∧ name.lexeme = f.name ∧ lparen.kind = .delimiter .lparen ∧
      Reads (readSeries eof .param true mid) f.params mid' ∧
      Reads (readReturns eof mid') f.returns (f.brace :: mid'') ∧
      f.brace.kind = .delimiter .lbrace ∧ Reads (readStmts eof mid'') f.body rest := by
  simp only [readFunction, reads_bind, reads_pure, expect_reads]
  constructor
  · rintro ⟨start, _, ⟨rfl, hstart⟩, name, _, ⟨rfl, hname⟩, lparen, _, ⟨rfl, hl⟩, params, _, hp,
      returns, _, hr, brace, _, ⟨rfl, hb⟩, body, _, hbody, rfl, rfl⟩
    exact ⟨name, lparen, _, _, _, rfl, hstart, hname, rfl, hl, hp, hr, hb, hbody⟩
  · rintro ⟨name, lparen, _, _, _, rfl, hstart, hname, hlex, hl, hp, hr, hb, hbody⟩
    refine ⟨_, _, ⟨rfl, hstart⟩, name, _, ⟨rfl, hname⟩, lparen, _, ⟨rfl, hl⟩, _, _, hp,
      _, _, hr, _, _, ⟨rfl, hb⟩, _, _, hbody, ?_, rfl⟩
    rw [hlex]

/-- A program ends with the end of input. -/
theorem readFunctions_eof (h : (current eof ts).kind = .eof) : readFunctions eof ts = .ok [] := by
  rw [readFunctions]
  simp only [if_pos h]
  rfl

/-- Otherwise it goes on with a function. -/
theorem readFunctions_cons {fs : List Tree.Function} (h : (current eof ts).kind ≠ .eof) :
    readFunctions eof ts = .ok fs ↔ ∃ f more mid, f :: more = fs ∧
      Reads (readFunction eof ts) f mid ∧ readFunctions eof mid = .ok more := by
  rw [readFunctions]
  simp only [if_neg h, bind_eq_ok, pure_eq_ok]
  constructor
  · rintro ⟨⟨f, mid, hlt⟩, hf, more, hmore, rfl⟩
    exact ⟨f, more, mid, rfl, ⟨hlt, hf⟩, hmore⟩
  · rintro ⟨f, more, mid, rfl, ⟨hlt, hf⟩, hmore⟩
    exact ⟨⟨f, mid, hlt⟩, hf, more, hmore, rfl⟩

end Stackling.Grammar
