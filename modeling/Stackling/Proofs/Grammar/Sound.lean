import Stackling.Proofs.Grammar.Boundary
import Stackling.Proofs.Grammar.Reading
import Stackling.Proofs.Token

/-!
# What is read was derived

Whatever a reader takes off a list of tokens has a derivation: its yield is what was taken, and its
tree is what was read. The tokens are those of a text, as only then a number that fits is one of the
grammar.

The readers call one another on ever fewer tokens, and on the same tokens for ever tighter phrases;
the induction is on both.
-/

namespace Stackling.Grammar

open Stackling.Tree

variable {eof : Token}

/-- A number that fits is one of the grammar. -/
theorem exists_number {t : Token} {v : Int32} (ht : t.Plain) (hk : t.kind = .number)
    (h : int32? t.lexeme = some v) :
    ∃ n : Number, n.token = t ∧ Int32.ofNat (numeral t.lexeme.toList) = v := by
  have hne := ht.nonempty hk
  have hd := ht.digits hk
  rw [int32?_of_digits hne hd] at h
  split at h
  · next hsmall => exact ⟨⟨t, hk, ⟨hne, hd⟩, hsmall⟩, rfl, Option.some.inj h⟩
  · cases h

/-- A parameter that was read has a derivation. -/
theorem exists_param {ts rest : List Token} {p : Tree.Param} (h : Reads (readParam eof ts) p rest) :
    ∃ d : Param, d.yield ++ rest = ts ∧ d.tree = p := by
  obtain ⟨colon, rfl, hname, hcolon, htype⟩ := readParam_reads.mp h
  exact ⟨⟨⟨p.name, hname⟩, ⟨colon, hcolon⟩, ⟨p.type.token, htype⟩⟩, rfl, rfl⟩

mutual

/-- A phrase that was read has a derivation. There is one case for each rank, and for operands one
for each kind of token they start with. -/
theorem exists_phrase {r : Rank} {ts rest : List Token} {e : Tree.Expr}
    (hts : Token.AllPlain ts) (h : Reads (readPhrase eof r ts) e rest) :
    ∃ d : Phrase r, d.yield ++ rest = ts ∧ d.tree = e := by
  match r with
  | .chain j =>
    obtain ⟨left, mid, hleft, htail⟩ := readChain_reads.mp h
    have hlt := hleft.lt
    -- the operand is read from the same tokens, but as a tighter phrase
    have hfloor : 4 - j.operand.floor < 4 - (Rank.chain j).floor := by cases j <;> decide
    obtain ⟨first, rfl, rfl⟩ := exists_phrase hts hleft
    obtain ⟨tail, rfl, rfl⟩ := exists_tail hts.right htail
    exact ⟨.chain first tail, by rw [Phrase.yield, List.append_assoc], rfl⟩
  | .relation =>
    obtain ⟨left, mid, hleft, ⟨-, rfl, rfl⟩ | ⟨t, more, op, right, rfl, hop, rfl, hright⟩⟩ :=
      readRelation_reads.mp h
    · obtain ⟨term, rfl, rfl⟩ := exists_phrase hts hleft
      exact ⟨.single term, rfl, rfl⟩
    · have hlt := hleft.lt
      obtain ⟨hk, hl⟩ := binaryOp?_eq_some.mp hop
      obtain ⟨left', rfl, rfl⟩ := exists_phrase hts hleft
      obtain ⟨right', rfl, rfl⟩ := exists_phrase hts.right.tail hright
      exact ⟨.comparison left' ⟨t, op, hk, hl⟩ right', by simp [Phrase.yield], rfl⟩
  | .atom =>
    cases readAtom_reads.mp h with
    | @call t more c hk hc =>
      obtain ⟨name, lparen, args, hy, rfl⟩ := exists_call hk hts.tail hc
      exact ⟨.call (.mk ⟨t, hk⟩ name lparen args), hy, rfl⟩
    | @number t v hk hv =>
      obtain ⟨n, rfl, rfl⟩ := exists_number hts.head hk hv
      exact ⟨.number n, rfl, rfl⟩
    | @string t hk => exact ⟨.string ⟨t, hk⟩, rfl, rfl⟩
    | @truth t value hk ht => exact ⟨.truth value ⟨t, hk⟩ ht, rfl, rfl⟩
    | @ident t hk ht => exact ⟨.ident ⟨t, hk⟩ ht, rfl, rfl⟩
    | @parens t rparen more e hk he hr =>
      obtain ⟨inner, rfl, rfl⟩ := exists_phrase hts.tail he
      exact ⟨.parens ⟨t, hk⟩ inner ⟨rparen, hr⟩, by simp [Phrase.yield], rfl⟩
termination_by (ts.length, 4 - r.floor)
decreasing_by
  -- either the phrase is tighter or there are fewer tokens
  all_goals subst_vars
  · exact .right _ hfloor
  · exact .left _ _ hlt
  · exact .right _ (by decide)
  · exact .right _ (by decide)
  · exact .left _ _ (Nat.lt_of_succ_lt hlt)
  · exact .left _ _ (Nat.lt_succ_self _)
  · exact .left _ _ (Nat.lt_succ_self _)

/-- Operators and operands that were read have a derivation. -/
theorem exists_tail {j : Joint} {ts rest : List Token} {left e : Tree.Expr}
    (hts : Token.AllPlain ts) (h : Reads (readTail eof j left ts) e rest) :
    ∃ d : Tail j, d.yield ++ rest = ts ∧ d.tree left = e := by
  rcases noOp_or j.level ts with hno | ⟨t, more, op, rfl, hop⟩
  · obtain ⟨rfl, rfl⟩ := (readTail_of_noOp hno).mp h
    exact ⟨.nil, rfl, rfl⟩
  · obtain ⟨right, mid, hright, hmid⟩ := (readTail_of_op hop).mp h
    have hlt := hright.lt
    obtain ⟨hk, hl⟩ := binaryOp?_eq_some.mp hop
    obtain ⟨operand, rfl, rfl⟩ := exists_phrase hts.tail hright
    obtain ⟨tail, rfl, rfl⟩ := exists_tail hts.tail.right hmid
    exact ⟨.cons ⟨t, op, hk, hl⟩ operand tail, by simp [Tail.yield], rfl⟩
termination_by (ts.length, 0)
decreasing_by
  all_goals subst_vars
  · exact .left _ _ (Nat.lt_succ_self _)
  · exact .left _ _ (Nat.lt_succ_of_lt hlt)

/-- A call that was read has a derivation, with the arrow in front of it. -/
theorem exists_call {t : Token} {ts rest : List Token} {c : String × List Tree.Expr}
    (hk : t.kind = .operator .arrow) (hts : Token.AllPlain ts)
    (h : Reads (readCall eof ts) c rest) :
    ∃ (name : Terminal .ident) (lparen : Mark .lparen) (args : Series .arg true),
      (Call.mk ⟨t, hk⟩ name lparen args).yield ++ rest = t :: ts ∧
        (name.1.lexeme, args.tree) = c := by
  obtain ⟨name, lparen, mid, args, rfl, hname, hlparen, hargs, rfl⟩ := readCall_reads.mp h
  obtain ⟨args', rfl, rfl⟩ := exists_series hts.tail.tail hargs
  exact ⟨⟨name, hname⟩, ⟨lparen, hlparen⟩, args', rfl, rfl⟩
termination_by (ts.length, 0)
decreasing_by
  subst_vars
  exact .left _ _ (Nat.lt_succ_of_lt (Nat.lt_succ_self _))

/-- An item of a list that was read has a derivation. -/
theorem exists_element {i : Item} {ts rest : List Token} {v : i.Value}
    (hts : Token.AllPlain ts) (h : Reads (readElement eof i ts) v rest) :
    ∃ d : Element i, d.yield ++ rest = ts ∧ d.tree = v := by
  match i with
  | .arg =>
    obtain ⟨d, rfl, rfl⟩ := exists_phrase (r := .expr) hts h
    exact ⟨.arg d, rfl, rfl⟩
  | .param =>
    obtain ⟨d, rfl, rfl⟩ := exists_param h
    exact ⟨.param d, rfl, rfl⟩
termination_by (ts.length, 5)
decreasing_by exact .right _ (by decide)

/-- A list that was read has a derivation. -/
theorem exists_series {i : Item} {first : Bool} {ts rest : List Token} {vs : List i.Value}
    (hts : Token.AllPlain ts) (h : Reads (readSeries eof i first ts) vs rest) :
    ∃ d : Series i first, d.yield ++ rest = ts ∧ d.tree = vs := by
  by_cases hc : (current eof ts).kind = .delimiter .rparen
  · obtain ⟨rfl, rparen, rfl, hr⟩ := (readSeries_close hc).mp h
    exact ⟨.close ⟨rparen, hr⟩, rfl, rfl⟩
  match first with
  | true =>
    obtain ⟨v, ws, mid, rfl, hv, hws⟩ := (readSeries_first hc).mp h
    have hlt := hv.lt
    obtain ⟨item, rfl, rfl⟩ := exists_element hts hv
    obtain ⟨more, rfl, rfl⟩ := exists_series hts.right hws
    exact ⟨.first item more, by rw [Series.yield, List.append_assoc], rfl⟩
  | false =>
    obtain ⟨comma, mid, v, ws, mid', rfl, hcomma, rfl, hv, hws⟩ := (readSeries_next hc).mp h
    have hlt := hv.lt
    obtain ⟨item, rfl, rfl⟩ := exists_element hts.tail hv
    obtain ⟨more, rfl, rfl⟩ := exists_series hts.tail.right hws
    exact ⟨.next ⟨comma, hcomma⟩ item more, by simp [Series.yield], rfl⟩
termination_by (ts.length, 6)
decreasing_by
  all_goals subst_vars
  · exact .right _ (by decide)
  · exact .left _ _ hlt
  · exact .left _ _ (Nat.lt_succ_self _)
  · exact .left _ _ (Nat.lt_succ_of_lt hlt)

end

mutual

/-- A statement that was read has a derivation. -/
theorem exists_stmt {ts rest : List Token} {s : Tree.Stmt} (hts : Token.AllPlain ts)
    (h : Reads (readStmt eof ts) s rest) : ∃ d : Stmt, d.yield ++ rest = ts ∧ d.tree = s := by
  cases readStmt_reads.mp h with
  | @ret t semi more value hk hv hs =>
    obtain ⟨value', rfl, rfl⟩ := exists_phrase hts.tail hv
    exact ⟨.ret ⟨t, hk⟩ value' ⟨semi, hs⟩, by simp [Stmt.yield], rfl⟩
  | @cond t lbrace more mid test body hk ht hl hb =>
    have hlt := ht.lt
    obtain ⟨test', rfl, rfl⟩ := exists_phrase hts.tail ht
    obtain ⟨body', rfl, rfl⟩ := exists_body hts.tail.right.tail hb
    exact ⟨.cond ⟨t, hk⟩ test' ⟨lbrace, hl⟩ body', by simp [Stmt.yield], rfl⟩
  | @assign t eq semi more value hk he hv hs =>
    obtain ⟨value', rfl, rfl⟩ := exists_phrase hts.tail.tail hv
    exact ⟨.assign ⟨t, hk⟩ ⟨eq, he⟩ value' ⟨semi, hs⟩, by simp [Stmt.yield], rfl⟩
  | @print t lparen semi more args hk hl ha hs =>
    obtain ⟨args', rfl, rfl⟩ := exists_series hts.tail.tail ha
    exact ⟨.print ⟨t, hk⟩ ⟨lparen, hl⟩ args' ⟨semi, hs⟩, by simp [Stmt.yield], rfl⟩
  | @decl t eq semi more mid param value hk hp he hv hs =>
    obtain ⟨param', rfl, rfl⟩ := exists_param hp
    obtain ⟨value', rfl, rfl⟩ := exists_phrase hts.tail.right.tail hv
    exact ⟨.decl ⟨t, hk⟩ param' ⟨eq, he⟩ value' ⟨semi, hs⟩, by simp [Stmt.yield], rfl⟩
  | @call t semi more c hk hc hs =>
    obtain ⟨name, lparen, args, hy, rfl⟩ := exists_call hk hts.tail hc
    refine ⟨.call (.mk ⟨t, hk⟩ name lparen args) ⟨semi, hs⟩, ?_, rfl⟩
    rw [← hy, Stmt.yield, List.append_assoc]
    rfl
termination_by (ts.length, 0)
decreasing_by
  subst_vars
  exact .left _ _ (Nat.lt_succ_of_lt (Nat.lt_of_succ_lt hlt))

/-- A block that was read has a derivation. -/
theorem exists_body {ts rest : List Token} {ss : List Tree.Stmt} (hts : Token.AllPlain ts)
    (h : Reads (readStmts eof ts) ss rest) : ∃ d : Body, d.yield ++ rest = ts ∧ d.tree = ss := by
  by_cases hc : (current eof ts).kind = .delimiter .rbrace
  · obtain ⟨rfl, rbrace, rfl, hr⟩ := (readStmts_close hc).mp h
    exact ⟨.close ⟨rbrace, hr⟩, rfl, rfl⟩
  · obtain ⟨-, s, more, mid, rfl, hs, hm⟩ := (readStmts_cons hc).mp h
    have hlt := hs.lt
    obtain ⟨s', rfl, rfl⟩ := exists_stmt hts hs
    obtain ⟨more', rfl, rfl⟩ := exists_body hts.right hm
    exact ⟨.cons s' more', by rw [Body.yield, List.append_assoc], rfl⟩
termination_by (ts.length, 1)
decreasing_by
  all_goals subst_vars
  · exact .right _ Nat.zero_lt_one
  · exact .left _ _ hlt

end

/-- A result type that was read has a derivation. -/
theorem exists_returns {ts rest : List Token} {r : Option TypeName}
    (h : Reads (readReturns eof ts) r rest) :
    ∃ d, returnsYield d ++ rest = ts ∧ d.map (fun r => ⟨r.2.1⟩) = r := by
  rcases readReturns_reads.mp h with ⟨rfl, rfl, -⟩ | ⟨arrow, t, rfl, rfl, ha, ht⟩
  · exact ⟨none, rfl, rfl⟩
  · exact ⟨some (⟨arrow, ha⟩, ⟨t.token, ht⟩), rfl, rfl⟩

/-- A function that was read has a derivation. -/
theorem exists_function {ts rest : List Token} {f : Tree.Function} (hts : Token.AllPlain ts)
    (h : Reads (readFunction eof ts) f rest) :
    ∃ d : Function, d.yield ++ rest = ts ∧ d.tree = f := by
  obtain ⟨name, lparen, mid, mid', mid'', rfl, hstart, hname, hlex, hl, hp, hr, hb, hbody⟩ :=
    readFunction_reads.mp h
  obtain ⟨start, fname, params, returns, brace, body⟩ := f
  simp only at hstart hlex hp hr hb hbody
  obtain ⟨params', rfl, rfl⟩ := exists_series hts.tail.tail.tail hp
  obtain ⟨returns', rfl, rfl⟩ := exists_returns hr
  obtain ⟨body', rfl, rfl⟩ := exists_body hts.tail.tail.tail.right.right.tail hbody
  subst hlex
  exact ⟨⟨⟨start, hstart⟩, ⟨name, hname⟩, ⟨lparen, hl⟩, params', returns', ⟨brace, hb⟩, body'⟩,
    by simp [Function.yield], rfl⟩

/-! ## Whole texts -/

/-- No token of a text is an end of input, so that the reader sees one only behind all tokens. -/
theorem current_eof_iff {ts : List Token} (heof : eof.kind = .eof) (hts : Token.AllPlain ts) :
    (current eof ts).kind = .eof ↔ ts = [] := by
  rcases ts with _ | ⟨t, ts⟩
  · simpa [current] using heof
  · simpa [current] using hts.head.ne_eof

/-- **What is read was derived**: functions that are read up to the end of input have derivations,
which yield all the tokens. -/
theorem exists_functions {ts : List Token} {fs : List Tree.Function} (heof : eof.kind = .eof)
    (hts : Token.AllPlain ts) (h : readFunctions eof ts = .ok fs) :
    ∃ ds : List Function, ds.flatMap Function.yield = ts ∧ ds.map Function.tree = fs := by
  by_cases hc : (current eof ts).kind = .eof
  · obtain rfl := (current_eof_iff heof hts).mp hc
    rw [readFunctions_eof hc] at h
    cases h
    exact ⟨[], rfl, rfl⟩
  · obtain ⟨f, more, mid, rfl, hf, hmore⟩ := (readFunctions_cons hc).mp h
    have hlt := hf.lt
    obtain ⟨d, rfl, rfl⟩ := exists_function hts hf
    obtain ⟨ds, rfl, rfl⟩ := exists_functions heof hts.right hmore
    exact ⟨d :: ds, rfl, rfl⟩
termination_by ts.length

end Stackling.Grammar
