import Stackling.Proofs.Grammar.Boundary
import Stackling.Proofs.Grammar.Reading

/-!
# What is derived is read

A reader that is given the yield of a derivation, followed by tokens that end what it reads, takes
the yield and gives back the tree of the derivation. What follows is arbitrary otherwise, which is
what the induction on the derivation needs: a part is followed by the rest of the whole.
-/

namespace Stackling.Grammar

open Stackling.Tree

variable {eof : Token} {rest : List Token}

/-! ## Terminals -/

/-- If nothing that follows binds as tight as `n`, no operator of the level `l` follows. -/
theorem noOp_of_closes {l : Level} {n : Nat} (h : Closes n rest) (hn : n ≤ l.index) :
    NoOp l rest := by
  intro t ht
  cases hop : binaryOp? l t with
  | none => rfl
  | some op =>
    obtain ⟨hk, rfl⟩ := binaryOp?_eq_some.mp hop
    exact absurd (h t ht op hk) (Nat.not_lt.mpr hn)

/-- An operator token of the grammar is recognized as its operator. -/
theorem OpToken.binaryOp?_token {l : Level} (op : OpToken l) : binaryOp? l op.token = some op.op :=
  binaryOp?_eq_some.mpr ⟨op.kind_eq, op.level_eq⟩

/-- The digits of a number of the grammar are read as the number they spell. It fits, by the
definition of `Number`. -/
theorem Number.int32?_lexeme (n : Number) :
    int32? n.token.lexeme = some (Int32.ofNat (numeral n.token.lexeme.toList)) := by
  rw [int32?_of_digits n.digits.1 n.digits.2, if_pos n.small]

/-- A parameter is read from what it yields. -/
theorem Param.reads (p : Param) : Reads (readParam eof (p.yield ++ rest)) p.tree rest :=
  readParam_reads.mpr ⟨p.colon.1, rfl, p.name.2, p.colon.2, p.type.2⟩

/-! ## First tokens -/

/-- The first token decides what the reader looks at. -/
theorem Starts.current_kind {k : Kind} {ts : List Token} (h : Starts k ts) :
    (current eof ts).kind = k := by
  obtain ⟨t, more, rfl, hk⟩ := h
  exact hk

/-- No item of a list starts with a closing parenthesis, and so the reader does not take it for the
end. -/
theorem Element.current_ne {i : Item} (d : Element i) :
    (current eof (d.yield ++ rest)).kind ≠ .delimiter .rparen := by
  obtain ⟨k, hk, hne⟩ := d.exists_starts
  rwa [hk.append.current_kind]

/-! ## Expressions -/

mutual

/-- A phrase is read from what it yields, if what follows cannot be taken for a continuation of it.
The condition is needed: behind `1` the reader would go on with `+ 2`. The induction is on the
derivation, in parallel for all kinds of phrases. -/
theorem Phrase.reads {r : Rank} (d : Phrase r) {rest : List Token} (h : Closes r.floor rest) :
    Reads (readPhrase eof r (d.yield ++ rest)) d.tree rest := by
  match r, d with
  | .chain j, .chain first tail =>
    rw [Phrase.yield, List.append_assoc, readChain_reads]
    exact ⟨_, _, first.reads (tail.closes h), tail.reads first.tree h⟩
  | .relation, .single term =>
    rw [readRelation_reads]
    -- what ends a relation is no comparison, so the term is all of it
    refine ⟨_, _, term.reads (h.mono (Nat.le_succ _)), .inl ⟨?_, rfl, rfl⟩⟩
    exact noOp_of_closes h (Nat.le_refl _)
  | .relation, .comparison left op right =>
    rw [Phrase.yield, List.append_assoc, readRelation_reads]
    refine ⟨_, _, left.reads ((closes_op op).mpr (Nat.lt_succ_self _)), .inr ?_⟩
    exact ⟨_, _, _, _, rfl, op.binaryOp?_token, rfl, right.reads (h.mono (Nat.le_succ _))⟩
  | .atom, .call (.mk arrow name lparen args) =>
    refine readAtom_reads.mpr (.call (c := (name.1.lexeme, args.tree)) arrow.2 ?_)
    exact readCall_reads.mpr ⟨_, _, _, _, rfl, name.2, lparen.2, args.reads, rfl⟩
  | .atom, .number n => exact readAtom_reads.mpr (.number n.kind_eq n.int32?_lexeme)
  | .atom, .string t => exact readAtom_reads.mpr (.string t.2)
  | .atom, .truth value t ht => exact readAtom_reads.mpr (.truth t.2 ht)
  | .atom, .ident t ht => exact readAtom_reads.mpr (.ident t.2 ht)
  | .atom, .parens lparen inner rparen =>
    rw [Phrase.yield, List.cons_append, List.append_assoc]
    exact readAtom_reads.mpr (.parens lparen.2 (inner.reads (closes_mark rparen)) rparen.2)
termination_by structural d

/-- Operators and operands behind a left operand. The tree is built up to the left, so the reader
gets what it has read so far. -/
theorem Tail.reads {j : Joint} (d : Tail j) (left : Tree.Expr) {rest : List Token}
    (h : Closes j.level.index rest) :
    Reads (readTail eof j left (d.yield ++ rest)) (d.tree left) rest := by
  match d with
  | .nil => exact (readTail_of_noOp (noOp_of_closes h (Nat.le_refl _))).mpr ⟨rfl, rfl⟩
  | .cons op operand more =>
    rw [Tail.yield, List.cons_append, List.append_assoc, readTail_of_op op.binaryOp?_token]
    exact ⟨_, _, operand.reads (more.closes h), more.reads _ h⟩
termination_by structural d

/-- An item of a list. What follows it is a comma or a parenthesis, which closes every phrase. -/
theorem Element.reads {i : Item} (d : Element i) {rest : List Token} (h : Closes 0 rest) :
    Reads (readElement eof i (d.yield ++ rest)) d.tree rest := by
  match i, d with
  | .arg, .arg e => exact e.reads h
  | .param, .param p => exact p.reads
termination_by structural d

/-- A list brings its own end, and so whatever may follow. -/
theorem Series.reads {i : Item} {first : Bool} (d : Series i first) {rest : List Token} :
    Reads (readSeries eof i first (d.yield ++ rest)) d.tree rest := by
  match first, d with
  | _, .close rparen =>
    exact (readSeries_close (starts_terminal rparen).current_kind).mpr ⟨rfl, _, rfl, rparen.2⟩
  | true, .first item more =>
    rw [Series.yield, List.append_assoc, readSeries_first item.current_ne]
    exact ⟨_, _, _, rfl, item.reads more.closes, more.reads⟩
  | false, .next comma item more =>
    rw [Series.yield, List.cons_append, List.append_assoc,
      readSeries_next (by rw [(starts_terminal comma).current_kind]; nofun)]
    exact ⟨_, _, _, _, _, rfl, comma.2, rfl, item.reads more.closes, more.reads⟩
termination_by structural d

end

/-! ## Statements -/

mutual

/-- A statement ends with a semicolon or a brace, and so whatever may follow. -/
theorem Stmt.reads (s : Stmt) {rest : List Token} :
    Reads (readStmt eof (s.yield ++ rest)) s.tree rest := by
  match s with
  | .ret start value semi =>
    rw [Stmt.yield, List.cons_append, List.append_assoc]
    exact readStmt_reads.mpr (.ret start.2 (value.reads (closes_mark semi)) semi.2)
  | .cond start test lbrace body =>
    rw [Stmt.yield, List.cons_append, List.append_assoc]
    exact readStmt_reads.mpr
      (.cond start.2 (test.reads (closes_mark lbrace)) lbrace.2 body.reads)
  | .assign target eq value semi =>
    rw [Stmt.yield, List.cons_append, List.cons_append, List.append_assoc]
    exact readStmt_reads.mpr (.assign target.2 eq.2 (value.reads (closes_mark semi)) semi.2)
  | .print start lparen args semi =>
    rw [Stmt.yield, List.cons_append, List.cons_append, List.append_assoc]
    exact readStmt_reads.mpr (.print start.2 lparen.2 args.reads semi.2)
  | .decl start param eq value semi =>
    rw [Stmt.yield, List.cons_append, List.append_assoc, List.cons_append, List.append_assoc]
    exact readStmt_reads.mpr
      (.decl start.2 param.reads eq.2 (value.reads (closes_mark semi)) semi.2)
  | .call (.mk arrow name lparen args) semi =>
    rw [Stmt.yield, List.append_assoc]
    refine readStmt_reads.mpr (.call (c := (name.1.lexeme, args.tree)) arrow.2 ?_ semi.2)
    exact readCall_reads.mpr ⟨_, _, _, _, rfl, name.2, lparen.2, args.reads, rfl⟩
termination_by structural s

/-- Statements up to the closing brace. -/
theorem Body.reads (b : Body) {rest : List Token} :
    Reads (readStmts eof (b.yield ++ rest)) b.tree rest := by
  match b with
  | .close rbrace =>
    exact (readStmts_close (starts_terminal rbrace).current_kind).mpr ⟨rfl, _, rfl, rbrace.2⟩
  | .cons s more =>
    have hk : (current eof (s.yield ++ (more.yield ++ rest))).kind = s.lead :=
      s.starts.append.current_kind
    rw [Body.yield, List.append_assoc, readStmts_cons (hk ▸ s.lead_ne_rbrace)]
    exact ⟨by rw [hk]; cases s <;> nofun, _, _, _, rfl, s.reads, more.reads⟩
termination_by structural b

end

/-! ## Functions and programs -/

/-- The result type is there if and only if there is an arrow in front of the brace. -/
theorem returns_reads (r : Option (Arrow × TypeWord)) (lbrace : Mark .lbrace) :
    Reads (readReturns eof (returnsYield r ++ lbrace.1 :: rest)) (r.map fun r => ⟨r.2.1⟩)
      (lbrace.1 :: rest) := by
  rw [readReturns_reads]
  match r with
  | none =>
    refine .inl ⟨rfl, rfl, ?_⟩
    intro t ht
    obtain rfl : lbrace.1 = t := by simpa [returnsYield] using ht
    rw [lbrace.2]
    nofun
  | some (arrow, type) => exact .inr ⟨arrow.1, ⟨type.1⟩, rfl, rfl, arrow.2, type.2⟩

/-- A function is read from what it yields. -/
theorem Function.reads (f : Function) : Reads (readFunction eof (f.yield ++ rest)) f.tree rest := by
  rw [yield, List.cons_append, List.cons_append, List.cons_append, List.append_assoc,
    List.append_assoc, List.cons_append, readFunction_reads]
  exact ⟨f.name.1, f.lparen.1, _, _, _, rfl, f.start.2, f.name.2, rfl, f.lparen.2,
    f.params.reads, returns_reads f.returns f.lbrace, f.lbrace.2, f.body.reads⟩

/-- **What is derived is read**: the yields of functions, up to the end of input, are read as their
trees. -/
theorem readFunctions_yield (heof : eof.kind = .eof) (fs : List Function) :
    readFunctions eof (fs.flatMap Function.yield) = .ok (fs.map Function.tree) := by
  induction fs with
  | nil => exact readFunctions_eof heof
  | cons f fs ih =>
    have hstart : Starts (.keyword .function) f.yield := starts_terminal f.start
    have hc : (current eof (f.yield ++ fs.flatMap Function.yield)).kind ≠ .eof := by
      rw [hstart.append.current_kind]
      nofun
    exact (readFunctions_cons hc).mpr ⟨_, _, _, rfl, f.reads, ih⟩

end Stackling.Grammar
