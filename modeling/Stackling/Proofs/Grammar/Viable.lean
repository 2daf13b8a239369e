import Stackling.Proofs.Grammar.Course
import Stackling.Proofs.Grammar.Sound

/-!
# The courses of the readers

Every reader of the parser has a course for the language that its part of the grammar derives. It is
put together from the courses of the readers that it calls, as the reader is.

As for the derivations of what was read, the tokens are those of a text, and the induction is on
their number and on how tight a phrase is.
-/

namespace Stackling.Grammar

open Stackling.Tree

/-! ## Something to read -/

instance (j : Joint) : Nonempty (Tail j) := ⟨.nil⟩

instance (r : Rank) : Nonempty (Phrase r) := by
  let atom : Phrase .atom := .ident ⟨⟨.ident, "", .start⟩, rfl⟩ fun v => by cases v <;> decide
  let term : Phrase .term := .chain (.chain atom .nil) .nil
  match r with
  | .chain .logical => exact ⟨.chain (.single term) .nil⟩
  | .relation => exact ⟨.single term⟩
  | .chain .term => exact ⟨term⟩
  | .chain .product => exact ⟨.chain atom .nil⟩
  | .atom => exact ⟨atom⟩

instance : Nonempty Param := ⟨⟨Classical.ofNonempty, Classical.ofNonempty, Classical.ofNonempty⟩⟩

instance (i : Item) : Nonempty (Element i) := by
  cases i with
  | arg => exact ⟨.arg Classical.ofNonempty⟩
  | param => exact ⟨.param Classical.ofNonempty⟩

instance (i : Item) (first : Bool) : Nonempty (Series i first) := ⟨.close Classical.ofNonempty⟩

instance : Nonempty Body := ⟨.close Classical.ofNonempty⟩

instance : Nonempty Stmt :=
  ⟨.ret Classical.ofNonempty Classical.ofNonempty Classical.ofNonempty⟩

instance : Nonempty Program := ⟨⟨[]⟩⟩

/-! ## Something was read -/

section

variable {ts used rest : List Token}

theorem Starts.ne_nil {k : Kind} (h : Starts k ts) : ts ≠ [] := by
  obtain ⟨t, more, rfl, -⟩ := h
  exact List.cons_ne_nil _ _

/-- What is left is shorter, if what was taken is something. -/
theorem length_lt_of_mem {δ : Type} {yield : δ → List Token} (hne : ∀ d, yield d ≠ [])
    (hts : ts = used ++ rest) (h : used ∈ language yield) : rest.length < ts.length := by
  obtain ⟨d, rfl⟩ := h
  have := List.length_pos_of_ne_nil (hne d)
  rw [hts, List.length_append]
  omega

/-- A phrase has a token at least. -/
theorem Phrase.yield_ne_nil {r : Rank} (d : Phrase r) : d.yield ≠ [] := by
  obtain ⟨k, hk, -⟩ := d.exists_starts
  exact hk.ne_nil

theorem Element.yield_ne_nil {i : Item} (d : Element i) : d.yield ≠ [] := by
  obtain ⟨k, hk, -⟩ := d.exists_starts
  exact hk.ne_nil

end

/-! ## Expressions -/

/-- Which token comes next is the same in lists that start alike, and the end of input is none that
is looked for. -/
theorem current_kind_iff {k : Kind} {eof : Token} {ts ts' : List Token} (heof : eof.kind = .eof)
    (hk : k ≠ .eof) (h : ts'.head? = ts.head?) : (current eof ts').kind = k ↔ Starts k ts := by
  rcases ts with _ | ⟨t, ts⟩
  · rw [eq_nil_of_head? h]
    refine iff_of_false ?_ fun h => h.ne_nil rfl
    rintro rfl
    exact hk heof
  · obtain ⟨rest, rfl⟩ := exists_cons_of_head? h
    refine ⟨fun ht => ⟨t, ts, rfl, ht⟩, ?_⟩
    rintro ⟨t', more, heq, ht⟩
    cases heq
    exact ht

/-- The languages of the symbols that derive expressions. -/
abbrev phrases (r : Rank) : Language Token := language (Phrase.yield (r := r))

abbrev tails (j : Joint) : Language Token := language (Tail.yield (j := j))

abbrev elements (i : Item) : Language Token := language (Element.yield (i := i))

abbrev lists (i : Item) (first : Bool) : Language Token := language (@Series.yield i first)

/-- What stands behind the arrow of a call. -/
abbrev calls : Language Token := terminal .ident * (terminal (.delimiter .lparen) * lists .arg true)

/-- The tokens of what may follow the first term of a relation. -/
def comparisonYield : Option (OpToken .relational × Phrase .term) → List Token
  | none => []
  | some (op, right) => op.token :: right.yield

theorem param_course (ts : List Token) : Course Script.param (language Param.yield) ts := by
  rw [Script.param_eq]
  have h := (token_course .ident ts).bind fun name _ rest _ _ =>
    (token_course (.delimiter .colon) rest).bind fun _ _ rest _ _ =>
      (typeName_course rest).bind_pure fun type => (⟨name, type⟩ : Tree.Param)
  refine h.mono ?_
  rintro _ ⟨_, ⟨name, rfl⟩, _, ⟨_, ⟨colon, rfl⟩, _, ⟨type, rfl⟩, rfl⟩, rfl⟩
  exact ⟨⟨name, colon, type⟩, rfl⟩

/-- At most one comparison follows a term, if reading the term to its right takes its course. -/
theorem comparison_course (left : Tree.Expr) {ts : List Token}
    (h : ∀ {t more}, ts = t :: more → Course (Script.phrase .term) (phrases .term) more) :
    Course (Script.comparison left) (language comparisonYield) ts := by
  rcases noOp_or .relational ts with hno | ⟨t, more, op, rfl, hop⟩
  · refine ((Course.pure left).mono ?_).of_head ?_
    · rintro _ rfl
      exact ⟨none, rfl⟩
    · intro eof ts' _ hhead
      exact Script.comparison_of_noOp fun t ht => hno t (hhead ▸ ht)
  · obtain ⟨hk, hl⟩ := binaryOp?_eq_some.mp hop
    refine ((h rfl).bind_pure (.binary op left)).cons ?_ fun eof rest' _ =>
      Script.comparison_of_op hop eof rest'
    rintro _ ⟨right, rfl⟩
    exact ⟨some (⟨t, op, hk, hl⟩, right), rfl⟩

/-- What stands behind the first token of an operand is read as a call or as an expression in
parentheses, if at all. -/
theorem operand_course {t : Token} {rest : List Token} (ht : t.Plain) {s : Script Tree.Expr}
    (hs : Script.operand t = some s) (hcall : Course Script.call calls rest)
    (hinner : Course (Script.phrase .expr) (phrases .expr) rest) :
    ∃ L, Course s L rest ∧ ∀ word ∈ L, t :: word ∈ phrases .atom := by
  unfold Script.operand at hs
  split at hs
  · next hk =>
    cases hs
    refine ⟨_, hcall.bind_pure _, ?_⟩
    rintro _ ⟨_, ⟨name, rfl⟩, _, ⟨_, ⟨lparen, rfl⟩, _, ⟨args, rfl⟩, rfl⟩, rfl⟩
    exact ⟨.call (.mk ⟨t, hk⟩ name lparen args), rfl⟩
  · next hk =>
    split at hs
    · next v hv =>
      cases hs
      obtain ⟨n, rfl, -⟩ := exists_number ht hk hv
      refine ⟨1, .pure _, ?_⟩
      rintro _ rfl
      exact ⟨.number n, rfl⟩
    · cases hs
      exact ⟨0, .outOfRange fun _ _ => rfl, fun word h => absurd h (Language.notMem_zero word)⟩
  · next hk =>
    cases hs
    refine ⟨1, .pure _, ?_⟩
    rintro _ rfl
    exact ⟨.string ⟨t, hk⟩, rfl⟩
  · next hk =>
    cases hs
    refine ⟨1, .pure _, ?_⟩
    rintro _ rfl
    by_cases hw : ∃ value, t.lexeme = spelling value
    · obtain ⟨value, hw⟩ := hw
      exact ⟨.truth value ⟨t, hk⟩ hw, rfl⟩
    · exact ⟨.ident ⟨t, hk⟩ fun value hv => hw ⟨value, hv⟩, rfl⟩
  · next hk =>
    cases hs
    refine ⟨_, hinner.bind fun e _ rest _ _ => (token_course _ rest).bind_pure _, ?_⟩
    rintro _ ⟨_, ⟨inner, rfl⟩, _, ⟨rparen, rfl⟩, rfl⟩
    exact ⟨.parens ⟨t, hk⟩ inner rparen, rfl⟩
  · cases hs

mutual

/-- Reading a phrase takes its course. The induction is on the number of tokens and then on how
tight the phrase binds, as the readers recurse. -/
theorem phrase_course (r : Rank) {ts : List Token} (hts : Token.AllPlain ts) :
    Course (Script.phrase r) (phrases r) ts := by
  match r with
  | .chain j =>
    -- the operand is read from the same tokens, but as a tighter phrase
    have hfloor : 4 - j.operand.floor < 4 - (Rank.chain j).floor := by cases j <;> decide
    have h : Course (Script.phrase j.operand >>= Script.tail j)
        (phrases j.operand * tails j) ts := by
      refine (phrase_course j.operand hts).bind fun left used rest heq hused => ?_
      have hlt := length_lt_of_mem Phrase.yield_ne_nil heq hused
      exact tail_course j left (heq ▸ hts).right
    rw [Script.chain_eq]
    refine h.mono ?_
    rintro _ ⟨_, ⟨first, rfl⟩, _, ⟨more, rfl⟩, rfl⟩
    exact ⟨.chain first more, rfl⟩
  | .relation =>
    have h : Course (Script.phrase .term >>= Script.comparison)
        (phrases .term * language comparisonYield) ts := by
      refine (phrase_course .term hts).bind fun left used rest heq hused => ?_
      refine comparison_course left fun {t more} hrest => ?_
      subst hrest
      have hlt := length_lt_of_mem Phrase.yield_ne_nil heq hused
      exact phrase_course .term (heq ▸ hts).right.tail
    rw [Script.relation_eq]
    refine h.mono ?_
    rintro _ ⟨_, ⟨left, rfl⟩, _, ⟨_ | ⟨op, right⟩, rfl⟩, rfl⟩
    · exact ⟨.single left, by simp [comparisonYield, Phrase.yield]⟩
    · exact ⟨.comparison left op right, rfl⟩
  | .atom =>
    rw [Script.atom_eq]
    refine .lead fun {t rest s} heq hs => ?_
    subst heq
    exact operand_course hts.head hs (call_course hts.tail) (phrase_course .expr hts.tail)
termination_by (ts.length, 4 - r.floor)
decreasing_by
  all_goals subst_vars
  · exact .right _ hfloor
  · exact .left _ _ hlt
  · exact .right _ (by decide)
  · exact .left _ _ (Nat.lt_of_succ_lt hlt)
  · exact .left _ _ (Nat.lt_succ_self _)
  · exact .left _ _ (Nat.lt_succ_self _)

/-- Reading operators and operands takes its course. -/
theorem tail_course (j : Joint) (left : Tree.Expr) {ts : List Token} (hts : Token.AllPlain ts) :
    Course (Script.tail j left) (tails j) ts := by
  rcases noOp_or j.level ts with hno | ⟨t, more, op, rfl, hop⟩
  · refine ((Course.pure left).mono ?_).of_head ?_
    · rintro _ rfl
      exact ⟨.nil, rfl⟩
    · intro eof ts' _ hhead
      exact Script.tail_of_noOp fun t ht => hno t (hhead ▸ ht)
  · have h : Course (Script.phrase j.operand >>= fun right => Script.tail j (.binary op left right))
        (phrases j.operand * tails j) more := by
      refine (phrase_course j.operand hts.tail).bind fun right used rest heq hused => ?_
      have hlt := length_lt_of_mem Phrase.yield_ne_nil heq hused
      exact tail_course j _ (heq ▸ hts.tail).right
    obtain ⟨hk, hl⟩ := binaryOp?_eq_some.mp hop
    refine h.cons ?_ fun eof rest' _ => Script.tail_of_op hop eof rest'
    rintro _ ⟨_, ⟨operand, rfl⟩, _, ⟨rest, rfl⟩, rfl⟩
    exact ⟨.cons ⟨t, op, hk, hl⟩ operand rest, rfl⟩
termination_by (ts.length, 0)
decreasing_by
  all_goals subst_vars
  · exact .left _ _ (Nat.lt_succ_self _)
  · exact .left _ _ (Nat.lt_succ_of_lt hlt)

/-- Reading a call takes its course. -/
theorem call_course {ts : List Token} (hts : Token.AllPlain ts) : Course Script.call calls ts := by
  rw [Script.call_eq]
  refine (token_course .ident ts).bind fun name used rest heq hused => ?_
  refine (token_course (.delimiter .lparen) rest).bind fun _ used' rest' heq' hused' => ?_
  have hlt : rest'.length < ts.length :=
    (length_lt_of_mem (fun _ => List.cons_ne_nil _ _) heq' hused').trans
      (length_lt_of_mem (fun _ => List.cons_ne_nil _ _) heq hused)
  exact (series_course .arg true (heq' ▸ (heq ▸ hts).right).right).bind_pure _
termination_by (ts.length, 0)
decreasing_by exact .left _ _ hlt

theorem element_course (i : Item) {ts : List Token} (hts : Token.AllPlain ts) :
    Course (Script.element i) (elements i) ts := by
  match i with
  | .arg =>
    refine (phrase_course .expr hts).mono ?_
    rintro _ ⟨e, rfl⟩
    exact ⟨.arg e, rfl⟩
  | .param =>
    refine (param_course ts).mono ?_
    rintro _ ⟨p, rfl⟩
    exact ⟨.param p, rfl⟩
termination_by (ts.length, 5)
decreasing_by exact .right _ (by decide)

/-- Reading a list takes its course: it fails where neither an item nor its end can come. -/
theorem series_course (i : Item) (first : Bool) {ts : List Token} (hts : Token.AllPlain ts) :
    Course (Script.series i first) (lists i first) ts := by
  have hnext : ∀ {eof ts'}, eof.kind = .eof → ts'.head? = ts.head? →
      ((current eof ts').kind = .delimiter .rparen ↔ Starts (.delimiter .rparen) ts) :=
    fun heof => current_kind_iff heof nofun
  by_cases hc : Starts (.delimiter .rparen) ts
  · refine (((token_course (.delimiter .rparen) ts).bind_pure fun _ => []).mono ?_).of_head ?_
    · rintro _ ⟨rparen, rfl⟩
      exact ⟨.close rparen, rfl⟩
    · intro eof ts' heof hhead
      exact Script.series_close ((hnext heof hhead).mpr hc)
  match first with
  | true =>
    have h : Course
        (Script.element i >>= fun v => Script.series i false >>= fun vs => pure (v :: vs))
        (elements i * lists i false) ts := by
      refine (element_course i hts).bind fun v used rest heq hused => ?_
      have hlt := length_lt_of_mem Element.yield_ne_nil heq hused
      exact (series_course i false (heq ▸ hts).right).bind_pure _
    refine (h.mono ?_).of_head ?_
    · rintro _ ⟨_, ⟨item, rfl⟩, _, ⟨more, rfl⟩, rfl⟩
      exact ⟨.first item more, rfl⟩
    · intro eof ts' heof hhead
      exact Script.series_first (mt (hnext heof hhead).mp hc)
  | false =>
    have h : Course (token (.delimiter .comma) >>= fun _ =>
        Script.element i >>= fun v => Script.series i false >>= fun vs => pure (v :: vs))
        (terminal (.delimiter .comma) * (elements i * lists i false)) ts := by
      refine (token_course (.delimiter .comma) ts).bind fun _ used rest heq hused => ?_
      have hlt := length_lt_of_mem (fun _ => List.cons_ne_nil _ _) heq hused
      have hrest := (heq ▸ hts).right
      refine (element_course i hrest).bind fun v used rest heq hused => ?_
      have hlt' := length_lt_of_mem Element.yield_ne_nil heq hused
      exact (series_course i false (heq ▸ hrest).right).bind_pure _
    refine (h.mono ?_).of_head ?_
    · rintro _ ⟨_, ⟨comma, rfl⟩, _, ⟨_, ⟨item, rfl⟩, _, ⟨more, rfl⟩, rfl⟩, rfl⟩
      exact ⟨.next comma item more, rfl⟩
    · intro eof ts' heof hhead
      exact Script.series_next (mt (hnext heof hhead).mp hc)
termination_by (ts.length, 6)
decreasing_by
  · exact .right _ (by decide)
  · exact .left _ _ hlt
  · exact .left _ _ hlt
  · exact .left _ _ (hlt'.trans hlt)

end

/-! ## Statements -/

/-- What stands behind the first token of a statement. The bodies of conditions are statements that
are shorter. -/
theorem statement_course {t : Token} {rest : List Token} (hrest : Token.AllPlain rest)
    {s : Script Tree.Stmt} (hs : Script.statement t = some s)
    (hbody : ∀ {ts}, ts.length < rest.length → Token.AllPlain ts →
      Course Script.stmts (language Body.yield) ts) :
    ∃ L, Course s L rest ∧ ∀ word ∈ L, t :: word ∈ language Stmt.yield := by
  unfold Script.statement at hs
  split at hs
  · next hk =>
    cases hs
    refine ⟨_, (phrase_course .expr hrest).bind fun value _ rest' _ _ =>
      (token_course _ rest').bind_pure _, ?_⟩
    rintro _ ⟨_, ⟨value, rfl⟩, _, ⟨semi, rfl⟩, rfl⟩
    exact ⟨.ret ⟨t, hk⟩ value semi, rfl⟩
  · next hk =>
    cases hs
    refine ⟨phrases .expr * (terminal (.delimiter .lbrace) * language Body.yield),
      (phrase_course .expr hrest).bind fun test used mid hmid hused =>
        (token_course _ mid).bind fun brace used' rest' hrest' hused' => ?_, ?_⟩
    · have hlt := length_lt_of_mem Phrase.yield_ne_nil hmid hused
      have hlt' := length_lt_of_mem (fun _ => List.cons_ne_nil _ _) hrest' hused'
      exact (hbody (hlt'.trans hlt) (hrest' ▸ (hmid ▸ hrest).right).right).bind_pure _
    · rintro _ ⟨_, ⟨test, rfl⟩, _, ⟨_, ⟨brace, rfl⟩, _, ⟨body, rfl⟩, rfl⟩, rfl⟩
      exact ⟨.cond ⟨t, hk⟩ test brace body, rfl⟩
  · next hk =>
    cases hs
    refine ⟨terminal (.operator .assign) * (phrases .expr * terminal (.delimiter .semicolon)),
      (token_course _ rest).bind fun _ _ mid hmid _ =>
        (phrase_course .expr (hmid ▸ hrest).right).bind fun value _ rest' _ _ =>
          (token_course _ rest').bind_pure _, ?_⟩
    rintro _ ⟨_, ⟨eq, rfl⟩, _, ⟨_, ⟨value, rfl⟩, _, ⟨semi, rfl⟩, rfl⟩, rfl⟩
    exact ⟨.assign ⟨t, hk⟩ eq value semi, rfl⟩
  · next hk =>
    cases hs
    refine ⟨terminal (.delimiter .lparen) * (lists .arg true * terminal (.delimiter .semicolon)),
      (token_course _ rest).bind fun _ _ mid hmid _ =>
        (series_course .arg true (hmid ▸ hrest).right).bind fun args _ rest' _ _ =>
          (token_course _ rest').bind_pure _, ?_⟩
    rintro _ ⟨_, ⟨lparen, rfl⟩, _, ⟨_, ⟨args, rfl⟩, _, ⟨semi, rfl⟩, rfl⟩, rfl⟩
    exact ⟨.print ⟨t, hk⟩ lparen args semi, rfl⟩
  · next hk =>
    cases hs
    refine ⟨language Param.yield * (terminal (.operator .assign) *
        (phrases .expr * terminal (.delimiter .semicolon))),
      (param_course rest).bind fun p _ mid hmid _ =>
        (token_course _ mid).bind fun _ _ mid' hmid' _ =>
          (phrase_course .expr (hmid' ▸ (hmid ▸ hrest).right).right).bind fun value _ rest' _ _ =>
            (token_course _ rest').bind_pure _, ?_⟩
    rintro _ ⟨_, ⟨param, rfl⟩, _, ⟨_, ⟨eq, rfl⟩, _, ⟨_, ⟨value, rfl⟩, _, ⟨semi, rfl⟩, rfl⟩,
      rfl⟩, rfl⟩
    exact ⟨.decl ⟨t, hk⟩ param eq value semi, rfl⟩
  · next hk =>
    cases hs
    refine ⟨_, (call_course hrest).bind fun c _ rest' _ _ =>
      (token_course _ rest').bind_pure _, ?_⟩
    rintro _ ⟨_, ⟨_, ⟨name, rfl⟩, _, ⟨_, ⟨lparen, rfl⟩, _, ⟨args, rfl⟩, rfl⟩, rfl⟩,
      _, ⟨semi, rfl⟩, rfl⟩
    exact ⟨.call (.mk ⟨t, hk⟩ name lparen args) semi, rfl⟩
  · cases hs

mutual

/-- Reading a statement takes its course, by induction on the number of tokens. -/
theorem stmt_course {ts : List Token} (hts : Token.AllPlain ts) :
    Course Script.stmt (language Stmt.yield) ts := by
  rw [Script.stmt_eq]
  refine .lead fun {t rest s} heq hs => ?_
  refine statement_course (heq ▸ hts).tail hs fun {body} hlt hbody => ?_
  have hlt' : body.length < ts.length := by
    rw [heq, List.length_cons]
    omega
  exact stmts_course hbody
termination_by (ts.length, 0)
decreasing_by exact .left _ _ hlt'

/-- Reading a block takes its course. -/
theorem stmts_course {ts : List Token} (hts : Token.AllPlain ts) :
    Course Script.stmts (language Body.yield) ts := by
  match ts with
  | [] =>
    refine .fail (x := .kind (.delimiter .rbrace)) fun eof ts' heof h => ?_
    rw [eq_nil_of_head? h]
    exact Script.stmts_eof heof
  | t :: rest =>
    by_cases hk : t.kind = .delimiter .rbrace
    · refine (((token_course (.delimiter .rbrace) (t :: rest)).bind_pure fun _ => []).mono
        ?_).of_head ?_
      · rintro _ ⟨rbrace, rfl⟩
        exact ⟨.close rbrace, rfl⟩
      · intro eof ts' _ hhead
        obtain ⟨rest', rfl⟩ := exists_cons_of_head? hhead
        exact Script.stmts_close hk
    · have h : Course (Script.stmt >>= fun s => Script.stmts >>= fun ss => pure (s :: ss))
          (language Stmt.yield * language Body.yield) (t :: rest) := by
        refine (stmt_course hts).bind fun s used rest' heq hused => ?_
        have hlt := length_lt_of_mem (fun s => s.starts.ne_nil) heq hused
        exact (stmts_course (heq ▸ hts).right).bind_pure _
      refine (h.mono ?_).of_head ?_
      · rintro _ ⟨_, ⟨s, rfl⟩, _, ⟨more, rfl⟩, rfl⟩
        exact ⟨.cons s more, rfl⟩
      · intro eof ts' _ hhead
        obtain ⟨rest', rfl⟩ := exists_cons_of_head? hhead
        exact Script.stmts_cons hk hts.head.ne_eof
termination_by (ts.length, 1)
decreasing_by
  · exact .right _ Nat.zero_lt_one
  · exact .left _ _ hlt

end

/-! ## Functions and programs -/

/-- Reading a result type takes its course. What follows decides whether there is one. -/
theorem returns_course (ts : List Token) : Course Script.returns (language returnsYield) ts := by
  by_cases h : Starts (.operator .arrow) ts
  · obtain ⟨t, rest, rfl, hk⟩ := h
    refine ((typeName_course rest).bind_pure some).cons ?_ fun eof rest' _ =>
      Script.returns_cons hk eof rest'
    rintro _ ⟨type, rfl⟩
    exact ⟨some (⟨t, hk⟩, type), rfl⟩
  · refine ((Course.pure none).mono ?_).of_head ?_
    · rintro _ rfl
      exact ⟨none, rfl⟩
    · intro eof ts' _ hhead
      refine Script.returns_none (fun t ht hk => h ?_) eof
      obtain ⟨rest, rfl⟩ := List.head?_eq_some_iff.mp (hhead ▸ ht)
      exact ⟨t, rest, rfl, hk⟩

/-- Reading a function takes its course. -/
theorem function_course {ts : List Token} (hts : Token.AllPlain ts) :
    Course Script.function (language Function.yield) ts := by
  have h : Course Script.function (terminal (.keyword .function) * (terminal .ident *
      (terminal (.delimiter .lparen) * (lists .param true * (language returnsYield *
        (terminal (.delimiter .lbrace) * language Body.yield)))))) ts := by
    rw [Script.function_eq]
    refine (token_course _ ts).bind fun start _ ts₁ h₁ _ => ?_
    have hts₁ := (h₁ ▸ hts).right
    refine (token_course _ ts₁).bind fun name _ ts₂ h₂ _ => ?_
    have hts₂ := (h₂ ▸ hts₁).right
    refine (token_course _ ts₂).bind fun _ _ ts₃ h₃ _ => ?_
    have hts₃ := (h₃ ▸ hts₂).right
    refine (series_course .param true hts₃).bind fun params _ ts₄ h₄ _ => ?_
    have hts₄ := (h₄ ▸ hts₃).right
    refine (returns_course ts₄).bind fun type _ ts₅ h₅ _ => ?_
    have hts₅ := (h₅ ▸ hts₄).right
    refine (token_course _ ts₅).bind fun brace _ ts₆ h₆ _ => ?_
    exact (stmts_course (h₆ ▸ hts₅).right).bind_pure _
  refine h.mono ?_
  rintro _ ⟨_, ⟨start, rfl⟩, _, ⟨_, ⟨name, rfl⟩, _, ⟨_, ⟨lparen, rfl⟩, _, ⟨_, ⟨params, rfl⟩, _,
    ⟨_, ⟨type, rfl⟩, _, ⟨_, ⟨lbrace, rfl⟩, _, ⟨body, rfl⟩, rfl⟩, rfl⟩, rfl⟩, rfl⟩, rfl⟩, rfl⟩
  exact ⟨⟨start, name, lparen, params, type, lbrace, body⟩, rfl⟩

/-- Reading functions takes its course, up to the end of input. -/
theorem functions_course {ts : List Token} (hts : Token.AllPlain ts) :
    Course Script.functions (language Program.yield) ts := by
  match ts with
  | [] =>
    refine ((Course.pure []).mono ?_).of_head ?_
    · rintro _ rfl
      exact ⟨⟨[]⟩, rfl⟩
    · intro eof ts' heof hhead
      rw [eq_nil_of_head? hhead]
      exact Script.functions_nil heof
  | t :: rest =>
    have h : Course (Script.function >>= fun f => Script.functions >>= fun fs => pure (f :: fs))
        (language Function.yield * language Program.yield) (t :: rest) := by
      refine (function_course hts).bind fun f used rest' heq hused => ?_
      have hlt := length_lt_of_mem (fun _ => List.cons_ne_nil _ _) heq hused
      exact (functions_course (heq ▸ hts).right).bind_pure _
    refine (h.mono ?_).of_head ?_
    · rintro _ ⟨_, ⟨f, rfl⟩, _, ⟨⟨fs⟩, rfl⟩, rfl⟩
      exact ⟨⟨f :: fs⟩, rfl⟩
    · intro eof ts' _ hhead
      obtain ⟨rest', rfl⟩ := exists_cons_of_head? hhead
      exact Script.functions_cons hts.head.ne_eof
termination_by ts.length
decreasing_by exact hlt

/-- Behind an expression only the end of input may come. -/
theorem finish_course (e : Tree.Expr) {ts : List Token} (hts : Token.AllPlain ts) :
    Course (Script.finish e) 1 ts := by
  match ts with
  | [] =>
    refine (Course.pure e).of_head fun eof ts' heof hhead => ?_
    rw [eq_nil_of_head? hhead]
    exact if_pos heof
  | t :: rest =>
    refine .fail (x := .kind .eof) fun eof ts' _ hhead => ?_
    obtain ⟨rest', rfl⟩ := exists_cons_of_head? hhead
    exact if_neg hts.head.ne_eof

/-- The course of an expression that is the whole text. -/
theorem text_course {ts : List Token} (hts : Token.AllPlain ts) :
    Course (Script.phrase .expr >>= Script.finish) (phrases .expr) ts := by
  have h := (phrase_course .expr hts).bind fun e _ rest heq _ =>
    finish_course e (heq ▸ hts).right
  rwa [mul_one] at h

end Stackling.Grammar
