import Stackling.Proofs.Grammar.Content
import Stackling.Proofs.Parsing
import Stackling.Proofs.Returning
import Stackling.Proofs.Text.Utf8

/-!
# Evaluating a text

A text is evaluated by putting it into the body of a function. This evaluates the expression that
the text is, as long as the text stays in its place: it must not hold a semicolon, which could end
the statement it is put into, and must not end in a comment, which would take in what is put behind
it. `evaluate_expression` says so, and `evaluate_out_of_place` that texts of both kinds go wrong.
-/

namespace Stackling

open Stackling.Tree Stackling.Symbols Stackling.Typing
open Grammar (Phrase)

/-! ## Derivations of the whole -/

namespace Grammar

/-- An expression in its place is the function that returns it. -/
theorem exists_program (d : Phrase .expr) {semi brace : Token}
    (hsemi : semi.kind = .delimiter .semicolon) (hbrace : brace.kind = .delimiter .rbrace) :
    ∃ p : Program, p.yield = Scan.openingTokens ++ (d.yield ++ [semi, brace]) ∧
      p.tree.functions.map Tree.Function.erase =
        (Tree.Program.returning d.tree).functions.map Tree.Function.erase := by
  let body : Body := .cons (.ret ⟨⟨.keyword .ret, "return", ⟨1, 26⟩⟩, rfl⟩ d ⟨semi, hsemi⟩)
    (.close ⟨brace, hbrace⟩)
  let main : Function :=
    { start := ⟨⟨.keyword .function, "function", ⟨1, 1⟩⟩, rfl⟩
      name := ⟨⟨.ident, "main", ⟨1, 10⟩⟩, rfl⟩
      lparen := ⟨⟨.delimiter .lparen, "(", ⟨1, 14⟩⟩, rfl⟩
      params := .close ⟨⟨.delimiter .rparen, ")", ⟨1, 15⟩⟩, rfl⟩
      returns := some (⟨⟨.operator .arrow, "->", ⟨1, 17⟩⟩, rfl⟩,
        ⟨⟨.keyword .int, "int", ⟨1, 20⟩⟩, rfl⟩)
      lbrace := ⟨⟨.delimiter .lbrace, "\x7b", ⟨1, 24⟩⟩, rfl⟩
      body }
  refine ⟨⟨[main]⟩, ?_, rfl⟩
  simp [Program.yield, Function.yield, Series.yield, returnsYield, Body.yield, Stmt.yield, main,
    body, Scan.openingTokens]

/-- The first statement of a block that starts with `return`. -/
theorem Body.exists_value {b : Body} {u ts : List Token} {t : Token} (ht : t.kind = .keyword .ret)
    (h : b.yield ++ u = t :: ts) : ∃ (value : Phrase .expr) (semi : Mark .semicolon)
      (more : List Token), ts = value.yield ++ semi.1 :: more := by
  cases b with
  | close rbrace =>
    have hrbrace := rbrace.2
    rw [(List.cons.inj h).1, ht] at hrbrace
    cases hrbrace
  | cons s rest =>
    rw [Body.yield, List.append_assoc] at h
    have hlead : s.lead = .keyword .ret := s.starts.append.kind_eq ⟨t, ts, h, ht⟩
    cases s with
    | ret start value semi =>
      obtain ⟨-, rfl⟩ := List.cons.inj h
      exact ⟨value, semi, rest.yield ++ u, by simp⟩
    | _ => cases hlead

/-- What is derived behind `openingTokens` starts with an expression and a semicolon. -/
theorem exists_value {p : Program} {ts : List Token} (h : p.yield = Scan.openingTokens ++ ts) :
    ∃ (value : Phrase .expr) (semi : Mark .semicolon) (more : List Token),
      ts = value.yield ++ semi.1 :: more := by
  obtain ⟨_ | ⟨⟨start, name, lparen, params, returns, lbrace, body⟩, fs⟩⟩ := p
  · cases h
  simp only [Program.yield, List.flatMap_cons, Function.yield, Scan.openingTokens, List.cons_append,
    List.nil_append, List.append_assoc, List.cons.injEq] at h
  obtain ⟨-, -, -, h⟩ := h
  cases params with
  | first item rest =>
    obtain ⟨k, hk, hne⟩ := item.exists_starts
    rw [Series.yield, List.append_assoc] at h
    exact absurd (hk.append.kind_eq ⟨_, _, h, rfl⟩) hne
  | close rparen =>
    obtain ⟨-, h⟩ := List.cons.inj h
    rcases returns with _ | ⟨arrow, type⟩
    · have hlbrace := lbrace.2
      rw [(List.cons.inj h).1] at hlbrace
      cases hlbrace
    · obtain ⟨-, h⟩ := List.cons.inj h
      obtain ⟨-, h⟩ := List.cons.inj h
      obtain ⟨-, h⟩ := List.cons.inj h
      exact Body.exists_value rfl h

/-- What stands in front of the first semicolon. -/
theorem takeWhile_semicolon {us more : List Token} {semi : Token}
    (hus : ∀ t ∈ us, t.kind ≠ .delimiter .semicolon) (hsemi : semi.kind = .delimiter .semicolon) :
    (us ++ semi :: more).takeWhile (fun t => t.kind ≠ .delimiter .semicolon) = us := by
  rw [List.takeWhile_append_of_pos (by simpa using hus),
    List.takeWhile_cons_of_neg (by simp [hsemi]), List.append_nil]

/-- A text without semicolons that is in its place in a program is an expression. -/
theorem exists_phrase_of_program {p : Program} {us : List Token} {semi brace : Token}
    (hus : ∀ t ∈ us, t.kind ≠ .delimiter .semicolon) (hsemi : semi.kind = .delimiter .semicolon)
    (hbrace : brace.kind = .delimiter .rbrace)
    (h : p.yield = Scan.openingTokens ++ (us ++ [semi, brace])) : ∃ d : Phrase .expr, d.yield = us ∧
      p.tree.functions.map Tree.Function.erase =
        (Tree.Program.returning d.tree).functions.map Tree.Function.erase := by
  obtain ⟨d, semi', more, heq⟩ := exists_value h
  have hd : d.yield = us := by
    rw [← takeWhile_semicolon hus hsemi, heq, takeWhile_semicolon d.kind_ne_semicolon semi'.2]
  obtain ⟨p', hyield, htree⟩ := exists_program d hsemi hbrace
  rw [hd, ← h] at hyield
  obtain rfl := Program.yield_injective hyield
  exact ⟨d, hd, htree⟩

end Grammar

/-! ## Texts in their place -/

theorem decode_evaluationSource (text : Bytes) :
    Utf8.decode (evaluationSource text) = Scan.wrapped (Utf8.decode text) := by
  have hopening : (Bytes.ofString "function main() -> int \x7b return ").all (· < 0x80) = true := by
    decide +kernel
  have hclosing : Utf8.Breaks (Bytes.ofString "; \x7d") := by
    rintro b ⟨⟩
    decide
  rw [evaluationSource, List.append_assoc, Utf8.decode_ascii_append (by simpa using hopening),
    Utf8.decode_append _ hclosing]
  have hfront : (Bytes.ofString "function main() -> int \x7b return ").map
      (fun a => Char.ofNat a.toNat) = Scan.opening := by
    decide +kernel
  have hback : Utf8.decode (Bytes.ofString "; \x7d") = Scan.closing := by
    decide +kernel
  rw [hfront, hback, Scan.wrapped]

/-- The text is the integer expression `x`: it can be read, it is an expression, and the expression
is an integer where there are no variables and only `main` can be called, which returns an integer
and has no parameters. -/
structure IsExpression (text : Bytes) (x : Expr) : Prop where
  reads : ∃ ts, Token.ofText (Utf8.decode text) = .ok ts ∧ Expr.ofTokens ts = .ok x
  typed : typeOf (.returning x) x = .ok .int

/-- One of the tokens of the text is a semicolon. -/
def HasSemicolon (text : Bytes) : Prop :=
  ∃ ts, Token.ofText (Utf8.decode text) = .ok ts ∧ ∃ t ∈ ts, t.kind = .delimiter .semicolon

variable {text : Bytes} {x : Expr}

theorem exists_derivation {cs : List Char} {ts : List Token} (hts : Token.ofText cs = .ok ts)
    (hx : Expr.ofTokens ts = .ok x) : ∃ d : Phrase .expr, d.yield = ts ∧ d.tree = x :=
  (Expr.ofTokens_iff (Token.allPlain_of_ofText hts)).mp hx

theorem IsExpression.not_hasSemicolon (h : IsExpression text x) : ¬HasSemicolon text := by
  obtain ⟨ts, hts, hx⟩ := h.reads
  obtain ⟨d, rfl, -⟩ := exists_derivation hts hx
  rintro ⟨ts', hts', t, ht, hk⟩
  obtain rfl := Except.ok.inj (hts.symm.trans hts')
  exact d.kind_ne_semicolon t ht hk

theorem map_erase_returning {y : Expr} (h : x.erase = y.erase) :
    (Tree.Program.returning x).functions.map Tree.Function.erase =
      (Tree.Program.returning y).functions.map Tree.Function.erase := by
  simp only [Tree.Program.returning, Tree.Function.returning, List.map_cons, List.map_nil,
    Tree.Function.erase, Stmt.eraseAll, Stmt.erase, h]

/-- An expression in its place is read as the program that returns it. -/
theorem exists_tree_of_reads {ts : List Token} (hts : Token.ofText (Utf8.decode text) = .ok ts)
    (hx : Expr.ofTokens ts = .ok x) (hc : ¬Scan.EndsInComment (Utf8.decode text)) :
    ∃ ts' p, Token.ofText (Utf8.decode (evaluationSource text)) = .ok ts' ∧
      Tree.Program.ofTokens ts' = .ok p ∧ p.functions.map Tree.Function.erase =
        (Tree.Program.returning x).functions.map Tree.Function.erase := by
  obtain ⟨d, rfl, rfl⟩ := exists_derivation hts hx
  obtain ⟨us, semi, brace, hus, hsemi, hbrace, hread⟩ := Scan.exists_ofText_wrapped hts hc
  rw [← decode_evaluationSource] at hread
  obtain ⟨d', rfl, herase⟩ := d.exists_of_content hus
  obtain ⟨p, hp, htree⟩ := Grammar.exists_program d' hsemi hbrace
  have hparse := (Tree.Program.ofTokens_iff (Token.allPlain_of_ofText hread)).mpr ⟨p, hp, rfl⟩
  exact ⟨_, _, hread, hparse, htree.trans (map_erase_returning herase)⟩

/-- A text without semicolons that is read as part of a program is an expression, and does not end
in a comment. -/
theorem exists_expr_of_tree {ts : List Token} {p : Tree.Program}
    (hts : Token.ofText (Utf8.decode (evaluationSource text)) = .ok ts)
    (hp : Tree.Program.ofTokens ts = .ok p) (hs : ¬HasSemicolon text) :
    ¬Scan.EndsInComment (Utf8.decode text) ∧
      ∃ ts' x, Token.ofText (Utf8.decode text) = .ok ts' ∧ Expr.ofTokens ts' = .ok x ∧
        p.functions.map Tree.Function.erase =
          (Tree.Program.returning x).functions.map Tree.Function.erase := by
  obtain ⟨d, hyield, rfl⟩ := (Tree.Program.ofTokens_iff (Token.allPlain_of_ofText hts)).mp hp
  rw [decode_evaluationSource] at hts
  obtain ⟨us, hus⟩ := Scan.exists_ofText_of_wrapped hts
  -- the tokens inside the whole hold no semicolon either
  have hfree {us' : List Token} (hsame : us'.map Token.content = us.map Token.content) :
      ∀ t ∈ us', t.kind ≠ .delimiter .semicolon := by
    intro t ht hk
    obtain ⟨u, hu, heq⟩ := List.mem_map.mp (hsame ▸ List.mem_map_of_mem ht)
    exact hs ⟨us, hus, u, hu, (Grammar.kind_of_content heq).trans hk⟩
  by_cases hc : Scan.EndsInComment (Utf8.decode text)
  · obtain ⟨us', hsame, hread⟩ := Scan.exists_ofText_wrapped_of_open hus hc
    obtain rfl := Except.ok.inj (hts.symm.trans hread)
    obtain ⟨value, semi, more, rfl⟩ := Grammar.exists_value hyield
    exact absurd semi.2 (hfree hsame semi.1 (by simp))
  · refine ⟨hc, ?_⟩
    obtain ⟨us', semi, brace, hsame, hsemi, hbrace, hread⟩ := Scan.exists_ofText_wrapped hus hc
    obtain rfl := Except.ok.inj (hts.symm.trans hread)
    obtain ⟨e, rfl, htree⟩ := Grammar.exists_phrase_of_program (hfree hsame) hsemi hbrace hyield
    obtain ⟨e', rfl, herase⟩ := e.exists_of_content hsame.symm
    have hparse := (Expr.ofTokens_iff (Token.allPlain_of_ofText hus)).mpr ⟨e', rfl, rfl⟩
    exact ⟨_, _, hus, hparse, htree.trans (map_erase_returning herase.symm)⟩

/-! ## Types and code -/

section Agree

variable {p : Tree.Program} (h : p.functions.map Tree.Function.erase =
  (Tree.Program.returning x).functions.map Tree.Function.erase)
include h

theorem nodup_and_find?_of_erase : (p.functions.map (·.name)).Nodup ∧ ∀ name,
    ((Tree.Program.returning x).find? name).map Tree.Function.erase =
      (p.find? name).map Tree.Function.erase :=
  find?_erase_of_perm (List.nodup_singleton _) (.of_eq h.symm)

/-- Up to tokens, a source text that is the program of an integer expression compiles to code that
computes it. -/
theorem exists_compile_of_erase {source : Bytes} {ts : List Token}
    (hts : Token.ofText (Utf8.decode source) = .ok ts) (hp : Tree.Program.ofTokens ts = .ok p)
    (hx : HasType (.returning x) x .int) :
    ∃ unit, compile source defaultEntry = .ok unit ∧ Computes unit.program x := by
  obtain ⟨hnd, hfind⟩ := nodup_and_find?_of_erase h
  obtain ⟨t, hcollect, hcheck⟩ :=
    exists_check_of_agree (collect_returning x) (check_returning_iff.mpr hx) hnd hfind
  obtain ⟨ha, f, hf, -⟩ := accepted_of_check hcollect hcheck
  obtain ⟨prog, hemit⟩ := Code.exists_emit ha hf
  obtain ⟨prog', hemit', hcomputes⟩ := exists_computes hx
  obtain rfl := Code.emit_eq_of_agree (collect_returning x) hcollect (fun name _ => hfind name)
    hemit' hemit
  exact ⟨⟨ts, p, t, prog'⟩, compile_eq_ok_iff.mpr ⟨hts, hp, hcollect, hcheck, hemit⟩, hcomputes⟩

/-- And what is accepted is an integer. -/
theorem hasType_of_check {t : Table} (hcollect : collect p = .ok t)
    (hcheck : check t defaultEntry p = .ok ()) : HasType (.returning x) x .int := by
  obtain ⟨-, hfind⟩ := nodup_and_find?_of_erase h
  have hnd : ((Tree.Program.returning x).functions.map (·.name)).Nodup := List.nodup_singleton _
  obtain ⟨t', hcollect', hcheck'⟩ :=
    exists_check_of_agree hcollect hcheck hnd fun name => (hfind name).symm
  rw [collect_returning] at hcollect'
  cases hcollect'
  exact check_returning_iff.mp hcheck'

end Agree

/-- **Evaluation is right for expressions in their place.** A text that compiles and holds no
semicolon is the same as a text that is an integer expression and does not end in a comment. Such a
text is evaluated by running a program that computes the expression. -/
theorem evaluate_expression (text : Bytes) :
    ((∃ unit, compile (evaluationSource text) defaultEntry = .ok unit) ∧ ¬HasSemicolon text ↔
      (∃ x, IsExpression text x) ∧ ¬Scan.EndsInComment (Utf8.decode text)) ∧
    ∀ x, IsExpression text x → ¬Scan.EndsInComment (Utf8.decode text) →
      ∃ p, Computes p x ∧
        ∀ limits fuel, evaluate text limits fuel = .ok (execute p limits fuel) := by
  have hcompile {x : Expr} (hx : IsExpression text x)
      (hc : ¬Scan.EndsInComment (Utf8.decode text)) :
      ∃ unit, compile (evaluationSource text) defaultEntry = .ok unit ∧
        Computes unit.program x := by
    obtain ⟨ts, hts, hread⟩ := hx.reads
    obtain ⟨ts', p, hts', hp, herase⟩ := exists_tree_of_reads hts hread hc
    exact exists_compile_of_erase herase hts' hp (typeOf_eq_ok_iff.mp hx.typed)
  refine ⟨⟨?_, ?_⟩, ?_⟩
  · rintro ⟨⟨unit, hunit⟩, hs⟩
    obtain ⟨hts, hp, hcollect, hcheck, -⟩ := compile_eq_ok_iff.mp hunit
    obtain ⟨hc, ts, x, hread, hx, herase⟩ := exists_expr_of_tree hts hp hs
    have htyped := hasType_of_check herase hcollect hcheck
    exact ⟨⟨x, ⟨ts, hread, hx⟩, typeOf_eq_ok_iff.mpr htyped⟩, hc⟩
  · rintro ⟨⟨x, hx⟩, hc⟩
    obtain ⟨unit, hunit, -⟩ := hcompile hx hc
    exact ⟨⟨unit, hunit⟩, hx.not_hasSemicolon⟩
  · intro x hx hc
    obtain ⟨unit, hunit, hcomputes⟩ := hcompile hx hc
    refine ⟨unit.program, hcomputes, fun limits fuel => ?_⟩
    rw [evaluate, compileAndRun, hunit]
    rfl

namespace Sample

/-- A division by zero, with a comment that ends with its line. -/
def division : Bytes := Bytes.ofString "6 / 0 // zero\n"

/-- The tokens of the division behind `c` characters. -/
def divisionTokens (c : Nat) : List Token :=
  [number "6" (c + 1), op .divide (c + 3), number "0" (c + 5)]

def divisionTree : Expr := .binary .divide (.int (number "6" 1) 6) (.int (number "0" 5) 0)

set_option maxRecDepth 100000 in
theorem division_tokens :
    Token.ofText (Utf8.decode division) = .ok (divisionTokens 0) ∧
    Token.ofText (Utf8.decode (evaluationSource division)) =
      .ok (Scan.openingTokens ++ (divisionTokens 32 ++
        [⟨.delimiter .semicolon, ";", ⟨2, 1⟩⟩, ⟨.delimiter .rbrace, "\x7d", ⟨2, 3⟩⟩])) := by
  decide +kernel

end Sample

/-- With room and steps enough, evaluating `Sample.division` reports the division by zero. -/
theorem evaluate_expression_division : ∃ enough, ∀ limits : Limits, limits.Allow enough →
    ∀ fuel ≥ enough, ∃ ran f, evaluate Sample.division limits fuel = .ok (some ran) ∧
      ran.fault = some f ∧ f.cause = .divisionByZero := by
  have hcompiles : ∃ unit, compile (evaluationSource Sample.division) defaultEntry = .ok unit := by
    rw [compile_of_tokens Sample.division_tokens.2]
    exact ⟨_, by cbv⟩
  have hx : IsExpression Sample.division Sample.divisionTree :=
    ⟨⟨_, Sample.division_tokens.1, by cbv⟩, by cbv⟩
  obtain ⟨hiff, hruns⟩ := evaluate_expression Sample.division
  obtain ⟨-, hc⟩ := hiff.mp ⟨hcompiles, hx.not_hasSemicolon⟩
  obtain ⟨p, hcomputes, hrun⟩ := hruns _ hx hc
  have hzero : Meaning.value Sample.divisionTree 0 = .divisionByZero [] := rfl
  obtain ⟨enough, hdivides⟩ := hcomputes.divided hzero
  refine ⟨enough, fun limits hl fuel hfuel => ?_⟩
  obtain ⟨ran, hran, -, f, hfault, hcause⟩ := hdivides limits hl fuel hfuel
  exact ⟨ran, f, by rw [hrun, hran], hfault, hcause⟩

namespace Sample

/-- A number, with a comment that is not closed. -/
def commented : Bytes := Bytes.ofString "1 // one"

/-- A number and another statement. -/
def statements : Bytes := Bytes.ofString "1; return 2"

set_option maxRecDepth 100000 in
theorem commented_tokens :
    Token.ofText (Utf8.decode commented) = .ok [number "1" 1] ∧
    Token.ofText (Utf8.decode (evaluationSource commented)) =
      .ok (Scan.openingTokens ++ [number "1" 33]) := by
  decide +kernel

set_option maxRecDepth 100000 in
theorem statements_tokens :
    Token.ofText (Utf8.decode statements) =
      .ok [number "1" 1, mark .semicolon 2, key .ret 4, number "2" 11] ∧
    Token.ofText (Utf8.decode (evaluationSource statements)) =
      .ok (Scan.openingTokens ++ [number "1" 33, mark .semicolon 34, key .ret 36, number "2" 43,
        mark .semicolon 44, mark .rbrace 46]) := by
  decide +kernel

end Sample

/-- Texts out of their place: an integer expression that ends in a comment does not compile, and a
text that is no expression does, because its semicolon ends the statement that it is put into. -/
theorem evaluate_out_of_place :
    (IsExpression Sample.commented (.int (Sample.number "1" 1) 1) ∧
      ∀ unit, compile (evaluationSource Sample.commented) defaultEntry ≠ .ok unit) ∧
    (∀ x, ¬IsExpression Sample.statements x) ∧
      ∃ unit, compile (evaluationSource Sample.statements) defaultEntry = .ok unit := by
  refine ⟨⟨⟨⟨_, Sample.commented_tokens.1, by cbv⟩, by cbv⟩, ?_⟩, ?_, ?_⟩
  · intro unit hunit
    obtain ⟨hts, hp, -⟩ := compile_eq_ok_iff.mp hunit
    rw [Sample.commented_tokens.2] at hts
    have hfails : (Tree.Program.ofTokens
        (Scan.openingTokens ++ [Sample.number "1" 33])).toOption = none := by cbv
    rw [← Except.ok.inj hts] at hp
    rw [hp] at hfails
    cases hfails
  · intro x hx
    exact hx.not_hasSemicolon ⟨_, Sample.statements_tokens.1, Sample.mark .semicolon 2, by simp, rfl⟩
  · rw [compile_of_tokens Sample.statements_tokens.2]
    exact ⟨_, by cbv⟩

end Stackling
