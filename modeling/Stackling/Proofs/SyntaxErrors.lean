import Stackling.Diagnostic
import Stackling.Proofs.Correctness
import Stackling.Proofs.Grammar.Viable
import Stackling.Proofs.Parsing

/-!
# Where syntax errors are reported

A syntax error is reported at the first token that is impossible where it stands
(`syntaxError_at_first_impossible`). The tokens before it are the beginning of something that the
parser accepts; with it they are not. If the list of tokens itself is such a beginning, the error is
reported at the end of input.

Numbers that are out of range are another matter. They are impossible for what they are, not for
where they stand.
-/

namespace Stackling

/-- The token number `k`. Behind the last one stands the end of input. -/
def Tree.tokenAt (ts : List Token) (k : Nat) : Token := ts.getD k (Tree.endOfInput ts)

/-- `parse` fails on `ts` with the error `e`, which is about the token number `k`. That token is the
first one with which nothing goes on that `parse` accepts. -/
structure Tree.FailsAt {α : Type} (parse : List Token → Except ParseError α) (ts : List Token)
    (e : ParseError) (k : Nat) : Prop where
  le : k ≤ ts.length
  token : e.token = Tree.tokenAt ts k
  /-- the error is shown with the place and the description of the token -/
  reported : ∃ x : Expected, Diagnostic.ofParse e = .grammatical (Tree.tokenAt ts k).pos
    (Bytes.ofString x.describe) (Bytes.ofString (Tree.tokenAt ts k).describe) []
  /-- what stands before the token is the beginning of something that is accepted -/
  viable : ∃ more a, parse (ts.take k ++ more) = .ok a
  /-- with the token it is not; the end of input would have to be the end of what is accepted -/
  impossible : ∀ {ts' : List Token} {a : α}, parse ts' = .ok a → ts.take (k + 1) <+: ts' →
    k = ts.length ∧ ts' ≠ ts

/-- A parser whose reader has a course fails at the first impossible token. -/
theorem Grammar.Course.failsAt {α β : Type} {m : Grammar.Script α} {L : Language Token}
    {ts : List Token} (hc : Grammar.Course m L ts) {parse : List Token → Except ParseError β}
    {g : List Token → α × List Token → β}
    (hparse : ∀ ts, parse ts = (m (Tree.endOfInput ts) ts).map (g ts))
    (haccept : ∀ word ∈ L, ∃ b, parse word = .ok b) {x : Expected} {t : Token}
    (h : parse ts = .error (.unexpected x t)) :
    ∃ k, Tree.FailsAt parse ts (.unexpected x t) k := by
  have heof := Tree.endOfInput_kind
  rw [hparse] at h
  cases hc with
  | done used hts _ hm =>
    subst hts
    rw [hm _ _ (heof _) rfl] at h
    cases h
  | outOfRange hm =>
    rw [hm _ (heof _)] at h
    cases h
  | @stuck used rest more _ hts hmore hm =>
    subst hts
    rw [hm _ _ (heof _) rfl] at h
    cases h
    have htoken : Tree.tokenAt (used ++ rest) used.length =
        Tree.current (Tree.endOfInput (used ++ rest)) rest := by
      cases rest <;> simp [Tree.tokenAt, Tree.current]
    refine ⟨used.length, by simp, htoken.symm, ⟨x, by rw [htoken]; rfl⟩, ?_, ?_⟩
    · obtain ⟨b, hb⟩ := haccept _ hmore
      exact ⟨more, b, by simpa using hb⟩
    · intro ts' b hb hpre
      rcases rest with _ | ⟨t, rest⟩
      · refine ⟨by simp, ?_⟩
        rintro rfl
        rw [hparse, hm _ _ (heof _) rfl] at hb
        cases hb
      · -- the reader complains about the same token, whatever follows it
        rw [List.take_append, List.take_of_length_le (by omega)] at hpre
        obtain ⟨after, rfl⟩ := hpre
        have hfails := hm (Tree.endOfInput (used ++ t :: after)) (t :: after) (heof _) rfl
        simp only [Nat.add_sub_cancel_left, List.take_succ_cons, List.take_zero,
          List.append_assoc, List.singleton_append] at hb
        rw [hparse, hfails] at hb
        cases hb

/-- **Syntax errors are reported at the first impossible token.** Where the tokens of a text form no
program, or no expression, and the reason is not a number out of range, the error is about the first
token with which nothing goes on that would be one. -/
theorem syntaxError_at_first_impossible {cs : List Char} {ts : List Token}
    (h : Token.ofText cs = .ok ts) :
    (∀ {x : Expected} {t : Token}, Tree.Program.ofTokens ts = .error (.unexpected x t) →
      ∃ k, Tree.FailsAt Tree.Program.ofTokens ts (.unexpected x t) k) ∧
    (∀ {x : Expected} {t : Token}, Tree.Expr.ofTokens ts = .error (.unexpected x t) →
      ∃ k, Tree.FailsAt Tree.Expr.ofTokens ts (.unexpected x t) k) := by
  have hts := Token.allPlain_of_ofText h
  refine ⟨?_, ?_⟩
  · refine (Grammar.functions_course hts).failsAt Grammar.Script.ofTokens_program ?_
    rintro _ ⟨d, rfl⟩
    exact ⟨_, Tree.Program.ofTokens_yield d⟩
  · refine (Grammar.text_course hts).failsAt Grammar.Script.ofTokens_expr ?_
    rintro _ ⟨d, rfl⟩
    exact ⟨_, Tree.Expr.ofTokens_yield d⟩

namespace Sample

/-- A parenthesis that is not closed. -/
def unclosed : List Token :=
  [key .function 1, name "f" 10, mark .lparen 11, mark .rparen 12, mark .lbrace 14, key .ret 16,
    mark .lparen 23, digit "1" 24, mark .semicolon 25, mark .rbrace 27]

end Sample

/-- The parenthesis should have been closed where the semicolon stands. And no expression starts
with the word `function`. -/
theorem syntaxError_at_first_impossible_unclosed :
    Token.ofText "function f() \x7b return (1; \x7d".toList = .ok Sample.unclosed ∧
    (∃ k, Tree.FailsAt Tree.Program.ofTokens Sample.unclosed
      (.unexpected (.kind (.delimiter .rparen)) (Sample.mark .semicolon 25)) k) ∧
    ∃ k, Tree.FailsAt Tree.Expr.ofTokens Sample.unclosed
      (.unexpected .expression (Sample.key .function 1)) k := by
  have htext : Token.ofText "function f() \x7b return (1; \x7d".toList = .ok Sample.unclosed := by
    decide +kernel
  obtain ⟨hprogram, hexpr⟩ := syntaxError_at_first_impossible htext
  exact ⟨htext, hprogram (by cbv), hexpr (by cbv)⟩

end Stackling
