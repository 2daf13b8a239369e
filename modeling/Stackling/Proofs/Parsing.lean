import Mathlib.Algebra.Module.Submodule.Lattice
import Stackling.Proofs.Grammar.Complete
import Stackling.Proofs.Grammar.Sound
import Stackling.Proofs.Grammar.Unique

/-!
# The parser and the grammar

The parser accepts exactly the token lists that the grammar derives, and what it gives back is the
tree of their only derivation. The two directions are put together here for whole texts: nothing
follows a text, so every derivation of it ends where it has to, and no token of a text is taken for
its end.
-/

namespace Stackling

open Grammar (Phrase)

variable {ts : List Token}

theorem Tree.endOfInput_kind (ts : List Token) : (Tree.endOfInput ts).kind = .eof := by
  unfold Tree.endOfInput
  split
  · rfl
  · split
    · next h => exact h
    · rfl

/-- What is derived is accepted, whatever its tokens are. -/
theorem Tree.Program.ofTokens_yield (d : Grammar.Program) :
    Tree.Program.ofTokens d.yield = .ok d.tree := by
  have heof := Tree.endOfInput_kind d.yield
  -- a text without tokens has its end at the start
  have hstart : Tree.current (Tree.endOfInput d.yield) d.yield =
      d.yield.headD ⟨.eof, "", .start⟩ := by
    cases d.yield <;> rfl
  simp only [Tree.Program.ofTokens, bind_eq_ok, pure_eq_ok, hstart]
  exact ⟨_, Grammar.readFunctions_yield heof d.functions, rfl⟩

theorem Tree.Expr.ofTokens_yield (d : Phrase .expr) :
    Tree.Expr.ofTokens d.yield = .ok d.tree := by
  obtain ⟨hlt, h⟩ : Grammar.Reads
      (Grammar.readPhrase (Tree.endOfInput d.yield) .expr d.yield) d.tree [] := by
    rw [← List.append_nil d.yield]
    exact d.reads Grammar.closes_nil
  simp only [Tree.Expr.ofTokens, bind_eq_ok]
  exact ⟨⟨d.tree, [], hlt⟩, h, if_pos (Tree.endOfInput_kind d.yield)⟩

theorem Tree.Program.ofTokens_iff (hts : Token.AllPlain ts) {p : Tree.Program} :
    Tree.Program.ofTokens ts = .ok p ↔ ∃ d : Grammar.Program, d.yield = ts ∧ d.tree = p := by
  refine ⟨?_, ?_⟩
  · intro h
    obtain ⟨fs, hfs, -⟩ := bind_eq_ok.mp h
    obtain ⟨ds, hy, -⟩ := Grammar.exists_functions (Tree.endOfInput_kind ts) hts hfs
    have hd := Tree.Program.ofTokens_yield ⟨ds⟩
    rw [Grammar.Program.yield, hy, h, Except.ok.injEq] at hd
    exact ⟨⟨ds⟩, hy, hd.symm⟩
  · rintro ⟨d, rfl, rfl⟩
    exact Tree.Program.ofTokens_yield d

theorem Tree.Expr.ofTokens_iff (hts : Token.AllPlain ts) {e : Tree.Expr} :
    Tree.Expr.ofTokens ts = .ok e ↔ ∃ d : Phrase .expr, d.yield = ts ∧ d.tree = e := by
  have heof := Tree.endOfInput_kind ts
  refine ⟨?_, ?_⟩
  · intro h
    obtain ⟨⟨e', rest, hlt⟩, h, hend⟩ := bind_eq_ok.mp h
    obtain ⟨d, hy, rfl⟩ := Grammar.exists_phrase (r := .expr) hts ⟨hlt, h⟩
    split at hend
    · next hrest =>
      have hplain : Token.AllPlain rest := Token.AllPlain.right (hy ▸ hts)
      obtain rfl := (Grammar.current_eof_iff heof hplain).mp hrest
      exact ⟨d, by simpa using hy, pure_eq_ok.mp hend⟩
    · cases hend
  · rintro ⟨d, rfl, rfl⟩
    exact Tree.Expr.ofTokens_yield d

namespace Sample

def digit (d : String) (column : Nat) : Token := ⟨.number, d, ⟨1, column⟩⟩

end Sample

end Stackling
