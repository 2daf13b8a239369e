import Stackling.Token.Scan

/-!
# Tokens of texts

What may be relied on where tokens come from a text. No such token is an end of input: texts end
where their tokens do. And a number is spelled with digits only, at least one of them; a sign in
front of it is a token of its own.
-/

namespace Stackling

/-- A token as texts have them. -/
structure Token.Plain (t : Token) : Prop where
  /-- the end of input is not among the tokens -/
  ne_eof : t.kind ≠ .eof
  /-- a number has digits -/
  nonempty : t.kind = .number → t.lexeme.toList ≠ []
  /-- and nothing else -/
  digits : t.kind = .number → ∀ c ∈ t.lexeme.toList, c.isDigit = true

/-- Only numbers have a text that must be looked at. -/
theorem Token.Plain.of_ne {t : Token} (he : t.kind ≠ .eof) (hn : t.kind ≠ .number) : t.Plain :=
  ⟨he, fun h => absurd h hn, fun h => absurd h hn⟩

/-- A list of tokens as texts have them. -/
def Token.AllPlain (ts : List Token) : Prop := ∀ t ∈ ts, t.Plain

namespace Token.AllPlain

variable {t : Token} {ts ts' : List Token}

theorem head (h : AllPlain (t :: ts)) : t.Plain := h t List.mem_cons_self

theorem tail (h : AllPlain (t :: ts)) : AllPlain ts := fun t' ht => h t' (List.mem_cons_of_mem t ht)

theorem right (h : AllPlain (ts ++ ts')) : AllPlain ts' :=
  fun t ht => h t (List.mem_append_right ts ht)

end Token.AllPlain

/-- A word is reserved or an identifier. -/
theorem Kind.ofWord_cases (w : String) : (∃ k, ofWord w = .keyword k) ∨ ofWord w = .ident := by
  unfold ofWord
  split
  · next k _ => exact .inl ⟨k, rfl⟩
  · exact .inr rfl

namespace Scan

variable {c : Char} {cs : List Char} {l : Lexeme}

/-- What is scanned as an operator is one. -/
theorem scanOperator_kind (h : scanOperator c cs = .ok l) : ∃ o, l.kind = .operator o := by
  unfold scanOperator at h
  split at h
  · cases hone : Operator.ofSymbol? (String.singleton c) with
    | none => simp [hone] at h
    | some o =>
      simp only [hone, Option.map_some, Except.ok.injEq] at h
      exact ⟨o, by rw [← h]⟩
  · next d rest =>
    cases htwo : Operator.ofSymbol? (String.ofList [c, d]) with
    | some o =>
      simp only [htwo, Option.map_some, Except.ok.injEq] at h
      exact ⟨o, by rw [← h]⟩
    | none =>
      cases hone : Operator.ofSymbol? (String.singleton c) with
      | none => simp only [htwo, hone, Option.map_none, reduceCtorEq] at h
      | some o =>
        simp only [htwo, hone, Option.map_none, Option.map_some, Except.ok.injEq] at h
        exact ⟨o, by rw [← h]⟩

/-- What is scanned as a token is plain. -/
theorem scanToken_plain (h : scanToken c cs = .ok l) (p : Position) :
    Token.Plain ⟨l.kind, l.text, p⟩ := by
  unfold scanToken at h
  split at h
  · next hc =>
    cases h
    refine ⟨by simp [scanRun], fun _ => ?_, fun _ d hd => ?_⟩
    · simp [scanRun, hc]
    · simp only [scanRun, String.toList_ofList] at hd
      exact List.all_eq_true.mp List.all_takeWhile d hd
  · split at h
    · cases h
      rcases Kind.ofWord_cases (String.ofList ((c :: cs).takeWhile isWordPart)) with ⟨k, hk⟩ | hk
      · exact .of_ne (by simp [scanRun, hk]) (by simp [scanRun, hk])
      · exact .of_ne (by simp [scanRun, hk]) (by simp [scanRun, hk])
    · split at h
      · split at h
        · cases h
          exact .of_ne (by simp) (by simp)
        · split at h <;> cases h
      · split at h
        · obtain ⟨o, ho⟩ := scanOperator_kind h
          exact .of_ne (by simp [ho]) (by simp [ho])
        · split at h
          · cases h
            exact .of_ne (by simp) (by simp)
          · cases h

/-- All tokens of a scan are plain, by induction on the scan. -/
theorem scanFrom_plain (p : Position) (cs : List Char) :
    Token.AllPlain (scanFrom p cs).tokens := by
  fun_induction scanFrom p cs with
  | case1 p cs hg => nofun
  | case2 p cs c rest hg start f hs => nofun
  | case3 p cs c rest hg start l hs hlt more ih =>
    intro t ht
    rcases List.mem_cons.mp ht with rfl | ht
    · exact scanToken_plain hs start
    · exact ih t ht

end Scan

/-- **The tokens of a text are plain**: none is an end of input, and numbers have digits only. -/
theorem Token.allPlain_of_ofText {cs : List Char} {ts : List Token}
    (h : Token.ofText cs = .ok ts) : AllPlain ts := by
  unfold Token.ofText Scan.toExcept at h
  cases hs : (Scan.ofText cs).stop with
  | error e =>
    rw [hs] at h
    cases h
  | ok p =>
    rw [hs] at h
    cases h
    exact Scan.scanFrom_plain .start cs

end Stackling
