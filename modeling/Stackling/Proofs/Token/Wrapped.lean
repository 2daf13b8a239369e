import Stackling.Proofs.Token.Separation

/-!
# Reading a text inside a function

A text is evaluated by putting `opening` in front of it and `closing` behind it. The reader does not
know where the text starts and ends, so this module says what it makes of the three parts together.

* In front the parts never mix: `opening` ends in a blank, so its tokens are the same whatever
  follows.
* Behind they mix in one way only. The mark at the start of `closing` goes on with no token, and no
  string can end in `closing`; but a comment at the end of the text that no line end closes goes on
  through `closing`.

So the tokens of the text are found in the whole, at other places but with the same `content`,
followed by those of `closing` (`exists_ofText_wrapped`) or, behind an open comment, by
none (`exists_ofText_wrapped_of_open`); and if the text cannot be read, neither can the whole
(`exists_ofText_of_wrapped`).
-/

namespace Stackling

namespace Scan

/-- What is put in front of a text. -/
def opening : List Char := "function main() -> int \x7b return ".toList

/-- The tokens of `opening`. -/
def openingTokens : List Token :=
  [⟨.keyword .function, "function", ⟨1, 1⟩⟩, ⟨.ident, "main", ⟨1, 10⟩⟩,
    ⟨.delimiter .lparen, "(", ⟨1, 14⟩⟩, ⟨.delimiter .rparen, ")", ⟨1, 15⟩⟩,
    ⟨.operator .arrow, "->", ⟨1, 17⟩⟩, ⟨.keyword .int, "int", ⟨1, 20⟩⟩,
    ⟨.delimiter .lbrace, "\x7b", ⟨1, 24⟩⟩, ⟨.keyword .ret, "return", ⟨1, 26⟩⟩]

/-- What is put behind a text. -/
def closing : List Char := "; \x7d".toList

/-- The text ends in a comment that no line end closes: behind its last token the two characters
that start a comment stand on the last line. -/
def EndsInComment (cs : List Char) : Prop :=
  ∃ ps before body, Layout [] cs ps (before ++ '/' :: '/' :: body) ∧ '\n' ∉ body

/-! ## Tokens in front of `closing` -/

variable {after after' s : List Char} {k : Kind} {t : String}

theorem separated_closing : Separated closing := by
  rintro c ⟨⟩
  exact ⟨by decide, by decide⟩

theorem mem_head?_append {c : Char} (hc : c ∈ after.head?) : c ∈ (after ++ after').head? := by
  cases after with
  | nil => cases hc
  | cons d after => exact hc

/-- A token of two characters or more ends in none of `closing`. -/
theorem Spelled.getLast?_notMem (hs : Spelled after s k t) (hlen : 1 < s.length) :
    ∀ c ∈ s.getLast?, c ∉ closing := by
  have hclass {p : Char → Bool} (hp : closing.all (!p ·) = true)
      (hall : ∀ c ∈ s, p c = true) : ∀ c ∈ s.getLast?, c ∉ closing := by
    intro c hc hmem
    have hc := hall c (List.mem_of_getLast? hc)
    simpa [hc] using List.all_eq_true.mp hp c hmem
  cases hs with
  | number hne hs => exact hclass rfl hs.inside
  | keyword hs hk => exact hclass rfl hs.inside
  | ident hs hk => exact hclass rfl hs.inside
  | @operator s o ho hmax hcom =>
    refine hclass (p := isOperatorChar) rfl (fun c hc => isOperatorChar_of_mem_symbol (o := o) ?_)
    rwa [ho, String.toList_ofList]
  | delimiter hd =>
    rw [hd] at hlen
    exact absurd hlen (by simp)
  | string hb =>
    intro c hc
    rw [← List.cons_append, List.getLast?_concat] at hc
    cases hc
    decide

/-- A token that starts in front of `closing` ends there. -/
theorem Spelled.exists_rest {c : Char} {cs rest : List Char} (hs : Spelled rest s k t)
    (h : s ++ rest = c :: cs ++ closing) : ∃ r, rest = r ++ closing ∧ s ++ r = c :: cs := by
  obtain ⟨r, hcs, hrest⟩ | ⟨extra, rfl, hextra⟩ := List.append_eq_append_iff.mp h
  · exact ⟨r, hrest, hcs.symm⟩
  cases extra using List.reverseRecOn with
  | nil => exact ⟨[], hextra.symm, by simp⟩
  | append_singleton extra d =>
    have hlast : d ∈ (c :: cs ++ (extra ++ [d])).getLast? := by
      rw [← List.append_assoc, List.getLast?_concat]
      rfl
    have hlen : 1 < (c :: cs ++ (extra ++ [d])).length := by
      rw [List.length_append, List.length_append, List.length_cons, List.length_singleton]
      omega
    refine absurd ?_ (hs.getLast?_notMem hlen d hlast)
    simp [hextra]

/-! ## One token of the reading -/

variable {c : Char} {cs rest : List Char} {l : Lexeme}

theorem scanToken_append_closing (h : scanToken c cs = .ok l)
    (hc : c = '/' → cs.head? ≠ some '/') :
    scanToken c (cs ++ closing) = .ok { l with rest := l.rest ++ closing } := by
  have hs := (spelled_of_scanToken h hc).mono (separated_closing.head?_append l.rest)
  obtain ⟨c', rest', heq, -, hscan⟩ := hs.readAs
  rw [← List.append_assoc, (scanToken_append h).1] at heq
  cases heq
  exact hscan

theorem exists_scanToken_of_append (h : scanToken c (cs ++ closing) = .ok l)
    (hc : c = '/' → (cs ++ closing).head? ≠ some '/') : ∃ l', scanToken c cs = .ok l' := by
  have hs := spelled_of_scanToken h hc
  obtain ⟨r, hr, hcs⟩ := hs.exists_rest (scanToken_append h).1
  rw [hr] at hs
  have hs' : Spelled r l.span l.kind l.text := hs.mono fun d hd => .inl (mem_head?_append hd)
  obtain ⟨c', rest', heq, -, hscan⟩ := hs'.readAs
  rw [hcs] at heq
  cases heq
  exact ⟨_, hscan⟩

/-! ## Gaps in front of `closing` -/

theorem Clear.append_closing (h : Clear (c :: rest)) : Clear (c :: (rest ++ closing)) := by
  obtain ⟨hb, hcom⟩ := h c rest rfl
  rintro c' rest' heq
  obtain ⟨rfl, rfl⟩ := List.cons.inj heq
  refine ⟨hb, fun hc hhead => ?_⟩
  obtain hhead | hsep := separated_closing.head?_append rest '/' hhead
  · exact hcom hc hhead
  · exact absurd hsep.2 (by decide)

theorem splitGap_append_closing {g : List Char} (h : splitGap false cs = (g, c :: rest)) :
    splitGap false (cs ++ closing) = (g, c :: (rest ++ closing)) := by
  have hgap := gap_splitGap cs
  have hclear := clear_splitGap false cs
  have hcs := splitGap_append false cs
  rw [h] at hgap hclear hcs
  rw [← hcs, List.append_assoc, List.cons_append]
  exact hgap.of_cons.splitGap_eq hclear.append_closing

/-- At the end of a text, a gap ends in front of `closing`, or in a comment that is not closed. -/
theorem Gap.ends {g : List Char} (h : Gap [] g) :
    Gap closing g ∨ ∃ before body, g = before ++ '/' :: '/' :: body ∧ '\n' ∉ body := by
  induction h with
  | nil => exact .inl .nil
  | @blank c g hc _ ih =>
    obtain hg | ⟨before, body, rfl, hb⟩ := ih
    · exact .inl (.blank hc hg)
    · exact .inr ⟨c :: before, body, rfl, hb⟩
  | @comment body g hb _ ih =>
    obtain hg | ⟨before, body', rfl, hb'⟩ := ih
    · exact .inl (.comment hb hg)
    · exact .inr ⟨'/' :: '/' :: (body ++ '\n' :: before), body', by simp, hb'⟩
  | @lastComment body hb _ => exact .inr ⟨[], body, rfl, hb⟩

/-- A suffix without a line end stands behind every line end. -/
theorem suffix_of_lineEnd {xs ys zs : List Char} (h : zs <:+ xs ++ '\n' :: ys) (hz : '\n' ∉ zs) :
    zs <:+ ys := by
  obtain hle | hle := List.suffix_or_suffix_of_suffix h (List.suffix_append xs ('\n' :: ys))
  · obtain rfl | hle := List.suffix_cons_iff.mp hle
    · exact absurd List.mem_cons_self hz
    · exact hle
  · exact absurd (hle.subset List.mem_cons_self) hz

/-- A comment that is not closed goes on through whatever has no line end. -/
theorem Gap.goesOn {g body more : List Char} (h : Gap [] g) (hs : '/' :: '/' :: body <:+ g)
    (hb : '\n' ∉ body) (hm : '\n' ∉ more) : Gap [] (g ++ more) := by
  induction h with
  | nil => exact absurd hs (by simp)
  | @blank c g hc _ ih =>
    obtain heq | hs := List.suffix_cons_iff.mp hs
    · cases heq
      exact absurd hc (by decide)
    · exact .blank hc (ih hs)
  | @comment body' g hb' _ ih =>
    have hline : '/' :: '/' :: body <:+ ('/' :: '/' :: body') ++ '\n' :: g := hs
    have hs : '/' :: '/' :: body <:+ g := suffix_of_lineEnd hline (by simp [hb])
    rw [List.cons_append, List.cons_append, List.append_assoc, List.cons_append]
    exact .comment hb' (ih hs)
  | @lastComment body' hb' _ =>
    exact .lastComment (by simp [hb', hm]) rfl

/-! ## Whole texts -/

/-- A text that cannot be read cannot be read in front of `closing` either. -/
theorem exists_error_append_closing {p : Position} {e : LexError}
    (h : (scanFrom p cs).stop = .error e) (q : Position) :
    ∃ e', (scanFrom q (cs ++ closing)).stop = .error e' := by
  fun_induction scanFrom p cs generalizing q with
  | case1 => cases h
  | case2 p cs c rest hg start f hf =>
    have hg : splitGap false cs = ((splitGap false cs).1, c :: rest) := by rw [← hg]
    have hsplit := splitGap_append_closing hg
    have hclear := clear_splitGap false (cs ++ closing)
    rw [hsplit] at hclear
    cases hs : scanToken c (rest ++ closing) with
    | error f' => exact ⟨_, by rw [scanFrom_error q hsplit hs]⟩
    | ok l =>
      obtain ⟨l', hl'⟩ := exists_scanToken_of_append hs (hclear c _ rfl).2
      rw [hf] at hl'
      cases hl'
  | case3 p cs c rest hg start l hl _ more ih =>
    have hclear := clear_splitGap false cs
    rw [hg] at hclear
    have hg : splitGap false cs = ((splitGap false cs).1, c :: rest) := by rw [← hg]
    have hs := scanToken_append_closing hl (hclear c rest rfl).2
    rw [scanFrom_token q (splitGap_append_closing hg) hs rfl]
    exact ih h _

/-- The tokens of `opening` are read, and then what follows it is. -/
theorem scanFrom_opening (cs : List Char) :
    scanFrom .start (opening ++ cs) =
      ⟨openingTokens ++ (scanFrom (.after .start opening) cs).tokens,
        (scanFrom (.after .start opening) cs).stop⟩ := by
  have hblank : scanFrom ⟨1, 32⟩ ([' '] ++ cs) = scanFrom ⟨1, 33⟩ cs :=
    scanFrom_gap (.blank rfl .nil) ⟨1, 32⟩
  have hret := @scanFrom_token _ (" return ".toList ++ cs) _ _ _ _ ⟨1, 25⟩ rfl rfl hblank
  have hlbrace := @scanFrom_token _ (" \x7b return ".toList ++ cs) _ _ _ _ ⟨1, 23⟩ rfl rfl hret
  have hint := @scanFrom_token _ (" int \x7b return ".toList ++ cs) _ _ _ _ ⟨1, 19⟩ rfl rfl hlbrace
  have harrow := @scanFrom_token _ (" -> int \x7b return ".toList ++ cs) _ _ _ _ ⟨1, 16⟩
    rfl rfl hint
  have hrparen := @scanFrom_token _ (") -> int \x7b return ".toList ++ cs) _ _ _ _ ⟨1, 15⟩
    rfl rfl harrow
  have hlparen := @scanFrom_token _ ("() -> int \x7b return ".toList ++ cs) _ _ _ _ ⟨1, 14⟩
    rfl rfl hrparen
  have hmain := @scanFrom_token _ (" main() -> int \x7b return ".toList ++ cs) _ _ _ _ ⟨1, 9⟩
    rfl rfl hlparen
  exact @scanFrom_token _ (opening ++ cs) _ _ _ _ .start rfl rfl hmain

/-- Behind a gap that it ends, `closing` is read as its two marks. -/
theorem Gap.scanFrom_closing {g : List Char} (h : Gap closing g) (p : Position) :
    ∃ semi brace stop, semi.kind = .delimiter .semicolon ∧ brace.kind = .delimiter .rbrace ∧
      scanFrom p (g ++ closing) = ⟨[semi, brace], .ok stop⟩ := by
  have hsplit := h.splitGap_eq (clear_cons rfl (by decide) _)
  have hnone : splitGap false [] = ([], []) := rfl
  have hend (q : Position) := scanFrom_end q hnone
  have hbrace (q : Position) := @scanFrom_token _ " \x7d".toList _ _ _ _ q rfl rfl (hend _)
  exact ⟨_, _, _, rfl, rfl, scanFrom_token p hsplit rfl (hbrace _)⟩

/-! ## A text between `opening` and `closing` -/

/-- A text with what is put around it. -/
def wrapped (cs : List Char) : List Char := opening ++ (cs ++ closing)

theorem Layout.scanFrom_wrapped {last : List Char} {ps : List Piece} (h : Layout [] cs ps last) :
    ∃ ts q, ts.map Token.content = (ps.map Piece.token).map Token.content ∧
      scanFrom .start (wrapped cs) =
        ⟨openingTokens ++ (ts ++ (scanFrom q (last ++ closing)).tokens),
          (scanFrom q (last ++ closing)).stop⟩ := by
  obtain ⟨ts, q, hts, -, hscan⟩ := h.scanFrom_append separated_closing (.after .start opening)
  exact ⟨ts, q, hts, by rw [wrapped, scanFrom_opening, hscan]⟩

variable {ts : List Token}

/-- A text that ends in an open comment takes `closing` into it. -/
theorem exists_ofText_wrapped_of_open (h : Token.ofText cs = .ok ts) (hc : EndsInComment cs) :
    ∃ ts', ts'.map Token.content = ts.map Token.content ∧
      Token.ofText (wrapped cs) = .ok (openingTokens ++ ts') := by
  obtain ⟨ps, before, body, hlayout, hb⟩ := hc
  obtain rfl : ps.map Piece.token = ts := by
    have hread := ofText_eq_ok hlayout.scanFrom_eq
    rw [h] at hread
    exact (Except.ok.inj hread).symm
  obtain ⟨ts', q, hts, hscan⟩ := hlayout.scanFrom_wrapped
  have hclosing : '\n' ∉ closing := by decide
  have hgap := hlayout.last.goesOn (List.suffix_append before _) hb hclosing
  have hsplit := hgap.splitGap_eq nofun
  rw [List.append_nil] at hsplit
  rw [scanFrom_end q hsplit, List.append_nil] at hscan
  exact ⟨ts', hts, ofText_eq_ok hscan⟩

/-- Any other text leaves the marks of `closing` as they are. -/
theorem exists_ofText_wrapped (h : Token.ofText cs = .ok ts) (hc : ¬EndsInComment cs) :
    ∃ (ts' : List Token) (semi brace : Token), ts'.map Token.content = ts.map Token.content ∧
      semi.kind = .delimiter .semicolon ∧ brace.kind = .delimiter .rbrace ∧
      Token.ofText (wrapped cs) = .ok (openingTokens ++ (ts' ++ [semi, brace])) := by
  obtain ⟨ps, last, hlayout, rfl⟩ := exists_layout_of_ofText h
  obtain ⟨ts', q, hts, hscan⟩ := hlayout.scanFrom_wrapped
  obtain hgap | ⟨before, body, rfl, hb⟩ := hlayout.last.ends
  · obtain ⟨semi, brace, stop, hsemi, hbrace, hclosing⟩ := hgap.scanFrom_closing q
    rw [hclosing] at hscan
    exact ⟨ts', semi, brace, hts, hsemi, hbrace, ofText_eq_ok hscan⟩
  · exact absurd ⟨ps, before, body, hlayout, hb⟩ hc

/-- If the whole can be read, so can the text. -/
theorem exists_ofText_of_wrapped (h : Token.ofText (wrapped cs) = .ok ts) :
    ∃ ts', Token.ofText cs = .ok ts' := by
  cases hcs : Token.ofText cs with
  | ok ts' => exact ⟨ts', rfl⟩
  | error e =>
    have hstop : ∃ e, (scanFrom .start cs).stop = .error e := by
      rw [Token.ofText, toExcept, ofText] at hcs
      cases hs : (scanFrom .start cs).stop with
      | error e => exact ⟨e, rfl⟩
      | ok q =>
        rw [hs] at hcs
        cases hcs
    obtain ⟨e, he⟩ := hstop
    obtain ⟨e', he'⟩ := exists_error_append_closing he (.after .start opening)
    rw [Token.ofText, toExcept, ofText, wrapped, scanFrom_opening, he'] at h
    cases h

end Scan

end Stackling
