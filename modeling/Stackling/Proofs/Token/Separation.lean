import Stackling.Proofs.Token.Layout

/-!
# Texts that follow each other

What is read from a text when another one is put in front of it or behind it.

* In front of a text, a gap only moves it on (`scanFrom_gap`), and a token that is one there is read
  before it (`scanFrom_spelled`).
* Behind a text, what starts with a character that separates leaves its tokens as they are
  (`Layout.scanFrom_append`). No word, number or operator goes on with such a character; blanks
  separate, and so do the delimiters. Only the gap at the end of the text is read together with what
  follows, because a comment may go on there.

Where a text stands makes no difference to what its tokens say (`ReadsAs`).
-/

namespace Stackling

/-- What a token says, without its place. -/
def Token.content (t : Token) : Kind × String := (t.kind, t.lexeme)

namespace Scan

/-! ## Characters that separate -/

/-- No word, number or operator goes on with `c`. -/
def Separates (c : Char) : Prop := isWordPart c = false ∧ isOperatorChar c = false

/-- No word, number or operator goes on with what comes first in the text. -/
def Separated (cs : List Char) : Prop := ∀ c ∈ cs.head?, Separates c

theorem separates_of_isBlank {c : Char} (h : Text.isBlank c = true) : Separates c := by
  refine ⟨?_, ?_⟩
  · rw [isWordPart, Bool.or_eq_false_iff, ← Bool.not_eq_true, ← Bool.not_eq_true]
    refine ⟨fun hw => ?_, fun hd => ?_⟩
    · rw [isBlank_eq_false_of_isWordStart hw] at h
      cases h
    · rw [Text.isBlank_eq_false_of_isDigit hd] at h
      cases h
  · have hops : "+-*/|<>=&!".toList.all (!Text.isBlank ·) = true := by decide
    rw [isOperatorChar, ← Bool.not_eq_true, List.contains_iff_mem]
    intro hmem
    simpa [h] using List.all_eq_true.mp hops c hmem

theorem isOperatorChar_of_mem_symbol {o : Operator} {c : Char} (h : c ∈ o.symbol.toList) :
    isOperatorChar c = true := by
  have hall : o.symbol.toList.all isOperatorChar = true := by cases o <;> decide
  exact List.all_eq_true.mp hall c h

variable {after after' more s : List Char} {k : Kind} {t : String}

theorem Separated.head?_append (hm : Separated more) (after : List Char) :
    ∀ c ∈ (after ++ more).head?, c ∈ after.head? ∨ Separates c := by
  cases after with
  | nil => exact fun c hc => .inr (hm c hc)
  | cons d after => exact fun c hc => .inl hc

/-- A token stays one if what comes next is the same, or separates. -/
theorem Spelled.mono (hs : Spelled after s k t)
    (h : ∀ c ∈ after'.head?, c ∈ after.head? ∨ Separates c) : Spelled after' s k t := by
  have hends {p : Char → Bool} (hp : ∀ c, Separates c → p c = false)
      (hrun : MaximalRun p after s) : MaximalRun p after' s := by
    refine ⟨hrun.inside, fun c hc => ?_⟩
    obtain hc | hc := h c hc
    · exact hrun.ends c hc
    · exact hp c hc
  have hword (hs : IsWord after s) : IsWord after' s :=
    ⟨hends (fun c hc => hc.1) hs.toMaximalRun, hs.starts⟩
  cases hs with
  | number hne hs =>
    exact .number hne (hends (fun c hc => (Bool.or_eq_false_iff.mp hc.1).2) hs)
  | keyword hs hk => exact .keyword (hword hs) hk
  | ident hs hk => exact .ident (hword hs) hk
  | @operator s o ho hmax hcom =>
    refine .operator ho (fun c hc o' heq => ?_) fun hdiv hhead => ?_
    · obtain hc | hc := h c hc
      · exact hmax c hc o' heq
      · have hop := isOperatorChar_of_mem_symbol (o := o') (c := c) (by simp [heq])
        rw [hc.2] at hop
        cases hop
    · obtain hc | hc := h '/' hhead
      · exact hcom hdiv hc
      · exact absurd hc.2 (by decide)
  | delimiter hd => exact .delimiter hd
  | string hb => exact .string hb

/-! ## Gaps and tokens in front of a text -/

variable {c : Char} {cs rest g g' : List Char}

theorem Gap.of_cons (h : Gap (c :: rest) g) : Gap after g := by
  induction h with
  | nil => exact .nil
  | blank hc _ ih => exact .blank hc ih
  | comment hb _ ih => exact .comment hb ih
  | lastComment _ ha => cases ha

theorem Gap.append (h : Gap (g' ++ after) g) (h' : Gap after g') : Gap after (g ++ g') := by
  induction h with
  | nil => exact h'
  | blank hc _ ih => exact .blank hc ih
  | comment hb _ ih =>
    rw [List.cons_append, List.cons_append, List.append_assoc, List.cons_append]
    exact .comment hb ih
  | lastComment hb ha =>
    obtain ⟨rfl, rfl⟩ := List.append_eq_nil_iff.mp ha
    rw [List.append_nil]
    exact .lastComment hb rfl

theorem scanFrom_error {f : Failure} (p : Position)
    (hg : splitGap false cs = (g, c :: rest)) (hf : scanToken c rest = .error f) :
    scanFrom p cs = ⟨[], .error ⟨p.after g, (p.after g).after f.before, f.cause⟩⟩ := by
  rw [scanFrom]
  split
  · next h => rw [hg] at h; cases h
  · next c' rest' h =>
    obtain ⟨rfl, rfl⟩ : c = c' ∧ rest = rest' := by simpa [hg] using h
    simp only [hg]
    split
    · next f' hf' =>
      rw [hf] at hf'
      cases hf'
      rfl
    · next l hl => rw [hf] at hl; cases hl

/-- A gap in front of a text only moves it on. -/
theorem scanFrom_gap (h : Gap cs g) (p : Position) :
    scanFrom p (g ++ cs) = scanFrom (p.after g) cs := by
  have hgap := gap_splitGap cs
  have hclear := clear_splitGap false cs
  have happ := splitGap_append false cs
  rcases hs : splitGap false cs with ⟨g', rest⟩
  rw [hs] at hgap hclear happ
  have hall : splitGap false (g ++ cs) = (g ++ g', rest) := by
    rw [← happ] at h ⊢
    rw [← List.append_assoc]
    exact (h.append hgap).splitGap_eq hclear
  cases rest with
  | nil => rw [scanFrom_end p hall, scanFrom_end _ hs, Position.after_append]
  | cons c rest =>
    cases hl : scanToken c rest with
    | error f => rw [scanFrom_error p hall hl, scanFrom_error _ hs hl, Position.after_append]
    | ok l => rw [scanFrom_token p hall hl rfl, scanFrom_token _ hs hl rfl, Position.after_append]

/-- A token in front of a text is read, and then the text is. -/
theorem scanFrom_spelled (h : Spelled cs s k t) (p : Position) :
    scanFrom p (s ++ cs) =
      ⟨⟨k, t, p⟩ :: (scanFrom (p.after s) cs).tokens, (scanFrom (p.after s) cs).stop⟩ := by
  obtain ⟨c, rest, hspan, hclear, hscan⟩ := h.readAs
  have hg : splitGap false (s ++ cs) = ([], c :: rest) := by
    rw [hspan]
    exact Gap.nil.splitGap_eq hclear
  exact scanFrom_token p hg hscan rfl

/-! ## A text in front of another -/

/-- The tokens of a text are read as before in front of what separates, and then the gap at its end
is read together with that. -/
theorem Layout.scanFrom_append {lead last : List Char} {ps : List Piece}
    (h : Layout lead cs ps last) (hm : Separated more) (p : Position) :
    ∃ ts q, ts.map Token.content = (ps.map Piece.token).map Token.content ∧
      scanFrom p cs = ⟨ts, .ok (q.after last)⟩ ∧
      scanFrom p (cs ++ more) =
        ⟨ts ++ (scanFrom q (last ++ more)).tokens, (scanFrom q (last ++ more)).stop⟩ := by
  induction ps generalizing lead cs p with
  | nil =>
    obtain rfl : cs = last := h.covers
    have hg := h.last.splitGap_eq nofun
    rw [List.append_nil] at hg
    exact ⟨[], p, rfl, scanFrom_end p hg, rfl⟩
  | cons piece ps ih =>
    have hpiece := h.head
    have hs := hpiece.spelled.mono (hm.head?_append _)
    have hgap : ∀ after, Gap (piece.span ++ after) piece.gap := by
      obtain ⟨c, rest, heq, -⟩ := hpiece.spelled.readAs
      exact fun after => (heq ▸ hpiece.gap).of_cons
    have hcs : cs = piece.gap ++ (piece.span ++ (Piece.texts ps ++ last)) := by
      rw [h.covers, Piece.texts_cons, Piece.text, List.append_assoc, List.append_assoc]
    obtain ⟨ts, q, hts, hread, hmore⟩ := ih h.tail ((p.after piece.gap).after piece.span)
    refine ⟨⟨piece.token.kind, piece.token.lexeme, p.after piece.gap⟩ :: ts, q,
      congrArg (piece.token.content :: ·) hts, ?_, ?_⟩
    · rw [hcs, scanFrom_gap (hgap _), scanFrom_spelled hpiece.spelled, hread]
    · rw [hcs, List.append_assoc, List.append_assoc, scanFrom_gap (hgap _), scanFrom_spelled hs,
        hmore, List.cons_append]

theorem ofText_eq_ok {ts : List Token} {stop : Position} (h : scanFrom .start cs = ⟨ts, .ok stop⟩) :
    Token.ofText cs = .ok ts := by
  rw [Token.ofText, ofText, h]
  rfl

/-! ## Texts in any place -/

/-- Wherever the text stands, it is read as tokens with these contents. -/
def ReadsAs (cs : List Char) (contents : List (Kind × String)) : Prop :=
  ∀ p, ∃ ts stop, scanFrom p cs = ⟨ts, .ok stop⟩ ∧ ts.map Token.content = contents

theorem readsAs_nil : ReadsAs [] [] := by
  have hnone : splitGap false [] = ([], []) := rfl
  exact fun p => ⟨[], p, scanFrom_end p hnone, rfl⟩

theorem gap_blanks {blanks g after : List Char} (h : ∀ c ∈ blanks, Text.isBlank c = true)
    (hg : Gap after g) : Gap after (blanks ++ g) := by
  induction blanks with
  | nil => exact hg
  | cons c blanks ih =>
    obtain ⟨hc, hblanks⟩ := List.forall_mem_cons.mp h
    exact .blank hc (ih hblanks)

/-- Without comments there are only blanks in a gap. -/
theorem Gap.isBlank (h : Gap after g) (hg : '/' ∉ g) : ∀ c ∈ g, Text.isBlank c = true := by
  induction h with
  | nil => exact nofun
  | blank hc _ ih =>
    exact List.forall_mem_cons.mpr ⟨hc, ih fun hm => hg (List.mem_cons_of_mem _ hm)⟩
  | comment | lastComment => exact absurd List.mem_cons_self hg

/-- A text without comments is read in front of what separates, and then that is read. -/
theorem ReadsAs.append {ts : List Token} {contents : List (Kind × String)}
    (h : Token.ofText cs = .ok ts) (hslash : '/' ∉ cs) (hm : Separated more)
    (hmore : ReadsAs more contents) : ReadsAs (cs ++ more) (ts.map Token.content ++ contents) := by
  intro p
  obtain ⟨ps, last, hlayout, rfl⟩ := exists_layout_of_ofText h
  obtain ⟨ts, q, hts, -, hread⟩ := hlayout.scanFrom_append hm p
  have hgap : Gap more last := by
    have hclear : '/' ∉ last := fun hmem =>
      hslash (hlayout.covers ▸ List.mem_append_right _ hmem)
    have hblanks := gap_blanks (hlayout.last.isBlank hclear) (.nil : Gap more [])
    rwa [List.append_nil] at hblanks
  obtain ⟨us, stop, hread', hus⟩ := hmore (q.after last)
  rw [scanFrom_gap hgap, hread'] at hread
  refine ⟨_, _, hread, ?_⟩
  rw [List.map_append, hts, hus]

end Scan

end Stackling
