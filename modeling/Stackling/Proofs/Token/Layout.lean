import Stackling.Proofs.Token.Spelling
import Mathlib.Data.List.DropRight
import Mathlib.Data.List.Induction

/-!
# The layout of a text

A text that can be read is laid out as gaps and tokens in turn, with a gap at its end. `Layout`
says what such a division is: the pieces put together again are the text, every gap and every token
is one by the rules of `Gap` and `Spelled` for what follows it, and every token stands at the line
and the column that counting the characters before it gives.

Main result: reading a text succeeds with the tokens `ts` exactly if the text has a layout with
these tokens (`Token.ofText_eq_ok_iff`). Reading loses nothing, then, and refuses no text that the
rules allow.
-/

namespace Stackling

/-! ## Positions by counting -/

/-- The number of characters after the last line end. -/
def sinceLineEnd (cs : List Char) : Nat := (cs.rtakeWhile (· != '\n')).length

/-- Columns start anew behind a line end. -/
theorem sinceLineEnd_lineEnd (cs : List Char) : sinceLineEnd (cs ++ ['\n']) = 0 := by
  rw [sinceLineEnd, List.rtakeWhile_concat_neg _ _ _ (by simp), List.length_nil]

/-- Any other character takes one column. -/
theorem sinceLineEnd_concat {c : Char} (hc : c ≠ '\n') (cs : List Char) :
    sinceLineEnd (cs ++ [c]) = sinceLineEnd cs + 1 := by
  rw [sinceLineEnd, List.rtakeWhile_concat_pos _ _ _ (by simpa using hc), List.length_append,
    List.length_singleton, sinceLineEnd]

/-- Reading a text from its start comes to the line after as many line ends as it has, and to the
column after as many characters as follow the last one. -/
theorem Position.start_after (cs : List Char) :
    Position.start.after cs = ⟨1 + cs.count '\n', 1 + sinceLineEnd cs⟩ := by
  induction cs using List.reverseRecOn with
  | nil => rfl
  | append_singleton cs c ih =>
    rw [Position.after_append, ih, Position.after_cons, Position.after_nil, Position.next]
    by_cases hc : c = '\n'
    · subst hc
      rw [if_pos rfl, sinceLineEnd_lineEnd]
      simp [List.count_append, Int.add_assoc]
    · rw [if_neg hc, sinceLineEnd_concat hc]
      simp [List.count_append, hc, Int.add_assoc]

namespace Scan

/-! ## Layouts -/

/-- A gap and the token behind it. -/
structure Piece where
  gap : List Char
  /-- the text of the token -/
  span : List Char
  /-- what is read from it -/
  token : Token

/-- The text of a piece. -/
def Piece.text (p : Piece) : List Char := p.gap ++ p.span

/-- The text of some pieces in a row. -/
def Piece.texts (ps : List Piece) : List Char := ps.flatMap text

/-- The piece is in its place, with the text `before` in front of it and `after` behind it. -/
structure Piece.InPlace (before after : List Char) (p : Piece) : Prop where
  /-- the gap is one in front of the token -/
  gap : Gap (p.span ++ after) p.gap
  /-- the token is spelled by its text -/
  spelled : Spelled after p.span p.token.kind p.token.lexeme
  /-- lines count from 1 -/
  line : p.token.pos.line = 1 + (before ++ p.gap).count '\n'
  /-- columns count from 1 -/
  column : p.token.pos.column = 1 + sinceLineEnd (before ++ p.gap)

/-- With `lead` in front, the text `cs` is made of the pieces `ps` and the gap `last`. -/
structure Layout (lead cs : List Char) (ps : List Piece) (last : List Char) : Prop where
  /-- nothing is left out -/
  covers : cs = Piece.texts ps ++ last
  /-- every piece is in its place -/
  inPlace : ∀ before p after, ps = before ++ p :: after →
    p.InPlace (lead ++ Piece.texts before) (Piece.texts after ++ last)
  /-- what is behind the last token is a gap -/
  last : Gap [] last

theorem Piece.texts_cons (p : Piece) (ps : List Piece) : texts (p :: ps) = p.text ++ texts ps := rfl

/-- A token stands where the text in front of it ends, its gap included. -/
theorem Piece.InPlace.pos_eq {before after : List Char} {p : Piece} (h : p.InPlace before after) :
    p.token.pos = Position.start.after (before ++ p.gap) := by
  rw [Position.start_after, ← h.line, ← h.column]

theorem Layout.nil {cs : List Char} (lead : List Char) (h : Gap [] cs) : Layout lead cs [] cs where
  covers := rfl
  inPlace before p after hps := by simp at hps
  last := h

/-- One more piece in front of a layout. -/
theorem Layout.cons {lead cs last : List Char} {p : Piece} {ps : List Piece}
    (hp : p.InPlace lead cs) (h : Layout (lead ++ p.text) cs ps last) :
    Layout lead (p.text ++ cs) (p :: ps) last where
  covers := by rw [Piece.texts_cons, List.append_assoc, ← h.covers]
  inPlace before q after hps := by
    cases before with
    | nil =>
      obtain ⟨rfl, rfl⟩ := List.cons.inj hps
      rw [← h.covers]
      simpa [Piece.texts] using hp
    | cons p' before =>
      obtain ⟨rfl, hrest⟩ := List.cons.inj hps
      have := h.inPlace before q after hrest
      rwa [List.append_assoc, ← Piece.texts_cons] at this
  last := h.last

/-- The first piece is in its place. -/
theorem Layout.head {lead cs last : List Char} {p : Piece} {ps : List Piece}
    (h : Layout lead cs (p :: ps) last) : p.InPlace lead (Piece.texts ps ++ last) := by
  simpa [Piece.texts] using h.inPlace [] p ps rfl

/-- The others are laid out behind it. -/
theorem Layout.tail {lead cs last : List Char} {p : Piece} {ps : List Piece}
    (h : Layout lead cs (p :: ps) last) :
    Layout (lead ++ p.text) (Piece.texts ps ++ last) ps last where
  covers := rfl
  inPlace before q after hps := by
    have := h.inPlace (p :: before) q after (by rw [hps]; rfl)
    rwa [Piece.texts_cons, ← List.append_assoc] at this
  last := h.last

/-! ## One step of the reading -/

/-- A text that is a gap has no tokens. -/
theorem scanFrom_end {cs g : List Char} (p : Position) (hg : splitGap false cs = (g, [])) :
    scanFrom p cs = ⟨[], .ok (p.after g)⟩ := by
  rw [scanFrom]
  split
  · rw [hg]
  · next h => rw [hg] at h; cases h

/-- The first token is behind the gap, and the scan goes on behind it. -/
theorem scanFrom_token {c : Char} {cs g rest : List Char} {l : Lexeme} {more : Scan} (p : Position)
    (hg : splitGap false cs = (g, c :: rest)) (hl : scanToken c rest = .ok l)
    (hmore : scanFrom ((p.after g).after l.span) l.rest = more) :
    scanFrom p cs = ⟨⟨l.kind, l.text, p.after g⟩ :: more.tokens, more.stop⟩ := by
  rw [scanFrom]
  split
  · next h => rw [hg] at h; cases h
  · next c' rest' h =>
    obtain ⟨rfl, rfl⟩ : c = c' ∧ rest = rest' := by simpa [hg] using h
    simp only [hg]
    split
    · next f hf => rw [hl] at hf; cases hf
    · next l' hl' =>
      obtain rfl : l = l' := Except.ok.inj (hl.symm.trans hl')
      rw [hmore]

/-! ## Reading finds the layout -/

/-- A text that is read to its end is laid out as its tokens say. -/
theorem exists_layout_of_scanFrom (p stop : Position) (cs : List Char) :
    ∀ lead, Position.start.after lead = p → (scanFrom p cs).stop = .ok stop →
      ∃ ps last, Layout lead cs ps last ∧ (scanFrom p cs).tokens = ps.map Piece.token := by
  fun_induction scanFrom p cs with
  | case1 p cs hg =>
    intro lead hp h
    have hgap := gap_splitGap cs
    have happ := splitGap_append false cs
    rw [hg, List.append_nil] at happ
    rw [hg, happ] at hgap
    exact ⟨[], cs, .nil lead hgap, rfl⟩
  | case2 p cs c rest hg start f hs =>
    intro _ _ h
    cases h
  | case3 p cs c rest hg start l hs _ more ih =>
    intro lead hp h
    have hclear := clear_splitGap false cs
    have hgap := gap_splitGap cs
    have happ := splitGap_append false cs
    rw [hg] at hclear hgap happ
    have hspelled := spelled_of_scanToken hs (hclear c rest rfl).2
    have hrest := (scanToken_append hs).1
    -- The piece that this step reads off the text.
    let q : Piece := ⟨(splitGap false cs).1, l.span, ⟨l.kind, l.text, start⟩⟩
    have hpos : q.token.pos = Position.start.after (lead ++ q.gap) := by
      rw [Position.after_append, hp]
    have hq : q.InPlace lead l.rest :=
      ⟨by rwa [hrest], hspelled, by rw [hpos, Position.start_after],
        by rw [hpos, Position.start_after]⟩
    have hnext : Position.start.after (lead ++ q.text) = start.after l.span := by
      rw [Piece.text, Position.after_append, Position.after_append, hp]
    obtain ⟨ps, last, hlayout, htokens⟩ := ih _ hnext h
    have hcs : cs = q.text ++ l.rest := by
      rw [Piece.text, List.append_assoc, hrest, happ]
    rw [hcs]
    exact ⟨q :: ps, last, .cons hq hlayout, by rw [List.map_cons, ← htokens]⟩

/-- A text that is laid out in pieces is read as their tokens. -/
theorem Layout.scanFrom_eq {lead cs last : List Char} {ps : List Piece}
    (h : Layout lead cs ps last) :
    scanFrom (Position.start.after lead) cs =
      ⟨ps.map Piece.token, .ok (Position.start.after (lead ++ cs))⟩ := by
  induction ps generalizing lead cs with
  | nil =>
    obtain rfl : cs = last := h.covers
    have hg := h.last.splitGap_eq nofun
    rw [List.append_nil] at hg
    rw [scanFrom_end _ hg, Position.after_append, List.map_nil]
  | cons p ps ih =>
    have hp := h.head
    obtain ⟨c, rest, hspan, hclear, hscan⟩ := hp.spelled.readAs
    have hcs : cs = p.gap ++ (p.span ++ (Piece.texts ps ++ last)) := by
      rw [h.covers, Piece.texts_cons, Piece.text, List.append_assoc, List.append_assoc]
    have hg : splitGap false cs = (p.gap, c :: rest) := by
      rw [hcs, hp.gap.splitGap_eq (by rwa [hspan]), hspan]
    have hmore := ih h.tail
    rw [Piece.text, ← List.append_assoc, Position.after_append, Position.after_append] at hmore
    rw [scanFrom_token _ hg hscan hmore, List.map_cons, ← Position.after_append, ← hp.pos_eq, hcs,
      List.append_assoc, List.append_assoc]

/-- The tokens that are read from a text are laid out in it. -/
theorem exists_layout_of_ofText {cs : List Char} {ts : List Token} (h : Token.ofText cs = .ok ts) :
    ∃ ps last, Layout [] cs ps last ∧ ts = ps.map Piece.token := by
  rw [Token.ofText, toExcept, ofText] at h
  cases hstop : (scanFrom .start cs).stop with
  | error e =>
    rw [hstop] at h
    cases h
  | ok stop =>
    obtain ⟨ps, last, hlayout, htokens⟩ := exists_layout_of_scanFrom .start stop cs [] rfl hstop
    rw [hstop, htokens] at h
    exact ⟨ps, last, hlayout, (Except.ok.inj h).symm⟩

/-- Every token of a text is spelled by a part of it. -/
theorem exists_spelled_of_ofText {cs : List Char} {ts : List Token} (h : Token.ofText cs = .ok ts)
    {t : Token} (ht : t ∈ ts) : ∃ after s, Spelled after s t.kind t.lexeme := by
  obtain ⟨ps, last, hlayout, rfl⟩ := exists_layout_of_ofText h
  obtain ⟨p, hp, rfl⟩ := List.mem_map.mp ht
  obtain ⟨before, after, hps⟩ := List.append_of_mem hp
  exact ⟨_, _, (hlayout.inPlace before p after hps).spelled⟩

end Scan

/-- **Reading is lossless and positions are exact.** A text is read as the tokens `ts` if and only
if it is a row of pieces, gap and token in turn, and a last gap, all in their places, with `ts` as
the tokens. -/
theorem Token.ofText_eq_ok_iff (cs : List Char) (ts : List Token) :
    Token.ofText cs = .ok ts ↔
      ∃ ps last, Scan.Layout [] cs ps last ∧ ts = ps.map Scan.Piece.token := by
  refine ⟨Scan.exists_layout_of_ofText, ?_⟩
  rintro ⟨ps, last, hlayout, rfl⟩
  have hstart : Scan.ofText cs = Scan.scanFrom (Position.start.after []) cs := rfl
  rw [Token.ofText, Scan.toExcept, hstart, hlayout.scanFrom_eq]
  rfl

end Stackling
