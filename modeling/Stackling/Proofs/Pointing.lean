import Stackling.Proofs.Places
import Stackling.Proofs.Text.Lines

/-!
# Errors point into the source

A place in an error was counted by the reading of tokens, from the characters of the whole text. The
line that is shown with a caret is cut out of the bytes, trimmed, and decoded by itself. That the
two agree is shown in three steps.

* A place is `Visible` in a text if it lies on the last line of some beginning of the text that does
  not end in a blank, and not behind the end of this line. Trimming removes nothing from there, so
  the caret of a visible place is where it belongs (`exists_pointsInto_of_visible`).
* The places of tokens and the end of input behind the last one are visible, since a token has no
  line end in it and does not end in a blank (`visible_tokenAt`). The end of input is counted by the
  lexeme of the last token, which is no longer than its text.
* So is the place of a text that is no token (`visible_of_scanFrom`).

Main result: whenever compiling fails with a place, the report shows the line of that place, with
the caret below its column (`compile_pointsInto`).
-/

namespace Stackling

open Stackling.Tree

/-! ## Places that can be seen -/

/-- The place lies within the last line of a beginning of the text that does not end in a blank. -/
def Visible (cs : List Char) (p : Position) : Prop :=
  ∃ front, front <+: cs ∧ (∀ c ∈ front.getLast?, Text.isBlank c = false) ∧
    p.line = 1 + front.count '\n' ∧ 1 ≤ p.column ∧ p.column ≤ 1 + sinceLineEnd front

theorem visible_start (cs : List Char) : Visible cs .start :=
  ⟨[], List.nil_prefix, by simp, rfl, Int.le_refl 1, by decide⟩

/-- The text is on one line and ends in a character that is no blank. -/
structure Solid (s : List Char) : Prop where
  oneLine : '\n' ∉ s
  ends : ∃ c ∈ s.getLast?, Text.isBlank c = false

/-- A text without blanks is solid, since a line end is a blank. -/
theorem solid_of_forall {s : List Char} (hne : s ≠ []) (h : ∀ c ∈ s, Text.isBlank c = false) :
    Solid s where
  oneLine hmem := absurd (h _ hmem) (by decide)
  ends := ⟨s.getLast hne, List.getLast?_eq_some_getLast hne, h _ (List.getLast_mem hne)⟩

/-- Columns are counted on in a text on one line. -/
theorem sinceLineEnd_append {s : List Char} (hs : '\n' ∉ s) (cs : List Char) :
    sinceLineEnd (cs ++ s) = sinceLineEnd cs + s.length := by
  induction s using List.reverseRecOn with
  | nil => simp
  | append_singleton s c ih =>
    simp only [List.mem_append, List.mem_singleton, not_or] at hs
    rw [← List.append_assoc, sinceLineEnd_concat (Ne.symm hs.2), ih hs.1, List.length_append,
      List.length_singleton, Nat.add_assoc]

/-- In a solid part of a text, every place up to its end can be seen. -/
theorem Solid.visible {s : List Char} (hs : Solid s) (before after : List Char) {n : Nat}
    (hn : n ≤ s.length) :
    Visible (before ++ (s ++ after))
      ⟨(Position.start.after before).line, (Position.start.after before).column + n⟩ := by
  rw [Position.start_after]
  refine ⟨before ++ s, ⟨after, List.append_assoc ..⟩, ?_, ?_, ?_, ?_⟩
  · obtain ⟨c, hc, hblank⟩ := hs.ends
    rw [List.getLast?_append, hc]
    rintro c' ⟨⟩
    exact hblank
  · rw [List.count_append, List.count_eq_zero_of_not_mem hs.oneLine, Nat.add_zero]
  · dsimp only
    omega
  · rw [sinceLineEnd_append hs.oneLine]
    dsimp only
    omega

/-! ## The places of tokens -/

namespace Scan

theorem isBlank_eq_false_of_isWordPart {c : Char} (h : isWordPart c = true) :
    Text.isBlank c = false := by
  rw [← Bool.not_eq_true]
  intro hb
  rw [(separates_of_isBlank hb).1] at h
  cases h

theorem isBlank_eq_false_of_isOperatorChar {c : Char} (h : isOperatorChar c = true) :
    Text.isBlank c = false := by
  rw [← Bool.not_eq_true]
  intro hb
  rw [(separates_of_isBlank hb).2] at h
  cases h

theorem IsWord.solid {after s : List Char} (h : IsWord after s) : Solid s := by
  obtain ⟨c, hc, -⟩ := h.starts
  refine solid_of_forall ?_ fun c hc => isBlank_eq_false_of_isWordPart (h.inside c hc)
  rintro rfl
  cases hc

/-- A literal is on one line, and what it stands for is no longer than what is written. -/
theorem Escaped.oneLine {body content : List Char} (h : Escaped body content) :
    '\n' ∉ body ∧ content.length ≤ body.length := by
  induction h with
  | nil => exact ⟨List.not_mem_nil, Nat.le_refl 0⟩
  | plain _ _ hn _ ih =>
    refine ⟨?_, Nat.succ_le_succ ih.2⟩
    rw [List.mem_cons, not_or]
    exact ⟨Ne.symm hn, ih.1⟩
  | quote _ ih | backslash _ ih | newline _ ih | tab _ ih =>
    refine ⟨by simpa using ih.1, ?_⟩
    simp only [List.length_cons]
    omega

/-- The text of a token is on one line, and its lexeme is not longer than it. -/
theorem Spelled.solid {after s : List Char} {k : Kind} {t : String} (h : Spelled after s k t) :
    Solid s ∧ t.length ≤ s.length := by
  cases h with
  | number hne hs =>
    have hblank := fun c hc => Text.isBlank_eq_false_of_isDigit (hs.inside c hc)
    exact ⟨solid_of_forall hne hblank, by simp⟩
  | keyword hs _ | ident hs _ => exact ⟨hs.solid, by simp⟩
  | @operator s o ho _ _ =>
    have hs : o.symbol.toList = s := by rw [ho, String.toList_ofList]
    refine ⟨solid_of_forall ?_ fun c hc => ?_, by simp⟩
    · rintro rfl
      rcases o.symbol_cases with ⟨c, hc⟩ | ⟨c, d, hc⟩ <;> rw [hs] at hc <;> cases hc
    · exact isBlank_eq_false_of_isOperatorChar (isOperatorChar_of_mem_symbol (hs ▸ hc))
  | @delimiter s d hd =>
    subst hd
    refine ⟨solid_of_forall (by simp) fun c hc => ?_, by simp⟩
    obtain rfl := List.mem_singleton.mp hc
    cases d <;> rfl
  | @string body content hb =>
    obtain ⟨hbody, hlength⟩ := hb.oneLine
    refine ⟨⟨by simpa using hbody, '"', ?_, rfl⟩, ?_⟩
    · rw [← List.cons_append, List.getLast?_concat]
      rfl
    · simp only [String.length_ofList, List.length_cons, List.length_append, List.length_nil]
      omega

/-- In the text of a token, every place up to the length of the lexeme can be seen. -/
theorem Layout.visible {cs last : List Char} {ps : List Piece} (h : Layout [] cs ps last)
    {p : Piece} (hp : p ∈ ps) {n : Nat} (hn : n ≤ p.token.lexeme.length) :
    Visible cs ⟨p.token.pos.line, p.token.pos.column + n⟩ := by
  obtain ⟨before, after, rfl⟩ := List.append_of_mem hp
  have hplace := h.inPlace before p after rfl
  obtain ⟨hsolid, hlength⟩ := hplace.spelled.solid
  have hcs : cs = (Piece.texts before ++ p.gap) ++ (p.span ++ (Piece.texts after ++ last)) := by
    rw [h.covers]
    simp [Piece.texts, Piece.text]
  rw [hcs, hplace.pos_eq]
  exact hsolid.visible _ _ (hn.trans hlength)

end Scan

/-- A position inside a token is one of the text. -/
theorem visible_of_mem {cs : List Char} {ts : List Token} (h : Token.ofText cs = .ok ts)
    {t : Token} (ht : t ∈ ts) {n : Nat} (hn : n ≤ t.lexeme.length) :
    Visible cs ⟨t.pos.line, t.pos.column + n⟩ := by
  obtain ⟨ps, last, hlayout, rfl⟩ := Scan.exists_layout_of_ofText h
  obtain ⟨p, hp, rfl⟩ := List.mem_map.mp ht
  exact hlayout.visible hp hn

/-- The end of input is a position of the text. It may lie too far left, but never beyond the text.
-/
theorem visible_endOfInput {cs : List Char} {ts : List Token} (h : Token.ofText cs = .ok ts) :
    Visible cs (endOfInput ts).pos := by
  unfold endOfInput
  split
  · exact visible_start cs
  · next last hlast =>
    have hmem := List.mem_of_getLast? hlast
    split
    · simpa using visible_of_mem h hmem (Nat.zero_le _)
    · exact visible_of_mem h hmem (Nat.le_refl _)

/-- **The places of tokens can be seen**, that of the end of input among them. -/
theorem visible_tokenAt {cs : List Char} {ts : List Token} (h : Token.ofText cs = .ok ts)
    (k : Nat) : Visible cs (tokenAt ts k).pos := by
  rw [tokenAt, List.getD_eq_getElem?_getD]
  cases hk : ts[k]? with
  | none => exact visible_endOfInput h
  | some t => simpa using visible_of_mem h (List.mem_of_getElem? hk) (Nat.zero_le _)

/-! ## The place of a text that is no token -/

namespace Scan

/-- In a literal that has an end, only an escape can be wrong. -/
theorem scanString_fault {cs : List Char} {f : Failure} (h : scanString cs = .error f) :
    f.cause = .unterminatedString ∨ ∃ after, cs = f.before ++ '\\' :: after := by
  fun_induction scanString cs generalizing f with
  | case1 | case3 =>
    cases h
    exact .inl rfl
  | case2 | case6 | case8 => cases h
  | case4 | case5 =>
    cases h
    exact .inr ⟨_, rfl⟩
  | case7 e rest u hu f' hs _ _ ih =>
    cases h
    refine (ih hs).imp_right ?_
    rintro ⟨after, rfl⟩
    exact ⟨after, rfl⟩
  | case9 c cs hq hn hb f' hs ih =>
    cases h
    refine (ih hs).imp_right ?_
    rintro ⟨after, rfl⟩
    exact ⟨after, rfl⟩

theorem scanOperator_fault {c : Char} {cs : List Char} {f : Failure}
    (h : scanOperator c cs = .error f) : f.before = [] := by
  unfold scanOperator at h
  dsimp only at h
  split at h
  · cases h
  · cases h
  · cases h
    rfl

/-- What is wrong with a text that is no token is wrong at a character that is no blank. -/
theorem scanToken_fault {c : Char} {cs : List Char} {f : Failure} (h : scanToken c cs = .error f)
    (hc : Text.isBlank c = false) :
    ∃ d after, c :: cs = f.before ++ d :: after ∧ Text.isBlank d = false := by
  have hfirst (hf : f.before = []) :
      ∃ d after, c :: cs = f.before ++ d :: after ∧ Text.isBlank d = false :=
    ⟨c, cs, by rw [hf, List.nil_append], hc⟩
  unfold scanToken at h
  split at h
  · cases h
  · split at h
    · cases h
    · split at h
      · next hq =>
        subst hq
        split at h
        · cases h
        · next f' hs =>
          split at h
          · cases h
            exact hfirst rfl
          · next hcause =>
            cases h
            obtain hend | ⟨after, rfl⟩ := scanString_fault hs
            · exact absurd hend hcause
            · exact ⟨'\\', after, rfl, rfl⟩
      · split at h
        · exact hfirst (scanOperator_fault h)
        · split at h
          · cases h
          · cases h
            exact hfirst rfl

/-- An error of the scanner is at a position of the text. The induction is that of the scanner; what
was scanned already is in `lead`. -/
theorem visible_of_scanFrom (p : Position) (cs : List Char) :
    ∀ lead e, Position.start.after lead = p → (scanFrom p cs).stop = .error e →
      Visible (lead ++ cs) e.pos := by
  -- What was read before the fault is in front of it in the text, so `lead` grows with every token.
  fun_induction scanFrom p cs with
  | case1 p cs hg =>
    intro lead e hp h
    cases h
  | case2 p cs c rest hg start f hs =>
    intro lead e hp h
    cases h
    have hclear := clear_splitGap false cs
    have happ := splitGap_append false cs
    rw [hg] at hclear happ
    obtain ⟨d, after, hcs, hd⟩ := scanToken_fault hs (hclear c rest rfl).1
    have hsolid : Solid [d] := solid_of_forall (by simp) (by simpa using hd)
    have hpos : Position.start.after (lead ++ ((splitGap false cs).1 ++ f.before)) =
        start.after f.before := by
      rw [Position.after_append, Position.after_append, hp]
    have htext : lead ++ ((splitGap false cs).1 ++ f.before) ++ ([d] ++ after) = lead ++ cs := by
      simp only [List.append_assoc, List.singleton_append, ← hcs, happ]
    have hvisible := hsolid.visible (lead ++ ((splitGap false cs).1 ++ f.before)) after
      (Nat.zero_le 1)
    rw [hpos, htext] at hvisible
    simpa using hvisible
  | case3 p cs c rest hg start l hs _ more ih =>
    intro lead e hp h
    have happ := splitGap_append false cs
    rw [hg, ← (scanToken_append hs).1] at happ
    have hnext : Position.start.after (lead ++ ((splitGap false cs).1 ++ l.span)) =
        start.after l.span := by
      rw [Position.after_append, Position.after_append, hp]
    have hvisible := ih _ e hnext h
    rwa [List.append_assoc, List.append_assoc, happ] at hvisible

end Scan

/-! ## The place of an error -/

/-- An error of the scanner is at a position of the text. -/
theorem visible_of_ofText_error {cs : List Char} {e : LexError} (h : Token.ofText cs = .error e) :
    Visible cs e.pos := by
  rw [Token.ofText, Scan.toExcept, Scan.ofText] at h
  exact Scan.visible_of_scanFrom .start cs [] e rfl (map_eq_error.mp h)

/-- An error that has a position has one of the text, whichever phase it is of. -/
theorem visible_of_compile {source : Bytes} {entry : String} {e : CompileError}
    (h : compile source entry = .error e) (hline : 0 < e.diagnostic.pos.line) :
    Visible (Utf8.decode source) e.diagnostic.pos := by
  cases htext : Token.ofText (Utf8.decode source) with
  | error e' =>
    rw [compile, htext] at h
    cases h
    exact visible_of_ofText_error htext
  | ok ts =>
    -- Behind the reading of tokens, an error has the place of a token or none.
    have hcode := program_compile_numbered htext entry
    rw [h] at hcode
    obtain ⟨e', -, rfl⟩ := mapError_eq_error.mp hcode.symm
    rw [CompileError.pos_move, Token.placeIn] at hline ⊢
    split at hline
    · next hknown =>
      rw [if_pos hknown]
      exact visible_tokenAt htext _
    · cases hline

/-! ## The caret -/

/-- The report has a place in the source and shows it: below the message stands `line`, the line of
the place, without the blanks at its end, and below it a caret behind `padding`, which leads up to
the column of the place and has a tab below every tab. -/
structure Report.PointsInto (r : Report) (source line padding : Bytes) : Prop where
  line_pos : 1 ≤ r.pos.line
  line_le : r.pos.line ≤ (source.splitOn 0x0A).length
  column_pos : 1 ≤ r.pos.column
  line_eq : (source.splitOn 0x0A)[(r.pos.line - 1).toNat]? = some line
  length_padding : (padding.length : Int) = r.pos.column - 1
  padding_eq : ∀ i < padding.length, ∃ c, (Utf8.decode line)[i]? = some c ∧
    padding[i]? = some (if c = '\t' then 0x09 else 0x20)
  render_eq : r.render source false =
    r.message ++ Bytes.ofString "\n" ++
      (Bytes.ofString "  " ++ line.rdropWhile isLineBlank ++ Bytes.ofString "\n") ++
      (Bytes.ofString "  " ++ padding ++ Bytes.ofString "^" ++ Bytes.ofString "\n")

/-- The line of a visible place, with the characters up to the place in front of the blanks at its
end. -/
theorem Visible.exists_line {source : Bytes} {p : Position} (h : Visible (Utf8.decode source) p) :
    ∃ line, (source.splitOn 0x0A)[(p.line - 1).toNat]? = some line ∧
      (p.column - 1).toNat ≤ (Utf8.decode (line.rdropWhile isLineBlank)).length := by
  obtain ⟨front, ⟨rest, htext⟩, hends, hline, -, hcolumn⟩ := h
  have hindex : (p.line - 1).toNat = front.count '\n' := by omega
  have hdecoded := getElem?_splitOn_append front rest
  rw [htext, ← Utf8.map_decode_splitOn, List.getElem?_map] at hdecoded
  obtain ⟨line, hfound, hchars⟩ := Option.map_eq_some_iff.mp hdecoded
  refine ⟨line, by rw [hindex, hfound], ?_⟩
  have hreached : front.rtakeWhile (· != '\n') <+: Utf8.decode line :=
    hchars ▸ List.prefix_append _ _
  have hlast : ∀ c ∈ (front.rtakeWhile (· != '\n')).getLast?, Text.isBlank c = false := by
    intro c hc
    obtain ⟨above, habove⟩ := List.rtakeWhile_suffix (· != '\n') front
    apply hends
    rw [← habove, List.getLast?_append, hc]
    rfl
  have hshown := (prefix_decode_trimmed hreached hlast).length_le
  rw [sinceLineEnd] at hcolumn
  omega

/-- The padding is as long as the text in front of the column. A tab is one character of it. -/
theorem length_caretPadding {line : Bytes} {column : Int}
    (h : (column - 1).toNat ≤ (Utf8.decode line).length) :
    (caretPadding line column).length = (column - 1).toNat := by
  rw [caretPadding, List.length_map, List.length_take, Nat.min_eq_left h]

/-- The padding follows the line, trimmed or not. -/
theorem getElem?_caretPadding {line : Bytes} {column : Int} {i : Nat}
    (hi : i < (caretPadding (line.rdropWhile isLineBlank) column).length) :
    ∃ c, (Utf8.decode line)[i]? = some c ∧
      (caretPadding (line.rdropWhile isLineBlank) column)[i]? =
        some (if c = '\t' then 0x09 else 0x20) := by
  obtain ⟨blanks, hline, -⟩ := exists_blanks line
  rw [caretPadding, List.length_map, List.length_take, Nat.lt_min] at hi
  obtain ⟨hcolumn, hlength⟩ := hi
  refine ⟨(Utf8.decode (line.rdropWhile isLineBlank))[i], ?_, ?_⟩
  · rw [hline, List.getElem?_append_left hlength, List.getElem?_eq_getElem hlength]
  · rw [caretPadding, List.getElem?_map, List.getElem?_take_of_lt hcolumn,
      List.getElem?_eq_getElem hlength, Option.map_some]

/-- A position of the text can be pointed at. -/
theorem exists_pointsInto_of_visible {source : Bytes} {r : Report}
    (h : Visible (Utf8.decode source) r.pos) :
    ∃ line padding, r.PointsInto source line padding := by
  obtain ⟨line, hline, hreach⟩ := h.exists_line
  obtain ⟨front, -, -, hpos, hcolumn, -⟩ := h
  have hindex := (List.getElem?_eq_some_iff.mp hline).1
  refine ⟨line, caretPadding (line.rdropWhile isLineBlank) r.pos.column, ?_⟩
  constructor
  · omega
  · omega
  · exact hcolumn
  · exact hline
  · rw [length_caretPadding hreach]
    omega
  · exact fun i hi => getElem?_caretPadding hi
  · have hknown : r.pos.isKnown = true := decide_eq_true (by omega)
    have hclean := notMem_of_mem_splitOn (List.mem_of_getElem? hline)
    simp only [Report.render, hknown, if_true, Bytes.lines_eq_splitOn, hline,
      Bytes.trimEnd_eq_rdropWhile hclean, paint, Bool.false_eq_true, if_false, List.append_assoc]

/-- **Errors point into the source.** If compiling fails with an error that has a place, then the
source has a line and a column of these numbers, and the report shows the line with the caret below
the column: no blank at the end of the line, no character of more bytes and no line end of two
characters moves it. -/
theorem compile_pointsInto {source : Bytes} {entry : String} {e : CompileError}
    (h : compile source entry = .error e) (hline : 0 < e.diagnostic.pos.line) :
    ∃ line padding, e.report.PointsInto source line padding :=
  exists_pointsInto_of_visible (visible_of_compile h hline)

namespace Sample

/-- A tab, a literal with an invalid byte and a letter of two bytes in it, an unknown character, and
a line that ends in blanks. -/
def stray : Bytes :=
  Bytes.ofString "\n\t\"" ++ [0xFF, 0xC3, 0xA9] ++ Bytes.ofString "\" # \t\r\n"

end Sample

/-- The place is counted in characters, and the report points to it. -/
theorem compile_pointsInto_stray : ∃ e, compile Sample.stray "" = .error e ∧
    e.diagnostic.pos = ⟨2, 7⟩ ∧ ∃ line padding, e.report.PointsInto Sample.stray line padding := by
  have htext : Token.ofText (Utf8.decode Sample.stray) =
      .error ⟨⟨2, 7⟩, ⟨2, 7⟩, .unexpectedChar '#'⟩ := by
    decide +kernel
  have herror : compile Sample.stray "" =
      .error (.lexing ⟨⟨2, 7⟩, ⟨2, 7⟩, .unexpectedChar '#'⟩) := by
    rw [compile, htext]
    rfl
  exact ⟨_, herror, rfl, compile_pointsInto herror (by decide)⟩

end Stackling
