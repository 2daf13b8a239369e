import Stackling.Datum.Read
import Stackling.Proofs.Token.Spelling

/-!
# Data that read back

`Proper d` says which data the notation can write: symbols and integers whose texts are one atom,
any string, and lists and arrays of proper data. Reading the written form of a proper datum gives
the datum (`ofText_chars`), so that no two of them are written alike (`Proper.chars_injective`).

Reading keeps the lists that are still open on a stack. What is shown of a datum, therefore, is that
reading its written form in front of any text hands it over to whatever stack there is
(`HandsOver`); a list follows from its items, one after the other.
-/

namespace Stackling.Datum

open Stackling.Scan (Ends)

/-! ## Proper data -/

/-- A text that is read as a symbol. -/
inductive IsSymbol : List Char → Prop
  | mk {c : Char} {cs : List Char} (starts : Scan.isSymbolChar c = true)
      (no_integer : Scan.startsInteger c cs.head? = false)
      (chars : ∀ d ∈ cs, Scan.isSymbolChar d = true) : IsSymbol (c :: cs)

/-- A symbol does not look like a number at the front. -/
theorem isSymbol_cons_iff {c : Char} {cs : List Char} :
    IsSymbol (c :: cs) ↔ Scan.isSymbolChar c = true ∧ Scan.startsInteger c cs.head? = false ∧
      ∀ d ∈ cs, Scan.isSymbolChar d = true :=
  ⟨fun ⟨hc, hno, hcs⟩ => ⟨hc, hno, hcs⟩, fun ⟨hc, hno, hcs⟩ => ⟨hc, hno, hcs⟩⟩

instance : DecidablePred IsSymbol
  | [] => .isFalse nofun
  | c :: cs => decidable_of_iff ((Scan.isSymbolChar c && !Scan.startsInteger c cs.head? &&
      cs.all Scan.isSymbolChar) = true) (by simp [isSymbol_cons_iff, and_assoc])

/-- A text that is read as an integer. -/
inductive IsInteger : List Char → Prop
  | mk {c : Char} {cs : List Char} (starts : Scan.startsInteger c cs.head? = true)
      (digits : ∀ d ∈ cs, Text.isDecimalDigit d = true) : IsInteger (c :: cs)

/-- A datum that has a written form. -/
inductive Proper : Datum → Prop
  | symbol {s : String} (h : IsSymbol s.toList) : Proper (.symbol s)
  | string (s : String) : Proper (.string s)
  | integer {s : String} (h : IsInteger s.toList) : Proper (.integer s)
  | ellipsis : Proper .ellipsis
  | list {ds : List Datum} (h : ∀ d ∈ ds, Proper d) : Proper (.list ds)
  | array {ds : List Datum} (h : ∀ d ∈ ds, Proper d) : Proper (.array ds)

/-! ## Characters that start an atom -/

namespace Scan

theorem isBlank_eq_false_of_isDecimalDigit {c : Char} (h : Text.isDecimalDigit c = true) :
    Text.isBlank c = false := by
  have hwide : ∀ n ∈ Text.wideBlanks, Text.inRanges Text.digitRanges n = false := by
    decide +kernel
  rw [← Bool.not_eq_true]
  intro hb
  unfold Text.isDecimalDigit at h
  rcases Text.isBlank_cases hb with hn | hn
  · rw [if_pos (by omega), Text.isDigit_iff] at h
    omega
  · have := (Text.not_letter_of_wideBlank _ hn).1
    rw [if_neg (by omega), hwide _ hn] at h
    cases h

/-- No character of a symbol is blank. -/
theorem isBlank_eq_false_of_isSymbolChar {c : Char} (h : isSymbolChar c = true) :
    Text.isBlank c = false := by
  have hmarks : "-_+*/<>=!&|?".toList.all (!Text.isBlank ·) = true := by decide
  simp only [isSymbolChar, Bool.or_eq_true, List.contains_iff_mem] at h
  rcases h with (hl | hd) | hm
  · exact Text.isBlank_eq_false_of_isLetter hl
  · exact isBlank_eq_false_of_isDecimalDigit hd
  · simpa using List.all_eq_true.mp hmarks c hm

/-- Digits may stand in symbols. -/
theorem isSymbolChar_of_isDecimalDigit {c : Char} (h : Text.isDecimalDigit c = true) :
    isSymbolChar c = true := by
  simp [isSymbolChar, h]

/-- What starts an integer may stand in symbols. -/
theorem isSymbolChar_of_startsInteger {c : Char} {next : Option Char}
    (h : startsInteger c next = true) : isSymbolChar c = true := by
  simp only [startsInteger, Bool.or_eq_true, Bool.and_eq_true, beq_iff_eq] at h
  rcases h with hd | ⟨rfl | rfl, -⟩
  · exact isSymbolChar_of_isDecimalDigit hd
  · decide
  · decide

theorem ne_of_isSymbolChar {c d : Char} (h : isSymbolChar c = true) (hd : isSymbolChar d = false) :
    c ≠ d := by
  rintro rfl
  rw [h] at hd
  cases hd

/-- No character of a symbol is a bracket. -/
theorem bracket?_eq_none_of_isSymbolChar {c : Char} (h : isSymbolChar c = true) :
    bracket? c = none := by
  unfold bracket?
  split
  · exact absurd h (by decide)
  · exact absurd h (by decide)
  · exact absurd h (by decide)
  · exact absurd h (by decide)
  · rfl

/-! ## One mark -/

variable {c : Char} {cs after : List Char}

/-- There is no gap in front of something that is neither a blank nor a comment. -/
theorem skipGap_cons (line : Nat) (hb : Text.isBlank c = false) (hc : c ≠ ';') (cs : List Char) :
    skipGap false line (c :: cs) = (line, c :: cs) := by
  have hn : c ≠ '\n' := by
    rintro rfl
    exact absurd hb (by decide)
  simp [skipGap, hn, hb, hc]

/-- One step of the reading, without the proof that it ends. -/
theorem scanFrom_eq (line : Nat) (cs : List Char) :
    scanFrom line cs = match skipGap false line cs with
      | (start, []) => .done start
      | (start, c :: rest) =>
        match scanMark start c rest with
        | .error e => .failed e
        | .ok (m, next, left) => .mark start m (scanFrom next left) := by
  rw [scanFrom]
  split
  · next hg => rw [hg]
  · next hg =>
    split
    · next hm => simp only [hg, hm]
    · next hm => simp only [hg, hm]

/-- A mark is scanned where it starts, and the scan goes on behind it. -/
theorem scanFrom_mark {line next : Nat} {m : Mark} (hb : Text.isBlank c = false) (hc : c ≠ ';')
    (hm : scanMark line c cs = .ok (m, next, after)) :
    scanFrom line (c :: cs) = .mark line m (scanFrom next after) := by
  rw [scanFrom_eq, skipGap_cons line hb hc]
  simp only [hm]

/-- Blanks are passed over. -/
theorem scanFrom_blank (line : Nat) (cs : List Char) :
    scanFrom line (' ' :: cs) = scanFrom line cs := by
  rw [scanFrom_eq, scanFrom_eq line cs]
  rfl

theorem scanFrom_nil (line : Nat) : scanFrom line [] = .done line := by
  rw [scanFrom_eq]
  rfl

/-- A bracket is a mark by itself. -/
theorem scanFrom_bracket {m : Mark} (h : bracket? c = some m) (line : Nat) (cs : List Char) :
    scanFrom line (c :: cs) = .mark line m (scanFrom line cs) := by
  have hplain : Text.isBlank c = false ∧ c ≠ ';' := by
    unfold bracket? at h
    split at h
    · decide
    · decide
    · decide
    · decide
    · cases h
  exact scanFrom_mark hplain.1 hplain.2 (by simp only [scanMark, h])

/-! ## Atoms -/

/-- A run of characters is taken as a whole if what follows does not continue it. -/
theorem takeWhile_append_of_ends {p : Char → Bool} (hcs : ∀ d ∈ cs, p d = true)
    (ha : Ends p after) : (cs ++ after).takeWhile p = cs ∧ (cs ++ after).dropWhile p = after := by
  rw [List.takeWhile_append_of_pos hcs, List.dropWhile_append_of_pos hcs]
  cases after with
  | nil => simp
  | cons a after =>
    have := ha a rfl
    simp [this]

/-- Digits are symbol characters, so what ends a symbol ends an integer. -/
theorem ends_isDecimalDigit (h : Ends isSymbolChar after) : Ends Text.isDecimalDigit after := by
  intro a ha
  rw [← Bool.not_eq_true]
  intro hd
  have := h a ha
  rw [isSymbolChar_of_isDecimalDigit hd] at this
  cases this

/-- What stands behind an atom does not decide whether it is an integer. -/
theorem startsInteger_append (h : Ends isSymbolChar after) :
    startsInteger c (cs ++ after).head? = startsInteger c cs.head? := by
  cases cs with
  | cons d cs => rfl
  | nil =>
    cases after with
    | nil => rfl
    | cons a after =>
      have := ends_isDecimalDigit h a rfl
      simp [startsInteger, this]

/-- A character of symbols starts an integer or a symbol, and which of the two is seen from it and
the next one. -/
theorem scanMark_symbolChar (line : Nat) (hc : isSymbolChar c = true) (cs : List Char) :
    scanMark line c cs = if startsInteger c cs.head? then
      .ok (.atom (.integer (String.ofList (c :: cs.takeWhile Text.isDecimalDigit))), line,
        cs.dropWhile Text.isDecimalDigit)
    else .ok (.atom (.symbol (String.ofList (c :: cs.takeWhile isSymbolChar))), line,
        cs.dropWhile isSymbolChar) := by
  simp only [scanMark, bracket?_eq_none_of_isSymbolChar hc,
    if_neg (ne_of_isSymbolChar hc (d := '"') (by decide)),
    if_neg (ne_of_isSymbolChar hc (d := '.') (by decide)), if_pos hc]

theorem scanString_quote (line : Nat) (after : List Char) :
    scanString line ('"' :: after) = .ok ([], line, after) := by
  unfold scanString
  rfl

/-- An escaped backslash or quote stands for itself. -/
theorem scanString_escaped {line next : Nat} {content : List Char} (hc : c = '\\' ∨ c = '"')
    (h : scanString line cs = .ok (content, next, after)) :
    scanString line ('\\' :: c :: cs) = .ok (c :: content, next, after) := by
  simp [scanString, hc.symm, h, Except.map]

/-- Any other character stands for itself. A line end counts. -/
theorem scanString_plain {line next : Nat} {content : List Char} (hs : c ≠ '\\') (hq : c ≠ '"')
    (h : scanString (if c = '\n' then line + 1 else line) cs = .ok (content, next, after)) :
    scanString line (c :: cs) = .ok (c :: content, next, after) := by
  unfold scanString
  rw [if_neg hq, if_neg hs, h]
  rfl

/-- The inside of a string is what was quoted. -/
theorem scanString_escapeChar (line : Nat) (s after : List Char) :
    ∃ next, scanString line (s.flatMap escapeChar ++ '"' :: after) = .ok (s, next, after) := by
  induction s generalizing line with
  | nil => exact ⟨line, scanString_quote line after⟩
  | cons c s ih =>
    rw [List.flatMap_cons, List.append_assoc]
    by_cases hesc : c = '\\' ∨ c = '"'
    · obtain ⟨next, hs⟩ := ih line
      exact ⟨next, by simpa [escapeChar, hesc] using scanString_escaped hesc hs⟩
    · obtain ⟨next, hs⟩ := ih (if c = '\n' then line + 1 else line)
      have hplain := not_or.mp hesc
      exact ⟨next, by simpa [escapeChar, hesc] using scanString_plain hplain.1 hplain.2 hs⟩

end Scan

/-! ## Reading -/

/-- What reading does with a datum that is complete: it becomes an item of the innermost open list,
or the datum read. -/
def place (d : Datum) : List Pending → Scan → Except ReadError Datum
  | [], s => fromScan.atEnd d s
  | p :: outer, s => fromScan (⟨p.bracket, d :: p.items⟩ :: outer) s

/-- Reading the written form of `d` hands `d` over to the open lists, whatever they are, and goes on
with what is behind it. -/
def HandsOver (d : Datum) : Prop :=
  ∀ (line : Nat) (after : List Char) (stack : List Pending), Ends Scan.isSymbolChar after →
    ∃ next, fromScan stack (.scanFrom line (d.chars ++ after)) =
      place d stack (.scanFrom next after)

/-- An atom is put into the innermost open bracket. -/
theorem fromScan_atom (d : Datum) (line : Nat) (stack : List Pending) (rest : Scan) :
    fromScan stack (.mark line (.atom d) rest) = place d stack rest := by
  cases stack with
  | nil => rw [fromScan, place]
  | cons p outer => rw [fromScan, place]

/-- A bracket is opened. -/
theorem fromScan_opening (b : Bracket) (line : Nat) (stack : List Pending) (rest : Scan) :
    fromScan stack (.mark line (.opening b) rest) = fromScan (⟨b, []⟩ :: stack) rest := by
  cases stack with
  | nil => rw [fromScan]
  | cons p outer => rw [fromScan]

/-- A bracket is closed, and what it holds is put into the one around it. -/
theorem fromScan_closing (b : Bracket) (ds : List Datum) (line : Nat) (stack : List Pending)
    (rest : Scan) :
    fromScan (⟨b, ds.reverse⟩ :: stack) (.mark line (.closing b) rest) =
      place (b.wrap ds) stack rest := by
  cases stack with
  | nil => simp [fromScan, place, Pending.close]
  | cons p outer => simp [fromScan, place, Pending.close]

/-- A datum that is one mark. -/
theorem handsOver_of_scanMark {d : Datum} {c : Char} {cs : List Char} (hd : d.chars = c :: cs)
    (hb : Text.isBlank c = false) (hc : c ≠ ';')
    (hm : ∀ line after, Ends Scan.isSymbolChar after →
      ∃ next, Scan.scanMark line c (cs ++ after) = .ok (.atom d, next, after)) :
    HandsOver d := by
  intro line after stack ha
  obtain ⟨next, hmark⟩ := hm line after ha
  exact ⟨next, by rw [hd, List.cons_append, Scan.scanFrom_mark hb hc hmark, fromScan_atom]⟩

/-- A symbol is read from its text if what follows does not continue it. -/
theorem handsOver_symbol {s : String} (h : IsSymbol s.toList) : HandsOver (.symbol s) := by
  generalize hs : s.toList = cs at h
  obtain @⟨c, cs, hc, hno, hcs⟩ := h
  refine handsOver_of_scanMark hs (Scan.isBlank_eq_false_of_isSymbolChar hc)
    (Scan.ne_of_isSymbolChar hc (by decide)) fun line after ha => ⟨line, ?_⟩
  obtain ⟨htake, hdrop⟩ := Scan.takeWhile_append_of_ends hcs ha
  rw [Scan.scanMark_symbolChar line hc, Scan.startsInteger_append ha, hno, htake, hdrop, ← hs,
    String.ofList_toList, if_neg Bool.false_ne_true]

/-- An integer is read from its text if what follows does not continue it. -/
theorem handsOver_integer {s : String} (h : IsInteger s.toList) : HandsOver (.integer s) := by
  generalize hs : s.toList = cs at h
  obtain @⟨c, cs, hstart, hcs⟩ := h
  have hc := Scan.isSymbolChar_of_startsInteger hstart
  refine handsOver_of_scanMark hs (Scan.isBlank_eq_false_of_isSymbolChar hc)
    (Scan.ne_of_isSymbolChar hc (by decide)) fun line after ha => ⟨line, ?_⟩
  obtain ⟨htake, hdrop⟩ := Scan.takeWhile_append_of_ends hcs (Scan.ends_isDecimalDigit ha)
  rw [Scan.scanMark_symbolChar line hc, Scan.startsInteger_append ha, hstart, htake, hdrop, ← hs,
    String.ofList_toList, if_pos rfl]

/-- A string is read from its text, whatever is in it: the quotes and backslashes in it were
escaped. -/
theorem handsOver_string (s : String) : HandsOver (.string s) := by
  refine handsOver_of_scanMark (by rw [chars, List.cons_append]) (by decide) (by decide)
    fun line after _ => ?_
  obtain ⟨next, hs⟩ := Scan.scanString_escapeChar line s.toList after
  refine ⟨next, ?_⟩
  rw [List.append_assoc, List.singleton_append]
  simp [Scan.scanMark, bracket?, hs, Except.map]

/-- Three dots are read as an ellipsis. -/
theorem handsOver_ellipsis : HandsOver .ellipsis :=
  handsOver_of_scanMark (by rw [chars]) (by decide) (by decide) fun line _ _ =>
    ⟨line, by simp [Scan.scanMark, bracket?]⟩

/-! ## Lists -/

/-- Data are written with blanks between them. -/
theorem charsAll_cons (d : Datum) (ds : List Datum) :
    charsAll (d :: ds) = d.chars ++ ds.flatMap fun e => ' ' :: e.chars := by
  induction ds generalizing d with
  | nil => simp [charsAll]
  | cons e ds ih => rw [charsAll, ih, List.flatMap_cons, List.cons_append]

/-- Items behind the first one, each with the blank in front of it. -/
theorem fromScan_spaced {ds : List Datum} (h : ∀ d ∈ ds, HandsOver d) (line : Nat)
    {after : List Char} (ha : Ends Scan.isSymbolChar after) (b : Bracket) (read : List Datum)
    (outer : List Pending) :
    ∃ next, fromScan (⟨b, read⟩ :: outer)
        (.scanFrom line ((ds.flatMap fun e => ' ' :: e.chars) ++ after)) =
      fromScan (⟨b, ds.reverse ++ read⟩ :: outer) (.scanFrom next after) := by
  induction ds generalizing line read with
  | nil => exact ⟨line, rfl⟩
  | cons d ds ih =>
    obtain ⟨hd, hds⟩ := List.forall_mem_cons.mp h
    have hrest : Ends Scan.isSymbolChar ((ds.flatMap fun e => ' ' :: e.chars) ++ after) := by
      cases ds with
      | nil => exact ha
      | cons e ds =>
        intro c hc
        obtain rfl : ' ' = c := by simpa using hc
        decide
    obtain ⟨mid, hmid⟩ := hd line _ (⟨b, read⟩ :: outer) hrest
    obtain ⟨next, hnext⟩ := ih hds mid (d :: read)
    refine ⟨next, ?_⟩
    rw [List.flatMap_cons, List.cons_append, List.cons_append, Scan.scanFrom_blank,
      List.append_assoc, hmid, place, hnext, List.reverse_cons, List.append_assoc,
      List.singleton_append]

/-- Data one after the other are read into the bracket that is open. Each of them ends where the
next blank or the bracket is. -/
theorem fromScan_charsAll {ds : List Datum} (h : ∀ d ∈ ds, HandsOver d) (line : Nat)
    {after : List Char} (ha : Ends Scan.isSymbolChar after) (b : Bracket) (outer : List Pending) :
    ∃ next, fromScan (⟨b, []⟩ :: outer) (.scanFrom line (charsAll ds ++ after)) =
      fromScan (⟨b, ds.reverse⟩ :: outer) (.scanFrom next after) := by
  cases ds with
  | nil => exact ⟨line, by rw [charsAll]; rfl⟩
  | cons d ds =>
    -- a blank in front of the first item would not be noticed
    obtain ⟨next, hnext⟩ := fromScan_spaced h line ha b [] outer
    rw [List.append_nil, List.flatMap_cons, List.cons_append, List.cons_append,
      Scan.scanFrom_blank, ← charsAll_cons] at hnext
    exact ⟨next, hnext⟩

/-- Items between their brackets. -/
theorem handsOver_wrap {ds : List Datum} (h : ∀ d ∈ ds, HandsOver d) (b : Bracket) (o c : Char)
    (ho : bracket? o = some (.opening b)) (hc : bracket? c = some (.closing b))
    (hchars : (b.wrap ds).chars = o :: charsAll ds ++ [c]) : HandsOver (b.wrap ds) := by
  intro line after stack _
  have hends : Ends Scan.isSymbolChar (c :: after) := by
    intro c' hc'
    obtain rfl : c = c' := by simpa using hc'
    rw [← Bool.not_eq_true]
    intro hsym
    rw [Scan.bracket?_eq_none_of_isSymbolChar hsym] at hc
    cases hc
  obtain ⟨next, hnext⟩ := fromScan_charsAll h line hends b stack
  refine ⟨next, ?_⟩
  rw [hchars, List.cons_append, List.cons_append, List.append_assoc, List.singleton_append,
    Scan.scanFrom_bracket ho, fromScan_opening, hnext, Scan.scanFrom_bracket hc, fromScan_closing]

/-- A proper datum is read from its text, by induction on it. -/
theorem Proper.handsOver {d : Datum} (h : d.Proper) : HandsOver d := by
  induction h with
  | symbol h => exact handsOver_symbol h
  | string s => exact handsOver_string s
  | integer h => exact handsOver_integer h
  | ellipsis => exact handsOver_ellipsis
  | list _ ih => exact handsOver_wrap ih .round '(' ')' rfl rfl (by rw [Bracket.wrap, chars])
  | array _ ih => exact handsOver_wrap ih .square '[' ']' rfl rfl (by rw [Bracket.wrap, chars])

/-- Reading the written form of a datum gives the datum. -/
theorem Proper.ofText_chars {d : Datum} (h : d.Proper) : ofText d.chars = .ok d := by
  obtain ⟨next, hread⟩ := h.handsOver 1 [] [] nofun
  rw [List.append_nil, Scan.scanFrom_nil] at hread
  exact hread

/-- No two data are written alike. -/
theorem Proper.chars_injective {d d' : Datum} (h : d.Proper) (h' : d'.Proper)
    (heq : d.chars = d'.chars) : d = d' := by
  have hread := h.ofText_chars
  rw [heq, h'.ofText_chars] at hread
  exact (Except.ok.inj hread).symm

end Stackling.Datum
