import Stackling.Proofs.Token

/-!
# Gaps and spelled tokens

The lexical rules as relations, said without the functions that read. `Gap after g`: the text `g`
is a gap in front of `after`. `Spelled after s k t`: in front of `after` the text `s` is a token of
kind `k` with lexeme `t`. Both look at what follows, because a token ends only where the text
behind it cannot make it longer, and a comment needs no line end where the text ends.

The reading functions decide the relations: `splitGap` takes off exactly the gaps
(`gap_splitGap`, `Gap.splitGap_eq`) and `scanToken` exactly the spelled tokens
(`spelled_of_scanToken`, `Spelled.readAs`).
-/

namespace Stackling

/-! ## Tables

A lookup finds a word exactly if the table spells it so. -/

/-- A word is reserved as `k` exactly if `k` is spelled so. -/
theorem Keyword.ofWord?_eq_some {w : String} {k : Keyword} : ofWord? w = some k ↔ k.word = w := by
  constructor
  · intro h
    simpa using List.find?_some h
  · rintro rfl
    cases k <;> rfl

/-- A text is the operator `o` exactly if `o` is written so. -/
theorem Operator.ofSymbol?_eq_some {s : String} {o : Operator} :
    ofSymbol? s = some o ↔ o.symbol = s := by
  constructor
  · intro h
    simpa using List.find?_some h
  · rintro rfl
    cases o <;> rfl

/-- A character is the delimiter `d` exactly if `d` is written so. -/
theorem Delimiter.ofSymbol?_eq_some {c : Char} {d : Delimiter} :
    ofSymbol? c = some d ↔ d.symbol = c := by
  constructor
  · intro h
    simpa using List.find?_some h
  · rintro rfl
    cases d <;> rfl

theorem Operator.ofSymbol?_eq_none {s : String} : ofSymbol? s = none ↔ ∀ o, symbol o ≠ s := by
  rw [Option.eq_none_iff_forall_ne_some]
  exact forall_congr' fun o => not_congr ofSymbol?_eq_some

theorem Kind.ofWord_word (k : Keyword) : ofWord k.word = .keyword k := by
  rw [ofWord, Keyword.ofWord?_eq_some.mpr rfl]

/-- A word that is not reserved is an identifier. -/
theorem Kind.ofWord_of_forall_ne {w : String} (h : ∀ k : Keyword, k.word ≠ w) :
    ofWord w = .ident := by
  cases hk : Keyword.ofWord? w with
  | none => rw [ofWord, hk]
  | some k => exact absurd (Keyword.ofWord?_eq_some.mp hk) (h k)

/-- An operator is one character or two. -/
theorem Operator.symbol_cases (o : Operator) :
    (∃ c, o.symbol.toList = [c]) ∨ ∃ c d, o.symbol.toList = [c, d] := by
  cases o <;> simp [symbol]

/-! ## Character classes

No blank starts a token. Beyond ASCII that is a fact about the table of letters. -/

namespace Text

/-- The blanks beyond ASCII. -/
def wideBlanks : List Nat :=
  [0x85, 0xA0, 0x1680, 0x2028, 0x2029, 0x202F, 0x205F, 0x3000] ++ List.range' 0x2000 11

/-- The blanks beyond ASCII are not in the table of letters. This is computed from the table. -/
theorem not_letter_of_wideBlank :
    ∀ n ∈ wideBlanks, 0x80 ≤ n ∧ inRanges letterRanges n = false := by
  decide +kernel

theorem isDigit_iff {c : Char} : c.isDigit = true ↔ 48 ≤ c.toNat ∧ c.toNat ≤ 57 := by
  simp [Char.isDigit, UInt32.le_iff_toNat_le]

theorem isAlpha_iff {c : Char} : c.isAlpha = true ↔
    (65 ≤ c.toNat ∧ c.toNat ≤ 90) ∨ (97 ≤ c.toNat ∧ c.toNat ≤ 122) := by
  have hcases : c.isAlpha = (decide (c.val ≥ 'A'.val ∧ c.val ≤ 'Z'.val) ||
      (decide (c.val ≥ 'a'.val) && decide (c.val ≤ 'z'.val))) := rfl
  simp [hcases, UInt32.le_iff_toNat_le]

/-- A blank is a control character, the space, or one of the blanks beyond ASCII. -/
theorem isBlank_cases {c : Char} (h : isBlank c = true) :
    c.toNat ≤ 32 ∨ c.toNat ∈ wideBlanks := by
  simp only [isBlank, Bool.or_eq_true, Bool.and_eq_true, decide_eq_true_eq, beq_iff_eq] at h
  simp only [wideBlanks, List.mem_append, List.mem_cons, List.mem_range'_1, List.not_mem_nil]
  omega

/-- No letter is blank. Within ASCII that is arithmetic, beyond it the table of letters has to be
looked at. -/
theorem isBlank_eq_false_of_isLetter {c : Char} (h : isLetter c = true) : isBlank c = false := by
  rw [← Bool.not_eq_true]
  intro hb
  unfold isLetter at h
  rcases isBlank_cases hb with hn | hn
  · rw [if_pos (by omega), isAlpha_iff] at h
    omega
  · obtain ⟨hwide, hout⟩ := not_letter_of_wideBlank _ hn
    rw [if_neg (by omega), hout] at h
    cases h

/-- No digit is blank. -/
theorem isBlank_eq_false_of_isDigit {c : Char} (h : c.isDigit = true) : isBlank c = false := by
  rw [← Bool.not_eq_true]
  intro hb
  rw [isDigit_iff] at h
  rcases isBlank_cases hb with hn | hn
  · omega
  · have := (not_letter_of_wideBlank _ hn).1
    omega

theorem isLetter_eq_false_of_isDigit {c : Char} (h : c.isDigit = true) : isLetter c = false := by
  rw [isDigit_iff] at h
  rw [isLetter, if_pos (by omega), ← Bool.not_eq_true, isAlpha_iff]
  omega

end Text

namespace Scan

/-- A word starts with a letter, an underscore or a dollar sign. -/
theorem isWordStart_cases {c : Char} (h : isWordStart c = true) :
    Text.isLetter c = true ∨ c = '_' ∨ c = '$' := by
  simpa [isWordStart, or_assoc] using h

/-- No word starts with a blank. -/
theorem isBlank_eq_false_of_isWordStart {c : Char} (h : isWordStart c = true) :
    Text.isBlank c = false := by
  rcases isWordStart_cases h with hl | rfl | rfl
  · exact Text.isBlank_eq_false_of_isLetter hl
  · rfl
  · rfl

/-- No word starts with a digit, so the first character tells words from numbers. -/
theorem isDigit_eq_false_of_isWordStart {c : Char} (h : isWordStart c = true) :
    c.isDigit = false := by
  rcases isWordStart_cases h with hl | rfl | rfl
  · rw [← Bool.not_eq_true]
    intro hd
    rw [Text.isLetter_eq_false_of_isDigit hd] at hl
    cases hl
  · rfl
  · rfl

/-! ## The rules -/

/-- The text `g`, in front of `after`, is a gap: blanks and comments. A comment runs up to and
including the next line end, or to the end of the whole text. -/
inductive Gap (after : List Char) : List Char → Prop
  | nil : Gap after []
  | blank {c : Char} {g : List Char} (hc : Text.isBlank c = true) (hg : Gap after g) :
      Gap after (c :: g)
  | comment {body g : List Char} (hb : '\n' ∉ body) (hg : Gap after g) :
      Gap after ('/' :: '/' :: (body ++ '\n' :: g))
  | lastComment {body : List Char} (hb : '\n' ∉ body) (ha : after = []) :
      Gap after ('/' :: '/' :: body)

/-- Between quotes, the text `body` stands for `content`. -/
inductive Escaped : (body content : List Char) → Prop
  | nil : Escaped [] []
  | plain {c : Char} {body content : List Char} (hq : c ≠ '"') (hb : c ≠ '\\') (hn : c ≠ '\n')
      (h : Escaped body content) : Escaped (c :: body) (c :: content)
  | quote {body content : List Char} (h : Escaped body content) :
      Escaped ('\\' :: '"' :: body) ('"' :: content)
  | backslash {body content : List Char} (h : Escaped body content) :
      Escaped ('\\' :: '\\' :: body) ('\\' :: content)
  | newline {body content : List Char} (h : Escaped body content) :
      Escaped ('\\' :: 'n' :: body) ('\n' :: content)
  | tab {body content : List Char} (h : Escaped body content) :
      Escaped ('\\' :: 't' :: body) ('\t' :: content)

/-- No character of the class `p` comes next. -/
def Ends (p : Char → Bool) (after : List Char) : Prop := ∀ c ∈ after.head?, p c = false

/-- The text `s` is a run of the class `p` that what follows does not make longer. -/
structure MaximalRun (p : Char → Bool) (after s : List Char) : Prop where
  inside : ∀ c ∈ s, p c = true
  ends : Ends p after

/-- The text `s` is a word: its first character starts one, the others may follow, and what comes
next may not. -/
structure IsWord (after s : List Char) : Prop extends MaximalRun isWordPart after s where
  starts : ∃ c ∈ s.head?, isWordStart c = true

/-- In front of `after`, the text `s` is a token of kind `k` with lexeme `t`. -/
inductive Spelled (after : List Char) : (s : List Char) → (k : Kind) → (t : String) → Prop
  | number {s : List Char} (hne : s ≠ []) (hs : MaximalRun Char.isDigit after s) :
      Spelled after s .number (String.ofList s)
  | keyword {s : List Char} {k : Keyword} (hs : IsWord after s) (hk : k.word = String.ofList s) :
      Spelled after s (.keyword k) (String.ofList s)
  | ident {s : List Char} (hs : IsWord after s) (hk : ∀ k : Keyword, k.word ≠ String.ofList s) :
      Spelled after s .ident (String.ofList s)
  | operator {s : List Char} {o : Operator} (ho : o.symbol = String.ofList s)
      (hmax : ∀ c ∈ after.head?, ∀ o' : Operator, o'.symbol ≠ String.ofList (s ++ [c]))
      (hcom : o = .divide → after.head? ≠ some '/') :
      Spelled after s (.operator o) (String.ofList s)
  | delimiter {s : List Char} {d : Delimiter} (hd : s = [d.symbol]) :
      Spelled after s (.delimiter d) (String.ofList s)
  | string {body content : List Char} (h : Escaped body content) :
      Spelled after ('"' :: (body ++ ['"'])) .string (String.ofList content)

/-- The text does not start with a gap. -/
def Clear (cs : List Char) : Prop :=
  ∀ c rest, cs = c :: rest → Text.isBlank c = false ∧ (c = '/' → rest.head? ≠ some '/')

/-! ## Gaps are what `splitGap` takes -/

/-- Inside a comment, a gap goes on to a line end and another gap, or takes all there is. -/
def GapInComment (after g : List Char) : Prop :=
  (∃ body g', g = body ++ '\n' :: g' ∧ '\n' ∉ body ∧ Gap after g') ∨ ('\n' ∉ g ∧ after = [])

/-- Any character but a line end continues a comment. -/
theorem GapInComment.cons {after g : List Char} {c : Char} (hc : c ≠ '\n')
    (h : GapInComment after g) : GapInComment after (c :: g) := by
  rcases h with ⟨body, g', rfl, hb, hg⟩ | ⟨hg, ha⟩
  · exact .inl ⟨c :: body, g', rfl, by simp [hb, hc.symm], hg⟩
  · exact .inr ⟨by simp [hg, hc.symm], ha⟩

/-- A comment with its two slashes is a gap. -/
theorem GapInComment.gap {after g : List Char} (h : GapInComment after ('/' :: g)) :
    Gap after ('/' :: '/' :: g) := by
  rcases h with ⟨body, g', hg, hb, hgap⟩ | ⟨hg, ha⟩
  · cases body with
    | nil => simp at hg
    | cons c body =>
      obtain ⟨rfl, rfl⟩ := List.cons.inj hg
      exact .comment (fun hm => hb (List.mem_cons_of_mem _ hm)) hgap
  · exact .lastComment (fun hm => hg (List.mem_cons_of_mem _ hm)) ha

/-- Inside a comment a character that is no line end is taken off. -/
theorem splitGap_true_cons {c : Char} (hc : c ≠ '\n') (cs : List Char) :
    splitGap true (c :: cs) = (c :: (splitGap true cs).1, (splitGap true cs).2) := by
  simp only [splitGap, if_true, bne_iff_ne.mpr hc]

-- Reading a comment and reading outside one call each other, so both facts are one induction.
/-- What is taken off is a gap, or the rest of one that is in a comment. Both are proved at once, as
a comment is entered and left in the middle. -/
theorem gap_splitGap_aux (cs : List Char) :
    Gap (splitGap false cs).2 (splitGap false cs).1 ∧
      GapInComment (splitGap true cs).2 (splitGap true cs).1 := by
  induction cs with
  | nil => exact ⟨.nil, .inr ⟨by simp [splitGap], rfl⟩⟩
  | cons c cs ih =>
    obtain ⟨ihout, ihin⟩ := ih
    have hin : GapInComment (splitGap true (c :: cs)).2 (splitGap true (c :: cs)).1 := by
      by_cases hc : c = '\n'
      · subst hc
        exact .inl ⟨[], (splitGap false cs).1, rfl, by simp, ihout⟩
      · rw [splitGap_true_cons hc]
        exact ihin.cons hc
    refine ⟨?_, hin⟩
    by_cases hb : Text.isBlank c = true
    · simpa [splitGap, hb] using Gap.blank hb ihout
    by_cases hcom : c = '/' ∧ cs.head? = some '/'
    · obtain ⟨rfl, hhead⟩ := hcom
      obtain ⟨cs', rfl⟩ : ∃ cs', cs = '/' :: cs' := by
        cases cs with
        | nil => simp at hhead
        | cons d cs' => simp_all
      rw [splitGap_true_cons (by decide)] at ihin
      simpa [splitGap, hb] using ihin.gap
    · have hstop : splitGap false (c :: cs) = ([], c :: cs) := by
        simp only [splitGap, hb, Bool.false_eq_true, if_false]
        rw [if_neg (by simpa using hcom)]
      rw [hstop]
      exact .nil

/-- What `splitGap` takes is a gap. -/
theorem gap_splitGap (cs : List Char) : Gap (splitGap false cs).2 (splitGap false cs).1 :=
  (gap_splitGap_aux cs).1

/-- What `splitGap` leaves starts with no gap. -/
theorem clear_splitGap (b : Bool) (cs : List Char) : Clear (splitGap b cs).2 := by
  induction cs generalizing b with
  | nil => nofun
  | cons c cs ih =>
    rw [splitGap]
    split
    · exact ih _
    · split
      · exact ih _
      · next hblank =>
        split
        · exact ih _
        · next hcom =>
          rintro c' rest' h
          obtain ⟨rfl, rfl⟩ := List.cons.inj h
          refine ⟨by simpa using hblank, ?_⟩
          rintro rfl hhead
          simp [hhead] at hcom

/-- A comment is taken off with its line end, and then the gap behind it. -/
theorem splitGap_true_append {body : List Char} (hb : '\n' ∉ body) (cs : List Char) :
    splitGap true (body ++ '\n' :: cs) =
      (body ++ '\n' :: (splitGap false cs).1, (splitGap false cs).2) := by
  induction body with
  | nil => rfl
  | cons c body ih =>
    simp only [List.mem_cons, not_or] at hb
    rw [List.cons_append, splitGap_true_cons (Ne.symm hb.1), ih hb.2, List.cons_append]

/-- The last comment may lack its line end. -/
theorem splitGap_true_of_notMem {body : List Char} (hb : '\n' ∉ body) :
    splitGap true body = (body, []) := by
  induction body with
  | nil => rfl
  | cons c body ih =>
    simp only [List.mem_cons, not_or] at hb
    rw [splitGap_true_cons (Ne.symm hb.1), ih hb.2]

/-- Two slashes open a comment. -/
theorem splitGap_comment (cs : List Char) :
    splitGap false ('/' :: '/' :: cs) =
      ('/' :: '/' :: (splitGap true cs).1, (splitGap true cs).2) := rfl

/-- A gap in front of a text that starts with none is what `splitGap` takes. -/
theorem Gap.splitGap_eq {after g : List Char} (h : Gap after g) (ha : Clear after) :
    splitGap false (g ++ after) = (g, after) := by
  induction h with
  | nil =>
    cases after with
    | nil => rfl
    | cons c rest =>
      obtain ⟨hb, hcom⟩ := ha c rest rfl
      rw [List.nil_append, splitGap, if_neg (by simp), if_neg (by simp [hb]),
        if_neg (by simpa using hcom)]
  | blank hc _ ih => simp [splitGap, hc, ih]
  | comment hb _ ih =>
    simp only [List.cons_append, List.append_assoc, splitGap_comment, splitGap_true_append hb, ih]
  | lastComment hb he =>
    subst he
    rw [List.append_nil, splitGap_comment, splitGap_true_of_notMem hb]

/-! ## Strings -/

/-- An escape that the scanner knows is one of the four of `Escaped`. -/
theorem escaped_of_unescape {e u : Char} {body content : List Char} (h : unescape? e = some u)
    (hb : Escaped body content) : Escaped ('\\' :: e :: body) (u :: content) := by
  unfold unescape? at h
  split at h
  · cases h; exact .quote hb
  · cases h; exact .backslash hb
  · cases h; exact .newline hb
  · cases h; exact .tab hb
  · cases h

/-- What is scanned as a literal is one: it ends with a quote, and what is in front of it is written
with escapes for the content. The induction is that of the scanner. -/
theorem escaped_of_scanString {cs content span rest : List Char}
    (h : scanString cs = .ok (content, span, rest)) :
    ∃ body, span = body ++ ['"'] ∧ Escaped body content := by
  fun_induction scanString cs generalizing content span rest with
  | case1 => cases h
  | case2 => cases h; exact ⟨[], rfl, .nil⟩
  | case3 => cases h
  | case4 => cases h
  | case5 => cases h
  | case6 e rest' u hu content' span' left hs _ _ ih =>
    cases h
    obtain ⟨body, rfl, hbody⟩ := ih hs
    exact ⟨'\\' :: e :: body, rfl, escaped_of_unescape hu hbody⟩
  | case7 => cases h
  | case8 c cs hq hn hb content' span' left hs ih =>
    cases h
    obtain ⟨body, rfl, hbody⟩ := ih hs
    exact ⟨c :: body, rfl, .plain hq hb hn hbody⟩
  | case9 => cases h

theorem scanString_quote (rest : List Char) : scanString ('"' :: rest) = .ok ([], ['"'], rest) := by
  rw [scanString.eq_def]
  rfl

/-- A character that needs no escape stands for itself. -/
theorem scanString_plain {c : Char} {cs content span rest : List Char} (hq : c ≠ '"')
    (hb : c ≠ '\\') (hn : c ≠ '\n') (h : scanString cs = .ok (content, span, rest)) :
    scanString (c :: cs) = .ok (c :: content, c :: span, rest) := by
  rw [scanString.eq_def]
  simp only [if_neg hq, if_neg hn, if_neg hb, h]

/-- An escape stands for one character of the content. -/
theorem scanString_escape {e u : Char} {cs content span rest : List Char}
    (hu : unescape? e = some u) (h : scanString cs = .ok (content, span, rest)) :
    scanString ('\\' :: e :: cs) = .ok (u :: content, '\\' :: e :: span, rest) := by
  simp [scanString, hu, h]

/-- A literal is scanned up to its closing quote, whatever follows, and gives the content it was
written for. -/
theorem Escaped.scanString_eq {body content : List Char} (h : Escaped body content)
    (rest : List Char) : scanString (body ++ '"' :: rest) = .ok (content, body ++ ['"'], rest) := by
  induction h with
  | nil => exact scanString_quote rest
  | plain hq hb hn _ ih => exact scanString_plain hq hb hn ih
  | quote _ ih => exact scanString_escape rfl ih
  | backslash _ ih => exact scanString_escape rfl ih
  | newline _ ih => exact scanString_escape rfl ih
  | tab _ ih => exact scanString_escape rfl ih

/-! ## Runs -/

/-- What is scanned as a run of characters is as long as it can be. -/
theorem maximalRun_scanRun (p : Char → Bool) (kind : String → Kind) (cs : List Char) :
    MaximalRun p (scanRun p kind cs).rest (scanRun p kind cs).span where
  inside _ hc := List.all_eq_true.mp List.all_takeWhile _ hc
  ends c hc := by
    have := List.head?_dropWhile_not p cs
    rw [show (cs.dropWhile p).head? = some c from hc] at this
    simpa using this

/-- A run that is as long as it can be is scanned as a whole. -/
theorem MaximalRun.scanRun_eq {p : Char → Bool} {after s : List Char} (h : MaximalRun p after s)
    (kind : String → Kind) :
    scanRun p kind (s ++ after) = ⟨kind (String.ofList s), String.ofList s, s, after⟩ := by
  have hnil : after.takeWhile p = [] ∧ after.dropWhile p = after := by
    cases after with
    | nil => exact ⟨rfl, rfl⟩
    | cons c rest => simp [h.ends c rfl]
  simp [scanRun, List.takeWhile_append_of_pos h.inside, List.dropWhile_append_of_pos h.inside, hnil]

/-! ## Operators -/

/-- An operator of two characters. -/
theorem scanOperator_two {c d : Char} {o : Operator} (ho : o.symbol = String.ofList [c, d])
    (rest : List Char) :
    scanOperator c (d :: rest) = .ok ⟨.operator o, String.ofList [c, d], [c, d], rest⟩ := by
  simp only [scanOperator, Operator.ofSymbol?_eq_some.mpr ho, Option.map_some, ho]

/-- An operator of one character, if the next one does not make it another operator. -/
theorem scanOperator_one {c : Char} {cs : List Char} {o : Operator}
    (ho : o.symbol = String.ofList [c])
    (hmax : ∀ d ∈ cs.head?, ∀ o' : Operator, o'.symbol ≠ String.ofList [c, d]) :
    scanOperator c cs = .ok ⟨.operator o, String.ofList [c], [c], cs⟩ := by
  have hone : Operator.ofSymbol? (String.singleton c) = some o := Operator.ofSymbol?_eq_some.mpr ho
  cases cs with
  | nil => simp only [scanOperator, hone, Option.map_some, ho]
  | cons d rest =>
    have htwo : Operator.ofSymbol? (String.ofList [c, d]) = none :=
      Operator.ofSymbol?_eq_none.mpr (hmax d rfl)
    simp only [scanOperator, hone, htwo, Option.map_some, Option.map_none, ho]

/-- Two characters go before one. -/
theorem scanOperator_cases {c : Char} {cs : List Char} {l : Lexeme}
    (h : scanOperator c cs = .ok l) :
    (∃ d rest o, cs = d :: rest ∧ Operator.symbol o = String.ofList [c, d] ∧
        l = ⟨.operator o, String.ofList [c, d], [c, d], rest⟩) ∨
      ∃ o, Operator.symbol o = String.ofList [c] ∧
        (∀ d ∈ cs.head?, ∀ o' : Operator, o'.symbol ≠ String.ofList [c, d]) ∧
        l = ⟨.operator o, String.ofList [c], [c], cs⟩ := by
  by_cases htwo : ∃ d ∈ cs.head?, ∃ o : Operator, o.symbol = String.ofList [c, d]
  · obtain ⟨d, hd, o, ho⟩ := htwo
    obtain ⟨rest, rfl⟩ := List.head?_eq_some_iff.mp hd
    rw [scanOperator_two ho] at h
    exact .inl ⟨d, rest, o, rfl, ho, (Except.ok.inj h).symm⟩
  · have hmax : ∀ d ∈ cs.head?, ∀ o' : Operator, o'.symbol ≠ String.ofList [c, d] :=
      fun d hd o' ho' => htwo ⟨d, hd, o', ho'⟩
    cases hone : Operator.ofSymbol? (String.singleton c) with
    | some o =>
      have ho := Operator.ofSymbol?_eq_some.mp hone
      rw [scanOperator_one ho hmax] at h
      exact .inr ⟨o, ho, hmax, (Except.ok.inj h).symm⟩
    | none =>
      cases cs with
      | nil => simp [scanOperator, hone] at h
      | cons d rest =>
        simp only [scanOperator, hone, Operator.ofSymbol?_eq_none.mpr (hmax d rfl),
          Option.map_none, reduceCtorEq] at h

/-- What is scanned as an operator is spelled as one. A slash in front of another slash would be a
comment, and the scanner never gets there. -/
theorem spelled_of_scanOperator {c : Char} {cs : List Char} {l : Lexeme}
    (h : scanOperator c cs = .ok l) (hcom : c = '/' → cs.head? ≠ some '/') :
    Spelled l.rest l.span l.kind l.text := by
  rcases scanOperator_cases h with ⟨d, rest, o, rfl, ho, rfl⟩ | ⟨o, ho, hmax, rfl⟩
  · refine .operator ho (fun e _ o' ho' => ?_) ?_
    · -- No operator has three characters.
      have hlen := congrArg (fun s => s.toList.length) ho'
      rcases o'.symbol_cases with ⟨c₁, h₁⟩ | ⟨c₁, c₂, h₁⟩ <;> simp [h₁] at hlen
    · rintro rfl
      exact absurd (congrArg String.toList ho) (by simp [Operator.symbol])
  · refine .operator ho hmax ?_
    rintro rfl
    have hc := congrArg String.toList ho
    simp only [Operator.symbol, String.toList_ofList] at hc
    exact hcom (List.cons.inj hc).1.symm

/-- An operator that what follows does not make longer is the one read. -/
theorem scanOperator_eq {after s : List Char} {o : Operator} (ho : o.symbol = String.ofList s)
    (hmax : ∀ c ∈ after.head?, ∀ o' : Operator, o'.symbol ≠ String.ofList (s ++ [c])) :
    ∃ c rest, s ++ after = c :: rest ∧
      scanOperator c rest = .ok ⟨.operator o, String.ofList s, s, after⟩ := by
  have hs : o.symbol.toList = s := by rw [ho, String.toList_ofList]
  rcases o.symbol_cases with ⟨c, hc⟩ | ⟨c, d, hcd⟩
  · obtain rfl : s = [c] := hs.symm.trans hc
    exact ⟨c, after, rfl, scanOperator_one ho hmax⟩
  · obtain rfl : s = [c, d] := hs.symm.trans hcd
    exact ⟨c, d :: after, rfl, scanOperator_two ho after⟩

/-! ## Tokens are what `scanToken` takes -/

/-- A word is spelled as a reserved word or as an identifier, whichever it is. -/
theorem IsWord.spelled {after s : List Char} (h : IsWord after s) :
    Spelled after s (Kind.ofWord (String.ofList s)) (String.ofList s) := by
  by_cases hk : ∃ k : Keyword, k.word = String.ofList s
  · obtain ⟨k, hk⟩ := hk
    rw [show Kind.ofWord (String.ofList s) = .keyword k by rw [← hk, Kind.ofWord_word]]
    exact .keyword h hk
  · have hno : ∀ k : Keyword, k.word ≠ String.ofList s := fun k h' => hk ⟨k, h'⟩
    rw [Kind.ofWord_of_forall_ne hno]
    exact .ident h hno

/-- What `scanToken` takes off a text that starts with no comment is a token. -/
theorem spelled_of_scanToken {c : Char} {cs : List Char} {l : Lexeme}
    (h : scanToken c cs = .ok l) (hcom : c = '/' → cs.head? ≠ some '/') :
    Spelled l.rest l.span l.kind l.text := by
  unfold scanToken at h
  split at h
  · next hc =>
    cases h
    exact .number (by simp [scanRun, hc]) (maximalRun_scanRun ..)
  · split at h
    · next hc =>
      cases h
      have hrun := maximalRun_scanRun isWordPart Kind.ofWord (c :: cs)
      exact IsWord.spelled ⟨hrun, c, by simp [scanRun, isWordPart, hc], hc⟩
    · split at h
      · split at h
        · next hs =>
          cases h
          obtain ⟨body, rfl, hbody⟩ := escaped_of_scanString hs
          exact .string hbody
        · split at h <;> cases h
      · split at h
        · exact spelled_of_scanOperator h hcom
        · split at h
          · next d hd =>
            cases h
            exact .delimiter (by rw [Delimiter.ofSymbol?_eq_some.mp hd])
          · cases h

/-- A character that is neither blank nor a slash ends the gap. -/
theorem clear_cons {c : Char} (hb : Text.isBlank c = false) (hc : c ≠ '/') (rest : List Char) :
    Clear (c :: rest) := by
  rintro c' rest' h
  obtain ⟨rfl, rfl⟩ := List.cons.inj h
  exact ⟨hb, fun h => absurd h hc⟩

/-- The token `s` is the one read where `s` is followed by `after`. -/
def ReadAs (after s : List Char) (k : Kind) (t : String) : Prop :=
  ∃ c rest, s ++ after = c :: rest ∧ Clear (c :: rest) ∧ scanToken c rest = .ok ⟨k, t, s, after⟩

/-- Digits that are as long as they can be are read as a number. -/
theorem readAs_number {after s : List Char} (hne : s ≠ []) (hs : MaximalRun Char.isDigit after s) :
    ReadAs after s .number (String.ofList s) := by
  obtain ⟨c, s', rfl⟩ := List.exists_cons_of_ne_nil hne
  have hc : c.isDigit = true := hs.inside c List.mem_cons_self
  refine ⟨c, s' ++ after, rfl, clear_cons (Text.isBlank_eq_false_of_isDigit hc) ?_ _, ?_⟩
  · rintro rfl
    cases hc
  · rw [scanToken, if_pos hc, ← List.cons_append, hs.scanRun_eq]

/-- A word is read as a reserved word or as an identifier. -/
theorem readAs_word {after s : List Char} (hs : IsWord after s) :
    ReadAs after s (Kind.ofWord (String.ofList s)) (String.ofList s) := by
  obtain ⟨c, hhead, hc⟩ := hs.starts
  obtain ⟨s', rfl⟩ := List.head?_eq_some_iff.mp hhead
  refine ⟨c, s' ++ after, rfl, clear_cons (isBlank_eq_false_of_isWordStart hc) ?_ _, ?_⟩
  · rintro rfl
    cases hc
  · rw [scanToken, isDigit_eq_false_of_isWordStart hc, if_neg Bool.false_ne_true, if_pos hc,
      ← List.cons_append, hs.toMaximalRun.scanRun_eq]

/-- A literal is read as a token whose lexeme is the content. -/
theorem readAs_string {after body content : List Char} (h : Escaped body content) :
    ReadAs after ('"' :: (body ++ ['"'])) .string (String.ofList content) := by
  refine ⟨'"', body ++ '"' :: after, by simp, clear_cons rfl (by decide) _, ?_⟩
  simp only [scanToken, h.scanString_eq after]
  rfl

/-- What an operator starts with, no other token and no gap starts with, save that a comment starts
like a division. -/
theorem scanToken_operator {c : Char} {o : Operator} (hc : o.symbol.toList.head? = some c)
    (rest : List Char) :
    scanToken c rest = scanOperator c rest ∧ Text.isBlank c = false ∧ (c = '/' → o = .divide) := by
  cases o <;> obtain rfl := Option.some.inj hc <;> exact ⟨rfl, rfl, by decide⟩

/-- An operator is read if what follows does not make it longer, and if it does not open a comment
with what follows. -/
theorem readAs_operator {after s : List Char} {o : Operator} (ho : o.symbol = String.ofList s)
    (hmax : ∀ c ∈ after.head?, ∀ o' : Operator, o'.symbol ≠ String.ofList (s ++ [c]))
    (hcom : o = .divide → after.head? ≠ some '/') :
    ReadAs after s (.operator o) (String.ofList s) := by
  obtain ⟨c, rest, hs, hscan⟩ := scanOperator_eq ho hmax
  have hspan : o.symbol.toList = s := by rw [ho, String.toList_ofList]
  have hhead : o.symbol.toList.head? = some c := by
    rcases o.symbol_cases with ⟨c', h'⟩ | ⟨c', d', h'⟩
    all_goals
      rw [← hspan, h'] at hs
      rw [h', ← (List.cons.inj hs).1]
      rfl
  obtain ⟨htoken, hblank, hslash⟩ := scanToken_operator hhead rest
  refine ⟨c, rest, hs, ?_, htoken.trans hscan⟩
  rintro c' rest' h
  obtain ⟨rfl, rfl⟩ := List.cons.inj h
  refine ⟨hblank, fun hc => ?_⟩
  obtain rfl := hslash hc
  rw [← hspan] at hs
  rw [← (List.cons.inj hs).2]
  exact hcom rfl

/-- A delimiter is read whatever follows. -/
theorem readAs_delimiter (after : List Char) (d : Delimiter) :
    ReadAs after [d.symbol] (.delimiter d) (String.ofList [d.symbol]) := by
  refine ⟨d.symbol, after, rfl, clear_cons ?_ ?_ _, ?_⟩
  · cases d <;> rfl
  · cases d <;> decide
  · cases d <;> rfl

/-- A spelled token is what `scanToken` takes. -/
theorem Spelled.readAs {after s : List Char} {k : Kind} {t : String} (h : Spelled after s k t) :
    ReadAs after s k t := by
  cases h with
  | number hne hs => exact readAs_number hne hs
  | keyword hs hk =>
    have := readAs_word hs
    rwa [← hk, Kind.ofWord_word, hk] at this
  | ident hs hk =>
    have := readAs_word hs
    rwa [Kind.ofWord_of_forall_ne hk] at this
  | operator ho hmax hcom => exact readAs_operator ho hmax hcom
  | delimiter hd =>
    subst hd
    exact readAs_delimiter after _
  | string hb => exact readAs_string hb

end Scan

end Stackling
