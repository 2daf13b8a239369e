import Mathlib.Data.List.Infix
import Stackling.Markdown
import Stackling.Text.Digit
import Stackling.Text.Letter

/-!
# Lines at the margin

What a line comes to depends on the blocks that are open. Outside of containers, between other
blocks or after a line of a paragraph (`Leaf.IsIdle`), the lines of a simple document come to what
they look like: a blank line ends a paragraph, words are a line of one, a title after two number
signs is a heading, three backticks open fenced code, and there every line is content up to the
next three backticks.

A line may lack its line end, as the last one of a document does (`IsEnd`).
-/

namespace Stackling.Markdown

open Utf8 (Atom)

/-- The text of characters. -/
def chars (cs : List Char) : Chars := cs.map .char

/-- What ends a line: a line end, or nothing. -/
def IsEnd (e : Chars) : Prop := e = [] ∨ e = [.char '\n']

/-- A line end is white space. -/
theorem IsEnd.isSpace {e : Chars} (he : IsEnd e) : ∀ a ∈ e, Chars.isSpace a = true := by
  rcases he with rfl | rfl
  · exact List.forall_mem_nil _
  · simp [Chars.isSpace]

/-! ## Lines without indentation -/

/-- A line that starts with something else than white space. -/
def Flush (t : Chars) : Prop := ∃ a ∈ t.head?, Chars.isSpace a = false

namespace Flush

variable {t : Chars}

/-- A line at the margin starts with a character that is no space. -/
theorem exists_cons (h : Flush t) : ∃ a rest, t = a :: rest ∧ Chars.isSpace a = false := by
  obtain ⟨a, ha, hs⟩ := h
  obtain ⟨rest, rfl⟩ := List.head?_eq_some_iff.mp ha
  exact ⟨a, rest, rfl, hs⟩

theorem blanks (h : Flush t) (column : Nat) : Cursor.blanks column t = (0, t) := by
  obtain ⟨a, rest, rfl, hs⟩ := h.exists_cons
  unfold Cursor.blanks
  split
  · next heq =>
    obtain ⟨rfl, rfl⟩ := List.cons.inj heq
    cases hs
  · next heq =>
    obtain ⟨rfl, rfl⟩ := List.cons.inj heq
    cases hs
  · rfl

/-- A line at the margin is not indented. -/
theorem indent (h : Flush t) : (Cursor.ofLine t).indent = 0 := by
  rw [Cursor.indent, Cursor.ofLine, h.blanks]
  rfl

theorem skip_text (h : Flush t) : (Cursor.ofLine t).skip.text = t := by
  rw [Cursor.skip, Cursor.ofLine, h.blanks]

theorem offset (h : Flush t) : (Cursor.ofLine t).offset = 0 := by
  rw [Cursor.offset, h.skip_text, Cursor.ofLine, Nat.sub_self]

theorem pastSpaces (h : Flush t) : (Cursor.ofLine t).pastSpaces = t := by
  obtain ⟨a, rest, rfl, hs⟩ := h.exists_cons
  refine List.dropWhile_cons_of_neg ?_
  rintro ha
  rw [of_decide_eq_true ha] at hs
  cases hs

/-- A line at the margin is not blank. -/
theorem isBlank (h : Flush t) : (Cursor.ofLine t).isBlank = false := by
  obtain ⟨a, rest, rfl, hs⟩ := h.exists_cons
  simp [Cursor.isBlank, Cursor.ofLine, Chars.isBlank, hs]

end Flush

/-- A character takes at least one byte. -/
theorem length_le_size (t : Chars) : t.length ≤ Chars.size t := by
  induction t with
  | nil => exact Nat.zero_le _
  | cons a t ih =>
    have hpos : 1 ≤ a.bytes.length := by
      cases a with
      | char c =>
        rw [Atom.bytes, Utf8.encodeChar, String.length_utf8EncodeChar]
        exact c.utf8Size_pos
      | stray b => exact Nat.le_refl 1
    rw [Chars.size] at ih ⊢
    rw [Utf8.join, List.flatMap_cons, List.length_append, List.length_cons, Nat.add_comm]
    exact Nat.add_le_add hpos ih

/-- There is nothing to trim at the margin. -/
theorem trimLeft_of_flush {t : Chars} (h : Flush t) : Chars.trimLeft t = t := by
  obtain ⟨a, rest, rfl, hs⟩ := h.exists_cons
  exact List.dropWhile_cons_of_neg (by rw [hs]; exact Bool.false_ne_true)

/-- White space after a text that does not end in it goes away. -/
theorem trimRight_append {t e : Chars} (h : Flush t.reverse)
    (he : ∀ a ∈ e, Chars.isSpace a = true) : Chars.trimRight (t ++ e) = t := by
  have hdrop := trimLeft_of_flush h
  rw [Chars.trimLeft] at hdrop
  rw [Chars.trimRight, List.reverse_append, List.dropWhile_append_of_pos, hdrop,
    List.reverse_reverse]
  intro a ha
  exact he a (List.mem_reverse.mp ha)

/-! ## Marks that are not there -/

section Marks

variable {t : Chars}

theorem countFront_eq_zero {c : Char} (h : t.head? ≠ some (.char c)) : countFront c t = 0 := by
  rcases t with _ | ⟨a, rest⟩
  · rfl
  · have ha : a ≠ .char c := fun he => h (congrArg some he)
    simp [countFront, ha]

/-- Only three characters make a break. -/
theorem isBreak_eq_false (h : ∀ c ∈ ['*', '-', '_'], t.head? ≠ some (.char c)) :
    isBreak t = false := by
  simp only [List.forall_mem_cons] at h
  simp [isBreak, h.1, h.2.1, h.2.2.1]

/-- Only two characters underline a title. -/
theorem isUnderline_eq_false (hf : Flush t) (h : ∀ c ∈ ['=', '-'], t.head? ≠ some (.char c)) :
    isUnderline (.ofLine t) = false := by
  simp only [List.forall_mem_cons] at h
  simp [isUnderline, hf.pastSpaces, countFront_eq_zero h.1, countFront_eq_zero h.2.1]

/-- There is no list marker without one of the characters that end it. -/
theorem marker?_eq_none
    (h : ∀ c ∈ ['-', '+', '*', '.', ')'], (t.dropWhile isDigit).head? ≠ some (.char c)) :
    marker? t = none := by
  have happend := t.takeWhile_append_dropWhile (p := isDigit)
  have hdrop : t.drop (t.takeWhile isDigit).length = t.dropWhile isDigit :=
    calc t.drop (t.takeWhile isDigit).length
      _ = (t.takeWhile isDigit ++ t.dropWhile isDigit).drop (t.takeWhile isDigit).length := by
        rw [happend]
      _ = t.dropWhile isDigit := List.drop_left
  simp only [List.forall_mem_cons] at h
  obtain ⟨h₁, h₂, h₃, h₄, h₅, -⟩ := h
  have hbullet : ['-', '+', '*'].find? (fun c => (t.dropWhile isDigit).head? = some (.char c)) =
      none := by
    simp [h₁, h₂, h₃]
  have hnumber : ['.', ')'].find? (fun c => (t.dropWhile isDigit).head? = some (.char c)) =
      none := by
    simp [h₄, h₅]
  simp only [marker?, hdrop, hbullet, hnumber, Option.map_none, ite_self, Option.filter_none]

/-- Without a quotation mark or a list marker no container is opened. -/
theorem container?_eq_none (hf : Flush t) (hquote : t.head? ≠ some (.char '>'))
    (hmarker : marker? t = none) (cut : Cut) : container? cut (.ofLine t) = none := by
  have hq : quote? (.ofLine t) = none := by simp [quote?, hf.skip_text, hquote]
  simp only [container?, hq, item?, hf.pastSpaces, hmarker, ite_self]

/-- Only an angle bracket opens HTML. -/
theorem htmlOpening?_eq_none (h : t.head? ≠ some (.char '<')) : htmlOpening? t = none := by
  have hstart (s : String) (hs : s.toList.head? = some '<') : Chars.startsWith t s = false := by
    rcases t with _ | ⟨a, rest⟩
    · obtain ⟨u, hu⟩ := List.head?_eq_some_iff.mp hs
      simp [Chars.startsWith, Chars.ofString, hu]
    · obtain ⟨u, hu⟩ := List.head?_eq_some_iff.mp hs
      have ha : Atom.char '<' ≠ a := fun he => h (congrArg some he.symm)
      simp [Chars.startsWith, Chars.ofString, hu, List.isPrefixOf, ha]
  simp [htmlOpening?, hstart "<!--" rfl, hstart "<?" rfl, hstart "<!" rfl, hstart "<![CDATA[" rfl]

end Marks

/-! ## Steps -/

/-- Between blocks, or after a line of a paragraph. -/
inductive Leaf.IsIdle : Leaf → Prop where
  | nothing : IsIdle .nothing
  | paragraph (lines : List Prose) : IsIdle (.paragraph lines)

section Steps

variable {leaf : Leaf} {t : Chars} {n : Nat}

/-- With nothing open, a line is placed at the outermost level. -/
theorem step_nothing (n : Nat) (t : Chars) :
    step ⟨[], .nothing⟩ n t = place n [] (.ofLine t) := by
  simp [step, keep, Leaf.finish]

/-- A line at the margin that opens no container is a block of its own, if it looks like one, and
otherwise the first line of a paragraph. -/
theorem place_eq (hf : Flush t) (hcontainer : container? .clean (.ofLine t) = none) :
    place n [] (.ofLine t) =
      match leaf? n .clean (.ofLine t) with
      | some (bs, l) => (bs, ⟨[], l⟩)
      | none => ([], ⟨[], .paragraph [.ofChars '\n' (Chars.trimLeft t)]⟩) := by
  rw [place, hf.isBlank, if_neg Bool.false_ne_true]
  split
  · next hsome => cases hcontainer.symm.trans hsome
  · rfl

/-- A line that opens a block does so anywhere between blocks. -/
theorem step_of_leaf? (hi : leaf.IsIdle) (hf : Flush t)
    (hcontainer : ∀ cut, container? cut (.ofLine t) = none)
    (hunder : isUnderline (.ofLine t) = false) {bs : List Block} {l : Leaf}
    (hleaf : ∀ cut, leaf? n cut (.ofLine t) = some (bs, l)) :
    step ⟨[], leaf⟩ n t = (bs, ⟨[], l⟩) := by
  cases hi with
  | nothing => rw [step_nothing, place_eq hf (hcontainer .clean), hleaf]
  | paragraph lines => simp [step, keep, hf.isBlank, hunder, interrupt?, hcontainer, hleaf]

/-- A line that opens nothing is one of a paragraph. -/
theorem step_of_text (hi : leaf.IsIdle) (hf : Flush t)
    (hcontainer : ∀ cut, container? cut (.ofLine t) = none)
    (hunder : isUnderline (.ofLine t) = false)
    (hleaf : ∀ cut, leaf? n cut (.ofLine t) = none) :
    ∃ leaf' : Leaf, leaf'.IsIdle ∧ step ⟨[], leaf⟩ n t = ([], ⟨[], leaf'⟩) := by
  cases hi with
  | nothing =>
    refine ⟨_, .paragraph [.ofChars '\n' (Chars.trimLeft t)], ?_⟩
    rw [step_nothing, place_eq hf (hcontainer .clean), hleaf]
  | paragraph lines =>
    refine ⟨_, .paragraph (.ofCursor (.ofLine t) :: lines), ?_⟩
    simp [step, keep, hf.isBlank, hunder, interrupt?, hcontainer, hleaf]

/-- A blank line ends a paragraph. -/
theorem step_blank (hi : leaf.IsIdle) (hblank : Chars.isBlank t = true) :
    step ⟨[], leaf⟩ n t = ([], ⟨[], .nothing⟩) := by
  have hc : (Cursor.ofLine t).isBlank = true := hblank
  cases hi with
  | nothing =>
    rw [step_nothing, place, if_pos hc]
  | paragraph lines => simp [step, keep, hc]

/-- A line that starts with a mark of headings or fences opens what the mark says. -/
theorem step_of_mark {c : Char} (hi : leaf.IsIdle) (ht : t.head? = some (.char c))
    (hspace : Chars.isSpace (.char c) = false ∧ c.isDigit = false)
    (hc : c ∉ ['>', '-', '+', '*', '.', ')', '=', '_']) {bs : List Block} {l : Leaf}
    (hopens : (match atxHeading? (.ofLine t) with
      | some b => some ([b], .nothing)
      | none => (fence? (.ofLine t)).map fun f => ([], .fenced f n [])) = some (bs, l)) :
    step ⟨[], leaf⟩ n t = (bs, ⟨[], l⟩) := by
  have hf : Flush t := ⟨_, ht, hspace.1⟩
  have hne : ∀ d ∈ ['>', '-', '+', '*', '.', ')', '=', '_'], t.head? ≠ some (.char d) := by
    intro d hd heq
    rw [ht] at heq
    exact hc (Atom.char.inj (Option.some.inj heq) ▸ hd)
  have hdigits : t.dropWhile isDigit = t := by
    obtain ⟨rest, rfl⟩ := List.head?_eq_some_iff.mp ht
    exact List.dropWhile_cons_of_neg (by rw [isDigit, hspace.2]; exact Bool.false_ne_true)
  have hmarker : marker? t = none := by
    apply marker?_eq_none
    intro d hd
    rw [hdigits]
    exact hne d ((by decide : ['-', '+', '*', '.', ')'] ⊆ _) hd)
  have hunder : isUnderline (.ofLine t) = false :=
    isUnderline_eq_false hf fun d hd => hne d ((by decide : ['=', '-'] ⊆ _) hd)
  have hbreak : isBreak t = false :=
    isBreak_eq_false fun d hd => hne d ((by decide : ['*', '-', '_'] ⊆ _) hd)
  apply step_of_leaf? hi hf (container?_eq_none hf (hne '>' (by decide)) hmarker) hunder
  -- headings and fences are looked for right after breaks, whatever the line may interrupt
  intro cut
  simp only [leaf?, hf.indent, hf.skip_text, hbreak]
  cases hatx : atxHeading? (.ofLine t) with
  | some b =>
    rw [hatx] at hopens
    exact hopens
  | none =>
    rw [hatx] at hopens
    cases hfence : fence? (.ofLine t) with
    | some f =>
      rw [hfence] at hopens
      exact hopens
    | none =>
      rw [hfence] at hopens
      cases hopens

/-- The first character tells that a line opens no block. -/
theorem leaf?_eq_none (hf : Flush t)
    (h : ∀ c ∈ ['*', '-', '_', '#', '\x60', '~', '<'], t.head? ≠ some (.char c)) (cut : Cut) :
    leaf? n cut (.ofLine t) = none := by
  simp only [List.forall_mem_cons] at h
  obtain ⟨h₁, h₂, h₃, hsign, htick, htilde, hhtml, -⟩ := h
  have hbreak : isBreak t = false := isBreak_eq_false (by simp [h₁, h₂, h₃])
  have hheading : atxHeading? (.ofLine t) = none := by
    simp [atxHeading?, hf.skip_text, countFront_eq_zero hsign]
  have hfence : fence? (.ofLine t) = none := by
    simp [fence?, hf.skip_text, countFront_eq_zero htick, countFront_eq_zero htilde]
  simp [leaf?, hf.indent, hf.skip_text, hf.pastSpaces, hbreak, hheading, hfence,
    htmlOpening?_eq_none hhtml]

end Steps

/-! ## Words -/

/-- Is `c` a letter or a digit? -/
def isWordChar (c : Char) : Bool := Text.isLetter c || Text.isDecimalDigit c

theorem ne_of_isWordChar {c d : Char} (hc : isWordChar c = true) (hd : isWordChar d = false) :
    c ≠ d := by
  rintro rfl
  rw [hc] at hd
  cases hd

/-- Words of letters and digits with one blank between neighbours. -/
inductive IsWords : List Char → Prop where
  | word {w : List Char} (hne : w ≠ []) (hw : ∀ c ∈ w, isWordChar c = true) : IsWords w
  | more {w cs : List Char} (hne : w ≠ []) (hw : ∀ c ∈ w, isWordChar c = true)
      (h : IsWords cs) : IsWords (w ++ ' ' :: cs)

namespace IsWords

variable {cs : List Char}

/-- Words consist of letters, digits and blanks. -/
theorem mem (h : IsWords cs) : ∀ c ∈ cs, isWordChar c = true ∨ c = ' ' := by
  induction h with
  | word _ hw => exact fun c hc => .inl (hw c hc)
  | more _ hw _ ih =>
    intro c hc
    rcases List.mem_append.mp hc with hc | hc
    · exact .inl (hw c hc)
    · rcases List.mem_cons.mp hc with rfl | hc
      · exact .inr rfl
      · exact ih c hc

/-- Words start with a letter or a digit. -/
theorem exists_head (h : IsWords cs) : ∃ c rest, cs = c :: rest ∧ isWordChar c = true := by
  cases h with
  | word hne hw | more hne hw =>
    obtain ⟨c, rest, rfl⟩ := List.exists_cons_of_ne_nil hne
    exact ⟨c, _, rfl, hw c List.mem_cons_self⟩

/-- Words end with a letter or a digit. -/
theorem exists_last (h : IsWords cs) : ∃ front c, cs = front ++ [c] ∧ isWordChar c = true := by
  induction h with
  | @word w hne hw =>
    rcases w.eq_nil_or_concat with hnil | ⟨front, c, rfl⟩
    · exact absurd hnil hne
    · rw [List.concat_eq_append] at hw ⊢
      exact ⟨front, c, rfl, hw c (by simp)⟩
  | @more w cs hne hw _ ih =>
    obtain ⟨front, c, rfl, hc⟩ := ih
    exact ⟨w ++ ' ' :: front, c, by simp, hc⟩

/-- A character that is neither a letter nor a digit nor a blank. -/
theorem notMem (h : IsWords cs) {d : Char} (hd : isWordChar d = false) (hblank : d ≠ ' ') :
    d ∉ cs := by
  intro hmem
  rcases h.mem d hmem with hw | rfl
  · exact ne_of_isWordChar hw hd rfl
  · exact hblank rfl

end IsWords

section Words

variable {leaf : Leaf} {n : Nat} {cs : List Char} {e : Chars}

/-- Letters and digits are no space. -/
theorem isSpace_of_isWordChar {c : Char} (h : isWordChar c = true) :
    Chars.isSpace (.char c) = false := by
  simp [Chars.isSpace, ne_of_isWordChar h (show isWordChar ' ' = false by decide),
    ne_of_isWordChar h (show isWordChar '\t' = false by decide),
    ne_of_isWordChar h (show isWordChar '\n' = false by decide),
    ne_of_isWordChar h (show isWordChar '\r' = false by decide)]

/-- Words are a line of a paragraph. -/
theorem step_words (hi : leaf.IsIdle) (h : IsWords cs) (he : IsEnd e) :
    ∃ leaf' : Leaf, leaf'.IsIdle ∧ step ⟨[], leaf⟩ n (chars cs ++ e) = ([], ⟨[], leaf'⟩) := by
  obtain ⟨c, rest, hcs, hc⟩ := h.exists_head
  have hhead : (chars cs ++ e).head? = some (.char c) := by rw [hcs]; rfl
  have hne {d : Char} (hd : isWordChar d = false) : (chars cs ++ e).head? ≠ some (.char d) := by
    rw [hhead]
    exact fun heq => ne_of_isWordChar hc hd (Atom.char.inj (Option.some.inj heq))
  have hf : Flush (chars cs ++ e) := ⟨.char c, hhead, isSpace_of_isWordChar hc⟩
  have hmarks : ∀ d ∈ ['-', '+', '*', '.', ')', '=', '_', '#', '\x60', '~', '<'],
      isWordChar d = false ∧ d ≠ ' ' ∧ d ≠ '\n' :=
    List.forall_iff_forall_mem.mp (by decide)
  have hmarker : marker? (chars cs ++ e) = none := by
    apply marker?_eq_none
    intro d hd hdrop
    have hword := hmarks d ((by decide : ['-', '+', '*', '.', ')'] ⊆ _) hd)
    have hmem : .char d ∈ chars cs ++ e :=
      (List.dropWhile_suffix _).mem (List.mem_of_mem_head? hdrop)
    rcases List.mem_append.mp hmem with hmem | hmem
    · obtain ⟨d', hd', heq⟩ := List.mem_map.mp hmem
      exact h.notMem hword.1 hword.2.1 (Atom.char.inj heq ▸ hd')
    · rcases he with rfl | rfl
      · cases hmem
      · exact hword.2.2 (Atom.char.inj (List.mem_singleton.mp hmem))
  have hcontainer := container?_eq_none hf (hne (by decide)) hmarker
  have hunder : isUnderline (.ofLine (chars cs ++ e)) = false := by
    apply isUnderline_eq_false hf
    intro d hd
    exact hne (hmarks d ((by decide : ['=', '-'] ⊆ _) hd)).1
  apply step_of_text hi hf hcontainer hunder
  apply leaf?_eq_none hf
  intro d hd
  exact hne (hmarks d ((by decide : ['*', '-', '_', '#', '\x60', '~', '<'] ⊆ _) hd)).1

end Words

/-! ## Headings -/

section Headings

/-- Is an atom no mark inside a heading? -/
def isInert (a : Atom) : Bool :=
  ['\x60', '*', '_', '<', '\\', '\n'].all fun c => a ≠ .char c

/-- A character that is no mark opens no span. -/
theorem span?_eq_none {g : Glyph} (h : isInert g.atom = true) (rest : Prose) :
    span? g rest = none := by
  simp only [isInert, List.all_cons, List.all_nil, Bool.and_true, Bool.and_eq_true,
    decide_eq_true_eq] at h
  simp [span?, h]

/-- A text does not start with a character that it does not have. -/
theorem startsWith_eq_false {s : String} {c : Char} (hc : c ∈ s.toList) {t : Prose}
    (ht : ∀ g ∈ t, g.atom ≠ .char c) : t.startsWith s = false := by
  rw [Bool.eq_false_iff]
  intro heq
  have hatoms : Prose.atoms (t.take s.length) = Chars.ofString s := eq_of_beq heq
  have hmem : .char c ∈ Prose.atoms (t.take s.length) := by
    rw [hatoms]
    exact List.mem_map_of_mem hc
  obtain ⟨g, hg, hatom⟩ := List.mem_map.mp hmem
  exact ht g (List.mem_of_mem_take hg) hatom

/-- Without marks there is no line end to look for. -/
theorem lineEnd?_eq_none {t : Prose} (ht : ∀ g ∈ t, isInert g.atom = true) :
    lineEnd? t = none := by
  have hnewline : ∀ g ∈ t, g.atom ≠ .char '\n' := by
    intro g hg heq
    have := ht g hg
    rw [heq] at this
    cases this
  rcases t with _ | ⟨g, rest⟩
  · rfl
  · have hstart {s : String} (hs : '\n' ∈ s.toList) :
        Prose.startsWith (g :: rest) s = false := startsWith_eq_false hs hnewline
    simp only [lineEnd?, hstart (s := "  \n") (by decide), hstart (s := "  \r\n") (by decide),
      hstart (s := "\\\n") (by decide), hstart (s := "\\\r\n") (by decide),
      if_neg (hnewline g List.mem_cons_self)]
    simp

theorem atoms_ofChars (before : Char) (t : Chars) : (Prose.ofChars before t).atoms = t := by
  induction t generalizing before with
  | nil => rfl
  | cons a t ih => exact congrArg (a :: ·) (ih _)

/-- What holds of characters holds of their glyphs. -/
theorem forall_mem_ofChars {P : Atom → Prop} {t : Chars} (ht : ∀ a ∈ t, P a) (before : Char) :
    ∀ g ∈ Prose.ofChars before t, P g.atom := by
  intro g hg
  apply ht
  rw [← atoms_ofChars before t]
  exact List.mem_map_of_mem hg

/-- A text without marks is one piece. -/
theorem pieces_eq {t : Chars} (ht : ∀ a ∈ t, isInert a = true) (fresh : Bool) (before : Char)
    (seen : Chars) : pieces false fresh seen (.ofChars before t) =
      [.text (Chars.trimRight (seen.reverse ++ t))] := by
  induction t generalizing fresh before seen with
  | nil =>
    rw [pieces]
    simp [Prose.ofChars, lineEnd?]
  | cons a t ih =>
    have hend := lineEnd?_eq_none (forall_mem_ofChars ht before)
    obtain ⟨ha, ht⟩ := List.forall_mem_cons.mp ht
    have hnext := ih ht false (Prose.behind before a) (a :: seen)
    have hshield : (a = Atom.char '\\') = False := by
      rw [eq_iff_iff, iff_false]
      rintro rfl
      cases ha
    rw [Prose.ofChars] at hend ⊢
    rw [pieces]
    split
    · next h => cases hend.symm.trans h
    · dsimp only
      split
      · next h => cases (span?_eq_none (g := ⟨before, a⟩) ha _).symm.trans h
      · simpa [hshield] using hnext

/-- A text without marks is itself, less the white space at the end. -/
theorem plainText_eq {t : Chars} (ht : ∀ a ∈ t, isInert a = true) (before : Char) :
    plainText (.ofChars before t) = Chars.trimRight t := by
  simp [plainText, pieces_eq ht, addPiece, Piece.toText]

variable {leaf : Leaf} {n : Nat} {title : List Char} {e : Chars}

/-- Two number signs and a blank open a heading, whose title is the rest of the line. The title must
not end in a number sign, as closing signs are taken off. -/
theorem atxHeading?_eq (hfirst : Flush (chars title)) (hlast : Flush (chars title).reverse)
    (hsign : (chars title).reverse.head? ≠ some (.char '#'))
    (hinert : ∀ a ∈ chars title, isInert a = true) (he : IsEnd e) :
    atxHeading? (.ofLine (chars ('#' :: '#' :: ' ' :: title) ++ e)) =
      some (.heading (chars title)) := by
  have hline : chars ('#' :: '#' :: ' ' :: title) ++ e =
      .char '#' :: .char '#' :: .char ' ' :: (chars title ++ e) := rfl
  have hf : Flush (chars ('#' :: '#' :: ' ' :: title) ++ e) := ⟨_, rfl, rfl⟩
  have hfirst' : Flush (chars title ++ e) := by
    obtain ⟨a, rest, ht, hs⟩ := hfirst.exists_cons
    rw [ht]
    exact ⟨a, rfl, hs⟩
  have htrim : Chars.trim (.char ' ' :: (chars title ++ e)) = chars title := by
    rw [Chars.trim, Chars.trimLeft, List.dropWhile_cons_of_pos rfl, ← Chars.trimLeft,
      trimLeft_of_flush hfirst', trimRight_append hlast he.isSpace]
  have hstem : ((chars title).reverse.dropWhile (· = .char '#')).reverse = chars title := by
    obtain ⟨a, rest, ht, -⟩ := hlast.exists_cons
    rw [ht] at hsign
    rw [ht, List.dropWhile_cons_of_neg, ← ht, List.reverse_reverse]
    simpa using hsign
  have hplain : plainText (.ofChars '\n' (chars title)) = chars title := by
    rw [plainText_eq hinert, ← List.append_nil (chars title), trimRight_append hlast (by simp),
      List.append_nil]
  have hsize := length_le_size (chars ('#' :: '#' :: ' ' :: title) ++ e)
  have hcount : countFront '#' (chars ('#' :: '#' :: ' ' :: title) ++ e) = 2 := by
    simp [hline, countFront]
  have hdrop : (chars ('#' :: '#' :: ' ' :: title) ++ e).drop 2 =
      .char ' ' :: (chars title ++ e) := rfl
  have hroom : ¬Chars.size (chars ('#' :: '#' :: ' ' :: title) ++ e) = 0 := by
    rw [hline, List.length_cons] at hsize
    rw [hline]
    omega
  have hspace : Chars.isSpace (.char ' ') = true := rfl
  simp only [atxHeading?, hf.skip_text, hf.indent, hcount, hdrop, htrim, hstem, ite_self, hplain]
  simp [Cursor.ofLine, hroom, hspace]

/-- A title after two number signs is a heading. -/
theorem step_heading (hi : leaf.IsIdle) (hfirst : Flush (chars title))
    (hlast : Flush (chars title).reverse)
    (hsign : (chars title).reverse.head? ≠ some (.char '#'))
    (hinert : ∀ a ∈ chars title, isInert a = true) (he : IsEnd e) :
    step ⟨[], leaf⟩ n (chars ('#' :: '#' :: ' ' :: title) ++ e) =
      ([.heading (chars title)], ⟨[], .nothing⟩) := by
  apply step_of_mark hi (c := '#') rfl (by decide) (by decide)
  rw [atxHeading?_eq hfirst hlast hsign hinert he]

end Headings

/-! ## Fenced code -/

/-- Three backticks. -/
def ticks : List Char := ['\x60', '\x60', '\x60']

/-- Does a line start with three backticks, after three blanks at most? -/
def ClosesCode (cs : List Char) : Prop := ∃ k ≤ 3, List.replicate k ' ' ++ ticks <+: cs

instance : DecidablePred ClosesCode := fun cs =>
  inferInstanceAs (Decidable (∃ k ≤ 3, List.replicate k ' ' ++ ticks <+: cs))

/-- The fence of three backticks at the margin. -/
def tickFence (info : List Char) : Fence := ⟨'\x60', 3, 0, chars info⟩

section Fences

variable {leaf : Leaf} {n start : Nat} {cs info : List Char} {e : Chars} {content : List Chars}

/-- What stands after a fence, without the line end. -/
theorem info_eq (hinfo : ∀ c ∈ info, Chars.isSpace (.char c) = false) (hlen : info.length ≠ 1)
    (he : IsEnd e) :
    (if Chars.size (chars info ++ e) < 2 then [] else Chars.trim (chars info ++ e)) =
      chars info := by
  rcases info.eq_nil_or_concat with rfl | ⟨front, c, rfl⟩
  · rcases he with rfl | rfl <;> rfl
  · rw [List.concat_eq_append] at hinfo hlen ⊢
    have hsize := length_le_size (chars (front ++ [c]) ++ e)
    have hspace : ∀ a ∈ chars (front ++ [c]), Chars.isSpace a = false := by
      intro a ha
      obtain ⟨d, hd, rfl⟩ := List.mem_map.mp ha
      exact hinfo d hd
    have hfirst : Flush (chars (front ++ [c]) ++ e) := by
      obtain ⟨d, rest, hd⟩ := List.exists_cons_of_ne_nil (show front ++ [c] ≠ [] by simp)
      rw [hd] at hspace ⊢
      exact ⟨.char d, rfl, hspace _ List.mem_cons_self⟩
    have hlast : Flush (chars (front ++ [c])).reverse :=
      ⟨.char c, by simp [chars], hinfo c (by simp)⟩
    have hlarge : ¬Chars.size (chars (front ++ [c]) ++ e) < 2 := by
      simp only [chars, List.length_append, List.length_map, List.length_singleton] at hsize hlen
      simp only [chars]
      omega
    rw [if_neg hlarge, Chars.trim, trimLeft_of_flush hfirst, trimRight_append hlast he.isSpace]

/-- A fence has three backticks, if what follows is none. -/
theorem countFront_ticks {t : Chars} (h : t.head? ≠ some (.char '\x60')) :
    countFront '\x60' (chars ticks ++ t) = 3 := by
  have hzero := countFront_eq_zero h
  rw [countFront] at hzero ⊢
  simp [chars, ticks, List.length_eq_zero_iff.mp hzero]

/-- What follows the backticks of a fence is no backtick. -/
theorem head?_append_end (h : ∀ c ∈ info, c ≠ '\x60') (he : IsEnd e) :
    (chars info ++ e).head? ≠ some (.char '\x60') := by
  rcases info with _ | ⟨c, rest⟩
  · rcases he with rfl | rfl <;> decide
  · intro heq
    exact h c List.mem_cons_self (Atom.char.inj (Option.some.inj heq))

/-- Three backticks open fenced code. -/
theorem step_opening (hi : leaf.IsIdle)
    (hinfo : ∀ c ∈ info, Chars.isSpace (.char c) = false ∧ c ≠ '\x60') (hlen : info.length ≠ 1)
    (he : IsEnd e) : step ⟨[], leaf⟩ n (chars (ticks ++ info) ++ e) =
      ([], ⟨[], .fenced (tickFence info) n []⟩) := by
  have hline : chars (ticks ++ info) ++ e = chars ticks ++ (chars info ++ e) := by
    simp [chars]
  have hf : Flush (chars (ticks ++ info) ++ e) := ⟨_, rfl, rfl⟩
  have hcount : countFront '\x60' (chars (ticks ++ info) ++ e) = 3 := by
    rw [hline]
    exact countFront_ticks (head?_append_end (fun c hc => (hinfo c hc).2) he)
  have hdrop : (chars (ticks ++ info) ++ e).drop 3 = chars info ++ e := rfl
  have hnone : (chars info).any (· = .char '\x60') = false := by
    simp only [chars, List.any_map, List.any_eq_false]
    intro c hc
    simpa using (hinfo c hc).2
  have hfence : fence? (.ofLine (chars (ticks ++ info) ++ e)) = some (tickFence info) := by
    simp only [fence?, hf.skip_text, hf.offset, hcount, hdrop,
      info_eq (fun c hc => (hinfo c hc).1) hlen he, hnone]
    rfl
  have hheading : atxHeading? (.ofLine (chars (ticks ++ info) ++ e)) = none := by
    have hsign : countFront '#' (chars (ticks ++ info) ++ e) = 0 := countFront_eq_zero (by
      rw [hline]
      exact fun h => by cases h)
    simp [atxHeading?, hf.skip_text, hsign]
  apply step_of_mark hi (c := '\x60') rfl (by decide) (by decide)
  rw [hheading, hfence]
  rfl

/-- Three backticks close it. -/
theorem step_closing (he : IsEnd e) :
    step ⟨[], .fenced (tickFence info) start content⟩ n (chars ticks ++ e) =
      ([.fence (chars info) start content.reverse], ⟨[], .nothing⟩) := by
  have hf : Flush (chars ticks ++ e) := ⟨_, rfl, rfl⟩
  have hcount : countFront '\x60' (chars ticks ++ e) = 3 :=
    countFront_ticks (by rcases he with rfl | rfl <;> decide)
  have hdrop : (chars ticks ++ e).drop 3 = e := rfl
  have hblank : Chars.isBlank e = true := List.all_eq_true.mpr he.isSpace
  have hcloses : (tickFence info).closes (.ofLine (chars ticks ++ e)) = true := by
    simp [Fence.closes, tickFence, hf.indent, hf.skip_text, hcount, hdrop, hblank]
  have htext : (Cursor.ofLine (chars ticks ++ e)).text.isEmpty = false := rfl
  simp only [step, keep, hcloses, htext, Leaf.finish]
  rfl

/-- Indentation of fewer than four columns consists of spaces. -/
theorem eq_replicate_of_blanks {column : Nat} {t : Chars}
    (h : column + (Cursor.blanks column t).1 < 4) :
    t = List.replicate (Cursor.blanks column t).1 (Atom.char ' ') ++
      (Cursor.blanks column t).2 := by
  fun_induction Cursor.blanks column t with
  | case1 column t r ih => exact congrArg (Atom.char ' ' :: ·) (ih (by simp only [r] at h ⊢; omega))
  | case2 column t r ih =>
    simp only [Cursor.tabWidth] at h
    omega
  | case3 => rfl

/-- Characters that were counted are there. -/
theorem replicate_prefix_of_countFront {c : Char} {t : Chars} {k : Nat} (h : k ≤ countFront c t) :
    List.replicate k (.char c) <+: t := by
  have hall : t.takeWhile (· = .char c) = List.replicate (countFront c t) (.char c) := by
    rw [List.eq_replicate_iff]
    exact ⟨rfl, fun a ha => of_decide_eq_true (List.all_eq_true.mp List.all_takeWhile a ha)⟩
  have htake : (t.takeWhile (· = .char c)).take k = List.replicate k (.char c) := by
    rw [hall, List.take_replicate, Nat.min_eq_left h]
  exact htake ▸ (List.take_prefix k _).trans (List.takeWhile_prefix _)

/-- The line end is no part of what stands at the front of a line. -/
theorem prefix_of_chars_prefix {front : List Char} (hfront : '\n' ∉ front) (he : IsEnd e)
    (h : chars front <+: chars cs ++ e) : front <+: cs := by
  have hchars : chars front <+: chars cs := by
    rcases he with rfl | rfl
    · rwa [List.append_nil] at h
    · rcases List.prefix_concat_iff.mp h with heq | h
      · have hmem : Atom.char '\n' ∈ chars front := by
          rw [heq]
          simp
        obtain ⟨c, hc, hchar⟩ := List.mem_map.mp hmem
        exact absurd (Atom.char.inj hchar ▸ hc) hfront
      · exact h
  exact (List.prefix_map_iff_of_injective fun _ _ => Atom.char.inj).mp hchars

/-- A line that does not start with three backticks does not close the code. -/
theorem closes_eq_false (hcloses : ¬ClosesCode cs) (he : IsEnd e) :
    (tickFence info).closes (.ofLine (chars cs ++ e)) = false := by
  rw [Bool.eq_false_iff]
  intro h
  simp only [Fence.closes, tickFence, Bool.and_eq_true, decide_eq_true_eq] at h
  obtain ⟨⟨hindent, hsize⟩, -⟩ := h
  have hlt : 0 + (Cursor.blanks 0 (chars cs ++ e)).1 < 4 := hindent
  obtain ⟨r, hr⟩ := replicate_prefix_of_countFront (of_decide_eq_true hsize)
  have hskip : List.replicate 3 (Atom.char '\x60') ++ r =
      (Cursor.blanks 0 (chars cs ++ e)).2 := hr
  refine hcloses ⟨(Cursor.blanks 0 (chars cs ++ e)).1, by omega, ?_⟩
  refine prefix_of_chars_prefix (by simp [ticks]) he ⟨r, ?_⟩
  calc chars (List.replicate (Cursor.blanks 0 (chars cs ++ e)).1 ' ' ++ ticks) ++ r
    _ = List.replicate (Cursor.blanks 0 (chars cs ++ e)).1 (Atom.char ' ') ++
        (List.replicate 3 (Atom.char '\x60') ++ r) := by
      simp [chars, ticks, List.replicate]
    _ = chars cs ++ e := by
      rw [hskip]
      exact (eq_replicate_of_blanks hlt).symm

/-- Any other line is content. -/
theorem step_content (hcs : '\n' ∉ cs) (hcloses : ¬ClosesCode cs) (he : IsEnd e)
    (hne : chars cs ++ e ≠ []) :
    step ⟨[], .fenced (tickFence info) start content⟩ n (chars cs ++ e) =
      ([], ⟨[], .fenced (tickFence info) start (chars cs :: content)⟩) := by
  have htext : (Cursor.ofLine (chars cs ++ e)).text.isEmpty = false :=
    Bool.eq_false_iff.mpr fun h => hne (List.isEmpty_iff.mp h)
  have hcontent : (tickFence info).content (.ofLine (chars cs ++ e)) = chars cs := by
    have hall : ∀ a ∈ chars cs, decide (a ≠ .char '\n') = true := by
      intro a ha
      obtain ⟨c, hc, rfl⟩ := List.mem_map.mp ha
      exact decide_eq_true fun heq => hcs (Atom.char.inj heq ▸ hc)
    have hstop : e.takeWhile (· ≠ .char '\n') = [] := by
      rcases he with rfl | rfl <;> rfl
    calc (chars cs ++ e).takeWhile (· ≠ .char '\n')
      _ = chars cs ++ e.takeWhile (· ≠ .char '\n') := List.takeWhile_append_of_pos hall
      _ = chars cs := by rw [hstop, List.append_nil]
  simp only [step, keep, htext, closes_eq_false hcloses he, hcontent]
  rfl

end Fences

end Stackling.Markdown
