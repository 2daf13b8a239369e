import Stackling.Proofs.Markdown.Plain

/-!
# Plain documents

A plain document is made of blank lines, lines of words, headings and fenced code at the margin
(`Element`). What it comes to is its outline: a block for every heading and for every fence, in
order (`Outlines`). A parser conforms if it finds the outline of every plain document; that much
CommonMark says of headings, paragraphs, blank lines and fences, and nothing is said of other
documents or of the lines that blocks are found on (`Conforms`).

The parser of this library conforms (`blocks_conforms`).
-/

namespace Stackling.Markdown

/-! ## Documents and outlines -/

/-- Words in which colons may stand, with blanks between them. -/
structure IsTitle (title : List Char) : Prop where
  mem : ∀ c ∈ title, isWordChar c = true ∨ c = ':' ∨ c = ' '
  first : ∃ c ∈ title.head?, isWordChar c = true
  last : ∃ c ∈ title.getLast?, isWordChar c = true

/-- A character that may stand in a line. Carriage returns end lines in some systems, and a
character with the number zero is not allowed to stay in a document. -/
def IsLineChar (c : Char) : Prop := c ≠ '\n' ∧ c ≠ '\r' ∧ c ≠ '\x00'

instance : DecidablePred IsLineChar := fun c =>
  inferInstanceAs (Decidable (c ≠ '\n' ∧ c ≠ '\r' ∧ c ≠ '\x00'))

/-- An element of a plain document. -/
inductive Element where
  | blank (line : List Char)
  | words (line : List Char)
  | heading (title : List Char)
  /-- fenced code in a language, with the lines between the fences -/
  | fence (language : List Char) (content : List (List Char))

namespace Element

/-- The lines of an element. -/
def lines : Element → List (List Char)
  | blank line => [line]
  | words line => [line]
  | heading title => ['#' :: '#' :: ' ' :: title]
  | fence language content => (ticks ++ language) :: (content ++ [ticks])

/-- An element that is what it is said to be. A language has no single letter, and no line of
fenced code looks as if it closed it. -/
def Plain : Element → Prop
  | blank line => ∀ c ∈ line, c = ' ' ∨ c = '\t'
  | words line => IsWords line
  | heading title => IsTitle title
  | fence language content => (∀ c ∈ language, isWordChar c = true ∨ c = '-') ∧
      language.length ≠ 1 ∧ ∀ l ∈ content, (∀ c ∈ l, IsLineChar c) ∧ ¬ClosesCode l

end Element

/-- The blocks that elements come to. -/
inductive Outlines : List Element → List Block → Prop where
  | nil : Outlines [] []
  | blank {es bs} (line : List Char) (h : Outlines es bs) : Outlines (.blank line :: es) bs
  | words {es bs} (line : List Char) (h : Outlines es bs) : Outlines (.words line :: es) bs
  | heading {es bs} (title : List Char) (h : Outlines es bs) :
      Outlines (.heading title :: es) (.heading (chars title) :: bs)
  | fence {es bs} (language : List Char) (content : List (List Char)) (line : Nat)
      (h : Outlines es bs) : Outlines (.fence language content :: es)
        (.fence (chars language) line (content.map chars) :: bs)

/-- An outline is one of the first elements and one of the rest. -/
theorem Outlines.exists_append {es es' : List Element} {bs : List Block}
    (h : Outlines (es ++ es') bs) :
    ∃ bs₁ bs₂, bs = bs₁ ++ bs₂ ∧ Outlines es bs₁ ∧ Outlines es' bs₂ := by
  induction es generalizing bs with
  | nil => exact ⟨[], bs, rfl, .nil, h⟩
  | cons e es ih =>
    rw [List.cons_append] at h
    cases h with
    | blank line h =>
      obtain ⟨bs₁, bs₂, rfl, h₁, h₂⟩ := ih h
      exact ⟨bs₁, bs₂, rfl, .blank line h₁, h₂⟩
    | words line h =>
      obtain ⟨bs₁, bs₂, rfl, h₁, h₂⟩ := ih h
      exact ⟨bs₁, bs₂, rfl, .words line h₁, h₂⟩
    | heading title h =>
      obtain ⟨bs₁, bs₂, rfl, h₁, h₂⟩ := ih h
      exact ⟨_ :: bs₁, bs₂, rfl, .heading title h₁, h₂⟩
    | fence language content line h =>
      obtain ⟨bs₁, bs₂, rfl, h₁, h₂⟩ := ih h
      exact ⟨_ :: bs₁, bs₂, rfl, .fence language content line h₁, h₂⟩

/-- What a parser is taken to do: it finds the headings and the fenced code of every plain document,
in order, and nothing else. -/
def Conforms (parse : Bytes → List Block) : Prop :=
  ∀ (es : List Element) (d : List Char), (∀ e ∈ es, e.Plain) → IsText (es.flatMap Element.lines) d →
    Outlines es (parse (Utf8.encode d))

/-! ## Reading plain documents -/

section Reading

variable {n : Nat} {leaf : Leaf} {ts : List Chars}

/-- No character of a title is a mark inside a heading. -/
theorem IsTitle.isInert {title : List Char} (h : IsTitle title) :
    ∀ a ∈ chars title, isInert a = true := by
  have hmarks : ∀ d ∈ ['\x60', '*', '_', '<', '\\', '\n'],
      isWordChar d = false ∧ d ≠ ':' ∧ d ≠ ' ' :=
    List.forall_iff_forall_mem.mp (by decide)
  intro a ha
  obtain ⟨c, hc, rfl⟩ := List.mem_map.mp ha
  rw [Markdown.isInert, List.all_eq_true]
  intro d hd
  rw [decide_eq_true_eq]
  intro heq
  obtain ⟨hword, hcolon, hblank⟩ := hmarks d hd
  obtain rfl : c = d := Utf8.Atom.char.inj heq
  rcases h.mem c hc with hc | hc | hc
  · exact ne_of_isWordChar hc hword rfl
  · exact hcolon hc
  · exact hblank hc

theorem reads_heading {title : List Char} {t : Chars} (htitle : IsTitle title) (hi : leaf.IsIdle)
    (h : IsLine ('#' :: '#' :: ' ' :: title) t) :
    Reads n leaf [t] [.heading (chars title)] .nothing := by
  obtain ⟨e, he, rfl, -⟩ := h
  obtain ⟨c, hfirst, hc⟩ := htitle.first
  obtain ⟨d, hlast, hd⟩ := htitle.last
  have hhead : (chars title).head? = some (.char c) := by
    rw [chars, List.head?_map, Option.mem_def.mp hfirst]
    rfl
  have hback : (chars title).reverse.head? = some (.char d) := by
    rw [List.head?_reverse, chars, List.getLast?_map, Option.mem_def.mp hlast]
    rfl
  have hsign : (chars title).reverse.head? ≠ some (.char '#') := by
    rw [hback]
    exact fun heq => ne_of_isWordChar hd (by decide) (Utf8.Atom.char.inj (Option.some.inj heq))
  exact reads_of_step (step_heading hi ⟨.char c, hhead, isSpace_of_isWordChar hc⟩
    ⟨.char d, hback, isSpace_of_isWordChar hd⟩ hsign htitle.isInert he)

/-- A language holds neither white space nor backticks. -/
theorem language_plain {language : List Char}
    (h : ∀ c ∈ language, isWordChar c = true ∨ c = '-') :
    ∀ c ∈ language, Chars.isSpace (.char c) = false ∧ c ≠ '\x60' := by
  intro c hc
  rcases h c hc with hw | rfl
  · exact ⟨isSpace_of_isWordChar hw, ne_of_isWordChar hw (by decide)⟩
  · exact ⟨rfl, by decide⟩

/-- An element is read from between blocks, and leaves the reader there. -/
theorem reads_element {e : Element} (hp : e.Plain) (hi : leaf.IsIdle)
    (h : List.Forall₂ IsLine e.lines ts) :
    ∃ bs leaf', leaf'.IsIdle ∧ Reads n leaf ts bs leaf' ∧
      ∀ {es cs}, Outlines es cs → Outlines (e :: es) (bs ++ cs) := by
  cases e with
  | blank line =>
    obtain _ | ⟨⟨e, he, rfl, -⟩, ⟨⟩⟩ := h
    refine ⟨[], .nothing, .nothing, reads_of_step (step_blank hi ?_), .blank line⟩
    refine List.all_eq_true.mpr (List.forall_mem_append.mpr ⟨fun a ha => ?_, he.isSpace⟩)
    obtain ⟨c, hc, rfl⟩ := List.mem_map.mp ha
    rcases hp c hc with rfl | rfl <;> rfl
  | words line =>
    obtain _ | ⟨⟨e, he, rfl, -⟩, ⟨⟩⟩ := h
    obtain ⟨leaf', hi', hstep⟩ := step_words hi hp he
    exact ⟨[], leaf', hi', reads_of_step hstep, .words line⟩
  | heading title =>
    obtain _ | ⟨hline, ⟨⟩⟩ := h
    exact ⟨_, .nothing, .nothing, reads_heading hp hi hline, .heading title⟩
  | fence language content =>
    obtain ⟨hlanguage, hlen, hcontent⟩ := hp
    have hls : ∀ l ∈ content, '\n' ∉ l ∧ ¬ClosesCode l := fun l hl =>
      ⟨fun hmem => ((hcontent l hl).1 _ hmem).1 rfl, (hcontent l hl).2⟩
    exact ⟨_, .nothing, .nothing, reads_fence hi (language_plain hlanguage) hlen hls h,
      .fence language content n⟩

theorem reads_elements {es : List Element} (hes : ∀ e ∈ es, e.Plain) (hi : leaf.IsIdle)
    (h : List.Forall₂ IsLine (es.flatMap Element.lines) ts) :
    ∃ bs leaf', leaf'.IsIdle ∧ Reads n leaf ts bs leaf' ∧ Outlines es bs := by
  induction es generalizing n leaf ts with
  | nil =>
    cases h
    exact ⟨[], leaf, hi, .nil n leaf, .nil⟩
  | cons e es ih =>
    obtain ⟨he, hes⟩ := List.forall_mem_cons.mp hes
    rw [List.flatMap_cons] at h
    obtain ⟨ts, us, rfl, hts, hus⟩ := exists_append_of_forall₂ h
    obtain ⟨bs, leaf', hi', hreads, houtlines⟩ := reads_element he hi hts
    obtain ⟨cs, leaf'', hi'', hreads', hcs⟩ := ih hes hi' hus
    exact ⟨bs ++ cs, leaf'', hi'', hreads.append hreads', houtlines hcs⟩

end Reading

/-- The lines of a plain element hold no line end. -/
theorem Element.Plain.newline_notMem {e : Element} (h : e.Plain) : ∀ l ∈ e.lines, '\n' ∉ l := by
  cases e with
  | blank line =>
    exact List.forall_mem_singleton.mpr fun hmem => (h _ hmem).elim (by decide) (by decide)
  | words line =>
    exact List.forall_mem_singleton.mpr (IsWords.notMem h (by decide) (by decide))
  | heading title =>
    have htitle : '\n' ∉ title := by
      intro hmem
      have hnot : ¬(isWordChar '\n' = true ∨ '\n' = ':' ∨ '\n' = ' ') := by decide
      exact hnot (h.mem _ hmem)
    refine List.forall_mem_singleton.mpr fun hmem => ?_
    simp [htitle] at hmem
  | fence language content =>
    obtain ⟨hlanguage, -, hcontent⟩ := h
    have hfirst : '\n' ∉ ticks ++ language := by
      intro hmem
      rcases List.mem_append.mp hmem with hmem | hmem
      · exact absurd hmem (by decide)
      · exact absurd (language_plain hlanguage _ hmem).1 (by decide)
    refine List.forall_mem_cons.mpr ⟨hfirst, List.forall_mem_append.mpr ⟨fun l hl hmem => ?_, ?_⟩⟩
    · exact ((hcontent l hl).1 _ hmem).1 rfl
    · exact List.forall_mem_singleton.mpr (by decide)

/-- **The parser conforms.** The outline of a plain document is what is read of it. -/
theorem blocks_conforms : Conforms blocks := by
  intro es d hes hd
  have hlines := hd.forall₂_lines fun l hl => by
    obtain ⟨e, he, hl⟩ := List.mem_flatMap.mp hl
    exact (hes e he).newline_notMem l hl
  obtain ⟨bs, leaf, hi, hreads, houtlines⟩ := reads_elements hes .nothing hlines
  rwa [hreads.blocks_eq hi]

end Stackling.Markdown
