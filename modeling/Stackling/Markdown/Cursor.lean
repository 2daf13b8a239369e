import Stackling.Text.Utf8

/-!
# Lines and columns

Markdown is read line by line, and what a line is depends on how far it is indented. A tab reaches
to the next column that is a multiple of four, so a container that takes two columns off the front
of a line may use up half a tab. A `Cursor` is the part of a line that is still to be read, with the
blanks that such a tab leaves behind.
-/

namespace Stackling.Markdown

open Utf8 (Atom)

/-- A piece of text; stray bytes are kept as they are. -/
abbrev Chars := List Atom

namespace Chars

/-- Is an atom white space? Only the blank, the tab and the two characters of line ends are. -/
def isSpace : Atom → Bool
  | .char c => c = ' ' || c = '\t' || c = '\n' || c = '\r'
  | .stray _ => false

/-- Does a text hold nothing but white space? -/
def isBlank (t : Chars) : Bool := t.all isSpace

/-- A text without the white space in front. -/
def trimLeft (t : Chars) : Chars := t.dropWhile isSpace

/-- A text without the white space at the end. -/
def trimRight (t : Chars) : Chars := (t.reverse.dropWhile isSpace).reverse

/-- A text without white space at either end. -/
def trim (t : Chars) : Chars := trimRight (trimLeft t)

/-- The text of a string. -/
def ofString (s : String) : Chars := s.toList.map .char

/-- Does a text start with a string? -/
def startsWith (t : Chars) (s : String) : Bool := (ofString s).isPrefixOf t

/-- Does a text hold a string? -/
def contains (t : Chars) (s : String) : Bool :=
  match t with
  | [] => s.isEmpty
  | a :: rest => startsWith (a :: rest) s || contains rest s

/-- The number of bytes of a text. -/
def size (t : Chars) : Nat := (Utf8.join t).length

/-- The lines of a text with their line ends, which the last line may lack. -/
def lines : Chars → List Chars
  | [] => []
  | a :: rest =>
    if a = .char '\n' then [a] :: lines rest
    else match lines rest with
      | [] => [[a]]
      | l :: ls => (a :: l) :: ls

/-- A line without its line end. -/
def chomp (t : Chars) : Chars := t.takeWhile (· ≠ .char '\n')

end Chars

/-- What is left of a line. -/
structure Cursor where
  /-- the character in front of `text` -/
  before : Char
  /-- the column that `text` starts at -/
  column : Nat
  /-- how many blanks stand before `text`, left behind by a tab -/
  pad : Nat
  /-- the text, with the line end if the line has one -/
  text : Chars
  deriving Repr

namespace Cursor

/-- A whole line. -/
def ofLine (t : Chars) : Cursor := ⟨'\n', 0, 0, t⟩

/-- The number of columns from `column` to the next tab stop. -/
def tabWidth (column : Nat) : Nat := 4 - column % 4

/-- The column after a text that starts at `column`. -/
def columnAfter (column : Nat) (t : Chars) : Nat :=
  t.foldl (fun col a => if a = .char '\t' then col + tabWidth col else col + 1) column

/-- The width of the blanks at the front of a text that starts at `column`, and the text after
them. -/
def blanks (column : Nat) : Chars → Nat × Chars
  | .char ' ' :: t =>
    let r := blanks (column + 1) t
    (r.1 + 1, r.2)
  | .char '\t' :: t =>
    let r := blanks (column + tabWidth column) t
    (r.1 + tabWidth column, r.2)
  | t => (0, t)

/-- How far the line is indented. -/
def indent (c : Cursor) : Nat := c.pad + (blanks c.column c.text).1

/-- The line without its indentation. -/
def skip (c : Cursor) : Cursor :=
  let r := blanks c.column c.text
  ⟨if r.1 = 0 then c.before else ' ', c.column + r.1, 0, r.2⟩

/-- The number of characters that the indentation consists of. -/
def offset (c : Cursor) : Nat := c.pad + (c.text.length - c.skip.text.length)

/-- The text after the spaces in front; a tab stays. -/
def pastSpaces (c : Cursor) : Chars := c.text.dropWhile (· = .char ' ')

/-- Drops `n` columns of blanks, or as many as there are, from a text that starts at `column`. -/
def dropBlanks (n : Nat) (before : Char) (column : Nat) : Chars → Cursor
  | .char ' ' :: t =>
    if n = 0 then ⟨before, column, 0, .char ' ' :: t⟩
    else dropBlanks (n - 1) ' ' (column + 1) t
  | .char '\t' :: t =>
    if n = 0 then ⟨before, column, 0, .char '\t' :: t⟩
    else if tabWidth column ≤ n then
      dropBlanks (n - tabWidth column) '\t' (column + tabWidth column) t
    else ⟨'\t', column + tabWidth column, tabWidth column - n, t⟩
  | t => ⟨before, column, 0, t⟩

/-- Drops `n` columns of blanks, or as many as there are. -/
def drop (n : Nat) (c : Cursor) : Cursor :=
  if n ≤ c.pad then { c with pad := c.pad - n }
  else dropBlanks (n - c.pad) c.before c.column c.text

/-- Drops `n` columns of blanks, where tabs are as wide as they would be if the text started at
`column`. -/
def dropFrom (column n : Nat) (c : Cursor) : Cursor :=
  let r := dropBlanks n c.before column c.text
  { r with column := columnAfter c.column (c.text.take (c.text.length - r.text.length)) }

/-- Drops a mark of `n` atoms, none of them a blank, and the blanks before it. -/
def dropMark (n : Nat) (c : Cursor) : Cursor :=
  let t := c.skip.text
  ⟨((t.take n).getLast?.map Atom.toChar).getD c.before, c.skip.column + n, 0, t.drop n⟩

/-- The end of the line: nothing is left but the line end. -/
def toEnd (c : Cursor) : Cursor := ⟨' ', 0, 0, c.text.dropWhile (· ≠ .char '\n')⟩

/-- Is nothing left but white space? -/
def isBlank (c : Cursor) : Bool := Chars.isBlank c.text

/-- The text, with the blanks that a tab left behind. -/
def toText (c : Cursor) : Chars := List.replicate c.pad (.char ' ') ++ c.text

/-! ## What is left is never longer -/

theorem blanks_length (column : Nat) (t : Chars) : (blanks column t).2.length ≤ t.length := by
  fun_induction blanks column t with
  | case1 _ _ _ ih | case2 _ _ _ ih => exact Nat.le_succ_of_le ih
  | case3 => exact Nat.le_refl _

/-- Skipping blanks leaves no more. -/
theorem skip_length (c : Cursor) : c.skip.text.length ≤ c.text.length := blanks_length ..

/-- Without a tab, blanks are the spaces at the front. -/
theorem blanks_of_dropWhile {column : Nat} {t : Chars} {a : Atom} {rest : Chars}
    (h : t.dropWhile (· = .char ' ') = a :: rest) (ha : a ≠ .char '\t') :
    (blanks column t).2 = a :: rest := by
  fun_induction blanks column t with
  | case1 _ _ _ ih => exact ih (by simpa using h)
  | case2 =>
    rw [List.dropWhile_cons_of_neg (by decide)] at h
    cases h
    exact absurd rfl ha
  | case3 column t hs _ =>
    cases t with
    | nil => cases h
    | cons b u =>
      have hb : b ≠ .char ' ' := fun e => hs u (by rw [e])
      rwa [List.dropWhile_cons_of_neg (by simpa using hb)] at h

/-- Where only spaces make up the indentation, it does not matter which blanks are skipped. -/
theorem skip_text_of_pastSpaces {c : Cursor} {a : Atom} {rest : Chars}
    (h : c.pastSpaces = a :: rest) (ha : a ≠ .char '\t') : c.skip.text = a :: rest :=
  blanks_of_dropWhile h ha

theorem dropBlanks_length (n : Nat) (before : Char) (column : Nat) (t : Chars) :
    (dropBlanks n before column t).text.length ≤ t.length := by
  fun_induction dropBlanks n before column t with
  | case1 | case3 | case6 => exact Nat.le_refl _
  | case2 _ _ _ _ _ ih | case4 _ _ _ _ _ _ ih => exact Nat.le_succ_of_le ih
  | case5 => exact Nat.le_succ _

/-- Dropping columns leaves no more. A tab may be dropped in part; the columns that it has left are
kept beside the text. -/
theorem drop_length (n : Nat) (c : Cursor) : (c.drop n).text.length ≤ c.text.length := by
  unfold drop
  split
  · exact Nat.le_refl _
  · exact dropBlanks_length ..

theorem dropFrom_length (column n : Nat) (c : Cursor) :
    (c.dropFrom column n).text.length ≤ c.text.length := dropBlanks_length ..

/-- Dropping a mark leaves less. -/
theorem dropMark_length {n : Nat} {c : Cursor} (hn : 0 < n) (hc : c.skip.text ≠ []) :
    (c.dropMark n).text.length < c.text.length := by
  have hs := skip_length c
  have := List.length_pos_iff.2 hc
  simp only [dropMark, List.length_drop]
  omega

end Cursor

end Stackling.Markdown
