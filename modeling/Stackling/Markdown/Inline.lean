import Stackling.Markdown.Cursor
import Stackling.Text.Blank
import Stackling.Text.Punctuation

/-!
# The text of a heading

A heading may hold code spans, emphasis and HTML. `plainText` gives what is left when HTML and the
marks of the others are taken away: the backticks around a code span, and the asterisks and
underscores that pair up. Marks that pair up with nothing are text, and so is a backslash, with
whatever it shields.

The text is first cut into pieces, where a run of emphasis marks is a piece that knows whether it
may open or close emphasis; then every closing run is paired with the nearest run that can open
it. What a run may do depends on the characters around it in the document, so the text is read as
`Prose`, in which every atom comes with the character in front of it.
-/

namespace Stackling.Markdown

open Utf8 (Atom)

/-! ## Prose -/

/-- An atom and the character in front of it in the document. -/
structure Glyph where
  before : Char
  atom : Atom
  deriving Repr

/-- A text that is read for its marks. -/
abbrev Prose := List Glyph

namespace Prose

/-- The character that the atom after `a` has in front of it. A byte that could only go on with a
character is none itself. -/
def behind (before : Char) : Atom → Char
  | .char c => c
  | .stray b => if 0x80 ≤ b && b < 0xC0 then before else Utf8.replacement

/-- A text that has the character `before` in front. -/
def ofChars (before : Char) : Chars → Prose
  | [] => []
  | a :: rest => ⟨before, a⟩ :: ofChars (behind before a) rest

/-- A text without its white space in front, as a line of a paragraph. -/
def ofCursor (c : Cursor) : Prose :=
  let t := Chars.trimLeft c.text
  ofChars (if t.length = c.text.length then c.before else ' ') t

/-- A prose text without the white space at the end. -/
def trimRight (t : Prose) : Prose :=
  (t.reverse.dropWhile fun g => Chars.isSpace g.atom).reverse

/-- The atoms of a text. -/
def atoms (t : Prose) : Chars := t.map (·.atom)

/-- Does a text start with a string? -/
def startsWith (t : Prose) (s : String) : Bool := atoms (t.take s.length) == Chars.ofString s

/-- What follows the first occurrence of a string. -/
def after? (s : String) : Prose → Option Prose
  | [] => none
  | g :: rest =>
    if startsWith (g :: rest) s then some ((g :: rest).drop s.length) else after? s rest

theorem after?_length {s : String} {t r : Prose} (h : after? s t = some r) :
    r.length ≤ t.length := by
  induction t with
  | nil => cases h
  | cons g rest ih =>
    unfold after? at h
    split at h
    · cases h
      simp only [List.length_drop]
      omega
    · exact Nat.le_succ_of_le (ih h)

end Prose

/-! ## Pieces -/

/-- A run of emphasis marks. -/
structure Run where
  /-- the mark -/
  mark : Char
  /-- how many marks the run was written with -/
  size : Nat
  /-- how many of them have not been paired yet -/
  left : Nat
  /-- may the run open emphasis? -/
  opens : Bool
  /-- may the run close emphasis? -/
  closes : Bool
  deriving Repr

/-- A piece of a heading. -/
inductive Piece where
  | text (t : Chars)
  | run (r : Run)
  deriving Repr

/-- The text that a piece leaves. -/
def Piece.toText : Piece → Chars
  | text t => t
  | run r => List.replicate r.left (.char r.mark)

/-- A run of `size` marks between two characters. A run opens if text follows it closely and closes
if text comes closely before it; an underscore inside a word does neither. -/
def Run.between (mark : Char) (size : Nat) (before after : Char) : Run :=
  let spaceBefore := Text.isBlank before
  let spaceAfter := Text.isBlank after
  let punctBefore := Text.isPunctuation before
  let punctAfter := Text.isPunctuation after
  let left := !spaceAfter && (!punctAfter || spaceBefore || punctBefore)
  let right := !spaceBefore && (!punctBefore || spaceAfter || punctAfter)
  if mark = '_' then
    ⟨mark, size, size, left && (!right || punctBefore), right && (!left || punctAfter)⟩
  else ⟨mark, size, size, left, right⟩

/-- Looks for the run of exactly `n` backticks that ends a code span; gives the text before and
after it. `ticks` counts the backticks just read and `seen` holds the text read, last atom first. -/
def closeCode? (n ticks : Nat) (seen : Chars) : Prose → Option (Chars × Prose)
  | [] => if ticks = n then some ((seen.drop n).reverse, []) else none
  | g :: rest =>
    if g.atom = .char '\x60' then closeCode? n (ticks + 1) (g.atom :: seen) rest
    else if ticks = n then some ((seen.drop n).reverse, g :: rest)
    else closeCode? n 0 (g.atom :: seen) rest

/-- The text of a code span. One blank is taken off each end if there is one on both, unless the
whole span is blank. -/
def codeText (t : Chars) : Chars :=
  let edge (a : Option Atom) : Bool := a = some (.char ' ') || a = some (.char '\n')
  if !Chars.isBlank t && edge t.head? && edge t.getLast? then t.tail.dropLast else t

/-- The HTML that a text opens, up to what ends it: a comment, a processing instruction, a
declaration or a CDATA section. The number is the length of the opening mark that the ending cannot
share. -/
def htmlOpening? (t : Chars) : Option (Nat × String) :=
  if Chars.startsWith t "<!--" then some (4, "-->")
  else if Chars.startsWith t "<?" then some (1, "?>")
  else if Chars.startsWith t "<!" && (t.drop 2).head?.any isCapital then some (1, ">")
  else if Chars.startsWith t "<![CDATA[" then some (1, "]]>")
  else none
where
  /-- Is an atom a capital ASCII letter? -/
  isCapital : Atom → Bool
    | .char c => c.isUpper
    | .stray _ => false

/-- What follows the HTML that a text starts with. A comment may also end in its own opening
mark. -/
def afterHtml? (t : Prose) : Option Prose :=
  if t.startsWith "<!-->" then some (t.drop 5)
  else if t.startsWith "<!--->" then some (t.drop 6)
  else match htmlOpening? (Prose.atoms (t.take 9)) with
    | some (n, ending) => Prose.after? ending (t.drop n)
    | none => none

/-- What a mark in front of `rest`, which starts a text, makes of it: the pieces that it stands for
and the text after them. Nothing if it is no mark. -/
def span? (g : Glyph) (rest : Prose) : Option (List Piece × Prose) :=
  let more := rest.takeWhile fun h => h.atom = g.atom
  let after := rest.dropWhile fun h => h.atom = g.atom
  if g.atom = .char '\x60' then
    match closeCode? (more.length + 1) 0 [] after with
    | some (code, left) => some ([.text (codeText code)], left)
    | none => some ([.text (g.atom :: Prose.atoms more)], after)
  else if g.atom = .char '*' || g.atom = .char '_' then
    let next := (after.head?.map fun h => h.atom.toChar).getD ' '
    some ([.run (.between g.atom.toChar (more.length + 1) g.before next)], after)
  else if g.atom = .char '<' then (afterHtml? (g :: rest)).map fun left => ([], left)
  else none

/-- The end of a line at the front of a text: whether a backslash asks for a break there, and the
text of the next line. A backslash that follows another does not ask for it. -/
def lineEnd? : Prose → Option (Bool × Prose)
  | [] => none
  | g :: rest =>
    let t : Prose := g :: rest
    let asks := g.before ≠ '\\'
    if g.atom = .char '\n' then some (false, rest)
    else if Prose.startsWith t "  \n" then some (false, t.drop 3)
    else if Prose.startsWith t "  \r\n" then some (false, t.drop 4)
    else if asks && Prose.startsWith t "\\\n" then some (true, t.drop 2)
    else if asks && Prose.startsWith t "\\\r\n" then some (true, t.drop 3)
    else none

/-- What is left behind a span of code is no longer. -/
theorem closeCode?_length {n ticks : Nat} {seen : Chars} {t : Prose} {r : Chars × Prose}
    (h : closeCode? n ticks seen t = some r) : r.2.length ≤ t.length := by
  fun_induction closeCode? n ticks seen t with
  | case1 | case4 => cases h; exact Nat.le_refl _
  | case2 => cases h
  | case3 _ _ _ _ _ ih => exact Nat.le_succ_of_le (ih h)
  | case5 _ _ _ _ _ _ ih => exact Nat.le_succ_of_le (ih h)

theorem htmlOpening?_pos {t : Chars} {r : Nat × String} (h : htmlOpening? t = some r) :
    0 < r.1 := by
  unfold htmlOpening? at h
  repeat' split at h
  all_goals cases h
  all_goals decide

/-- What is left behind a tag is shorter. -/
theorem afterHtml?_length {t r : Prose} (h : afterHtml? t = some r) (ht : t ≠ []) :
    r.length < t.length := by
  have := List.length_pos_iff.2 ht
  unfold afterHtml? at h
  split at h
  · cases h
    simp only [List.length_drop]
    omega
  · split at h
    · cases h
      simp only [List.length_drop]
      omega
    · split at h
      · next n ending ho =>
        have hn := htmlOpening?_pos ho
        have hr := Prose.after?_length h
        simp only [List.length_drop] at hn hr
        omega
      · cases h

/-- What is left behind a span is no longer. -/
theorem span?_length {g : Glyph} {rest : Prose} {r : List Piece × Prose}
    (h : span? g rest = some r) : r.2.length ≤ rest.length := by
  have hd := (List.dropWhile_suffix (l := rest) fun h : Glyph => h.atom = g.atom).length_le
  unfold span? at h
  extract_lets more after at h
  split at h
  · split at h
    · next hc =>
      cases h
      exact Nat.le_trans (closeCode?_length hc) hd
    · cases h
      exact hd
  · split at h
    · cases h
      exact hd
    · split at h
      · obtain ⟨left, hl, rfl⟩ := Option.map_eq_some_iff.1 h
        exact Nat.le_of_lt_succ (afterHtml?_length hl (List.cons_ne_nil g rest))
      · cases h

/-- What is left behind a line end is shorter. -/
theorem lineEnd?_length {t : Prose} {r : Bool × Prose} (h : lineEnd? t = some r) :
    r.2.length < t.length := by
  cases t with
  | nil => cases h
  | cons g rest =>
    simp only [lineEnd?] at h
    repeat' split at h
    all_goals cases h
    all_goals simp only [List.length_drop, List.length_cons]
    all_goals omega

/-- Cuts a text into pieces. `seen` is the plain text just read, last atom first. A backslash
shields the character after it (`shielded`), also across the end of a line, but not a mark that
stands right at the start of a line or after another mark (`fresh`). White space at the end of a
line goes with the line end, unless a backslash there asks for the break. -/
def pieces (shielded fresh : Bool) (seen : Chars) (t : Prose) : List Piece :=
  match h : lineEnd? t with
  | some (asked, next) =>
    have : next.length < t.length := lineEnd?_length h
    .text (if asked then seen.reverse else Chars.trimRight seen.reverse) ::
      pieces shielded true [] next
  | none =>
    match t with
    | [] => [.text (Chars.trimRight seen.reverse)]
    | g :: rest =>
      match hs : if shielded && !fresh then none else span? g rest with
      | some (found, left) =>
        have : left.length ≤ rest.length := by
          split at hs
          · cases hs
          · exact span?_length hs
        .text seen.reverse :: found ++ pieces shielded true [] left
      | none => pieces (!shielded && g.atom = .char '\\') false (g.atom :: seen) rest
termination_by t.length

/-! ## Pairing -/

/-- How many marks a closing run pairs with an opening one, if they pair at all. A run that may both
open and close pairs with another only if their sizes do not add up to a multiple of three, or both
are one. -/
def Run.pairing? (opener closer : Run) : Option Nat :=
  if opener.mark ≠ closer.mark || !opener.opens || opener.left = 0 then none
  else if (opener.closes || closer.opens) && (opener.size + closer.size) % 3 = 0 &&
      closer.size % 3 ≠ 0 then none
  else if 2 ≤ opener.left && 2 ≤ closer.left then some 2
  else some 1

/-- Pairs a closing run with the nearest piece that can open it; the pieces come last first. Runs
that stand between the two lose their meaning. Gives the number of marks that were paired. -/
def pair? (closer : Run) : List Piece → Option (Nat × List Piece)
  | [] => none
  | .text t :: below => (pair? closer below).map fun r => (r.1, .text t :: r.2)
  | .run opener :: below =>
    match opener.pairing? closer with
    | some n => some (n, .run { opener with left := opener.left - n } :: below)
    | none => (pair? closer below).map fun r => (r.1, .run { opener with opens := false } :: r.2)

/-- Adds a run to the pieces before it, pairing as many of its marks as can be. Each pairing uses up
one of its marks at least, so `fuel` need only be their number. -/
def addRun (fuel : Nat) (r : Run) (pieces : List Piece) : List Piece :=
  match fuel with
  | 0 => .run r :: pieces
  | fuel + 1 =>
    if r.closes && r.left ≠ 0 then
      match pair? r pieces with
      | some (n, rest) => addRun fuel { r with left := r.left - n } rest
      | none => .run r :: pieces
    else .run r :: pieces

/-- Adds a piece to the pieces before it. -/
def addPiece (pieces : List Piece) : Piece → List Piece
  | .text t => .text t :: pieces
  | .run r => addRun r.left r pieces

/-- The text of a heading without HTML and the marks of code spans and emphasis. -/
def plainText (t : Prose) : Chars :=
  ((pieces false true [] t).foldl addPiece []).reverse.flatMap Piece.toText

end Stackling.Markdown
