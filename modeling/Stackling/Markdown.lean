import Stackling.Markdown.Inline

/-!
# The blocks of a Markdown document

A document is read into its headings and fenced code blocks, in order; paragraphs, indented code,
HTML comments and thematic breaks are recognised and dropped. Block quotes and list items hold
blocks of their own, and those appear in the same order as everything else: who looks for fences
does not care how deeply they are nested.

Reading goes line by line. `Open` says which containers are open and which block the line may still
belong to. A line first continues containers, from the outside inwards, as far as it can
(`keep`). Where it continues all of them it may go on with the open block; otherwise it starts new
blocks (`place`), except that plain text still goes on with an open paragraph.
-/

namespace Stackling.Markdown

open Utf8 (Atom)

/-- A block that a document is read for. -/
inductive Block where
  /-- a heading with its text, marks taken away -/
  | heading (text : Chars)
  /-- a fenced code block that starts on line `line`, with the lines between its fences -/
  | fence (info : Chars) (line : Nat) (content : List Chars)
  deriving Repr

/-- What a list item holds. -/
inductive Holding where
  /-- nothing after its marker so far -/
  | nothing
  /-- nothing after its marker but a blank line -/
  | blank
  | blocks
  deriving DecidableEq, Repr

/-- A list item. -/
structure Item where
  /-- the last character of its marker, which is the same throughout a list -/
  mark : Char
  /-- how far its lines are indented -/
  width : Nat
  /-- what is in it -/
  holds : Holding
  deriving Repr

/-- What holds other blocks. -/
inductive Container where
  | quote
  | item (i : Item)
  deriving Repr

/-- How a fence was opened. -/
structure Fence where
  /-- the character it is made of -/
  mark : Char
  /-- how many of them -/
  size : Nat
  /-- how many characters it is indented by -/
  indent : Nat
  /-- what is written after it -/
  info : Chars
  deriving Repr

/-- The block that the next line may belong to. -/
inductive Leaf where
  | nothing
  /-- a paragraph and its lines so far, the last one first -/
  | paragraph (lines : List Prose)
  /-- fenced code that starts on line `line` and its lines so far, the last one first -/
  | fenced (f : Fence) (line : Nat) (content : List Chars)
  /-- code that is set off by its indentation -/
  | indented
  /-- HTML that goes on up to a line that holds `ending` -/
  | html (ending : String)
  deriving Repr

/-- The open blocks between two lines, containers from the outside inwards. -/
structure Open where
  containers : List Container
  leaf : Leaf
  deriving Repr

/-- The blocks that are finished when a leaf ends. -/
def Leaf.finish : Leaf → List Block
  | fenced f line content => [.fence f.info line content.reverse]
  | _ => []

/-- Is the innermost container an item that holds nothing but a blank line? No list around it goes
on after that, save with a new item. -/
def Open.isSpent (o : Open) : Bool :=
  match o.containers.getLast? with
  | some (.item i) => i.holds = .blank
  | _ => false

/-! ## Marks at the front of a line -/

/-- The number of atoms equal to `c` at the front of a text. -/
def countFront (c : Char) (t : Chars) : Nat := (t.takeWhile (· = .char c)).length

/-- Is a text a thematic break: three or more equal marks, the first of them in front, with nothing
but white space between? -/
def isBreak (t : Chars) : Bool :=
  let marks := t.filter fun a => !Chars.isSpace a
  3 ≤ marks.length &&
    ['*', '-', '_'].any fun c => t.head? = some (.char c) && marks.all fun a => a = .char c

/-- Does a line underline a heading? Only spaces may stand before the underline. -/
def isUnderline (c : Cursor) : Bool :=
  c.indent < 4 && ['=', '-'].any fun m =>
    let n := countFront m c.pastSpaces
    n ≠ 0 && Chars.isBlank (c.pastSpaces.drop n)

/-- A heading of one to six number signs. A run of them at the end is dropped if a blank precedes
it. An indentation wider than the line is long, which a tab can make, leaves no room for it. -/
def atxHeading? (c : Cursor) : Option Block :=
  let t := c.skip.text
  let n := countFront '#' t
  let rest := t.drop n
  if c.pad + Chars.size c.text ≤ c.indent || n = 0 || 6 < n then none
  else if !rest.isEmpty && !(rest.head?.any Chars.isSpace) then none
  else
    let title := Chars.trim rest
    let stem := (title.reverse.dropWhile (· = .char '#')).reverse
    let closed := stem.isEmpty || stem.getLast?.any Chars.isSpace
    some (.heading (plainText (.ofChars '\n' (if closed then stem else title))))

/-- The fence that a line opens. What follows a fence of backticks holds none. A single byte after
the fence says nothing: it is the line end, unless the document ends there. -/
def fence? (c : Cursor) : Option Fence :=
  let t := c.skip.text
  let ofMark (m : Char) : Option Fence :=
    let n := countFront m t
    let rest := t.drop n
    let info := if Chars.size rest < 2 then [] else Chars.trim rest
    if n < 3 || (m = '\x60' && info.any (· = .char m)) then none
    else some ⟨m, n, c.offset, info⟩
  (ofMark '\x60').or (ofMark '~')

/-- Does a line close a fence? -/
def Fence.closes (f : Fence) (c : Cursor) : Bool :=
  let n := countFront f.mark c.skip.text
  c.indent < 4 && f.size ≤ n && Chars.isBlank (c.skip.text.drop n)

/-- A line of fenced code: as much indentation is dropped as the fence has. A line of blanks that
has less of it is kept. -/
def Fence.content (f : Fence) (c : Cursor) : Chars :=
  Chars.chomp <|
    if f.indent ≤ c.indent then (c.drop f.indent).toText
    else if (Chars.chomp c.skip.text).isEmpty then c.text
    else c.skip.text

/-! ## Containers -/

/-- What an opening line cuts short. -/
inductive Cut where
  /-- nothing -/
  | clean
  /-- a paragraph that the line could go on with -/
  | paragraph
  /-- a paragraph inside a container that the line does not continue -/
  | inner
  deriving DecidableEq, Repr

/-- The line after a quote mark and one blank. -/
def quote? (c : Cursor) : Option Cursor :=
  if c.indent < 4 && c.skip.text.head? = some (.char '>') then some ((c.dropMark 1).drop 1)
  else none

/-- Is an atom an ASCII digit? -/
def isDigit : Atom → Bool
  | .char c => c.isDigit
  | .stray _ => false

/-- The number that digits write. -/
def numberOf (digits : Chars) : Nat :=
  digits.foldl (fun n (a : Atom) => 10 * n + (a.toChar.toNat - '0'.toNat)) 0

/-- What starts a list item. -/
structure Marker where
  /-- its length -/
  size : Nat
  /-- its last character -/
  mark : Char
  /-- the number in it -/
  number : Option Nat
  deriving Repr

/-- The list marker that a text starts with: a bullet, or one to nine digits and a full stop or
parenthesis. A blank or the line end follows it. -/
def marker? (t : Chars) : Option Marker :=
  let digits := t.takeWhile isDigit
  let n := digits.length
  let ending := (t.drop n).head?
  let found :=
    if n = 0 then
      (['-', '+', '*'].find? fun c => ending = some (.char c)).map fun c => ⟨1, c, none⟩
    else if 9 < n then none
    else (['.', ')'].find? fun c => ending = some (.char c)).map fun c =>
      ⟨n + 1, c, some (numberOf digits)⟩
  found.filter fun m =>
    (t.drop m.size).head?.all fun a => [' ', '\t', '\n'].any fun c => a = .char c

/-- The list item that a line opens and the rest of the line. A line that could go on with a
paragraph opens an item only if the item is numbered one, or not at all, and is not empty. The gap
after the marker is measured as though the containers around the item were not there. -/
def item? (cut : Cut) (c : Cursor) : Option (Container × Cursor) :=
  if 4 ≤ c.indent || isBreak c.skip.text then none
  else
    match marker? c.pastSpaces with
    | none => none
    | some m =>
      let rest := c.dropMark m.size
      let edge := c.indent + m.size
      let blanks := (Cursor.blanks edge rest.text).1
      if cut = .paragraph && (rest.isBlank || m.number.any (· ≠ 1)) then none
      else if rest.isBlank then some (.item ⟨m.mark, edge + 1, .nothing⟩, { rest with text := [] })
      else
        let gap := if 4 < blanks then 1 else blanks
        some (.item ⟨m.mark, edge + gap, .blocks⟩, rest.dropFrom edge gap)

/-- The container that a line opens and the rest of the line. -/
def container? (cut : Cut) (c : Cursor) : Option (Container × Cursor) :=
  match quote? c with
  | some rest => some (.quote, rest)
  | none => item? cut c

/-- What is quoted is shorter than the line. -/
theorem quote?_length {c rest : Cursor} (h : quote? c = some rest) :
    rest.text.length < c.text.length := by
  unfold quote? at h
  split at h
  · next hq =>
    cases h
    have hne : c.skip.text ≠ [] := by
      intro he
      simp [he] at hq
    exact Nat.lt_of_le_of_lt (Cursor.drop_length ..) (Cursor.dropMark_length (by decide) hne)
  · cases h

theorem marker?_pos {t : Chars} {m : Marker} (h : marker? t = some m) : 0 < m.size := by
  have h := (Option.filter_eq_some_iff.1 h).1
  split at h
  · obtain ⟨_, _, rfl⟩ := Option.map_eq_some_iff.1 h
    exact Nat.one_pos
  · split at h
    · cases h
    · obtain ⟨_, _, rfl⟩ := Option.map_eq_some_iff.1 h
      exact Nat.succ_pos _

/-- A marker of a list is something, and starts with no tab. -/
theorem marker?_cons {t : Chars} {m : Marker} (h : marker? t = some m) :
    ∃ a rest, t = a :: rest ∧ a ≠ .char '\t' := by
  cases t with
  | nil => simp [marker?] at h
  | cons a rest =>
    refine ⟨a, rest, rfl, ?_⟩
    rintro rfl
    simp [marker?, isDigit] at h

/-- What is in an item of a list is shorter than the line. -/
theorem item?_length {cut : Cut} {c : Cursor} {r : Container × Cursor} (h : item? cut c = some r) :
    r.2.text.length < c.text.length := by
  unfold item? at h
  split at h
  · cases h
  · split at h
    · cases h
    · next m hm =>
      obtain ⟨a, rest, hp, ha⟩ := marker?_cons hm
      have hne : c.skip.text ≠ [] := by
        rw [Cursor.skip_text_of_pastSpaces hp ha]
        exact List.cons_ne_nil a rest
      have hlt := Cursor.dropMark_length (marker?_pos hm) hne
      dsimp only at h hlt
      split at h
      · cases h
      · split at h
        · cases h
          exact Nat.lt_of_le_of_lt (Nat.zero_le _) hlt
        · cases h
          exact Nat.lt_of_le_of_lt (Cursor.dropFrom_length ..) hlt

/-- What is in a container is shorter than the line, and so there are finitely many in it. -/
theorem container?_length {cut : Cut} {c : Cursor} {r : Container × Cursor}
    (h : container? cut c = some r) : r.2.text.length < c.text.length := by
  unfold container? at h
  split at h
  · next hq =>
    cases h
    exact quote?_length hq
  · exact item?_length h

/-- Does an open item go on with a line that is not blank? The line is indented as far as the item,
and no item is `spent`. An item that is still empty does not take in a marker of another kind of
list or a thematic break, unless it is indented like code. -/
def Item.goesOn (i : Item) (spent : Bool) (c : Cursor) : Bool :=
  let takes :=
    match marker? c.pastSpaces with
    | some m => m.mark = i.mark && !isBreak c.skip.text
    | none => true
  i.width ≤ c.indent && !spent && (i.holds = .blocks || 4 ≤ c.indent || takes)

/-- Continues containers as far as a line does. Gives those that go on, the rest of the line and
whether all of them do. -/
def keep (spent : Bool) : List Container → Cursor → List Container × Cursor × Bool
  | [], c => ([], c, true)
  | .quote :: inner, c =>
    match quote? c with
    | some rest =>
      let r := keep spent inner rest
      (.quote :: r.1, r.2)
    | none => ([], c, false)
  | .item i :: inner, c =>
    if c.isBlank then
      let r := keep spent inner c.toEnd
      (.item (if i.holds = .nothing then { i with holds := .blank } else i) :: r.1, r.2)
    else if i.goesOn spent c then
      let r := keep spent inner (c.drop i.width)
      (.item { i with holds := .blocks } :: r.1, r.2)
    else ([], c, false)

/-! ## Leaves -/

/-- What a line that opens no container opens: finished blocks and the block to go on with. Nothing
if the line is plain text. -/
def leaf? (number : Nat) (cut : Cut) (c : Cursor) : Option (List Block × Leaf) :=
  if 4 ≤ c.indent then
    if cut = .clean then some ([], .indented) else none
  else if isBreak c.skip.text then some ([], .nothing)
  else match atxHeading? c with
    | some b => some ([b], .nothing)
    | none =>
      match fence? c with
      | some f => some ([], .fenced f number [])
      | none => (htmlOpening? c.pastSpaces).map fun (_, ending) =>
          ([], if Chars.contains c.text ending then .nothing else .html ending)

/-- Opens the blocks of the rest of a line inside the containers `outer`. -/
def place (number : Nat) (outer : List Container) (c : Cursor) : List Block × Open :=
  if c.isBlank then ([], ⟨outer, .nothing⟩)
  else
    match h : container? .clean c with
    | some (k, rest) =>
      have : rest.text.length < c.text.length := container?_length h
      place number (outer ++ [k]) rest
    | none =>
      match leaf? number .clean c with
      | some (bs, l) => (bs, ⟨outer, l⟩)
      | none => ([], ⟨outer, .paragraph [.ofChars '\n' (Chars.trimLeft c.text)]⟩)
termination_by c.text.length

/-- Opens the blocks of a line that would cut a paragraph short. Nothing if the line goes on with
the paragraph. -/
def interrupt? (number : Nat) (cut : Cut) (outer : List Container) (c : Cursor) :
    Option (List Block × Open) :=
  match container? cut c with
  | some (k, rest) => some (place number (outer ++ [k]) rest)
  | none => (leaf? number cut c).map fun r => (r.1, ⟨outer, r.2⟩)

/-! ## Lines -/

/-- The heading that an underline makes of a paragraph, from its lines, the last one first. -/
def underlined (lines : List Prose) : Block :=
  .heading (plainText (Prose.trimRight lines.reverse.flatten))

/-- Reads one line: the blocks that are finished with it and what is open after it. Where the
document ends in the middle of a line, the marks of containers may be all there is on it; fenced
code then has no such line. -/
def step (o : Open) (number : Nat) (t : Chars) : List Block × Open :=
  let (kept, c, all) := keep o.isSpent o.containers (.ofLine t)
  match o.leaf with
  | .paragraph lines =>
    if c.isBlank then ([], ⟨kept, .nothing⟩)
    else if all && isUnderline c then ([underlined lines], ⟨kept, .nothing⟩)
    else
      match interrupt? number (if all then .paragraph else .inner) kept c with
      | some r => r
      | none => ([], ⟨if all then kept else o.containers, .paragraph (.ofCursor c :: lines)⟩)
  | leaf =>
    let opened :=
      let r := place number kept c
      (leaf.finish ++ r.1, r.2)
    if !all then opened
    else
      match leaf with
      | .fenced f start content =>
        if c.text.isEmpty then ([], ⟨kept, leaf⟩)
        else if f.closes c then (leaf.finish, ⟨kept, .nothing⟩)
        else ([], ⟨kept, .fenced f start (f.content c :: content)⟩)
      | .html ending =>
        ([], ⟨kept, if Chars.contains c.text ending then .nothing else .html ending⟩)
      | .indented =>
        if c.isBlank || 4 ≤ c.indent then ([], ⟨kept, .indented⟩) else opened
      | _ => opened

/-- Reads lines, the first of them numbered `number`. -/
def blocksFrom (o : Open) (number : Nat) : List Chars → List Block
  | [] => o.leaf.finish
  | t :: rest =>
    let r := step o number t
    r.1 ++ blocksFrom r.2 (number + 1) rest

/-- The headings and fences of a document. -/
def blocks (document : Bytes) : List Block :=
  blocksFrom ⟨[], .nothing⟩ 1 (Chars.lines (Utf8.split document))

end Stackling.Markdown
