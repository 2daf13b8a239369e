import Stackling.Proofs.Text.Utf8
import Stackling.Proofs.Token.Separation

/-!
# Writing tokens

Every list of tokens has texts from which it is read. An `Item` is a token without a place, made of
nothing but what decides its text; a `Separator` is what can stand between two of them. `write` puts
a list of items in a row with a separator between any two neighbours. Whatever the separators are,
and however the tabs in the string literals are written, what is read from the text is the items
again (`Token.ofText_write`).

Without separators this would fail in many ways: a number and a word behind a word become one word,
`=` and `=` become `==`, and two divisions start a comment.
-/

namespace Stackling

namespace Scan

/-! ## What is written -/

/-- A character between quotes. Quotes, backslashes and line ends have to be escaped, and tabs may
be. -/
def escapeChar (escapeTab : Bool) (c : Char) : List Char :=
  if c = '"' then ['\\', '"']
  else if c = '\\' then ['\\', '\\']
  else if c = '\n' then ['\\', 'n']
  else if c = '\t' ∧ escapeTab then ['\\', 't']
  else [c]

/-- A text between quotes. If the character number `i` is a tab, `tabs i` says whether it is
escaped. -/
def escape (tabs : Nat → Bool) : List Char → List Char
  | [] => []
  | c :: cs => escapeChar (tabs 0) c ++ escape (fun i => tabs (i + 1)) cs

/-- A token to be written. -/
inductive Item where
  | number (digits : List Char) (hne : digits ≠ []) (hd : ∀ c ∈ digits, c.isDigit = true)
  | word (first : Char) (rest : List Char) (hf : isWordStart first = true)
      (hr : ∀ c ∈ rest, isWordPart c = true)
  | operator (o : Operator)
  | delimiter (d : Delimiter)
  | string (content : List Char) (tabs : Nat → Bool)

namespace Item

/-- The kind and the lexeme of the token. -/
def content : Item → Kind × String
  | number digits _ _ => (.number, String.ofList digits)
  | word first rest _ _ =>
    let text := String.ofList (first :: rest)
    (Kind.ofWord text, text)
  | operator o => (.operator o, o.symbol)
  | delimiter d => (.delimiter d, String.singleton d.symbol)
  | string content _ => (.string, String.ofList content)

/-- The text that is written. -/
def text : Item → List Char
  | number digits _ _ => digits
  | word first rest _ _ => first :: rest
  | operator o => o.symbol.toList
  | delimiter d => [d.symbol]
  | string content tabs => '"' :: (escape tabs content ++ ['"'])

end Item

/-- What can stand between two tokens: some blanks, and behind them perhaps a comment. -/
structure Separator where
  blanks : List Char
  ne_nil : blanks ≠ []
  isBlank : ∀ c ∈ blanks, Text.isBlank c = true
  /-- the text of the comment up to the line end that closes it -/
  comment : Option { body : List Char // '\n' ∉ body }

/-- The text of a comment with the line end that closes it. -/
def commentText (body : List Char) : List Char := '/' :: '/' :: (body ++ ['\n'])

def Separator.text (s : Separator) : List Char :=
  s.blanks ++ (s.comment.elim [] fun body => commentText body)

/-- The items in a row, the separator number `i` behind the item number `i` if another follows. -/
def write : List Item → (Nat → Separator) → List Char
  | [], _ => []
  | [item], _ => item.text
  | item :: next :: items, seps =>
    item.text ++ ((seps 0).text ++ write (next :: items) fun i => seps (i + 1))

/-! ## How it is read -/

theorem escaped_escapeChar (escapeTab : Bool) (c : Char) {body content : List Char}
    (h : Escaped body content) : Escaped (escapeChar escapeTab c ++ body) (c :: content) := by
  unfold escapeChar
  split
  · next hq => exact hq ▸ .quote h
  split
  · next hb => exact hb ▸ .backslash h
  split
  · next hn => exact hn ▸ .newline h
  split
  · next ht => exact ht.1 ▸ .tab h
  · next hq hb hn _ => exact .plain hq hb hn h

theorem escaped_escape (tabs : Nat → Bool) (content : List Char) :
    Escaped (escape tabs content) content := by
  induction content generalizing tabs with
  | nil => exact .nil
  | cons c content ih => exact escaped_escapeChar (tabs 0) c (ih _)

/-- An item is spelled by its text in front of everything that separates. -/
theorem Item.spelled (item : Item) {after : List Char} (h : Separated after) :
    Spelled after item.text item.content.1 item.content.2 := by
  have hends {p : Char → Bool} : Ends p [] := nofun
  suffices halone : Spelled [] item.text item.content.1 item.content.2 from
    halone.mono fun c hc => .inr (h c hc)
  cases item with
  | number digits hne hd => exact .number hne ⟨hd, hends⟩
  | word first rest hf hr =>
    have hstart : isWordPart first = true := Bool.or_eq_true_iff.mpr (.inl hf)
    have hinside : ∀ c ∈ first :: rest, isWordPart c = true :=
      List.forall_mem_cons.mpr ⟨hstart, hr⟩
    exact IsWord.spelled ⟨⟨hinside, hends⟩, first, rfl, hf⟩
  | operator o =>
    have hs : Spelled [] o.symbol.toList (.operator o) (String.ofList o.symbol.toList) :=
      .operator String.ofList_toList.symm nofun nofun
    rwa [String.ofList_toList] at hs
  | delimiter d => exact .delimiter rfl
  | string content tabs => exact .string (escaped_escape tabs content)

/-- A separator is a gap in front of everything. -/
theorem Separator.gap (s : Separator) (after : List Char) : Gap after s.text := by
  refine gap_blanks s.isBlank ?_
  cases s.comment with
  | none => exact .nil
  | some body => exact .comment body.property .nil

theorem Separator.separated (s : Separator) (after : List Char) : Separated (s.text ++ after) := by
  intro c hc
  obtain ⟨d, blanks, hs⟩ := List.exists_cons_of_ne_nil s.ne_nil
  rw [Separator.text, hs] at hc
  obtain rfl : d = c := Option.some.inj hc
  exact separates_of_isBlank (s.isBlank d (hs ▸ List.mem_cons_self))

/-- The items are read from their text, wherever it starts. -/
theorem readsAs_write (items : List Item) (seps : Nat → Separator) :
    ReadsAs (write items seps) (items.map Item.content) := by
  fun_induction write items seps with
  | case1 seps => exact readsAs_nil
  | case2 item seps =>
    intro p
    have halone : Separated [] := nofun
    obtain ⟨ts, stop, hend, hts⟩ := readsAs_nil (p.after item.text)
    have hread := scanFrom_spelled (item.spelled halone) p
    rw [List.append_nil, hend] at hread
    exact ⟨_, _, hread, congrArg (item.content :: ·) hts⟩
  | case3 item next items seps ih =>
    intro p
    have hsep := (seps 0).separated (write (next :: items) fun i => seps (i + 1))
    have hread := scanFrom_spelled (item.spelled hsep) p
    obtain ⟨ts, stop, hmore, hts⟩ := ih ((p.after item.text).after (seps 0).text)
    rw [scanFrom_gap ((seps 0).gap _), hmore] at hread
    exact ⟨_, _, hread, congrArg (item.content :: ·) hts⟩

/-- The bytes of a text are read as the text is. -/
theorem ReadsAs.exists_ofText {cs : List Char} {contents : List (Kind × String)}
    (h : ReadsAs cs contents) : ∃ ts, Token.ofText (Utf8.decode (Utf8.encode cs)) = .ok ts ∧
      ts.map Token.content = contents := by
  obtain ⟨ts, stop, hread, hts⟩ := h .start
  rw [Utf8.decode_encoded]
  exact ⟨ts, ofText_eq_ok hread, hts⟩

end Scan

/-- **Every list of tokens can be written.** Whatever separates the items, the tokens that are read
from their text have the kinds and the lexemes of the items, in the same order. -/
theorem Token.ofText_write (items : List Scan.Item) (seps : Nat → Scan.Separator) :
    ∃ ts, Token.ofText (Utf8.decode (Utf8.encode (Scan.write items seps))) = .ok ts ∧
      ts.map Token.content = items.map Scan.Item.content :=
  (Scan.readsAs_write items seps).exists_ofText

end Stackling
