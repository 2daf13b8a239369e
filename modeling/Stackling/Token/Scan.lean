import Stackling.Token
import Stackling.Text.Blank
import Stackling.Text.Letter

/-!
# Reading tokens from text

Source text alternates between gaps (blanks and `//` comments) and tokens. `splitGap` takes a gap
off the front of a text and `scanToken` takes a token off the front of a text that starts with no
gap; both return what they took and what they left, so that a text is always its pieces put
together again. Positions are not threaded through these functions: they are computed from the
text that was taken, by `Position.after`.

`Scan.ofText` repeats the two until the text ends or a piece of it is no token.
-/

namespace Stackling

/-- Why a text is no token. -/
inductive LexCause where
  | unexpectedChar (c : Char)
  | unknownOperator (op : String)
  | unterminatedString
  | badEscape (escaped : Option Char)
  deriving DecidableEq, Repr

/-- A text that is no token. -/
structure LexError where
  /-- where the text starts -/
  start : Position
  /-- where the fault lies -/
  pos : Position
  /-- what is wrong -/
  cause : LexCause
  deriving DecidableEq, Repr

namespace LexCause

/-- The message, without a position. An escape that the text cuts off shows as U+FFFD. -/
def message : LexCause → String
  | unexpectedChar c => "unexpected character " ++ Quoted.char c
  | unknownOperator op => "unknown operator " ++ Quoted.string op
  | unterminatedString => "unterminated string literal"
  | badEscape e => "invalid escape sequence \\" ++ String.singleton (e.getD Utf8.replacement)

/-- The text that stands for the failed token. -/
def lexeme : LexCause → String
  | unexpectedChar c => String.singleton c
  | unknownOperator op => op
  | unterminatedString => ""
  | badEscape _ => ""

end LexCause

/-- The token that stands for a text that is none. -/
def LexError.token (e : LexError) : Token := ⟨.unknown, e.cause.lexeme, e.start⟩

namespace Scan

/-! ## Character classes -/

/-- May a word start with `c`? -/
def isWordStart (c : Char) : Bool := Text.isLetter c || c == '_' || c == '$'

/-- May a word go on with `c`? Only ASCII digits may. -/
def isWordPart (c : Char) : Bool := isWordStart c || c.isDigit

/-- Is `c` a character that operators are made of? -/
def isOperatorChar (c : Char) : Bool := "+-*/|<>=&!".toList.contains c

/-! ## Gaps -/

/-- Takes a gap off the front of a text. Inside a comment everything up to and including the next
line end belongs to the gap. -/
def splitGap (inComment : Bool) : List Char → List Char × List Char
  | [] => ([], [])
  | c :: cs =>
    if inComment then
      let r := splitGap (c != '\n') cs
      (c :: r.1, r.2)
    else if Text.isBlank c then
      let r := splitGap false cs
      (c :: r.1, r.2)
    else if c == '/' && cs.head? == some '/' then
      let r := splitGap true cs
      (c :: r.1, r.2)
    else ([], c :: cs)

/-- A gap is taken off the front and nothing is lost. -/
theorem splitGap_append (b : Bool) (cs : List Char) :
    (splitGap b cs).1 ++ (splitGap b cs).2 = cs := by
  induction cs generalizing b with
  | nil => rfl
  | cons c cs ih =>
    simp only [splitGap]
    split
    · simp [ih]
    · split
      · simp [ih]
      · split <;> simp [ih]

theorem splitGap_rest_length {b : Bool} {cs rest : List Char} (h : (splitGap b cs).2 = rest) :
    rest.length ≤ cs.length := by
  have := congrArg List.length (splitGap_append b cs)
  rw [List.length_append, h] at this
  omega

/-! ## Tokens -/

/-- A token taken off the front of a text. -/
structure Lexeme where
  /-- what it is -/
  kind : Kind
  /-- its lexeme -/
  text : String
  /-- the text that was taken -/
  span : List Char
  /-- the text that was left -/
  rest : List Char
  deriving DecidableEq, Repr

/-- A text that starts with no token: what is wrong, and how much text stands before the fault. -/
structure Failure where
  before : List Char
  cause : LexCause
  deriving DecidableEq, Repr

/-- The longest run of characters that satisfy `p`. -/
def scanRun (p : Char → Bool) (kind : String → Kind) (cs : List Char) : Lexeme :=
  let run := cs.takeWhile p
  let text := String.ofList run
  ⟨kind text, text, run, cs.dropWhile p⟩

/-- The longest operator at the front of `c :: cs`. -/
def scanOperator (c : Char) (cs : List Char) : Except Failure Lexeme :=
  let two :=
    match cs with
    | [] => none
    | d :: rest =>
      (Operator.ofSymbol? (String.ofList [c, d])).map fun o =>
        ⟨.operator o, o.symbol, [c, d], rest⟩
  let one := (Operator.ofSymbol? (String.singleton c)).map fun o =>
    ⟨.operator o, o.symbol, [c], cs⟩
  match two, one with
  | some l, _ => .ok l
  | none, some l => .ok l
  | none, none => .error ⟨[], .unknownOperator (String.singleton c)⟩

/-- What an escape in a string literal stands for. -/
def unescape? : Char → Option Char
  | '"' => some '"'
  | '\\' => some '\\'
  | 'n' => some '\n'
  | 't' => some '\t'
  | _ => none

/-- The inside of a string literal: its contents, the text taken (with the closing quote) and the
text left. A literal ends on the line it starts on. -/
def scanString : List Char → Except Failure (List Char × List Char × List Char)
  | [] => .error ⟨[], .unterminatedString⟩
  | c :: cs =>
    if c = '"' then .ok ([], ['"'], cs)
    else if c = '\n' then .error ⟨[], .unterminatedString⟩
    else if c = '\\' then
      match cs with
      | [] => .error ⟨[], .badEscape none⟩
      | e :: rest =>
        match unescape? e with
        | none => .error ⟨[], .badEscape (some e)⟩
        | some u =>
          match scanString rest with
          | .ok (content, span, left) => .ok (u :: content, c :: e :: span, left)
          | .error f => .error { f with before := c :: e :: f.before }
    else
      match scanString cs with
      | .ok (content, span, left) => .ok (c :: content, c :: span, left)
      | .error f => .error { f with before := c :: f.before }

/-- The token at the front of `c :: cs`. -/
def scanToken (c : Char) (cs : List Char) : Except Failure Lexeme :=
  if c.isDigit then .ok (scanRun Char.isDigit (fun _ => .number) (c :: cs))
  else if isWordStart c then .ok (scanRun isWordPart Kind.ofWord (c :: cs))
  else if c = '"' then
    match scanString cs with
    | .ok (content, span, rest) => .ok ⟨.string, String.ofList content, '"' :: span, rest⟩
    | .error f =>
      -- An unterminated literal is reported where it starts.
      match f.cause with
      | .unterminatedString => .error ⟨[], f.cause⟩
      | _ => .error ⟨'"' :: f.before, f.cause⟩
  else if isOperatorChar c then scanOperator c cs
  else match Delimiter.ofSymbol? c with
    | some d => .ok ⟨.delimiter d, String.singleton c, [c], cs⟩
    | none => .error ⟨[], .unexpectedChar c⟩

/-! ## What is taken and what is left make up the text -/

/-- A run is taken off the front and nothing is lost. -/
theorem scanRun_append (p : Char → Bool) (kind : String → Kind) (cs : List Char) :
    (scanRun p kind cs).span ++ (scanRun p kind cs).rest = cs := by
  simp [scanRun]

/-- An operator is taken off the front and is not empty. -/
theorem scanOperator_append {c : Char} {cs : List Char} {l : Lexeme}
    (h : scanOperator c cs = .ok l) : l.span ++ l.rest = c :: cs ∧ l.span ≠ [] := by
  have hne {d : Char} {ds : List Char} : d :: ds ≠ [] := List.cons_ne_nil d ds
  cases cs with
  | nil =>
    cases hone : Operator.ofSymbol? (String.singleton c) with
    | none =>
      rw [scanOperator, hone] at h
      cases h
    | some o =>
      rw [scanOperator, hone] at h
      cases h
      exact ⟨rfl, hne⟩
  | cons d rest =>
    cases htwo : Operator.ofSymbol? (String.ofList [c, d]) with
    | some o =>
      rw [scanOperator, htwo] at h
      cases h
      exact ⟨rfl, hne⟩
    | none =>
      cases hone : Operator.ofSymbol? (String.singleton c) with
      | none =>
        rw [scanOperator, htwo, hone] at h
        cases h
      | some o =>
        rw [scanOperator, htwo, hone] at h
        cases h
        exact ⟨rfl, hne⟩

/-- A literal is taken off the front, with its closing quote. The induction is that of the scanner.
-/
theorem scanString_append {cs content span rest : List Char}
    (h : scanString cs = .ok (content, span, rest)) : span ++ rest = cs := by
  fun_induction scanString cs generalizing content span rest with
  | case1 => cases h
  | case2 =>
    cases h
    rfl
  | case3 => cases h
  | case4 => cases h
  | case5 => cases h
  | case6 e cs u hu content' span' left hscan _ _ ih =>
    cases h
    rw [List.cons_append, List.cons_append, ih hscan]
  | case7 => cases h
  | case8 c cs _ _ _ content' span' left hscan ih =>
    cases h
    rw [List.cons_append, ih hscan]
  | case9 => cases h

/-- A token is taken off the front and is not empty. -/
theorem scanToken_append {c : Char} {cs : List Char} {l : Lexeme}
    (h : scanToken c cs = .ok l) : l.span ++ l.rest = c :: cs ∧ l.span ≠ [] := by
  unfold scanToken at h
  split at h
  · next hc =>
    cases h
    exact ⟨scanRun_append .., by simp [scanRun, hc]⟩
  · split at h
    · next hc =>
      cases h
      exact ⟨scanRun_append .., by simp [scanRun, isWordPart, hc]⟩
    · split at h
      · next hc =>
        split at h
        · next hs =>
          cases h
          exact ⟨by simp [scanString_append hs, hc], by simp⟩
        · split at h <;> cases h
      · split at h
        · exact scanOperator_append h
        · split at h
          · cases h; simp
          · cases h

/-- What is left behind a token is shorter, and so the scan ends. -/
theorem scanToken_rest_length {c : Char} {cs : List Char} {l : Lexeme}
    (h : scanToken c cs = .ok l) : l.rest.length < (c :: cs).length := by
  obtain ⟨happ, hne⟩ := scanToken_append h
  rw [← happ, List.length_append]
  have := List.length_pos_iff.2 hne
  omega

end Scan

/-! ## Whole texts -/

/-- The tokens of a text up to its end or to the first text that is none. -/
structure Scan where
  /-- the tokens, in order -/
  tokens : List Token
  /-- what stopped the reading: a text that is no token, or the end of input at a position -/
  stop : Except LexError Position
  deriving Repr

namespace Scan

/-- Reads tokens from `cs`, which starts at `p`. -/
def scanFrom (p : Position) (cs : List Char) : Scan :=
  match hg : (splitGap false cs).2 with
  | [] => ⟨[], .ok (p.after (splitGap false cs).1)⟩
  | c :: rest =>
    let start := p.after (splitGap false cs).1
    match hs : scanToken c rest with
    | .error f => ⟨[], .error ⟨start, start.after f.before, f.cause⟩⟩
    | .ok l =>
      have : l.rest.length < cs.length :=
        Nat.lt_of_lt_of_le (scanToken_rest_length hs) (splitGap_rest_length hg)
      let more := scanFrom (start.after l.span) l.rest
      { more with tokens := ⟨l.kind, l.text, start⟩ :: more.tokens }
termination_by cs.length

/-- Reads a whole text. -/
def ofText (cs : List Char) : Scan := scanFrom .start cs

/-- The tokens, if the whole text is made of tokens. -/
def toExcept (s : Scan) : Except LexError (List Token) :=
  s.stop.map fun _ => s.tokens

/-- The answers to `n` requests for the next token. They end with the first text that is no token;
past the last token the end of input is answered again and again. -/
def take (s : Scan) (n : Nat) : List (Except LexError Token) :=
  match s.stop with
  | .error e => (s.tokens.map Except.ok ++ [Except.error e]).take n
  | .ok p =>
    (s.tokens.map Except.ok).take n ++
      List.replicate (n - s.tokens.length) (.ok ⟨.eof, "", p⟩)

/-- The tokens and, if there is one, the text that is no token. -/
def steps (s : Scan) : List (Except LexError Token) :=
  s.tokens.map Except.ok ++
    match s.stop with
    | .error e => [.error e]
    | .ok _ => []

end Scan

/-- The tokens of a text. -/
def Token.ofText (cs : List Char) : Except LexError (List Token) := (Scan.ofText cs).toExcept

end Stackling
