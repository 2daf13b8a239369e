import Stackling.Datum
import Stackling.Text.Blank
import Stackling.Text.Digit
import Stackling.Text.Letter
import Stackling.Text.Quoted

/-!
# Reading data

A datum is read in two steps. `Scan.ofText` cuts the text into marks: brackets and whole atoms, with
blanks and `;` comments between them. `Datum.fromScan` then puts the marks together with a stack of
the lists that are still open, so that reading is one pass over the marks and needs no recursion
into the data. A fault of the text is met only when the reading gets there, so whichever fault
stands first is the one reported.
-/

namespace Stackling.Datum

/-! ## Marks -/

/-- The two pairs of brackets. -/
inductive Bracket where
  | round
  | square
  deriving DecidableEq, Repr

/-- The datum that a pair of brackets makes of its items. -/
def Bracket.wrap : Bracket → List Datum → Datum
  | round, xs => .list xs
  | square, xs => .array xs

/-- A piece of text that stands on its own. -/
inductive Mark where
  | atom (d : Datum)
  | opening (b : Bracket)
  | closing (b : Bracket)
  deriving Repr

/-- The name of a closing bracket in a message. -/
def Bracket.closingName : Bracket → String
  | round => "')'"
  | square => "']'"

/-- The name of a mark in a message. -/
def Mark.name : Mark → String
  | atom .ellipsis => "'...'"
  | atom d => d.shape.name
  | opening .round => "'('"
  | opening .square => "'['"
  | closing b => b.closingName

/-- The bracket that a character is. -/
def bracket? : Char → Option Mark
  | '(' => some (.opening .round)
  | ')' => some (.closing .round)
  | '[' => some (.opening .square)
  | ']' => some (.closing .square)
  | _ => none

/-! ## Faults -/

/-- Why a text is no datum. -/
inductive ReadCause where
  | unexpectedChar (c : Char)
  | unterminatedString
  | badEscape (escaped : Option Char)
  | misplaced (m : Mark)
  | missing
  | unclosed (b : Bracket)
  | trailing (m : Mark)
  deriving Repr

/-- A fault and the line it is on. -/
structure ReadError where
  line : Nat
  cause : ReadCause
  deriving Repr

/-- The message without its line. An escape that the text cuts off shows as U+0000. -/
def ReadCause.message : ReadCause → String
  | unexpectedChar c => "unexpected character " ++ Quoted.char c
  | unterminatedString => "unterminated string"
  | badEscape e => "invalid escape sequence: \\" ++ String.singleton (e.getD '\x00')
  | misplaced m => "unexpected " ++ m.name
  | missing => "unexpected end of input"
  | unclosed b => "expected " ++ b.closingName ++ ", found end of input"
  | trailing m => "expected end of input, found " ++ m.name

/-- The message. -/
def ReadError.message (e : ReadError) : String :=
  "line " ++ toString e.line ++ ": " ++ e.cause.message

/-! ## From text to marks -/

namespace Scan

/-- May a symbol hold `c`? -/
def isSymbolChar (c : Char) : Bool :=
  Text.isLetter c || Text.isDecimalDigit c || "-_+*/<>=!&|?".toList.contains c

/-- Does an integer start with `c`, when `next` follows? A sign needs a digit after it. -/
def startsInteger (c : Char) (next : Option Char) : Bool :=
  Text.isDecimalDigit c || (c == '-' || c == '+') && next.any Text.isDecimalDigit

/-- Drops blanks and comments; gives the line on which the rest starts. A comment ends with its
line. -/
def skipGap (inComment : Bool) (line : Nat) : List Char → Nat × List Char
  | [] => (line, [])
  | c :: cs =>
    if c = '\n' then skipGap false (line + 1) cs
    else if inComment || Text.isBlank c then skipGap inComment line cs
    else if c = ';' then skipGap true line cs
    else (line, c :: cs)

/-- The inside of a string that starts on `line`: its contents, the line it ends on and the text
after its closing quote. -/
def scanString (line : Nat) : List Char → Except ReadError (List Char × Nat × List Char)
  | [] => .error ⟨line, .unterminatedString⟩
  | c :: cs =>
    if c = '"' then .ok ([], line, cs)
    else if c = '\\' then
      match cs with
      | [] => .error ⟨line, .badEscape none⟩
      | e :: rest =>
        if e = '"' || e = '\\' then
          (scanString line rest).map fun r => (e :: r.1, r.2)
        else .error ⟨line, .badEscape (some e)⟩
    else (scanString (if c = '\n' then line + 1 else line) cs).map fun r => (c :: r.1, r.2)

/-- The mark at the front of `c :: cs`, the line it ends on and the text after it. -/
def scanMark (line : Nat) (c : Char) (cs : List Char) :
    Except ReadError (Mark × Nat × List Char) :=
  match bracket? c with
  | some m => .ok (m, line, cs)
  | none =>
    if c = '"' then
      (scanString line cs).map fun r => (.atom (.string (String.ofList r.1)), r.2)
    else if c = '.' then
      match cs with
      | '.' :: '.' :: rest => .ok (.atom .ellipsis, line, rest)
      | _ => .error ⟨line, .unexpectedChar c⟩
    else if startsInteger c cs.head? then
      .ok (.atom (.integer (String.ofList (c :: cs.takeWhile Text.isDecimalDigit))), line,
        cs.dropWhile Text.isDecimalDigit)
    else if isSymbolChar c then
      .ok (.atom (.symbol (String.ofList (c :: cs.takeWhile isSymbolChar))), line,
        cs.dropWhile isSymbolChar)
    else .error ⟨line, .unexpectedChar c⟩

/-! ## What is left is shorter -/

/-- What is left behind a gap is no longer. -/
theorem skipGap_length (b : Bool) (line : Nat) (cs : List Char) :
    (skipGap b line cs).2.length ≤ cs.length := by
  induction cs generalizing b line with
  | nil => simp [skipGap]
  | cons c cs ih =>
    simp only [skipGap, List.length_cons]
    repeat' split
    all_goals first
      | exact Nat.le_succ_of_le (ih ..)
      | simp

/-- A mapped result is there exactly when the result is. -/
theorem exists_of_map_eq_ok {α β ε : Type} {f : α → β} {x : Except ε α} {b : β}
    (h : x.map f = .ok b) : ∃ a, x = .ok a ∧ f a = b := by
  cases x with
  | error _ => cases h
  | ok a => exact ⟨a, rfl, by simpa [Except.map] using h⟩

/-- What is left behind a string is shorter. -/
theorem scanString_length {line : Nat} {cs : List Char} {r : List Char × Nat × List Char}
    (h : scanString line cs = .ok r) : r.2.2.length < cs.length := by
  fun_induction scanString line cs generalizing r with
  | case1 | case3 | case5 => simp at h
  | case2 => cases h; simp
  | case4 _ e rest _ _ ih | case6 _ e rest _ _ ih =>
    obtain ⟨s, hs, rfl⟩ := exists_of_map_eq_ok h
    have := ih hs
    simp only [List.length_cons]
    omega

/-- What is left behind a mark is no longer. -/
theorem scanMark_length {line : Nat} {c : Char} {cs : List Char} {r : Mark × Nat × List Char}
    (h : scanMark line c cs = .ok r) : r.2.2.length ≤ cs.length := by
  unfold scanMark at h
  split at h
  · cases h; simp
  · split at h
    · obtain ⟨s, hs, rfl⟩ := exists_of_map_eq_ok h
      exact Nat.le_of_lt (scanString_length hs)
    · split at h
      · split at h
        · cases h; simp; omega
        · cases h
      · split at h
        · cases h; exact (List.dropWhile_suffix _).length_le
        · split at h
          · cases h; exact (List.dropWhile_suffix _).length_le
          · cases h

end Scan

/-- The marks of a text, each with the line it starts on, up to the end of the text or to its first
fault. -/
inductive Scan where
  | mark (line : Nat) (m : Mark) (rest : Scan)
  | done (line : Nat)
  | failed (e : ReadError)
  deriving Repr

namespace Scan

/-- The marks of a text that starts on `line`. -/
def scanFrom (line : Nat) (cs : List Char) : Scan :=
  match hg : skipGap false line cs with
  | (start, []) => .done start
  | (start, c :: rest) =>
    match hm : scanMark start c rest with
    | .error e => .failed e
    | .ok (m, next, left) =>
      have : left.length < cs.length := by
        have h := skipGap_length false line cs
        rw [hg, List.length_cons] at h
        exact Nat.lt_of_lt_of_le (Nat.lt_succ_of_le (scanMark_length hm)) h
      .mark start m (scanFrom next left)
termination_by cs.length

/-- The marks of a text. -/
def ofText (cs : List Char) : Scan := scanFrom 1 cs

end Scan

/-! ## From marks to a datum -/

/-- A list or array whose closing bracket is still to come; its items so far, the last one first. -/
structure Pending where
  bracket : Bracket
  items : List Datum
  deriving Repr

/-- The datum that an open list becomes when it is closed. -/
def Pending.close (p : Pending) : Datum := p.bracket.wrap p.items.reverse

/-- Reads marks inside the open lists `stack`, the innermost first. -/
def fromScan (stack : List Pending) : Scan → Except ReadError Datum
  | .failed e => .error e
  | .done line =>
    match stack with
    | [] => .error ⟨line, .missing⟩
    | p :: _ => .error ⟨line, .unclosed p.bracket⟩
  | .mark line m rest =>
    match m, stack with
    | .opening b, _ => fromScan (⟨b, []⟩ :: stack) rest
    | .closing b, p :: outer =>
      if p.bracket = b then
        match outer with
        | [] => atEnd p.close rest
        | q :: outer => fromScan (⟨q.bracket, p.close :: q.items⟩ :: outer) rest
      else .error ⟨line, .misplaced m⟩
    | .closing _, [] => .error ⟨line, .misplaced m⟩
    | .atom d, [] => atEnd d rest
    | .atom d, q :: outer => fromScan (⟨q.bracket, d :: q.items⟩ :: outer) rest
where
  /-- Accepts a datum if nothing follows it. -/
  atEnd (d : Datum) : Scan → Except ReadError Datum
    | .failed e => .error e
    | .done _ => .ok d
    | .mark line m _ => .error ⟨line, .trailing m⟩

/-- Reads a text that holds exactly one datum. -/
def ofText (cs : List Char) : Except ReadError Datum := fromScan [] (.ofText cs)

end Stackling.Datum
