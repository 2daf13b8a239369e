import Stackling.Proofs.Text.Utf8
import Stackling.Proofs.Token.Separation

/-!
# Reading line by line

A line end closes everything that a text leaves open: no token goes on behind it, and no comment
does. So what is read from two texts with a line end between them is what is read from the first and
then what is read from the second, only further down (`Token.ofText_lineEnd`). This holds for the
place of an error too.

Two facts carry it. The gap at the end of a text is a gap in front of anything once it has a line
end (`Gap.lineEnd`), and reading does not depend on the line at which it starts
(`scanFrom_down`).
-/

namespace Stackling

/-! ## Moving down -/

/-- The place `n` lines further down. -/
def Position.down (n : Nat) (p : Position) : Position := { p with line := p.line + n }

/-- The token `n` lines further down. -/
def Token.down (n : Nat) (t : Token) : Token := { t with pos := t.pos.down n }

/-- The error `n` lines further down. -/
def LexError.down (n : Nat) (e : LexError) : LexError :=
  { e with start := e.start.down n, pos := e.pos.down n }

theorem Position.after_down (n : Nat) (p : Position) (cs : List Char) :
    (p.down n).after cs = (p.after cs).down n := by
  induction cs generalizing p with
  | nil => rfl
  | cons c cs ih =>
    have hnext : (p.down n).next c = (p.next c).down n := by
      simp only [next, down]
      split
      · rw [Int.add_right_comm]
      · rfl
    rw [after_cons, after_cons, hnext, ih]

namespace Scan

/-- What is read, `n` lines further down. -/
def down (n : Nat) (s : Scan) : Scan where
  tokens := s.tokens.map (Token.down n)
  stop := match s.stop with
    | .ok p => .ok (p.down n)
    | .error e => .error (e.down n)

theorem scanFrom_down (n : Nat) (p : Position) (cs : List Char) :
    scanFrom (p.down n) cs = (scanFrom p cs).down n := by
  fun_induction scanFrom p cs with
  | case1 p cs hg =>
    rw [scanFrom_end _ (show splitGap false cs = (_, []) by rw [← hg]), Position.after_down]
    rfl
  | case2 p cs c rest hg start f hf =>
    rw [scanFrom_error _ (show splitGap false cs = (_, c :: rest) by rw [← hg]) hf,
      Position.after_down, Position.after_down]
    rfl
  | case3 p cs c rest hg start l hl _ more ih =>
    rw [scanFrom_token _ (show splitGap false cs = (_, c :: rest) by rw [← hg]) hl rfl,
      Position.after_down, Position.after_down, ih]
    rfl

/-! ## A line end behind a text -/

/-- A line end closes the gap at the end of a text. -/
theorem Gap.lineEnd {g : List Char} (h : Gap [] g) (after : List Char) :
    Gap after (g ++ ['\n']) := by
  induction h with
  | nil => exact .blank rfl .nil
  | blank hc _ ih => exact .blank hc ih
  | comment hb _ ih =>
    rw [List.cons_append, List.cons_append, List.append_assoc, List.cons_append]
    exact .comment hb ih
  | lastComment hb _ => exact .comment hb .nil

/-- Behind a text and a line end, reading goes on as from the start, further down. -/
theorem scanFrom_lineEnd {a : List Char} {ts : List Token} (h : Token.ofText a = .ok ts)
    (b : List Char) : scanFrom .start (a ++ '\n' :: b) =
      ⟨ts ++ ((scanFrom .start b).down (1 + a.count '\n')).tokens,
        ((scanFrom .start b).down (1 + a.count '\n')).stop⟩ := by
  obtain ⟨ps, last, hlayout, rfl⟩ := exists_layout_of_ofText h
  have hsep : Separated ('\n' :: b) := by
    rintro c ⟨⟩
    exact separates_of_isBlank rfl
  obtain ⟨ts, q, -, hread, hmore⟩ := hlayout.scanFrom_append hsep .start
  have hall := hlayout.scanFrom_eq
  rw [Position.after_nil, hread] at hall
  obtain ⟨rfl, hstop⟩ := Scan.mk.inj hall
  -- the line end leads to the start of the line below all those of the first text
  have hline : (q.after last).after ['\n'] = Position.start.down (1 + a.count '\n') := by
    rw [Except.ok.inj hstop, List.nil_append, ← Position.after_append, Position.start_after,
      sinceLineEnd_lineEnd, List.count_append]
    simp only [Position.down, Position.start, Position.mk.injEq]
    refine ⟨?_, rfl⟩
    rw [show List.count '\n' ['\n'] = 1 from rfl]
    omega
  rw [hmore, show last ++ '\n' :: b = (last ++ ['\n']) ++ b by simp,
    scanFrom_gap (hlayout.last.lineEnd b), Position.after_append, hline, scanFrom_down]

end Scan

/-- **Reading is compositional over lines.** If a text can be read, then with a line end and another
text behind it, it is read exactly if the other one is. The tokens are those of both, the second
ones as many lines further down as stand above them; and so is what is wrong, if the second text
cannot be read. -/
theorem Token.ofText_lineEnd {a : Bytes} {ts : List Token}
    (h : Token.ofText (Utf8.decode a) = .ok ts) (b : Bytes) :
    Token.ofText (Utf8.decode (a ++ 0x0A :: b)) =
      match Token.ofText (Utf8.decode b) with
      | .ok us => .ok (ts ++ us.map (Token.down (1 + (Utf8.decode a).count '\n')))
      | .error e => .error (e.down (1 + (Utf8.decode a).count '\n')) := by
  have hbreak : Utf8.Breaks (0x0A :: b) := by
    rintro c ⟨⟩
    decide
  have hline : Utf8.decode (0x0A :: b) = '\n' :: Utf8.decode b :=
    @Utf8.decode_ascii_append [0x0A] (List.forall_mem_singleton.mpr (by decide)) b
  simp only [Utf8.decode_append a hbreak, hline, Token.ofText, Scan.toExcept, Scan.ofText,
    Scan.scanFrom_lineEnd h]
  cases hstop : (Scan.scanFrom .start (Utf8.decode b)).stop <;> simp [Scan.down, hstop, Except.map]

/-- A text that ends in a comment. -/
def Sample.calling : Bytes := Bytes.ofString "f(1 // one"

/-- Two texts below one that ends in a comment: one can be read, and one has an unknown escape. -/
theorem Token.ofText_lineEnd_comment :
    Token.ofText (Utf8.decode Sample.calling) =
      .ok [⟨.ident, "f", ⟨1, 1⟩⟩, ⟨.delimiter .lparen, "(", ⟨1, 2⟩⟩, ⟨.number, "1", ⟨1, 3⟩⟩] ∧
    Token.ofText (Utf8.decode (Sample.calling ++ 0x0A :: Bytes.ofString ", 2)")) =
      .ok [⟨.ident, "f", ⟨1, 1⟩⟩, ⟨.delimiter .lparen, "(", ⟨1, 2⟩⟩, ⟨.number, "1", ⟨1, 3⟩⟩,
        ⟨.delimiter .comma, ",", ⟨2, 1⟩⟩, ⟨.number, "2", ⟨2, 3⟩⟩,
        ⟨.delimiter .rparen, ")", ⟨2, 4⟩⟩] ∧
    Token.ofText (Utf8.decode (Sample.calling ++ 0x0A :: Bytes.ofString "\n \"\\q\"")) =
      .error ⟨⟨3, 2⟩, ⟨3, 3⟩, .badEscape (some 'q')⟩ := by
  have h : Token.ofText (Utf8.decode Sample.calling) =
      .ok [⟨.ident, "f", ⟨1, 1⟩⟩, ⟨.delimiter .lparen, "(", ⟨1, 2⟩⟩, ⟨.number, "1", ⟨1, 3⟩⟩] := by
    decide +kernel
  exact ⟨h, (Token.ofText_lineEnd h _).trans (by decide +kernel),
    (Token.ofText_lineEnd h _).trans (by decide +kernel)⟩

end Stackling
