import Stackling.Proofs.Pointing

/-!
# Where the input ends

Behind the last token the parser sees an end of input. Its column is counted on from the column of
the last token, by the characters of the lexeme. For most tokens the lexeme is what is written. That
of a string literal is what the literal stands for: the quotes are not in it, and an escape, which
is written with two characters, is one of it.

Main result: the end of input is right behind the text of the last token if and only if that token
is no string literal. Behind a literal it is too far left, by the two quotes and by one for each
escape (`endOfInput_pos_iff`).
-/

namespace Stackling

open Stackling.Tree

/-- A text on one line moves a position to the right. -/
theorem Position.after_oneLine {s : List Char} (hs : '\n' ∉ s) (p : Position) :
    p.after s = ⟨p.line, p.column + s.length⟩ := by
  induction s generalizing p with
  | nil => simp
  | cons c s ih =>
    obtain ⟨hc, hs⟩ := not_or.mp (mt List.mem_cons.mpr hs)
    rw [Position.after_cons, ih hs, Position.next, if_neg (Ne.symm hc), List.length_cons]
    congr 1
    push_cast
    omega

namespace Scan

/-! ## The text of a literal -/

/-- The number of escapes in a text. -/
def escapes : List Char → Nat
  | [] => 0
  | '\\' :: _ :: cs => escapes cs + 1
  | _ :: cs => escapes cs

theorem escapes_cons {c : Char} (hc : c ≠ '\\') (cs : List Char) :
    escapes (c :: cs) = escapes cs := by
  rw [escapes]
  rintro _ _ rfl
  exact absurd rfl hc

theorem Escaped.length_eq {body content : List Char} (h : Escaped body content) :
    body.length = content.length + escapes (body ++ ['"']) := by
  induction h with
  | nil => rfl
  | plain hq hb hn h ih =>
    rw [List.cons_append, escapes_cons hb, List.length_cons, List.length_cons, ih]
    omega
  | quote h ih | backslash h ih | newline h ih | tab h ih =>
    simp only [List.cons_append, escapes, List.length_cons, ih]
    omega

/-- The text of a token is its lexeme, with two quotes and the backslashes of the escapes if it is a
literal. -/
theorem Spelled.length_eq {after s : List Char} {k : Kind} {t : String} (h : Spelled after s k t) :
    s.length = t.length + if k = .string then 2 + escapes s else 0 := by
  cases h with
  | @string body content h =>
    rw [if_pos rfl, escapes_cons (by decide), List.length_cons, List.length_append, h.length_eq,
      String.length_ofList, List.length_singleton]
    omega
  | _ => simp

/-! ## The last token -/

/-- The last token of the text `cs` is `t`. It is written as `span`, behind `before`, and what is
behind it is a gap. -/
structure Final (cs : List Char) (t : Token) (before span after : List Char) : Prop where
  covers : cs = before ++ (span ++ after)
  spelled : Spelled after span t.kind t.lexeme
  gap : Gap [] after
  pos : t.pos = Position.start.after before

theorem exists_final {cs : List Char} {ts : List Token} {t : Token} (h : Token.ofText cs = .ok ts)
    (ht : ts.getLast? = some t) : ∃ before span after, Final cs t before span after := by
  obtain ⟨ps, last, hlayout, rfl⟩ := exists_layout_of_ofText h
  obtain ⟨p, hp, rfl⟩ := Option.map_eq_some_iff.mp (List.getLast?_map ▸ ht)
  obtain ⟨front, rfl⟩ := List.getLast?_eq_some_iff.mp hp
  have hplace := hlayout.inPlace front p [] rfl
  refine ⟨Piece.texts front ++ p.gap, p.span, last, ?_, hplace.spelled, hlayout.last,
    hplace.pos_eq⟩
  rw [hlayout.covers]
  simp [Piece.texts, Piece.text]

/-- The end of the last token, counted in characters of the text. -/
theorem Final.end_eq {cs : List Char} {t : Token} {before span after : List Char}
    (h : Final cs t before span after) :
    Position.start.after (before ++ span) = ⟨t.pos.line, t.pos.column + span.length⟩ := by
  rw [Position.after_append, ← h.pos, Position.after_oneLine h.spelled.solid.1.oneLine]

end Scan

/-- **Where the input ends.** The last token of a text stands somewhere in it, with a gap behind it.
The end of input, which the parser adds, is at the position right behind this token if and only if
the token is no string literal. If it is one, the end of input is on the same line, short of the
right column by the two quotes and the backslashes of the escapes. -/
theorem endOfInput_pos_iff {cs : List Char} {ts : List Token} {t : Token}
    (h : Token.ofText cs = .ok ts) (ht : ts.getLast? = some t) :
    (∃ before span after, Scan.Final cs t before span after) ∧
    ∀ before span after, Scan.Final cs t before span after →
      (endOfInput ts).kind = .eof ∧
      ((endOfInput ts).pos = Position.start.after (before ++ span) ↔ t.kind ≠ .string) ∧
      (t.kind = .string → Position.start.after (before ++ span) =
        ⟨(endOfInput ts).pos.line, (endOfInput ts).pos.column + (2 + Scan.escapes span)⟩) := by
  refine ⟨Scan.exists_final h ht, fun before span after hfinal => ?_⟩
  have hplain : t.kind ≠ .eof := (Token.allPlain_of_ofText h t (List.mem_of_getLast? ht)).ne_eof
  have heof : endOfInput ts = ⟨.eof, "", ⟨t.pos.line, t.pos.column + t.lexeme.length⟩⟩ := by
    simp only [endOfInput, ht, if_neg hplain]
  have hlength := hfinal.spelled.length_eq
  rw [heof, hfinal.end_eq, hlength]
  refine ⟨rfl, ?_, fun hstring => ?_⟩
  · simp only [Position.mk.injEq, true_and]
    split
    · next hstring =>
      simp only [hstring, ne_eq, not_true, iff_false]
      omega
    · next hstring => simp [hstring]
  · rw [if_pos hstring]
    push_cast
    rw [Int.add_assoc]

namespace Sample

/-- On the second line a literal that has an escape, and a comment. -/
def quoted : List Char := "(\n \"a\\\"\" // end".toList

def quotedTokens : List Token := [mark .lparen 1, ⟨.string, "a\"", ⟨2, 2⟩⟩]

/-- A literal in a parenthesis that is not closed. -/
def openLiteral : List Char := "(\"a\"".toList

def openLiteralTokens : List Token := [mark .lparen 1, ⟨.string, "a", ⟨1, 2⟩⟩]

end Sample

/-- The literal takes five columns from the second one on, and its lexeme two. -/
theorem endOfInput_pos_iff_quoted :
    Token.ofText Sample.quoted = .ok Sample.quotedTokens ∧
    Scan.Final Sample.quoted ⟨.string, "a\"", ⟨2, 2⟩⟩ "(\n ".toList "\"a\\\"\"".toList
      " // end".toList ∧
    (endOfInput Sample.quotedTokens).pos = ⟨2, 4⟩ ∧
    Position.start.after "(\n \"a\\\"\"".toList = ⟨2, 7⟩ := by
  have hread : Token.ofText Sample.quoted = .ok Sample.quotedTokens := by decide +kernel
  have hfinal : Scan.Final Sample.quoted ⟨.string, "a\"", ⟨2, 2⟩⟩ "(\n ".toList
      "\"a\\\"\"".toList " // end".toList :=
    ⟨rfl, .string (.plain (by decide) (by decide) (by decide) (.quote .nil)),
      .blank rfl (.lastComment (by decide) rfl), rfl⟩
  have hright := ((endOfInput_pos_iff hread rfl).2 _ _ _ hfinal).2.2 rfl
  exact ⟨hread, hfinal, rfl, hright⟩

/-- The input is said to end in the literal, and so the error for the parenthesis points there. -/
theorem endOfInput_inside_literal :
    Token.ofText Sample.openLiteral = .ok Sample.openLiteralTokens ∧
    Scan.Final Sample.openLiteral ⟨.string, "a", ⟨1, 2⟩⟩ ['('] "\"a\"".toList [] ∧
    Position.start.after Sample.openLiteral = ⟨1, 5⟩ ∧
    Tree.Expr.ofTokens Sample.openLiteralTokens =
      .error (.unexpected (.kind (.delimiter .rparen)) ⟨.eof, "", ⟨1, 3⟩⟩) := by
  refine ⟨by decide +kernel, ⟨rfl, ?_, .nil, rfl⟩, rfl, by cbv⟩
  exact .string (.plain (by decide) (by decide) (by decide) .nil)

end Stackling
