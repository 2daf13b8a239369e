/-!
# UTF-8

Program images, printed output and files are bytes, and a `String` holds only well-formed UTF-8,
so bytes have a type of their own here and two ways to become text.

* `Utf8.split` cuts bytes into characters and stray bytes that belong to no well-formed sequence;
  `Utf8.decode` reads the stray bytes as one replacement character U+FFFD each. Source text and
  data notation are read this way.
* `Utf8.repair` keeps bytes as bytes and replaces each maximal ill-formed piece (a lead byte with
  as many fitting bytes as follow it) by the encoding of one U+FFFD. Source files are read this way.

Both look at the input through `Utf8.firstPiece`, which knows the lead bytes and the range each
allows for the byte after it.
-/

namespace Stackling

/-- A sequence of bytes that need not be well-formed text. -/
abbrev Bytes := List UInt8

namespace Utf8

/-- The character that stands for what cannot be read. -/
def replacement : Char := '�'

/-- The bytes of one character. -/
def encodeChar (c : Char) : Bytes := String.utf8EncodeChar c

/-- The bytes of a text. -/
def encode (cs : List Char) : Bytes := cs.flatMap encodeChar

/-- What a lead byte announces: how many bytes follow it and which the first of them may be. -/
structure Lead where
  /-- number of bytes after the lead byte -/
  tail : Nat
  /-- least byte that may follow the lead byte -/
  low : UInt8
  /-- greatest byte that may follow the lead byte -/
  high : UInt8
  deriving DecidableEq, Repr

/-- The lead bytes of two, three and four byte sequences. The ranges leave out overlong forms,
surrogates and values beyond U+10FFFF. -/
def lead? (b : UInt8) : Option Lead :=
  if b < 0xC2 then none
  else if b ≤ 0xDF then some ⟨1, 0x80, 0xBF⟩
  else if b = 0xE0 then some ⟨2, 0xA0, 0xBF⟩
  else if b = 0xED then some ⟨2, 0x80, 0x9F⟩
  else if b ≤ 0xEF then some ⟨2, 0x80, 0xBF⟩
  else if b = 0xF0 then some ⟨3, 0x90, 0xBF⟩
  else if b ≤ 0xF3 then some ⟨3, 0x80, 0xBF⟩
  else if b = 0xF4 then some ⟨3, 0x80, 0x8F⟩
  else none

/-- Is `b` a byte that continues a sequence? -/
def isTail (b : UInt8) : Bool := 0x80 ≤ b && b ≤ 0xBF

/-- The six payload bits of a continuing byte. -/
def tailBits (b : UInt8) : Nat := b.toNat % 64

/-- The piece that a sequence of bytes starts with: a character and the number of bytes it takes,
or the length of a maximal piece that starts no character. -/
inductive Piece where
  | char (c : Char) (size : Nat)
  | illFormed (size : Nat)
  deriving DecidableEq, Repr

/-- Number of bytes a piece covers. -/
def Piece.size : Piece → Nat
  | .char _ n => n
  | .illFormed n => n

/-- The first piece of `b :: rest`. -/
def firstPiece (b : UInt8) (rest : Bytes) : Piece :=
  if b < 0x80 then .char (Char.ofNat b.toNat) 1
  else match lead? b with
    | none => .illFormed 1
    | some l =>
      match rest with
      | [] => .illFormed 1
      | b₁ :: rest₁ =>
        if b₁ < l.low || l.high < b₁ then .illFormed 1
        else if l.tail = 1 then
          .char (Char.ofNat (b.toNat % 32 * 64 + tailBits b₁)) 2
        else match rest₁ with
          | [] => .illFormed 2
          | b₂ :: rest₂ =>
            if !isTail b₂ then .illFormed 2
            else if l.tail = 2 then
              .char (Char.ofNat ((b.toNat % 16 * 64 + tailBits b₁) * 64 + tailBits b₂)) 3
            else match rest₂ with
              | [] => .illFormed 3
              | b₃ :: _ =>
                if !isTail b₃ then .illFormed 3
                else
                  .char (Char.ofNat
                    (((b.toNat % 8 * 64 + tailBits b₁) * 64 + tailBits b₂) * 64 + tailBits b₃)) 4

/-- A character, or a byte that is part of none. -/
inductive Atom where
  | char (c : Char)
  | stray (b : UInt8)
  deriving DecidableEq, Repr

/-- The characters of `bs` and the bytes between them that are part of none, in order. -/
def split (bs : Bytes) : List Atom :=
  match bs with
  | [] => []
  | b :: rest =>
    match firstPiece b rest with
    | .char c n => .char c :: split (rest.drop (n - 1))
    | .illFormed _ => .stray b :: split rest
termination_by bs.length
decreasing_by all_goals (simp only [List.length_cons, List.length_drop]; omega)

/-- An atom as a character: a stray byte reads as U+FFFD. -/
def Atom.toChar : Atom → Char
  | .char c => c
  | .stray _ => replacement

/-- The bytes of an atom. -/
def Atom.bytes : Atom → Bytes
  | .char c => encodeChar c
  | .stray b => [b]

/-- The bytes of a sequence of atoms. -/
def join (as : List Atom) : Bytes := as.flatMap Atom.bytes

/-- The characters of `bs`, one U+FFFD for every byte outside a well-formed sequence. -/
def decode (bs : Bytes) : List Char := (split bs).map Atom.toChar

/-- The bytes of `bs` with one encoded U+FFFD for every maximal ill-formed piece. -/
def repair (bs : Bytes) : Bytes :=
  match bs with
  | [] => []
  | b :: rest =>
    match firstPiece b rest with
    | .char c n => encodeChar c ++ repair (rest.drop (n - 1))
    | .illFormed n => encodeChar replacement ++ repair (rest.drop (n - 1))
termination_by bs.length
decreasing_by all_goals (simp only [List.length_cons, List.length_drop]; omega)

end Utf8

/-- The bytes of a string. -/
def Bytes.ofString (s : String) : Bytes := Utf8.encode s.toList

/-- The text of a sequence of bytes, one U+FFFD for every byte that is not part of a character. -/
def Bytes.toText (bs : Bytes) : String := String.ofList (Utf8.decode bs)

end Stackling
