import Stackling.Proofs.Text.Utf8
import Stackling.Source

/-!
# Source files in any encoding

A text can be stored in four ways: as UTF-8 with or without a mark in front, and as UTF-16 in either
order, which always has a mark. A source file in any of them is read as the same text
(`read_stored`), with any library of decoders that does what such libraries promise
(`Decoders.Lawful`). The standard decoders do so (`standard_lawful`).

Without a mark the bytes themselves must not look like one. The bytes `FE` and `FF` occur in no
UTF-8 text, so it cannot be taken for UTF-16; but the mark of UTF-8 is the encoding of U+FEFF, and a
text that starts with this character loses it.
-/

namespace Stackling

namespace Utf16

/-- The two bytes of a unit. -/
def bytes : Order → Nat → Bytes
  | .little, u => [UInt8.ofNat (u % 256), UInt8.ofNat (u / 256)]
  | .big, u => [UInt8.ofNat (u / 256), UInt8.ofNat (u % 256)]

/-- The units of a character: one, or a pair of surrogates from U+10000 on. -/
def units (c : Char) : List Nat :=
  if c.toNat < 0x10000 then [c.toNat]
  else
    let n := c.toNat - 0x10000
    [0xD800 + n / 0x400, 0xDC00 + n % 0x400]

/-- The bytes of a text. -/
def encode (o : Order) (cs : List Char) : Bytes := cs.flatMap fun c => (units c).flatMap (bytes o)

theorem unit_bytes (o : Order) {u : Nat} (h : u < 0x10000) :
    ∃ a b, bytes o u = [a, b] ∧ unit o a b = u := by
  have hbyte {n : Nat} (hn : n < 256) : (UInt8.ofNat n).toNat = n := UInt8.toNat_ofNat_of_lt' hn
  have hlow := hbyte (n := u % 256) (by omega)
  have hhigh := hbyte (n := u / 256) (by omega)
  cases o with
  | little => exact ⟨_, _, rfl, by rw [unit, hlow, hhigh]; omega⟩
  | big => exact ⟨_, _, rfl, by rw [unit, hlow, hhigh]; omega⟩

/-- A unit that is no surrogate stands for itself, whatever follows it. -/
theorem decode_bytes (o : Order) {u : Nat} (h : u < 0x10000) (hu : isSurrogate u = false)
    (rest : Bytes) : decode o (bytes o u ++ rest) = Char.ofNat u :: decode o rest := by
  obtain ⟨a, b, hbytes, hunit⟩ := unit_bytes o h
  rw [hbytes]
  rcases rest with _ | ⟨c, _ | ⟨d, rest⟩⟩ <;> simp [decode, single, hunit, hu]

/-- Two surrogates in the right order are one character. -/
theorem decode_pair (o : Order) {u v : Nat} (hu : 0xD800 ≤ u ∧ u < 0xDC00)
    (hv : 0xDC00 ≤ v ∧ v < 0xE000) (rest : Bytes) :
    decode o (bytes o u ++ (bytes o v ++ rest)) =
      Char.ofNat (0x10000 + (u - 0xD800) * 0x400 + (v - 0xDC00)) :: decode o rest := by
  obtain ⟨a, b, hbytes, hunit⟩ := unit_bytes o (u := u) (by omega)
  obtain ⟨c, d, hbytes', hunit'⟩ := unit_bytes o (u := v) (by omega)
  have hsurrogate : isSurrogate u = true := by
    simp only [isSurrogate, Bool.and_eq_true, decide_eq_true_eq]
    omega
  have hlow : isLow v = true := by simpa [isLow] using hv
  rw [hbytes, hbytes']
  simp [decode, hunit, hunit', hsurrogate, hlow, pair, hu.2]

/-- The bytes of a character are read as that character, whatever follows them. -/
theorem decode_units (o : Order) (c : Char) (rest : Bytes) :
    decode o ((units c).flatMap (bytes o) ++ rest) = c :: decode o rest := by
  have hvalid : c.toNat < 0xD800 ∨ (0xDFFF < c.toNat ∧ c.toNat < 0x110000) := c.valid
  have hof : Char.ofNat c.toNat = c := Char.ofNat_toNat c
  rw [units]
  split
  · next h =>
    have hu : isSurrogate c.toNat = false := by
      simp only [isSurrogate, Bool.and_eq_false_iff, decide_eq_false_iff_not]
      omega
    rw [List.flatMap_singleton, decode_bytes o h hu, hof]
  · next h =>
    have hsum : 0x10000 + (0xD800 + (c.toNat - 0x10000) / 0x400 - 0xD800) * 0x400 +
        (0xDC00 + (c.toNat - 0x10000) % 0x400 - 0xDC00) = c.toNat := by
      omega
    simp only [List.flatMap_cons, List.flatMap_nil, List.append_nil, List.append_assoc]
    rw [decode_pair o (by omega) (by omega), hsum, hof]

theorem decode_encode_units (o : Order) (cs : List Char) : decode o (encode o cs) = cs := by
  induction cs with
  | nil => rfl
  | cons c cs ih =>
    rw [encode, List.flatMap_cons, decode_units]
    exact congrArg (c :: ·) ih

end Utf16

namespace Source

/-! ## Marks -/

/-- The character that marks are made of. -/
def markChar : Char := '\uFEFF'

/-- The bytes of a text behind a mark. -/
def Mark.encode : Mark → List Char → Bytes
  | utf8, cs => Utf8.encode cs
  | utf16 o, cs => Utf16.encode o cs

/-- UTF-8 text does not start with a byte that belongs to no character. -/
theorem encode_ne_stray {b : UInt8} {rest : Bytes} (h : Utf8.firstPiece b rest = .illFormed 1)
    (cs : List Char) : Utf8.encode cs ≠ b :: rest := by
  intro he
  have hsplit := Utf8.split_encode cs
  rw [he, Utf8.split, h] at hsplit
  obtain ⟨c, _, -, hc, -⟩ := List.map_eq_cons_iff.mp hsplit.symm
  cases hc

/-- Only a text that starts with the character of the mark starts with the bytes of the mark. -/
theorem encode_ne_mark {cs : List Char} (h : cs.head? ≠ some markChar) (rest : Bytes) :
    Utf8.encode cs ≠ 0xEF :: 0xBB :: 0xBF :: rest := by
  intro he
  have hsplit := Utf8.split_encode cs
  rw [he, show (0xEF :: 0xBB :: 0xBF :: rest : Bytes) = Utf8.encodeChar markChar ++ rest from rfl,
    Utf8.split_encodeChar] at hsplit
  obtain ⟨c, cs, rfl, hc, -⟩ := List.map_eq_cons_iff.mp hsplit.symm
  exact h (congrArg some (Utf8.Atom.char.inj hc))

/-- UTF-8 text is not taken for marked text. The marks of UTF-16 start with bytes that UTF-8 never
has, and that of UTF-8 is a character. -/
theorem encode_unmarked {cs : List Char} (h : cs.head? ≠ some markChar) (m : Mark) :
    ¬m.bytes <+: Utf8.encode cs := by
  rintro ⟨rest, he⟩
  cases m with
  | utf8 => exact encode_ne_mark h rest he.symm
  | utf16 o =>
    cases o with
    | little => exact encode_ne_stray rfl cs he.symm
    | big => exact encode_ne_stray rfl cs he.symm

/-! ## Decoders -/

/-- What a library of decoders is taken to do. -/
structure Decoders.Lawful (lib : Decoders) : Prop where
  /-- the decoder for UTF-8 reads UTF-8 -/
  utf8 : ∀ cs, lib.run lib.utf8 (Utf8.encode cs) = .ok (Utf8.encode cs)
  /-- the decoder for what is behind a mark reads the encoding that the mark stands for -/
  behind : ∀ (m : Mark) cs, lib.run (lib.behind m) (m.encode cs) = .ok (Utf8.encode cs)
  /-- a mark is dropped, and says how the rest is read -/
  marked : ∀ d (m : Mark) rest,
    lib.run (lib.override d) (m.bytes ++ rest) = lib.run (lib.behind m) rest
  /-- without a mark nothing is overridden -/
  unmarked : ∀ d data, (∀ m : Mark, ¬m.bytes <+: data) →
    lib.run (lib.override d) data = lib.run d data

theorem Mark.decode_encode_text (m : Mark) (cs : List Char) :
    m.decode (m.encode cs) = Utf8.encode cs := by
  cases m with
  | utf8 => rfl
  | utf16 o => rw [Mark.decode, Mark.encode, Utf16.decode_encode_units]

/-- The standard decoder takes bytes for marked only if there is a mark. -/
theorem Standard.run_unmarked (d : Standard) {data : Bytes} (h : ∀ m : Mark, ¬m.bytes <+: data) :
    (Standard.override d).run data = d.run data := by
  rw [Standard.run]
  · rintro rest rfl
    exact h (.utf16 .little) ⟨rest, rfl⟩
  · rintro rest rfl
    exact h (.utf16 .big) ⟨rest, rfl⟩
  · rintro rest rfl
    exact h .utf8 ⟨rest, rfl⟩

/-- The standard decoders do what they are taken to do. -/
theorem standard_lawful : standard.Lawful where
  utf8 cs := congrArg Except.ok (Utf8.repair_encode cs)
  behind m cs := congrArg Except.ok (m.decode_encode_text cs)
  marked d m rest := by
    cases m with
    | utf8 => rfl
    | utf16 o => cases o <;> rfl
  unmarked d _ h := congrArg Except.ok (d.run_unmarked h)

/-- The standard decoders never fail. -/
theorem read_standard (data : Bytes) : read standard data = .ok (decode data) := rfl

/-! ## Stored texts -/

/-- The bytes of a text that is stored behind a mark, or without one as UTF-8. -/
def stored : Option Mark → List Char → Bytes
  | none, cs => Utf8.encode cs
  | some m, cs => m.bytes ++ m.encode cs

/-- **A source file is read as the same text in every encoding**, by every library of decoders that
keeps its promises. The text must not start with the character that marks are made of. -/
theorem read_stored {lib : Decoders} (hlib : lib.Lawful) (mark : Option Mark) {cs : List Char}
    (h : cs.head? ≠ some markChar) : read lib (stored mark cs) = .ok (Utf8.encode cs) := by
  cases mark with
  | none =>
    have hrun := (hlib.unmarked lib.utf8 _ (encode_unmarked h)).trans (hlib.utf8 cs)
    rw [read, stored, hrun]
    rfl
  | some m =>
    have hrun := (hlib.marked lib.utf8 m _).trans (hlib.behind m cs)
    rw [read, stored, hrun]
    rfl

/-- A letter, the character of the mark that is not in front, and a character beyond U+FFFF. -/
theorem read_stored_mixed : ['x', markChar, '😀'].head? ≠ some markChar ∧
    stored (some (.utf16 .big)) ['x', markChar, '😀'] =
      [0xFE, 0xFF, 0x00, 0x78, 0xFE, 0xFF, 0xD8, 0x3D, 0xDE, 0x00] ∧
    read standard (stored (some (.utf16 .big)) ['x', markChar, '😀']) =
      .ok (Utf8.encode ['x', markChar, '😀']) :=
  ⟨by decide, rfl, read_stored standard_lawful (some (.utf16 .big)) (by decide)⟩

end Source

end Stackling
