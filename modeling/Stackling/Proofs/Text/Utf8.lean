import Stackling.Text.Utf8

/-!
# Decoding a text

A byte below 128 belongs to no longer sequence. So what stands in front of one is decoded the same
way whether it is there or not, and bytes can be decoded in parts that are cut in front of such a
byte (`decode_append`). Text that was encoded is decoded to what it was (`decode_encoded`).
-/

namespace Stackling.Utf8

/-- No byte comes next that could belong to the sequence before it. -/
def Breaks (bs : Bytes) : Prop := ∀ b ∈ bs.head?, b < 0x80

theorem low_of_lead? {b : UInt8} {l : Lead} (h : lead? b = some l) : 0x80 ≤ l.low := by
  unfold lead? at h
  repeat' split at h
  all_goals (cases h <;> decide)

theorem isTail_eq_false {b : UInt8} (h : b < 0x80) : isTail b = false := by
  simp [isTail, UInt8.not_le.mpr h]

/-- What follows a break does not change the piece in front of it. -/
theorem firstPiece_append {more : Bytes} (h : Breaks more) (b : UInt8) (rest : Bytes) :
    firstPiece b (rest ++ more) = firstPiece b rest := by
  unfold firstPiece
  split
  · rfl
  cases hl : lead? b with
  | none => rfl
  | some l =>
    rcases rest with _ | ⟨b₁, _ | ⟨b₂, _ | ⟨b₃, rest⟩⟩⟩
    all_goals
      rcases more with _ | ⟨m, more⟩
      · rfl
      have hm : m < 0x80 := h m rfl
      have hlow : m < l.low := UInt8.lt_of_lt_of_le hm (low_of_lead? hl)
      simp [hlow, isTail_eq_false hm]

theorem size_of_firstPiece {b : UInt8} {rest : Bytes} {c : Char} {n : Nat}
    (h : firstPiece b rest = .char c n) : n - 1 ≤ rest.length := by
  unfold firstPiece at h
  split at h
  · cases h
    exact Nat.zero_le _
  split at h
  · cases h
  · grind

/-- **Bytes are decoded in parts** if the second part starts with a break. -/
theorem decode_append (bs : Bytes) {more : Bytes} (h : Breaks more) :
    decode (bs ++ more) = decode bs ++ decode more := by
  unfold decode
  rw [← List.map_append]
  congr 1
  fun_induction split bs with
  | case1 => rfl
  | case2 b rest c n hp ih =>
    simp only [List.cons_append, split, firstPiece_append h, hp,
      List.drop_append_of_le_length (size_of_firstPiece hp), ih]
  | case3 b rest n hp ih => simp only [List.cons_append, split, firstPiece_append h, hp, ih]

/-- Bytes below 128 are characters of their own, whatever follows them. -/
theorem decode_ascii_append {as : Bytes} (h : ∀ a ∈ as, a < 0x80) (bs : Bytes) :
    decode (as ++ bs) = as.map (fun a => Char.ofNat a.toNat) ++ decode bs := by
  induction as with
  | nil => rfl
  | cons a as ih =>
    obtain ⟨ha, has⟩ := List.forall_mem_cons.mp h
    rw [List.map_cons, List.cons_append, List.cons_append, ← ih has, decode, split, firstPiece,
      if_pos ha]
    rfl

/-! ## Encoded text -/

theorem isTail_iff {b : UInt8} : isTail b = true ↔ 0x80 ≤ b.toNat ∧ b.toNat ≤ 0xBF := by
  simp [isTail, UInt8.le_iff_toNat_le]

section Sequences

variable {b b₁ b₂ b₃ : UInt8} (h₁ : isTail b₁ = true) (h₂ : isTail b₂ = true)
  (h₃ : isTail b₃ = true) (bs : Bytes)
include h₁

theorem firstPiece_two (hb : 0xC2 ≤ b.toNat ∧ b.toNat ≤ 0xDF) :
    firstPiece b (b₁ :: bs) = .char (Char.ofNat (b.toNat % 32 * 64 + tailBits b₁)) 2 := by
  rw [isTail_iff] at h₁
  simp only [firstPiece, lead?, UInt8.lt_iff_toNat_lt, UInt8.le_iff_toNat_le, ← UInt8.toNat_inj,
    UInt8.reduceToNat]
  grind

include h₂

theorem firstPiece_three (hb : 0xE0 ≤ b.toNat ∧ b.toNat ≤ 0xEF)
    (hlow : b.toNat = 0xE0 → 0xA0 ≤ b₁.toNat) (hhigh : b.toNat = 0xED → b₁.toNat ≤ 0x9F) :
    firstPiece b (b₁ :: b₂ :: bs) =
      .char (Char.ofNat ((b.toNat % 16 * 64 + tailBits b₁) * 64 + tailBits b₂)) 3 := by
  rw [isTail_iff] at h₁
  simp only [firstPiece, lead?, UInt8.lt_iff_toNat_lt, UInt8.le_iff_toNat_le, ← UInt8.toNat_inj,
    UInt8.reduceToNat]
  grind

include h₃

theorem firstPiece_four (hb : 0xF0 ≤ b.toNat ∧ b.toNat ≤ 0xF4)
    (hlow : b.toNat = 0xF0 → 0x90 ≤ b₁.toNat) (hhigh : b.toNat = 0xF4 → b₁.toNat ≤ 0x8F) :
    firstPiece b (b₁ :: b₂ :: b₃ :: bs) = .char (Char.ofNat
      (((b.toNat % 8 * 64 + tailBits b₁) * 64 + tailBits b₂) * 64 + tailBits b₃)) 4 := by
  rw [isTail_iff] at h₁
  simp only [firstPiece, lead?, UInt8.lt_iff_toNat_lt, UInt8.le_iff_toNat_le, ← UInt8.toNat_inj,
    UInt8.reduceToNat]
  grind

end Sequences

/-- The bytes of a character are read as that character, whatever follows them. -/
theorem split_encodeChar (c : Char) (bs : Bytes) :
    split (encodeChar c ++ bs) = .char c :: split bs := by
  have hvalid : c.toNat < 0xD800 ∨ (0xDFFF < c.toNat ∧ c.toNat < 0x110000) := c.valid
  have hof : Char.ofNat c.toNat = c := Char.ofNat_toNat c
  have hbyte {n : Nat} (h : n < 256) : (UInt8.ofNat n).toNat = n := UInt8.toNat_ofNat_of_lt' h
  have htail (n : Nat) : isTail (UInt8.ofNat (n % 64 + 128)) = true ∧
      tailBits (UInt8.ofNat (n % 64 + 128)) = n % 64 := by
    rw [isTail_iff, tailBits, hbyte (by omega)]
    omega
  unfold encodeChar String.utf8EncodeChar
  rw [show c.val.toNat = c.toNat from rfl]
  generalize c.toNat = v at hvalid hof
  dsimp only
  split
  · next h =>
    have hb := hbyte (n := v) (by omega)
    have hlt : UInt8.ofNat v < 0x80 := by
      rw [UInt8.lt_iff_toNat_lt, hb]
      exact Nat.lt_succ_of_le h
    simp only [List.cons_append, List.nil_append, split, firstPiece, if_pos hlt, hb, hof]
    rfl
  split
  · next h =>
    have hb := hbyte (n := v / 64 % 32 + 192) (by omega)
    have hp := firstPiece_two (htail v).1 bs (b := UInt8.ofNat (v / 64 % 32 + 192)) (by omega)
    rw [hb, (htail _).2, show (v / 64 % 32 + 192) % 32 * 64 + v % 64 = v by omega, hof] at hp
    simp only [List.cons_append, List.nil_append, split, hp]
    rfl
  split
  · next h =>
    have hb := hbyte (n := v / 4096 % 16 + 224) (by omega)
    have hb₁ := hbyte (n := v / 64 % 64 + 128) (by omega)
    have hp := firstPiece_three (htail (v / 64)).1 (htail v).1 bs
      (b := UInt8.ofNat (v / 4096 % 16 + 224)) (by omega) (by omega) (by omega)
    rw [hb, (htail _).2, (htail _).2,
      show ((v / 4096 % 16 + 224) % 16 * 64 + v / 64 % 64) * 64 + v % 64 = v by omega, hof] at hp
    simp only [List.cons_append, List.nil_append, split, hp]
    rfl
  · next h =>
    have hb := hbyte (n := v / 262144 % 8 + 240) (by omega)
    have hb₁ := hbyte (n := v / 4096 % 64 + 128) (by omega)
    have hp := firstPiece_four (htail (v / 4096)).1 (htail (v / 64)).1 (htail v).1 bs
      (b := UInt8.ofNat (v / 262144 % 8 + 240)) (by omega) (by omega) (by omega)
    rw [hb, (htail _).2, (htail _).2, (htail _).2,
      show (((v / 262144 % 8 + 240) % 8 * 64 + v / 4096 % 64) * 64 + v / 64 % 64) * 64 + v % 64 = v
        by omega, hof] at hp
    simp only [List.cons_append, List.nil_append, split, hp]
    rfl

/-- Encoded text has no stray bytes. -/
theorem split_encode (cs : List Char) : split (encode cs) = cs.map .char := by
  induction cs with
  | nil => simp [encode, split]
  | cons c cs ih =>
    rw [encode, List.flatMap_cons, split_encodeChar, List.map_cons]
    exact congrArg (Atom.char c :: ·) ih

/-- **Encoded text is read back.** -/
theorem decode_encoded (cs : List Char) : decode (encode cs) = cs := by
  rw [decode, split_encode, List.map_map]
  exact List.map_id cs

/-- Where no byte is stray, nothing needs repair. -/
theorem repair_of_split {bs : Bytes} {cs : List Char} (h : split bs = cs.map .char) :
    repair bs = encode cs := by
  fun_induction split bs generalizing cs with
  | case1 =>
    obtain rfl : cs = [] := List.map_eq_nil_iff.mp h.symm
    simp [repair, encode]
  | case2 b rest c n hp ih =>
    obtain ⟨d, ds, rfl, hd, hds⟩ := List.map_eq_cons_iff.mp h.symm
    obtain rfl : d = c := Atom.char.inj hd
    rw [repair, hp]
    exact congrArg (encodeChar d ++ ·) (ih hds.symm)
  | case3 b rest n hp ih =>
    obtain ⟨d, ds, -, hd, -⟩ := List.map_eq_cons_iff.mp h.symm
    cases hd

/-- Encoded text needs no repair. -/
theorem repair_encode (cs : List Char) : repair (encode cs) = encode cs :=
  repair_of_split (split_encode cs)

end Stackling.Utf8
