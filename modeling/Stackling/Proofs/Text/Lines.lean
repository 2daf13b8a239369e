import Mathlib.Data.List.DropRight
import Mathlib.Data.List.Induction
import Stackling.Diagnostic
import Stackling.Proofs.Text.Utf8

/-!
# The lines of a text

Lines are cut out of bytes and columns are counted in characters. The two go together because no
longer sequence of bytes is decoded to a line end: a text can be cut into lines before or after it
is decoded (`Utf8.map_decode_splitOn`).

From there on lines are lines of characters. A place in a text, given by what stands before it, lies
in the line with the number of line ends before it (`getElem?_splitOn_append`). Blanks at the end of
a line may be taken off it, as long as what is of interest does not end in one
(`prefix_decode_trimmed`).
-/

namespace Stackling

/-! ## Lines of bytes and lines of characters -/

namespace Utf8

theorem eq_of_ofNat_eq_newline {n : Nat} (h : Char.ofNat n = '\n') : n = 10 := by
  by_cases hn : n.isValidChar
  · rw [Char.ofNat, dif_pos hn] at h
    exact congrArg Char.toNat h
  · rw [Char.ofNat, dif_neg hn] at h
    exact absurd h (by decide)

/-- The first two bytes of a longer sequence have bits that no short one has. -/
theorem payload_of_lead? {b b₁ : UInt8} {l : Lead} (hl : lead? b = some l)
    (hb₁ : ¬ (b₁ < l.low || l.high < b₁) = true) :
    (l.tail = 1 ∧ 0 < b.toNat % 32) ∨ (l.tail = 2 ∧ 0 < b.toNat % 16 * 64 + tailBits b₁) ∨
      (l.tail = 3 ∧ 0 < b.toNat % 8 * 64 + tailBits b₁) := by
  simp only [lead?, UInt8.lt_iff_toNat_lt, UInt8.le_iff_toNat_le, ← UInt8.toNat_inj,
    UInt8.reduceToNat] at hl
  simp only [UInt8.lt_iff_toNat_lt, Bool.or_eq_true, decide_eq_true_eq, tailBits] at hb₁ ⊢
  repeat' split at hl
  all_goals cases hl
  all_goals
    simp at hb₁ ⊢
    omega

/-- Only the byte of a line end is read as one. -/
theorem eq_of_firstPiece_newline {b : UInt8} {rest : Bytes} {n : Nat}
    (h : firstPiece b rest = .char '\n' n) : b = 0x0A := by
  unfold firstPiece at h
  split at h
  · exact UInt8.toNat_inj.mp (eq_of_ofNat_eq_newline (Piece.char.inj h).1)
  cases hl : lead? b with
  | none => simp [hl] at h
  | some l =>
    simp only [hl] at h
    repeat' split at h
    all_goals first
      | cases h
      | have hv := eq_of_ofNat_eq_newline (Piece.char.inj h).1
        have hpayload := payload_of_lead? hl ‹_›
        omega

theorem mem_of_newline_mem_decode {bs : Bytes} (h : '\n' ∈ decode bs) : 0x0A ∈ bs := by
  unfold decode at h
  fun_induction split bs with
  | case1 => simp at h
  | case2 b rest c n hp ih =>
    rcases List.mem_cons.mp h with hc | h
    · have hc : '\n' = c := hc
      subst hc
      rw [eq_of_firstPiece_newline hp]
      exact List.mem_cons_self
    · exact List.mem_cons_of_mem b (List.mem_of_mem_drop (ih h))
  | case3 b rest n hp ih =>
    rcases List.mem_cons.mp h with hc | h
    · cases hc
    · exact List.mem_cons_of_mem b (ih h)

theorem decode_newline_append (bs more : Bytes) :
    decode (bs ++ 0x0A :: more) = decode bs ++ '\n' :: decode more := by
  have hbreak : Breaks (0x0A :: more) := by
    rintro c ⟨⟩
    decide
  have hline : decode (0x0A :: more) = '\n' :: decode more :=
    @decode_ascii_append [0x0A] (List.forall_mem_singleton.mpr (by decide)) more
  rw [decode_append bs hbreak, hline]

/-- **Lines may be cut before or after decoding.** -/
theorem map_decode_splitOn (bs : Bytes) :
    (bs.splitOn 0x0A).map decode = (decode bs).splitOn '\n' := by
  induction hn : bs.length using Nat.strong_induction_on generalizing bs with
  | _ n ih =>
    by_cases hmem : 0x0A ∈ bs
    · obtain ⟨line, more, rfl, hline⟩ := List.eq_append_cons_of_mem hmem
      have hmore := ih more.length (by simp at hn; omega) more rfl
      rw [List.splitOn_append_cons_self_of_not_mem hline, decode_newline_append,
        List.splitOn_append_cons_self_of_not_mem (mt mem_of_newline_mem_decode hline),
        List.map_cons, hmore]
    · rw [List.splitOn_eq_singleton hmem,
        List.splitOn_eq_singleton (mt mem_of_newline_mem_decode hmem)]
      rfl

end Utf8

theorem Bytes.lines_eq_splitOn (bs : Bytes) : bs.lines = bs.splitOn 0x0A := by
  induction bs with
  | nil => rfl
  | cons b bs ih =>
    rw [lines, List.splitOn_cons_eq_if_modifyHead, ih]
    simp only [beq_iff_eq]
    split
    · rfl
    · cases hls : bs.splitOn 0x0A with
      | nil => exact absurd hls (List.splitOn_ne_nil _ _)
      | cons l ls => rfl

/-- A line has no line end in it. -/
theorem notMem_of_mem_splitOn {α : Type} [BEq α] [LawfulBEq α] {x : α} {xs line : List α}
    (h : line ∈ xs.splitOn x) : x ∉ line := by
  induction xs generalizing line with
  | nil =>
    obtain rfl := List.mem_singleton.mp h
    exact List.not_mem_nil
  | cons a xs ih =>
    rw [List.splitOn_cons_eq_if_modifyHead] at h
    split at h
    · rcases List.mem_cons.mp h with rfl | h
      · exact List.not_mem_nil
      · exact ih h
    · next ha =>
      obtain ⟨l, ls, hls⟩ := List.exists_cons_of_ne_nil (List.splitOn_ne_nil x xs)
      rw [hls] at h ih
      rcases List.mem_cons.mp h with rfl | h
      · rw [List.mem_cons, not_or]
        exact ⟨fun ha' => ha (beq_iff_eq.mpr ha'.symm), ih List.mem_cons_self⟩
      · exact ih (List.mem_cons_of_mem l h)

/-- A line is made of the text. -/
theorem subset_of_mem_splitOn {α : Type} [BEq α] {x : α} {xs line : List α}
    (h : line ∈ xs.splitOn x) : line ⊆ xs := by
  induction xs generalizing line with
  | nil =>
    obtain rfl := List.mem_singleton.mp h
    exact List.nil_subset _
  | cons a xs ih =>
    rw [List.splitOn_cons_eq_if_modifyHead] at h
    split at h
    · rcases List.mem_cons.mp h with rfl | h
      · exact List.nil_subset _
      · exact List.Subset.trans (ih h) (List.subset_cons_self a xs)
    · obtain ⟨l, ls, hls⟩ := List.exists_cons_of_ne_nil (List.splitOn_ne_nil x xs)
      rw [hls] at h ih
      rcases List.mem_cons.mp h with rfl | h
      · exact List.cons_subset_cons a (ih List.mem_cons_self)
      · exact List.Subset.trans (ih (List.mem_cons_of_mem l h)) (List.subset_cons_self a xs)

/-! ## The line of a place -/

theorem length_splitOn (cs : List Char) : (cs.splitOn '\n').length = cs.count '\n' + 1 := by
  induction cs with
  | nil => rfl
  | cons c cs ih =>
    rw [List.splitOn_cons_eq_if_modifyHead, List.count_cons]
    split
    · rw [List.length_cons, ih]
    · rw [List.length_modifyHead, ih, Nat.add_zero]

theorem head?_splitOn (cs : List Char) :
    (cs.splitOn '\n').head? = some (cs.takeWhile (· != '\n')) := by
  induction cs with
  | nil => rfl
  | cons c cs ih =>
    rw [List.splitOn_cons_eq_if_modifyHead, List.takeWhile_cons, bne]
    split
    · next hc => simp [hc]
    · next hc => simp [hc, ih]

/-- The line that a text stops in goes on up to the next line end. -/
theorem getElem?_splitOn_append (before rest : List Char) :
    ((before ++ rest).splitOn '\n')[before.count '\n']? =
      some (before.rtakeWhile (· != '\n') ++ rest.takeWhile (· != '\n')) := by
  -- Either the last character before the place ends a line, or it belongs to what follows.
  induction before using List.reverseRecOn generalizing rest with
  | nil => simpa [List.head?_eq_getElem?] using head?_splitOn rest
  | append_singleton before c ih =>
    rw [List.append_assoc, List.singleton_append]
    by_cases hc : c = '\n'
    · subst hc
      rw [List.splitOn_append_cons_self, List.count_append, List.count_singleton_self,
        List.getElem?_append_right (by rw [length_splitOn]), length_splitOn, Nat.sub_self,
        ← List.head?_eq_getElem?, head?_splitOn, List.rtakeWhile_concat_neg _ _ _ (by simp)]
      rfl
    · have hne : (c != '\n') = true := bne_iff_ne.mpr hc
      have hcount : (before ++ [c]).count '\n' = before.count '\n' := by
        rw [List.count_append, List.count_singleton]
        simp [hc]
      rw [hcount, ih, List.rtakeWhile_concat_pos (· != '\n') _ _ hne,
        List.takeWhile_cons, if_pos hne, List.append_assoc, List.singleton_append]

/-! ## Blanks at the end of a line -/

/-- Is the byte a blank that is left out at the end of a line? -/
def isLineBlank (b : UInt8) : Bool := b == 0x20 || b == 0x09 || b == 0x0D

theorem Bytes.trimEnd_eq_rdropWhile {line : Bytes} (h : 0x0A ∉ line) :
    line.trimEnd = line.rdropWhile isLineBlank := by
  have hdrop : ∀ bs : Bytes, 0x0A ∉ bs →
      bs.dropWhile (fun b => b == 0x0D || b == 0x0A || b == 0x09 || b == 0x20) =
        bs.dropWhile isLineBlank := by
    intro bs hbs
    induction bs with
    | nil => rfl
    | cons b bs ih =>
      obtain ⟨hb, hbs⟩ := not_or.mp (mt List.mem_cons.mpr hbs)
      have hb' : (b == 0x0A) = false := beq_eq_false_iff_ne.mpr (Ne.symm hb)
      have hsame : (b == 0x0D || b == 0x0A || b == 0x09 || b == 0x20) = isLineBlank b := by
        rw [isLineBlank, hb']
        cases b == 0x0D <;> cases b == 0x09 <;> cases b == 0x20 <;> rfl
      rw [List.dropWhile_cons, List.dropWhile_cons, hsame, ih hbs]
  rw [trimEnd, List.rdropWhile, hdrop]
  rwa [List.mem_reverse]

/-- The characters of a line are those that are left after trimming, and blanks. -/
theorem exists_blanks (line : Bytes) : ∃ blanks : List Char,
    Utf8.decode line = Utf8.decode (line.rdropWhile isLineBlank) ++ blanks ∧
      ∀ c ∈ blanks, Text.isBlank c = true := by
  have hblank {b : UInt8} (hb : b ∈ line.rtakeWhile isLineBlank) :
      b = 0x20 ∨ b = 0x09 ∨ b = 0x0D := by
    have hb := List.mem_rtakeWhile_imp hb
    simpa [isLineBlank, or_assoc] using hb
  have hascii : ∀ b ∈ line.rtakeWhile isLineBlank, b < 0x80 := by
    intro b hb
    obtain rfl | rfl | rfl := hblank hb <;> decide
  have hbreak : Utf8.Breaks (line.rtakeWhile isLineBlank) :=
    fun b hb => hascii b (List.mem_of_mem_head? hb)
  refine ⟨(line.rtakeWhile isLineBlank).map fun b => Char.ofNat b.toNat, ?_, ?_⟩
  · have hdecode := Utf8.decode_ascii_append hascii []
    have hnil : Utf8.decode [] = [] := by simp [Utf8.decode, Utf8.split]
    rw [List.append_nil, hnil, List.append_nil] at hdecode
    rw [← hdecode, ← Utf8.decode_append _ hbreak, List.rdropWhile_append_rtakeWhile]
  · intro c hc
    obtain ⟨b, hb, rfl⟩ := List.mem_map.mp hc
    obtain rfl | rfl | rfl := hblank hb <;> decide

/-- What does not end in a blank is still there after trimming. -/
theorem prefix_decode_trimmed {line : Bytes} {cs : List Char} (h : cs <+: Utf8.decode line)
    (hlast : ∀ c ∈ cs.getLast?, Text.isBlank c = false) :
    cs <+: Utf8.decode (line.rdropWhile isLineBlank) := by
  obtain ⟨blanks, hline, hblanks⟩ := exists_blanks line
  rw [hline] at h
  rcases Nat.le_total cs.length (Utf8.decode (line.rdropWhile isLineBlank)).length with hle | hle
  · exact List.prefix_of_prefix_length_le h (List.prefix_append _ _) hle
  · obtain ⟨more, rfl⟩ := List.prefix_of_prefix_length_le (List.prefix_append _ _) h hle
    have hmore : more <+: blanks := (List.prefix_append_right_inj _).mp h
    rcases List.eq_nil_or_concat more with rfl | ⟨init, c, rfl⟩
    · exact (List.append_nil _).symm ▸ List.prefix_refl _
    · have hc := hlast c (by simp)
      rw [hblanks c (hmore.subset (by simp))] at hc
      contradiction

end Stackling
