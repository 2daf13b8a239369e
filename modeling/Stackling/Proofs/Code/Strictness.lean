import Stackling.Proofs.Code.Image
import Stackling.Proofs.Except

/-!
# Images are read whole

Bytes that are an image have no beginning and no continuation that is one (`decode_whole`). Both
halves rest on one fact: what a reader takes off the front of some bytes it takes off the front of
any bytes that start with them (`Steady`). So a longer image is read up to the end of the shorter
one, where the rest of it is trailing data.

An image may be spelled in more than one way, since a number may be padded and a flag may be any
byte. What is read has an image of its own, the one that is written, and this is the shortest
spelling: every reader takes at least as many bytes as writing the value takes.
-/

namespace Stackling

/-! ## Numbers -/

namespace Leb128

/-- A number that was read does not depend on what follows it. -/
theorem decode?_append {limit n : Nat} {bs rest : Bytes} (h : decode? limit bs = some (n, rest))
    (more : Bytes) : decode? limit (bs ++ more) = some (n, rest ++ more) := by
  induction limit, bs using decode?.induct generalizing n with
  | case1 | case2 => cases h
  | case3 limit b bs hb =>
    rw [decode?, if_pos hb] at h
    cases h
    rw [List.cons_append, decode?, if_pos hb]
  | case4 limit b bs hb ih =>
    rw [decode?, if_neg hb, Option.map_eq_some_iff] at h
    obtain ⟨⟨m, rest'⟩, hm, heq⟩ := h
    cases heq
    rw [List.cons_append, decode?, if_neg hb, ih hm, Option.map_some]

/-- A number is written in as few bytes as it can be read from. -/
theorem length_encode_le {limit n : Nat} {bs rest : Bytes} (h : decode? limit bs = some (n, rest)) :
    (encode n).length + rest.length ≤ bs.length := by
  induction limit, bs using decode?.induct generalizing n with
  | case1 | case2 => cases h
  | case3 limit b bs hb =>
    rw [decode?, if_pos hb] at h
    cases h
    have hsmall : b.toNat < 128 := hb
    rw [encode, if_pos hsmall, List.length_singleton, List.length_cons]
    omega
  | case4 limit b bs hb ih =>
    rw [decode?, if_neg hb, Option.map_eq_some_iff] at h
    obtain ⟨⟨m, rest'⟩, hm, heq⟩ := h
    cases heq
    have hle := ih hm
    have hdiv : (b.toNat % 128 + 128 * m) / 128 = m := by omega
    rw [encode, List.length_cons]
    split
    · have hpos : 0 < (encode m).length := by
        rw [encode]
        split <;> simp
      rw [List.length_singleton]
      omega
    · rw [hdiv, List.length_cons]
      omega

end Leb128

namespace Code

/-- Every message says that the format is at fault. -/
theorem FormatError.prefix_message (e : FormatError) :
    "invalid bytecode format: ".toList <+: e.message.toList := by
  unfold FormatError.message
  rw [String.toList_append]
  apply List.prefix_append

namespace Image

variable {α β : Type}

/-- Two readers succeed one after the other if the second one goes on where the first one stopped.
-/
theorem reader_bind_eq_ok {read : Reader α} {next : α → Reader β} {bs rest : Bytes} {b : β} :
    (read >>= next) bs = .ok (b, rest) ↔
      ∃ a mid, read bs = .ok (a, mid) ∧ next a mid = .ok (b, rest) := by
  have hrun : (read >>= next) bs = (read bs >>= fun r => next r.1 r.2) := rfl
  rw [hrun, bind_eq_ok, Prod.exists]

theorem reader_pure_eq_ok {bs rest : Bytes} {a b : α} :
    (pure a : Reader α) bs = .ok (b, rest) ↔ a = b ∧ bs = rest := by
  have hrun : (pure a : Reader α) bs = .ok (a, bs) := rfl
  rw [hrun, Except.ok.injEq, Prod.mk.injEq]

/-! ## Longer bytes -/

/-- What is read does not depend on what follows. -/
def Steady (read : Reader α) : Prop :=
  ∀ bs a rest, read bs = .ok (a, rest) → ∀ more, read (bs ++ more) = .ok (a, rest ++ more)

/-- Steady readers one after the other. -/
theorem Steady.bind {read : Reader α} {next : α → Reader β} (h : Steady read)
    (hnext : ∀ a, Steady (next a)) : Steady (read >>= next) := by
  intro bs b rest hb more
  obtain ⟨a, mid, ha, hb⟩ := reader_bind_eq_ok.mp hb
  exact reader_bind_eq_ok.mpr ⟨a, mid ++ more, h _ _ _ ha more, hnext a _ _ _ hb more⟩

theorem Steady.pure (a : α) : Steady (Pure.pure a : Reader α) := by
  intro bs b rest hb more
  obtain ⟨rfl, rfl⟩ := reader_pure_eq_ok.mp hb
  rfl

/-- A count is a number that is not too large. -/
theorem readCount_eq_ok {field : CountField} {bs rest : Bytes} {n : Nat} :
    readCount field bs = .ok (n, rest) ↔
      Leb128.decode? Leb128.maxBytes bs = some (n, rest) ∧ n ≤ maxCount := by
  unfold readCount
  split
  · next m rest' hm =>
    rw [hm, Option.some.injEq, Prod.mk.injEq]
    split
    · next hle =>
      rw [Except.ok.injEq, Prod.mk.injEq]
      exact ⟨fun h => ⟨h, h.1 ▸ hle⟩, fun h => h.1⟩
    · next hle =>
      refine iff_of_false nofun ?_
      rintro ⟨⟨rfl, -⟩, hle'⟩
      exact hle hle'
  · next hm => simp [hm]

/-- A count is read up to its last byte. -/
theorem readCount_steady (field : CountField) : Steady (readCount field) := by
  intro bs n rest h more
  obtain ⟨hdecode, hle⟩ := readCount_eq_ok.mp h
  exact readCount_eq_ok.mpr ⟨Leb128.decode?_append hdecode more, hle⟩

theorem readByte_eq_ok {field : DataField} {bs rest : Bytes} {b : UInt8} :
    readByte field bs = .ok (b, rest) ↔ bs = b :: rest := by
  cases bs <;> simp [readByte]

theorem readByte_steady (field : DataField) : Steady (readByte field) := by
  intro bs b rest h more
  rw [readByte_eq_ok.mp h]
  rfl

/-- Bytes are read if there are enough of them. -/
theorem readBytes_eq_ok {field : DataField} {n : Nat} {bs rest s : Bytes} :
    readBytes field n bs = .ok (s, rest) ↔ s.length = n ∧ bs = s ++ rest := by
  unfold readBytes
  split
  · next hle =>
    rw [Except.ok.injEq, Prod.mk.injEq]
    refine ⟨?_, ?_⟩
    · rintro ⟨rfl, rfl⟩
      exact ⟨List.length_take_of_le hle, (List.take_append_drop n bs).symm⟩
    · rintro ⟨rfl, rfl⟩
      exact ⟨List.take_left, List.drop_left⟩
  · next hle =>
    refine iff_of_false nofun ?_
    rintro ⟨rfl, rfl⟩
    simp at hle

theorem readBytes_steady (field : DataField) (n : Nat) : Steady (readBytes field n) := by
  intro bs s rest h more
  obtain ⟨hlen, rfl⟩ := readBytes_eq_ok.mp h
  exact readBytes_eq_ok.mpr ⟨hlen, List.append_assoc s rest more⟩

/-- A text is read up to the end that its length says. -/
theorem readString_steady (length : CountField) (field : DataField) :
    Steady (readString length field) :=
  (readCount_steady length).bind fun n => readBytes_steady field n

theorem readFunction_steady : Steady readFunction :=
  (readString_steady _ _).bind fun _ => (readCount_steady _).bind fun _ =>
    (readCount_steady _).bind fun _ => (readCount_steady _).bind fun _ =>
      (readByte_steady _).bind fun _ => .pure _

/-- Inversion for `readInstruction`: five bytes, of which the first is the code of an operation. -/
theorem readInstruction_eq_ok {number : Nat} {bs rest : Bytes} {i : Instruction} :
    readInstruction number bs = .ok (i, rest) ↔ ∃ a b c d, bs = i.code :: a :: b :: c :: d :: rest ∧
      i.op?.isSome ∧ i.arg = decodeArg a b c d := by
  obtain ⟨code, arg⟩ := i
  unfold readInstruction
  split
  · next code' a b c d rest' =>
    split
    · next op hop =>
      simp only [Except.ok.injEq, Prod.mk.injEq, Instruction.mk.injEq, List.cons.injEq,
        Instruction.op?]
      refine ⟨?_, ?_⟩
      · rintro ⟨⟨rfl, rfl⟩, rfl⟩
        exact ⟨a, b, c, d, by simp, by simp [hop], rfl⟩
      · rintro ⟨a', b', c', d', ⟨rfl, rfl, rfl, rfl, rfl, rfl⟩, -, rfl⟩
        simp
    · next hop =>
      refine iff_of_false (by simp) ?_
      rintro ⟨a', b', c', d', heq, hsome, -⟩
      cases heq
      simp [Instruction.op?, hop] at hsome
  · next hshort =>
    refine iff_of_false (by simp) ?_
    rintro ⟨a, b, c, d, rfl, -⟩
    exact hshort _ _ _ _ _ _ rfl

theorem readInstruction_steady (number : Nat) : Steady (readInstruction number) := by
  intro bs i rest h more
  obtain ⟨a, b, c, d, rfl, hop, harg⟩ := readInstruction_eq_ok.mp h
  exact readInstruction_eq_ok.mpr ⟨a, b, c, d, rfl, hop, harg⟩

/-- Several things one after the other, if each is read steadily. -/
theorem readMany_steady {read : Nat → Reader α} (h : ∀ i, Steady (read i)) (n i : Nat) :
    Steady (readMany read n i) := by
  induction n generalizing i with
  | zero => exact .pure []
  | succ n ih => exact (h i).bind fun _ => (ih (i + 1)).bind fun _ => .pure _

/-- A program is read up to its last instruction, whatever follows. The check that nothing follows
comes afterwards. -/
theorem readBody_steady : Steady readBody := by
  refine (readByte_steady _).bind fun v => ?_
  dsimp only
  split
  · intro bs p rest h
    cases h
  · exact (readCount_steady _).bind fun _ =>
      (readMany_steady (fun _ => readString_steady _ _) _ _).bind fun _ =>
      (readCount_steady _).bind fun _ =>
      (readMany_steady (fun _ => readFunction_steady) _ _).bind fun _ =>
      (readCount_steady _).bind fun _ =>
      (readMany_steady readInstruction_steady _ _).bind fun _ => .pure _

/-! ## Shorter bytes -/

/-- A number that an image may hold. -/
abbrev Countable (n : Int) : Prop := 0 ≤ n ∧ n ≤ 2 ^ 24

/-- Numbers may be written with more bytes than they need, and never with fewer. So writing again
what was read does not take more. -/
theorem readCount_spares {field : CountField} {bs rest : Bytes} {n : Nat}
    (h : readCount field bs = .ok (n, rest)) :
    Countable n ∧ (encodeCount n).length + rest.length ≤ bs.length := by
  obtain ⟨hdecode, hle⟩ := readCount_eq_ok.mp h
  have hle : n ≤ 2 ^ 24 := hle
  have hmod : ((n : Int) % 0x100000000).toNat = n := by omega
  rw [encodeCount, hmod]
  exact ⟨by omega, Leb128.length_encode_le hdecode⟩

/-- A text written again does not take more bytes than were read. -/
theorem readString_spares {length : CountField} {field : DataField} {bs rest s : Bytes}
    (h : readString length field bs = .ok (s, rest)) :
    Countable s.length ∧ (encodeString s).length + rest.length ≤ bs.length := by
  obtain ⟨n, mid, hn, hs⟩ := reader_bind_eq_ok.mp h
  obtain ⟨rfl, rfl⟩ := readBytes_eq_ok.mp hs
  obtain ⟨hcount, hlen⟩ := readCount_spares hn
  refine ⟨hcount, ?_⟩
  simp only [encodeString, List.length_append] at hlen ⊢
  omega

/-- An entry of the table written again does not take more bytes than were read. -/
theorem readFunction_spares {bs rest : Bytes} {f : Function}
    (h : readFunction bs = .ok (f, rest)) :
    (∀ n ∈ f.numbers, Countable n) ∧ (encodeFunction f).length + rest.length ≤ bs.length := by
  simp only [readFunction, reader_bind_eq_ok, reader_pure_eq_ok] at h
  obtain ⟨name, bs₁, hname, entry, bs₂, hentry, params, bs₃, hparams, locals, bs₄, hlocals, flags,
    bs₅, hflags, rfl, rfl⟩ := h
  obtain ⟨hname, hlen₁⟩ := readString_spares hname
  obtain ⟨hentry, hlen₂⟩ := readCount_spares hentry
  obtain ⟨hparams, hlen₃⟩ := readCount_spares hparams
  obtain ⟨hlocals, hlen₄⟩ := readCount_spares hlocals
  rw [readByte_eq_ok.mp hflags] at hlen₄
  refine ⟨?_, ?_⟩
  · simp only [Function.numbers, List.forall_mem_cons, List.not_mem_nil, false_implies,
      implies_true, and_true]
    exact ⟨hname, hentry, hparams, hlocals⟩
  · simp only [encodeFunction, List.length_append, List.length_cons, List.length_nil] at hlen₄ ⊢
    omega

/-- An instruction that was read has an operation, and written again it does not take more bytes
than were read. -/
theorem readInstruction_spares {number : Nat} {bs rest : Bytes} {i : Instruction}
    (h : readInstruction number bs = .ok (i, rest)) :
    i.op?.isSome ∧ (encodeInstruction i).length + rest.length ≤ bs.length := by
  obtain ⟨a, b, c, d, rfl, hop, -⟩ := readInstruction_eq_ok.mp h
  refine ⟨hop, ?_⟩
  simp only [encodeInstruction, encodeArg, List.length_cons, List.length_nil]
  omega

/-- Several things one after the other, if it is so for each. -/
theorem readMany_spares {read : Nat → Reader α} {write : α → Bytes} {P : α → Prop}
    (h : ∀ {i bs a rest}, read i bs = .ok (a, rest) →
      P a ∧ (write a).length + rest.length ≤ bs.length)
    {n i : Nat} {bs rest : Bytes} {as : List α} (has : readMany read n i bs = .ok (as, rest)) :
    as.length = n ∧ (∀ a ∈ as, P a) ∧ (as.flatMap write).length + rest.length ≤ bs.length := by
  induction n generalizing i bs as with
  | zero =>
    obtain ⟨rfl, rfl⟩ := reader_pure_eq_ok.mp has
    simp
  | succ n ih =>
    simp only [readMany, reader_bind_eq_ok, reader_pure_eq_ok] at has
    obtain ⟨a, mid, ha, more, _, hmore, rfl, rfl⟩ := has
    obtain ⟨hP, hlen⟩ := h ha
    obtain ⟨rfl, hall, hlen'⟩ := ih hmore
    refine ⟨rfl, List.forall_mem_cons.mpr ⟨hP, hall⟩, ?_⟩
    rw [List.flatMap_cons, List.length_append]
    omega

/-- A program that was read is one that can be written, and it does not take more bytes than were
read. -/
theorem readBody_spares {bs rest : Bytes} {p : Program} (h : readBody bs = .ok (p, rest)) :
    (∀ n ∈ p.numbers, Countable n) ∧ (∀ i ∈ p.code, i.op?.isSome) ∧
      (encode p).length + rest.length ≤ magic.length + bs.length := by
  obtain ⟨v, bs₀, hv, hparts⟩ := reader_bind_eq_ok.mp h
  obtain rfl := readByte_eq_ok.mp hv
  split at hparts
  · cases hparts
  simp only [reader_bind_eq_ok, reader_pure_eq_ok] at hparts
  obtain ⟨n₁, bs₁, hn₁, strings, bs₂, hstrings, n₂, bs₃, hn₂, functions, bs₄, hfunctions, n₃, bs₅,
    hn₃, code, _, hcode, rfl, rfl⟩ := hparts
  obtain ⟨hn₁, hlen₁⟩ := readCount_spares hn₁
  obtain ⟨rfl, hstrings, hlen₂⟩ := readMany_spares readString_spares hstrings
  obtain ⟨hn₂, hlen₃⟩ := readCount_spares hn₂
  obtain ⟨rfl, hfunctions, hlen₄⟩ := readMany_spares readFunction_spares hfunctions
  obtain ⟨hn₃, hlen₅⟩ := readCount_spares hn₃
  obtain ⟨rfl, hcode, hlen₆⟩ := readMany_spares readInstruction_spares hcode
  refine ⟨?_, hcode, ?_⟩
  · simp only [Program.numbers, List.forall_mem_append, List.forall_mem_cons, List.forall_mem_map,
      List.forall_mem_flatMap, List.not_mem_nil, false_implies, implies_true, and_true]
    exact ⟨⟨⟨hn₁, hstrings⟩, hn₂, hfunctions⟩, hn₃⟩
  · simp only [encode, List.length_append, List.length_cons, List.length_nil]
    omega

/-! ## Whole images -/

/-- An image is the magic word and what is read after it, to the end. -/
theorem decode_eq_ok {bs : Bytes} {p : Program} :
    decode bs = .ok p ↔ ∃ body, bs = magic ++ body ∧ readBody body = .ok (p, []) := by
  unfold decode
  split
  · next hmagic =>
    obtain ⟨body, rfl⟩ := List.isPrefixOf_iff_prefix.mp hmagic
    rw [List.drop_left]
    refine ⟨?_, ?_⟩
    · intro h
      split at h
      · cases h
      · next hread =>
        cases h
        exact ⟨body, rfl, hread⟩
      · cases h
    · rintro ⟨body', heq, hread⟩
      obtain rfl := List.append_cancel_left heq
      rw [hread]
  · next hmagic =>
    refine iff_of_false nofun ?_
    rintro ⟨body, rfl, -⟩
    exact hmagic (List.isPrefixOf_iff_prefix.mpr (List.prefix_append _ _))

/-- An image with more bytes behind it is refused for them. -/
theorem decode_append {d more : Bytes} {p : Program} (h : decode d = .ok p) (hmore : more ≠ []) :
    decode (d ++ more) = .error .trailingData := by
  obtain ⟨body, rfl, hread⟩ := decode_eq_ok.mp h
  obtain ⟨b, more, rfl⟩ := List.exists_cons_of_ne_nil hmore
  have hmagic : magic.isPrefixOf (magic ++ body ++ b :: more) = true := by
    rw [List.append_assoc]
    exact List.isPrefixOf_iff_prefix.mpr (List.prefix_append _ _)
  rw [decode, if_pos hmagic, List.append_assoc, List.drop_left,
    readBody_steady _ _ _ hread (b :: more)]
  rfl

/-- Bytes with a continuation that is an image are refused: they are too short. -/
theorem decode_of_append {d more : Bytes} {p : Program} (h : decode (d ++ more) = .ok p)
    (hmore : more ≠ []) : ∃ e, decode d = .error e := by
  cases hd : decode d with
  | error e => exact ⟨e, rfl⟩
  | ok q =>
    rw [decode_append hd hmore] at h
    cases h

/-- What is read has an image that is read back and no longer than the one that was read. -/
theorem decode_normal {d : Bytes} {p : Program} (h : decode d = .ok p) :
    decode (encode p) = .ok p ∧ (encode p).length ≤ d.length := by
  obtain ⟨body, rfl, hread⟩ := decode_eq_ok.mp h
  obtain ⟨hnumbers, hcode, hlen⟩ := readBody_spares hread
  obtain ⟨body', hbody', hback⟩ := readBody_recovers fun n hn => by
    have := hnumbers n hn
    omega
  refine ⟨decode_eq_ok.mpr ⟨body', hbody', ?_⟩, ?_⟩
  · have hback := (hback []).1 ⟨fun n hn => (hnumbers n hn).2, hcode⟩
    rwa [List.append_nil] at hback
  · rwa [List.length_append]

/-- **Images are read whole.** If bytes are an image, then nothing shorter that they start with and
nothing longer that starts with them is one; each is refused with an error of the format. The
program that was read is read back from the image that is written for it, and that image is no
longer than the bytes. -/
theorem decode_whole {d : Bytes} {p : Program} (h : decode d = .ok p) :
    (∀ d', d' <+: d → d' ≠ d → ∃ e, decode d' = .error e ∧
      "invalid bytecode format: ".toList <+: e.message.toList) ∧
    (∀ d', d <+: d' → d' ≠ d → ∃ e, decode d' = .error e ∧
      "invalid bytecode format: ".toList <+: e.message.toList) ∧
    decode (encode p) = .ok p ∧ (encode p).length ≤ d.length := by
  refine ⟨?_, ?_, decode_normal h⟩
  · rintro d' ⟨more, rfl⟩ hne
    obtain ⟨e, he⟩ := decode_of_append h (by simpa using hne)
    exact ⟨e, he, e.prefix_message⟩
  · rintro d' ⟨more, rfl⟩ hne
    exact ⟨_, decode_append h (by simpa using hne), FormatError.prefix_message _⟩

/-- An image that is not the one that is written: two of its numbers are padded, and the flag of its
function is neither 0 nor 1. -/
def padded : Bytes :=
  magic ++ [1, 0x80, 0, 1, 1, 102, 0, 0x85, 0x80, 0, 0, 2, 1, 3, 0, 0, 0, 0]

/-- An image whose number has padding is read. Cut off or with one more byte it is refused, and
written again it is shorter. -/
theorem decode_whole_padded :
    decode padded = .ok ⟨[.plain .pop], [⟨[102], 0, 5, 0, false⟩], []⟩ ∧
    (∃ e, decode (padded.take 15) = .error e ∧
      "invalid bytecode format: ".toList <+: e.message.toList) ∧
    (∃ e, decode (padded ++ [0]) = .error e ∧
      "invalid bytecode format: ".toList <+: e.message.toList) ∧
    (encode ⟨[.plain .pop], [⟨[102], 0, 5, 0, false⟩], []⟩).length ≤ padded.length := by
  have h : decode padded = .ok ⟨[.plain .pop], [⟨[102], 0, 5, 0, false⟩], []⟩ := by decide
  obtain ⟨hcut, hlonger, -, hlen⟩ := decode_whole h
  exact ⟨h, hcut _ (List.take_prefix _ _) (by decide),
    hlonger _ (List.prefix_append _ _) (by decide), hlen⟩

end Image

end Code

end Stackling
