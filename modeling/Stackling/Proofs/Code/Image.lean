import Mathlib.Algebra.Order.Ring.Nat
import Stackling.Code.Image

/-!
# Images are read back

Reading the image of a program gives the program, or nothing. The image is a sequence of parts, and
`Recovers read bytes a admitted` says what is known of one part: where `bytes` stand in front of any
rest, `read` takes exactly them and gives `a` if `a` is admitted, and fails if it is not. Parts that
follow one another are `Recovers.bind`; since a failure ends the reading, the first part that is not
admitted decides.

Numbers are written in 32 bits and read up to `maxCount` only, so a program may have an image that
is refused. It never has one that is read as another program.
-/

namespace Stackling

/-! ## Numbers -/

/-- A byte without the high bit is a number, and its last byte. -/
theorem Leb128.decode?_ofNat {n : Nat} (h : n < 128) (limit : Nat) (rest : Bytes) :
    decode? (limit + 1) (UInt8.ofNat n :: rest) = some (n, rest) := by
  have hbyte : (UInt8.ofNat n).toNat = n := UInt8.toNat_ofNat_of_lt (show n < 256 by omega)
  rw [decode?, if_pos (by rw [UInt8.lt_iff_toNat_lt, hbyte]; exact h), hbyte]

theorem Leb128.decode?_encode {limit n : Nat} (h : n < 128 ^ (limit + 1)) (rest : Bytes) :
    decode? (limit + 1) (encode n ++ rest) = some (n, rest) := by
  induction limit generalizing n with
  | zero =>
    have hn : n < 128 := by simpa using h
    rw [encode, if_pos hn]
    exact decode?_ofNat hn 0 rest
  | succ limit ih =>
    rw [encode]
    split
    · next hn => exact decode?_ofNat hn (limit + 1) rest
    · next hn =>
      -- the high bit of this byte is set, and the other seven are the lowest of the number
      have hbyte : (UInt8.ofNat (n % 128 + 128)).toNat = n % 128 + 128 :=
        UInt8.toNat_ofNat_of_lt (show n % 128 + 128 < 256 by omega)
      have hhigh : ¬UInt8.ofNat (n % 128 + 128) < 128 := by
        rw [UInt8.lt_iff_toNat_lt, hbyte]
        exact Nat.not_lt.mpr (Nat.le_add_left 128 _)
      have hdiv : n / 128 < 128 ^ (limit + 1) := by
        rw [Nat.div_lt_iff_lt_mul (by decide), ← Nat.pow_succ]
        exact h
      rw [List.cons_append, decode?, if_neg hhigh, ih hdiv, hbyte, Option.map_some]
      congr 2
      omega

/-! ## What is read back -/

namespace Code

/-- The numbers of an entry of the function table. -/
def Function.numbers (f : Function) : List Int :=
  [(f.name.length : Int), f.entry, f.params, f.locals]

/-- Every number that the image of a program holds. -/
def Program.numbers (p : Program) : List Int :=
  (p.strings.length : Int) :: p.strings.map (fun s => (s.length : Int)) ++
    (p.functions.length : Int) :: p.functions.flatMap Function.numbers ++ [(p.code.length : Int)]

/-- A program whose image is not refused: no number is too large, and every instruction has the
code of an operation. -/
def Program.Readable (p : Program) : Prop :=
  (∀ n ∈ p.numbers, n ≤ 2 ^ 24) ∧ ∀ i ∈ p.code, i.op?.isSome

end Code

/-! ## Arguments -/

namespace Code.Image

theorem decodeArg_encodeArg (a : Int32) : ∃ b₀ b₁ b₂ b₃, encodeArg a = [b₀, b₁, b₂, b₃] ∧
    decodeArg b₀ b₁ b₂ b₃ = a := by
  refine ⟨_, _, _, _, rfl, ?_⟩
  have hlt := a.toUInt32.toNat_lt
  have hsum : a.toUInt32.toNat % 256 + a.toUInt32.toNat / 0x100 % 256 * 0x100 +
      a.toUInt32.toNat / 0x10000 % 256 * 0x10000 +
      a.toUInt32.toNat / 0x1000000 % 256 * 0x1000000 = a.toUInt32.toNat := by
    omega
  simp only [decodeArg, UInt8.toNat_ofNat', Nat.reducePow, hsum]
  simp

/-! ## Parts of an image -/

/-- `read` gives `a` back from `bytes`, whatever follows them, if and only if it is admitted. -/
def Recovers {α : Type} (read : Reader α) (bytes : Bytes) (a : α) (admitted : Prop) : Prop :=
  ∀ rest, (admitted → read (bytes ++ rest) = .ok (a, rest)) ∧
    (¬admitted → ∃ e, read (bytes ++ rest) = .error e)

namespace Recovers

variable {α β : Type} {read : Reader α} {bytes bytes' : Bytes} {a : α} {b : β} {P Q : Prop}

theorem of_eq (h : ∀ rest, read (bytes ++ rest) = .ok (a, rest)) : Recovers read bytes a True :=
  fun rest => ⟨fun _ => h rest, fun hn => absurd trivial hn⟩

/-- One part after the other. -/
theorem bind {next : α → Reader β} (h : Recovers read bytes a P)
    (hnext : Recovers (next a) bytes' b Q) :
    Recovers (read >>= next) (bytes ++ bytes') b (P ∧ Q) := by
  intro rest
  obtain ⟨hok, herr⟩ := h (bytes' ++ rest)
  obtain ⟨hok', herr'⟩ := hnext rest
  have hrun : ∀ bs, (read >>= next) bs = (read bs >>= fun r => next r.1 r.2) := fun _ => rfl
  rw [List.append_assoc, hrun]
  by_cases hP : P
  · rw [hok hP]
    exact ⟨fun hQ => hok' hQ.2, fun hQ => herr' fun hq => hQ ⟨hP, hq⟩⟩
  · obtain ⟨e, he⟩ := herr hP
    rw [he]
    exact ⟨fun hQ => absurd hQ.1 hP, fun _ => ⟨e, rfl⟩⟩

/-- The same with bytes and condition in another form. -/
theorem congr (h : Recovers read bytes a P) (hbytes : bytes' = bytes) (hPQ : Q ↔ P) :
    Recovers read bytes' a Q := by
  rw [hbytes, propext hPQ]
  exact h

end Recovers

/-- A number that fits 32 bits. -/
theorem readCount_recovers (field : CountField) {n : Int} (h : 0 ≤ n ∧ n < 2 ^ 32) :
    Recovers (readCount field) (encodeCount n) n.toNat (n ≤ 2 ^ 24) := by
  intro rest
  have hmod : (n % 0x100000000).toNat = n.toNat := by omega
  have hlt : n.toNat < 128 ^ (9 + 1) := by omega
  have hread : Leb128.decode? Leb128.maxBytes (encodeCount n ++ rest) = some (n.toNat, rest) := by
    rw [encodeCount, hmod]
    exact Leb128.decode?_encode hlt rest
  simp only [readCount, hread, maxCount]
  refine ⟨fun hn => if_pos (by omega), fun hn => ⟨_, if_neg (by omega)⟩⟩

theorem readByte_recovers (field : DataField) (b : UInt8) :
    Recovers (readByte field) [b] b True :=
  .of_eq fun _ => rfl

theorem readBytes_recovers (field : DataField) (s : Bytes) :
    Recovers (readBytes field s.length) s s True := by
  refine .of_eq fun rest => ?_
  simp [readBytes]

theorem readString_recovers (length : CountField) (field : DataField) {s : Bytes}
    (h : (s.length : Int) < 2 ^ 32) :
    Recovers (readString length field) (encodeString s) s ((s.length : Int) ≤ 2 ^ 24) := by
  refine ((readCount_recovers length ⟨by omega, h⟩).bind (b := s) (Q := True) ?_).congr rfl
    (and_true _).symm.to_iff
  exact readBytes_recovers field s

theorem readFunction_recovers {f : Function} (h : ∀ n ∈ f.numbers, 0 ≤ n ∧ n < 2 ^ 32) :
    Recovers readFunction (encodeFunction f) f (∀ n ∈ f.numbers, n ≤ 2 ^ 24) := by
  obtain ⟨name, entry, params, locals, returns⟩ := f
  simp only [Function.numbers, List.forall_mem_cons, List.not_mem_nil, false_implies, implies_true,
    and_true] at h ⊢
  obtain ⟨hname, hentry, hparams, hlocals⟩ := h
  have hflag : ((if returns then 1 else 0 : UInt8) == 1) = returns := by cases returns <;> rfl
  have hpure : ∀ rest, (pure ⟨name, entry.toNat, params.toNat, locals.toNat,
      (if returns then 1 else 0 : UInt8) == 1⟩ : Reader Function) ([] ++ rest) =
        .ok (⟨name, entry, params, locals, returns⟩, rest) := by
    intro rest
    rw [hflag, Int.toNat_of_nonneg hentry.1, Int.toNat_of_nonneg hparams.1,
      Int.toNat_of_nonneg hlocals.1]
    rfl
  unfold readFunction
  refine .congr (.bind (readString_recovers _ _ hname.2) <| .bind (readCount_recovers _ hentry) <|
    .bind (readCount_recovers _ hparams) <| .bind (readCount_recovers _ hlocals) <|
    .bind (readByte_recovers _ _) <| .of_eq hpure) ?_ ?_
  · simp [encodeFunction]
  · simp

/-- An instruction is refused if its code is no operation's. -/
theorem readInstruction_recovers (i : Instruction) (number : Nat) :
    Recovers (readInstruction number) (encodeInstruction i) i (i.op?.isSome) := by
  intro rest
  obtain ⟨b₀, b₁, b₂, b₃, hbytes, harg⟩ := decodeArg_encodeArg i.arg
  rw [encodeInstruction, hbytes]
  simp only [List.cons_append, List.nil_append, readInstruction, Instruction.op?]
  rcases Opcode.ofByte? i.code with _ | op <;> simp [harg]

/-- A list of parts, one after the other. -/
theorem readMany_recovers {α : Type} {read : Nat → Reader α} {write : α → Bytes} {P : α → Prop}
    {as : List α} (h : ∀ a ∈ as, ∀ i, Recovers (read i) (write a) a (P a)) (i : Nat) :
    Recovers (readMany read as.length i) (as.flatMap write) as (∀ a ∈ as, P a) := by
  induction as generalizing i with
  | nil => exact (Recovers.of_eq fun _ => rfl).congr rfl (by simp)
  | cons a as ih =>
    have hcons : Recovers (pure (a :: as)) [] (a :: as) True := .of_eq fun _ => rfl
    have htail := ih (fun b hb => h b (by simp [hb])) (i + 1)
    exact ((h a (by simp) i).bind (htail.bind hcons)).congr (by simp) (by simp)

/-- Everything after the magic word. -/
theorem readBody_recovers {p : Program} (h : ∀ n ∈ p.numbers, 0 ≤ n ∧ n < 2 ^ 32) :
    ∃ body, encode p = magic ++ body ∧ Recovers readBody body p p.Readable := by
  obtain ⟨code, functions, strings⟩ := p
  simp only [Program.numbers, List.forall_mem_append, List.forall_mem_cons, List.forall_mem_map,
    List.forall_mem_flatMap, List.not_mem_nil, false_implies, implies_true, and_true] at h
  obtain ⟨⟨⟨hstrs, hlens⟩, hfuns, hnums⟩, hcode⟩ := h
  have hstring (s : Bytes) (hs : s ∈ strings) (_ : Nat) :=
    readString_recovers .stringLength .string (hlens s hs).2
  have hfunction (f : Function) (hf : f ∈ functions) (_ : Nat) :=
    readFunction_recovers (hnums f hf)
  have hinstruction (i : Instruction) (_ : i ∈ code) := readInstruction_recovers i
  have hstrings := readMany_recovers hstring 0
  have hfunctions := readMany_recovers hfunction 0
  have hinstructions := readMany_recovers hinstruction 0
  refine ⟨[version] ++ (encodeCount strings.length ++ (strings.flatMap encodeString ++
    (encodeCount functions.length ++ (functions.flatMap encodeFunction ++
    (encodeCount code.length ++ (code.flatMap encodeInstruction ++ [])))))), by simp [encode], ?_⟩
  unfold readBody
  refine .congr (.bind (readByte_recovers _ _) <| .bind (Q := _) (readCount_recovers _ hstrs) <|
    .bind hstrings <| .bind (readCount_recovers _ hfuns) <| .bind hfunctions <|
    .bind (readCount_recovers _ hcode) <| .bind hinstructions <| .of_eq fun _ => rfl) rfl ?_
  simp only [Program.Readable, Program.numbers, List.forall_mem_append, List.forall_mem_cons,
    List.forall_mem_map, List.forall_mem_flatMap, List.not_mem_nil, false_implies, implies_true,
    and_true, true_and, and_assoc]

/-- Reading the image of a program succeeds or fails, and which of the two depends on whether the
program is readable. -/
theorem decode_image_cases {p : Program} (h : ∀ n ∈ p.numbers, 0 ≤ n ∧ n < 2 ^ 32) :
    (p.Readable ∧ decode (encode p) = .ok p) ∨
      (¬p.Readable ∧ ∃ e, decode (encode p) = .error e) := by
  obtain ⟨body, hbody, hread⟩ := readBody_recovers h
  obtain ⟨hok, herr⟩ := hread []
  rw [List.append_nil] at hok herr
  have hmagic : magic.isPrefixOf (magic ++ body) = true :=
    List.isPrefixOf_iff_prefix.mpr (List.prefix_append _ _)
  rw [decode, hbody, if_pos hmagic, List.drop_left]
  by_cases hp : p.Readable
  · exact .inl ⟨hp, by rw [hok hp]⟩
  · obtain ⟨e, he⟩ := herr hp
    exact .inr ⟨hp, e, by rw [he]⟩

/-- **An image is read back or refused.** For every program whose numbers fit 32 bits, reading its
image gives the program if it is readable, and fails if it is not. -/
theorem decode_encode {p : Program} (h : ∀ n ∈ p.numbers, 0 ≤ n ∧ n < 2 ^ 32) :
    (p.Readable → decode (encode p) = .ok p) ∧
      (¬p.Readable → ∃ e, decode (encode p) = .error e) := by
  obtain ⟨hp, hok⟩ | ⟨hp, herr⟩ := decode_image_cases h
  · exact ⟨fun _ => hok, fun hnot => absurd hp hnot⟩
  · exact ⟨fun hread => absurd hread hp, fun _ => herr⟩

/-- A program with every kind of part, and negative arguments; `last` is the code of its last
instruction and `entry` the entry of its function. -/
def sample (last : UInt8) (entry : Int) : Program where
  code := [.withArg .pushStr 0, .withArg .branch (-1), ⟨last, -2147483648⟩]
  functions := [⟨[102, 255], entry, 200, 3, true⟩]
  strings := [[104, 105]]

/-- It is read back, unless the code is no operation's or the entry is beyond `2 ^ 24`. -/
theorem decode_encode_sample :
    decode (encode (sample Opcode.print.toByte 16777216)) =
      .ok (sample Opcode.print.toByte 16777216) ∧
    (∃ e, decode (encode (sample 20 16777216)) = .error e) ∧
    ∃ e, decode (encode (sample Opcode.print.toByte 16777217)) = .error e :=
  ⟨(decode_encode (by decide)).1 ⟨by decide, by decide⟩,
    (decode_encode (by decide)).2 fun h => absurd h.2 (by decide),
    (decode_encode (by decide)).2 fun h => absurd h.1 (by decide)⟩

end Code.Image

end Stackling
