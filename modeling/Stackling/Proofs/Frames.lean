import Stackling.Proofs.Code.Frames
import Stackling.Proofs.Code.Tables
import Stackling.Proofs.Places
import Stackling.Proofs.Safety
import Stackling.Proofs.Token.Written

/-!
# Calls keep to their frames

When a compiled program calls a function, its arguments are on top of the stack. What lies below
them belongs to the callers. Until the call returns no instruction touches it, however deep the
calls go in between, and then it is there as it was, with the result on top if the function has
one, and the caller goes on right after the call (`call_keeps_frame`).

The machine does not see to this. It comes from the stack map of the program: every instruction
keeps to the innermost frame, and the innermost frame never lies below one that is still open.

All this is about code that is not too long for the arguments of instructions, which have 32 bits.
Otherwise a branch may go anywhere (`call_loses_result`).
-/

namespace Stackling

open Machine (Accesses Inside State Value argument?)

/-- How a call of `f` goes that was made in `s` and opened its frame in `s₁`, with the values
`below` under its arguments. -/
structure KeepsFrame (task : Machine.Task) (s s₁ : State) (f : Code.Function)
    (below : List Value) : Prop where
  /-- no instruction reads, writes or pops a cell below the frame -/
  untouched : ∀ {s₂ : State} {i : Code.Instruction} {c : Int}, Inside task s₁ s₂ →
    task.code[s₂.pc]? = some i → Accesses s₂ i c → (below.length : Int) ≤ c
  /-- these cells keep their values -/
  kept : ∀ {s₂ : State}, Inside task s₁ s₂ → below <+: s₂.stack.toList
  /-- the call is left by a return only -/
  left : ∀ {s₂ s₃ : State} {i : Code.Instruction}, Inside task s₁ s₂ →
    task.code[s₂.pc]? = some i → Machine.execute task s₂ i = .next s₃ →
    s₃.frames.length < s₁.frames.length →
    i.op? = some .ret ∧ s₂.frames.length = s₁.frames.length
  /-- its return drops the frame, leaves a result if there is one, and goes on after the call -/
  returned : ∀ {s₂ : State} {arg : Int32}, Inside task s₁ s₂ →
    s₂.frames.length = s₁.frames.length → task.code[s₂.pc]? = some (.withArg .ret arg) →
    ∃ s₃, Machine.execute task s₂ (.withArg .ret arg) = .next s₃ ∧ s₃.pc = s.pc + 1 ∧
      s₃.frames = s.frames ∧ (f.returns = false → s₃.stack.toList = below) ∧
      (f.returns = true → ∃ v, s₃.stack.toList = below ++ [v])

section Mapped

variable {unit : Compiled} {entry : String} {map : Nat → Option Code.Spot}
  (hm : unit.Mapped entry map) {s₁ s₂ : State}
include hm

/-- Inside a call runs conform to the map, and the frames that were open are still there. -/
theorem Compiled.Mapped.inside (hs₁ : Code.Conforms map s₁.config) (hfits : s₁.Fits)
    (h : Inside (.ofProgram unit.program) s₁ s₂) :
    Code.Conforms map s₂.config ∧ s₂.Fits ∧ s₁.frames <:+ s₂.frames := by
  induction h with
  | refl => exact ⟨hs₁, hfits, List.suffix_rfl⟩
  | next _ hi ho hopen ih =>
    obtain ⟨hconf, hfits, hsuff⟩ := ih
    obtain ⟨hstep, hconf', hfits'⟩ := hm.closed.step hconf hfits hi ho
    exact ⟨hconf', hfits', hstep.suffix hsuff hopen⟩

/-- Inside a call nothing below its frame is touched. -/
theorem Compiled.Mapped.base_le (hs₁ : Code.Conforms map s₁.config) (hfits : s₁.Fits)
    (h : Inside (.ofProgram unit.program) s₁ s₂) {i : Code.Instruction} {c : Int}
    (hi : (Machine.Task.ofProgram unit.program).code[s₂.pc]? = some i) (hc : Accesses s₂ i c) :
    (s₁.base : Int) ≤ c := by
  obtain ⟨hconf, -, hsuff⟩ := hm.inside hs₁ hfits h
  exact hconf.base_le hm.rules hsuff hi hc

/-- Inside a call the values below its frame stay. -/
theorem Compiled.Mapped.below_prefix (hs₁ : Code.Conforms map s₁.config) (hfits : s₁.Fits)
    {below : List Value} (hbelow : below <+: s₁.stack.toList) (hlen : below.length = s₁.base)
    (h : Inside (.ofProgram unit.program) s₁ s₂) : below <+: s₂.stack.toList := by
  induction h with
  | refl => exact hbelow
  | next h hi ho _ ih =>
    refine Machine.prefix_of_execute ih ?_ ho
    intro c hc
    rw [hlen]
    exact hm.base_le hs₁ hfits h hi hc

/-- A call is left by a return only. -/
theorem Compiled.Mapped.ret_of_lt (hs₁ : Code.Conforms map s₁.config) (hfits : s₁.Fits)
    (h : Inside (.ofProgram unit.program) s₁ s₂) {s₃ : State} {i : Code.Instruction}
    (hi : (Machine.Task.ofProgram unit.program).code[s₂.pc]? = some i)
    (ho : Machine.execute (.ofProgram unit.program) s₂ i = .next s₃)
    (hlt : s₃.frames.length < s₁.frames.length) :
    i.op? = some .ret ∧ s₂.frames.length = s₁.frames.length := by
  obtain ⟨hconf, hfits₂, hsuff⟩ := hm.inside hs₁ hfits h
  have hle := hsuff.length_le
  have hframes := (hm.closed.step hconf hfits₂ hi ho).1.frames
  simp only [State.config] at hframes
  obtain hframes | ⟨frame, hframes⟩ | ⟨frame, arg, hframes, hret⟩ := hframes
  · rw [hframes] at hlt
    omega
  · rw [hframes, List.length_cons] at hlt
    omega
  · obtain rfl := Option.some.inj (hi.symm.trans hret)
    refine ⟨Code.Instruction.op?_withArg _ _, ?_⟩
    rw [hframes, List.length_cons] at hle ⊢
    omega

end Mapped

/-- The function table tells whether there is a result. -/
theorem eq_of_fits_results {g : Symbols.Function} {result : List Value}
    (h : FitsAll result (Code.results g.returns)) (entry : Nat) :
    ((Code.describe g entry).returns = false → result = []) ∧
      ((Code.describe g entry).returns = true → ∃ v, result = [v]) := by
  by_cases hvoid : g.returns = .void
  · have hnil : result = [] := by
      rw [hvoid] at h
      cases h
      rfl
    simp [Code.describe, hvoid, hnil]
  · rw [Code.results_of_ne_void hvoid] at h
    obtain ⟨v, us, -, hus, rfl⟩ := List.forall₂_cons_right_iff.mp h
    cases hus
    simp [Code.describe, hvoid]

/-- **Calls keep to their frames.** Arguments of instructions have 32 bits. In code that is too long
for them an address or a slot may wrap around, and a negative slot lies below the frame. -/
theorem call_keeps_frame {source : Bytes} {entry : String} {unit : Compiled}
    (hc : compile source entry = .ok unit) (hcode : unit.program.code.length < 2 ^ 31)
    {s : State} (hs : unit.Reaches s) {arg : Int32}
    (hi : unit.program.code[s.pc]? = some (.withArg .call arg)) :
    ∃ f below args s₁, argument? unit.program.functions.toArray arg = some f ∧
      s.stack.toList = below ++ args ∧ (args.length : Int) = f.params ∧
      Machine.execute (.ofProgram unit.program) s (.withArg .call arg) = .next s₁ ∧
      s₁.base = below.length ∧ KeepsFrame (.ofProgram unit.program) s s₁ f below := by
  obtain ⟨hstrs, hfuns⟩ := Code.emit_tables (compile_eq_ok hc).2.2
  obtain ⟨map, hm⟩ := exists_mapped hc hcode (by omega) (by omega)
  obtain ⟨hconf, hfits⟩ := hm.conforms hs
  have hat : (Machine.Task.ofProgram unit.program).At s.pc .call arg := by
    simpa [Machine.Task.At, Machine.Task.ofProgram] using hi
  obtain ⟨f, g, start, own, below, args, s₁, hnext, hf, hvalues, hargs, hlen, ho, hconfig⟩ :=
    hconf.call hm.rules hfits hat
  obtain ⟨-, hs₁, hfits₁⟩ := hm.closed.step hconf hfits hat ho
  have hframes : s₁.frames = ⟨s.pc + 1, below.length⟩ :: s.frames :=
    congrArg Machine.Config.frames hconfig
  have hbase : s₁.base = below.length := by rw [State.base, hframes]; rfl
  have hbelow : below <+: s₁.stack.toList := by
    rw [show s₁.stack.toList = _ from congrArg Machine.Config.values hconfig]
    exact ⟨args, hvalues.symm⟩
  refine ⟨_, below, args, s₁, hf, hvalues, congrArg _ hargs, ho, hbase, ?_, ?_, ?_, ?_⟩
  · intro s₂ i c h₂ hi hc
    rw [← hbase]
    exact hm.base_le hs₁ hfits₁ h₂ hi hc
  · exact hm.below_prefix hs₁ hfits₁ hbelow hbase.symm
  · exact fun h₂ hi ho hlt => hm.ret_of_lt hs₁ hfits₁ h₂ hi ho hlt
  · intro s₂ arg₂ h₂ hdepth hret
    obtain ⟨hconf₂, hfits₂, hsuff⟩ := hm.inside hs₁ hfits₁ h₂
    -- the call itself is the innermost one that is open
    have hframes₂ : s₂.frames = ⟨s.pc + 1, below.length⟩ :: s.frames := by
      rw [← hframes]
      exact (hsuff.eq_of_length hdepth.symm).symm
    obtain ⟨f₂, g₂, own₂, below₂, result, s₃, hback, hlen₂, hpre, hbase₂, hresult, ho₃, hpc,
      hout, hvalues₃⟩ := hconf₂.ret hm.rules hfits₂ hret hframes₂
    obtain rfl : below₂ = below :=
      (List.prefix_of_prefix_length_le hpre (hm.below_prefix hs₁ hfits₁ hbelow hbase.symm h₂)
        hbase₂.le).eq_of_length hbase₂
    -- the caller waits at one spot, which the call and the return describe alike
    have hresults : Code.results g.returns = Code.results f₂.returns := by
      have hspots := hnext.symm.trans hback
      simp only [Option.some.injEq, Code.Spot.mk.injEq] at hspots
      refine (List.append_inj hspots.2 ?_).2
      rw [State.base] at hlen
      omega
    rw [← hresults] at hresult
    obtain ⟨hnone, hone⟩ := eq_of_fits_results hresult start
    refine ⟨s₃, ho₃, hpc, hout, fun hr => ?_, fun hr => ?_⟩
    · rw [hvalues₃, hnone hr, List.append_nil]
    · obtain ⟨v, rfl⟩ := hone hr
      exact ⟨v, hvalues₃⟩

namespace Sample

/-- Calls a function while an operand is on the stack. -/
def adding : Bytes :=
  Bytes.ofString "function main() -> int \x7b return 1 + -> half(7); \x7d " ++
    Bytes.ofString "function half(n: int) -> int \x7b return n / 2; \x7d"

def addingTokens : List Token :=
  [key .function 1, name "main" 10, mark .lparen 14, mark .rparen 15, op .arrow 17, key .int 20,
    mark .lbrace 24, key .ret 26, number "1" 33, op .plus 35, op .arrow 37, name "half" 40,
    mark .lparen 44, number "7" 45, mark .rparen 46, mark .semicolon 47, mark .rbrace 49,
    key .function 51, name "half" 60, mark .lparen 64, name "n" 65, mark .colon 66, key .int 68,
    mark .rparen 71, op .arrow 73, key .int 76, mark .lbrace 80, key .ret 82, name "n" 89,
    op .divide 91, number "2" 93, mark .semicolon 94, mark .rbrace 96]

set_option maxRecDepth 100000 in
theorem adding_tokens : Token.ofText (Utf8.decode adding) = .ok addingTokens := by
  decide +kernel

def addingProgram : Code.Program where
  code := [.withArg .pushInt 1, .withArg .pushInt 7, .withArg .call 1, .plain .add,
    .withArg .ret 1, .withArg .loadLocal 0, .withArg .pushInt 2, .plain .div, .withArg .ret 1]
  functions := [⟨Bytes.ofString "main", 0, 0, 0, true⟩, ⟨Bytes.ofString "half", 5, 1, 0, true⟩]
  strings := []

theorem compile_adding :
    ((compile adding "").toOption.map fun unit => unit.program) = some addingProgram := by
  rw [compile_of_tokens adding_tokens]
  cbv

end Sample

/-- In `Sample.adding` the operand 1 is below the frame of `half`, and it still is when `half`
returns 3. -/
theorem call_keeps_frame_adding : ∃ unit s s₁ s₂ s₃ f, compile Sample.adding "" = .ok unit ∧
    unit.Reaches s ∧ unit.program.code[s.pc]? = some (.withArg .call 1) ∧
    KeepsFrame (.ofProgram unit.program) s s₁ f [.int 1] ∧
    Inside (.ofProgram unit.program) s₁ s₂ ∧
    Machine.execute (.ofProgram unit.program) s₂ (.withArg .ret 1) = .next s₃ ∧
    s₃.pc = s.pc + 1 ∧ ∃ v, s₃.stack.toList = [.int 1, v] := by
  obtain ⟨unit, hc, hprogram⟩ := map_toOption_eq_some.mp Sample.compile_adding
  have hcode : unit.program.code.length < 2 ^ 31 := by
    rw [hprogram]
    decide
  obtain ⟨s, s₁, s₂, hs, hstack, hi, ho, hin, hdepth, hret⟩ : ∃ s s₁ s₂, unit.Reaches s ∧
      s.stack.toList = [.int 1, .int 7] ∧ unit.program.code[s.pc]? = some (.withArg .call 1) ∧
      Machine.execute (.ofProgram unit.program) s (.withArg .call 1) = .next s₁ ∧
      Inside (.ofProgram unit.program) s₁ s₂ ∧ s₂.frames.length = s₁.frames.length ∧
      (Machine.Task.ofProgram unit.program).code[s₂.pc]? = some (.withArg .ret 1) := by
    simp only [Compiled.Reaches, hprogram]
    refine ⟨_, _, _, ⟨0, .next (.next .refl rfl rfl) rfl rfl⟩, rfl, rfl, rfl,
      .next (.next (.next .refl rfl rfl ?_) rfl rfl ?_) rfl rfl ?_, rfl, rfl⟩ <;> decide
  obtain ⟨f, below, args, s₁', hf, hvalues, hargs, ho', -, hkeeps⟩ :=
    call_keeps_frame hc hcode hs hi
  rw [ho] at ho'
  cases ho'
  obtain rfl : f = ⟨Bytes.ofString "half", 5, 1, 0, true⟩ := by
    rw [hprogram] at hf
    exact (Option.some.inj hf).symm
  -- the function has one parameter, so everything but the last value is below its frame
  obtain rfl : below = [.int 1] :=
    (List.append_inj_left' (hvalues.symm.trans hstack : below ++ args = [.int 1] ++ [.int 7])
      (Int.ofNat.inj hargs))
  obtain ⟨s₃, ho₃, hpc, -, -, hone⟩ := hkeeps.returned hin hdepth hret
  exact ⟨unit, s, s₁, s₂, s₃, _, hc, hs, hi, hkeeps, hin, ho₃, hpc, hone rfl⟩

/-! ## Code that is too long

A branch over too many instructions wraps around. `Sample.skipping n` has a function that branches
over `n` lines. It compiles for every `n` (`Sample.Skipping.exists_compiled`), and for the right one
the branch goes to the return of the caller. -/

namespace Sample

/-- Text of the program that is in front of the lines. -/
def Skipping.front : List Char :=
  "function main() \x7b -> f(); \x7d function f() -> int \x7b if 1 == 2 \x7b".toList

/-- A line. -/
def Skipping.line : List Char := " print();".toList

/-- What is behind the lines. -/
def Skipping.back : List Char := " \x7d return 5; \x7d".toList

/-- The main function calls one that leaves out `n` lines and returns 5. -/
def skipping (n : Nat) : Bytes :=
  Utf8.encode (Skipping.front ++ ((List.replicate n Skipping.line).flatten ++ Skipping.back))

namespace Skipping

open Grammar (Arrow Body Mark Phrase Terminal Word)

/-! ### Tokens -/

def frontTokens : List Token :=
  [key .function 1, name "main" 10, mark .lparen 14, mark .rparen 15, mark .lbrace 17,
    op .arrow 19, name "f" 22, mark .lparen 23, mark .rparen 24, mark .semicolon 25,
    mark .rbrace 27, key .function 29, name "f" 38, mark .lparen 39, mark .rparen 40,
    op .arrow 42, key .int 45, mark .lbrace 49, key .cond 51, number "1" 54, op .eq 56,
    number "2" 59, mark .lbrace 61]

def lineTokens : List Token := [key .print 2, mark .lparen 7, mark .rparen 8, mark .semicolon 9]

def backTokens : List Token :=
  [mark .rbrace 2, key .ret 4, number "5" 11, mark .semicolon 12, mark .rbrace 14]

set_option maxRecDepth 100000 in
theorem parts_tokens :
    (Token.ofText front = .ok frontTokens ∧ '/' ∉ front) ∧
    (Token.ofText line = .ok lineTokens ∧ '/' ∉ line) ∧
    Token.ofText back = .ok backTokens ∧ '/' ∉ back := by
  decide +kernel

/-- The contents of the lines. -/
def lineContents (n : Nat) : List (Kind × String) :=
  (List.replicate n (lineTokens.map Token.content)).flatten

/-- Behind each part is a blank, so that no token goes on in the next part. -/
theorem separated_lines (n : Nat) : Scan.Separated ((List.replicate n line).flatten ++ back) := by
  have hblank : Scan.Separates ' ' := Scan.separates_of_isBlank rfl
  cases n with
  | zero | succ n =>
    rintro c ⟨⟩
    exact hblank

/-- The lines are read one by one, and then what is behind them. -/
theorem readsAs_lines (n : Nat) : Scan.ReadsAs ((List.replicate n line).flatten ++ back)
    (lineContents n ++ backTokens.map Token.content) := by
  obtain ⟨-, ⟨hline, hlineSlash⟩, hback, hbackSlash⟩ := parts_tokens
  induction n with
  | zero =>
    have hnone : Scan.Separated [] := nofun
    have hreads := Scan.ReadsAs.append hback hbackSlash hnone Scan.readsAs_nil
    rwa [List.append_nil, List.append_nil] at hreads
  | succ n ih =>
    have hreads := Scan.ReadsAs.append hline hlineSlash (separated_lines n) ih
    rwa [← List.append_assoc, ← List.append_assoc] at hreads

/-- The program is read as the tokens of its parts. Only the kinds and texts are said; the positions
depend on all that is in front. -/
theorem exists_tokens (n : Nat) : ∃ ts, Token.ofText (Utf8.decode (skipping n)) = .ok ts ∧
    ts.map Token.content = frontTokens.map Token.content ++
      (lineContents n ++ backTokens.map Token.content) := by
  obtain ⟨⟨hfront, hslash⟩, -⟩ := parts_tokens
  exact (Scan.ReadsAs.append hfront hslash (separated_lines n) (readsAs_lines n)).exists_ofText

/-! ### Derivation

The tokens in the derivation have no places; they are not needed to know what it compiles to. -/

def wordOf (k : Keyword) : Word k := ⟨key k 0, rfl⟩
def markOf (d : Delimiter) : Mark d := ⟨mark d 0, rfl⟩
def arrow : Arrow := ⟨op .arrow 0, rfl⟩
def ident (s : String) : Terminal .ident := ⟨name s 0, rfl⟩

theorem digits_digit {c : Char} (h : c.isDigit = true) :
    (String.ofList [c]).toList ≠ [] ∧ ∀ d ∈ (String.ofList [c]).toList, d.isDigit = true := by
  simp [h]

theorem numeral_digit_le {c : Char} (h : c.isDigit = true) :
    Grammar.numeral (String.ofList [c]).toList ≤ 2147483647 := by
  have hc : c.toNat ≤ 57 := (Char.isDigit_iff_toNat.mp h).2
  rw [String.toList_ofList, Grammar.numeral, List.reverse_singleton, List.map_singleton,
    Nat.ofDigits_singleton]
  omega

/-- A number of one digit. -/
def digitOf (c : Char) (h : c.isDigit = true) : Grammar.Number where
  token := number (String.ofList [c]) 0
  kind_eq := rfl
  digits := digits_digit h
  small := numeral_digit_le h

/-- A digit as an operand. -/
def operand (c : Char) (h : c.isDigit = true) : Phrase .term :=
  .chain (.chain (.number (digitOf c h)) .nil) .nil

/-- The lines. -/
def lines : (n : Nat) → Body
  | 0 => .close (markOf .rbrace)
  | n + 1 => .cons
    (.print (wordOf .print) (markOf .lparen) (.close (markOf .rparen)) (markOf .semicolon))
    (lines n)

/-- The test `1 == 2`. -/
def test : Phrase .expr :=
  .chain (.comparison (operand '1' rfl) ⟨op .eq 0, .eq, rfl, rfl⟩ (operand '2' rfl)) .nil

/-- The statement that leaves out the lines. -/
def leaveOut (n : Nat) : Grammar.Stmt := .cond (wordOf .cond) test (markOf .lbrace) (lines n)

/-- The statement `return 5;`. -/
def giveFive : Grammar.Stmt :=
  .ret (wordOf .ret) (.chain (.single (operand '5' rfl)) .nil) (markOf .semicolon)

/-- The function `main`. -/
def caller : Grammar.Function where
  start := wordOf .function
  name := ident "main"
  lparen := markOf .lparen
  params := .close (markOf .rparen)
  returns := none
  lbrace := markOf .lbrace
  body := .cons
    (.call (.mk arrow (ident "f") (markOf .lparen) (.close (markOf .rparen))) (markOf .semicolon))
    (.close (markOf .rbrace))

/-- The function `f`. -/
def callee (n : Nat) : Grammar.Function where
  start := wordOf .function
  name := ident "f"
  lparen := markOf .lparen
  params := .close (markOf .rparen)
  returns := some (arrow, ⟨key .int 0, rfl⟩)
  lbrace := markOf .lbrace
  body := .cons (leaveOut n) (.cons giveFive (.close (markOf .rbrace)))

/-- The lines are derived from their tokens. -/
theorem content_lines (n : Nat) : (lines n).yield.map Token.content =
    lineContents n ++ [(Kind.delimiter .rbrace, "\x7d")] := by
  induction n with
  | zero => rfl
  | succ n ih =>
    rw [lines, Body.yield, List.map_append, ih, ← List.append_assoc]
    rfl

/-- The program is derived from its tokens. -/
theorem content_yield (n : Nat) : (Grammar.Program.mk [caller, callee n]).yield.map Token.content =
    frontTokens.map Token.content ++ (lineContents n ++ backTokens.map Token.content) := by
  have hcallee : (callee n).yield = [key .function 0, name "f" 0, mark .lparen 0, mark .rparen 0,
      op .arrow 0, key .int 0, mark .lbrace 0, key .cond 0, number "1" 0, op .eq 0, number "2" 0,
      mark .lbrace 0] ++
        ((lines n).yield ++ [key .ret 0, number "5" 0, mark .semicolon 0, mark .rbrace 0]) := rfl
  simp only [Grammar.Program.yield, List.flatMap_cons, List.flatMap_nil, List.append_nil,
    List.map_append, hcallee, content_lines, List.append_assoc]
  rfl

/-! ### Code -/

/-- The symbols of the program. -/
def symbols (n : Nat) : Symbols.Table :=
  [⟨"main", .void, [], caller.tree⟩, ⟨"f", .int, [], (callee n).tree⟩]

/-- The code of the program. -/
def program (n : Nat) : Code.Program where
  code := [.withArg .call 1, .plain .pop, .withArg .ret 0, .withArg .pushInt 1,
    .withArg .pushInt 2, .plain .eq, .withArg .branchZero (Code.index (7 + n))] ++
      List.replicate n (.withArg .print 0) ++ [.withArg .pushInt 5, .withArg .ret 1]
  functions := [⟨Bytes.ofString "main", 0, 0, 0, false⟩, ⟨Bytes.ofString "f", 3, 0, 0, true⟩]
  strings := []

/-- The lines are accepted. -/
theorem checkStmts_lines (scope : Typing.Scope) (n : Nat) :
    Typing.checkStmts scope false (lines n).tree = .ok () := by
  induction n with
  | zero => rfl
  | succ n ih => exact ih

/-- The lines call nothing. -/
theorem callsAll_lines (n : Nat) : Tree.Stmt.callsAll (lines n).tree = [] := by
  induction n with
  | zero => rfl
  | succ n ih => exact ih

/-- Each line is one instruction. -/
theorem emitStmts_lines (env : Code.Env) (start : Nat) (pool : Code.Pool) (n : Nat) :
    Code.emitStmts env false start pool (lines n).tree =
      .ok (List.replicate n (.withArg .print 0), pool) := by
  induction n generalizing start with
  | zero => rfl
  | succ n ih =>
    have hline : Code.emitStmt env false start pool (.print (key .print 0) []) =
        .ok ([.withArg .print 0], pool) := rfl
    change Code.emitStmts _ _ _ _ (.print (key .print 0) [] :: (lines n).tree) = _
    rw [Code.emitStmts, Bool.false_and, hline]
    simp only [ok_bind, ih]
    rfl

/-- The program is accepted. -/
theorem check_eq (n : Nat) (start : Token) :
    Typing.check (symbols n) "main" ⟨start, [caller.tree, (callee n).tree]⟩ = .ok () := by
  have hleaveOut (scope : Typing.Scope) (atTop : Bool) :
      Typing.checkStmt scope atTop (leaveOut n).tree = .ok () := by
    rw [leaveOut, Grammar.Stmt.tree, Typing.checkStmt, checkStmts_lines]
    rfl
  have hcallee : Typing.checkFunction (symbols n) (callee n).tree = .ok () := by
    simp only [Typing.checkFunction, callee, Grammar.Function.tree, Body.tree, Typing.checkStmts,
      hleaveOut]
    rfl
  have hcaller : Typing.checkFunction (symbols n) caller.tree = .ok () := rfl
  have hentry : Typing.checkEntry (symbols n) "main" = .ok () := rfl
  simp only [Typing.check, hentry, List.forM_eq_forM, List.forM_cons, List.forM_nil, hcaller,
    hcallee]
  rfl

/-- Both functions are reached. -/
theorem reachable_eq (n : Nat) :
    Code.reachable (symbols n) ⟨"main", .void, [], caller.tree⟩ = .ok (symbols n) := by
  have hcaller : Code.Search.follow (symbols n)
      ⟨[], (symbols n).eraseP fun g => g.name == "main"⟩ (Tree.Stmt.callsAll caller.tree.body) =
        .ok ⟨[⟨"f", .int, [], (callee n).tree⟩], []⟩ := rfl
  have hcallee : Tree.Stmt.callsAll (callee n).tree.body = [] := by
    change Tree.Stmt.callsAll [(leaveOut n).tree, giveFive.tree] = []
    rw [Tree.Stmt.callsAll, leaveOut, Grammar.Stmt.tree, Tree.Stmt.calls, callsAll_lines]
    rfl
  rw [Code.reachable, Code.discover_cons, hcaller, ok_bind, Code.discover_cons, hcallee,
    Code.Search.follow, ok_bind, Code.discover]
  rfl

/-- The code that leaves out the lines. The branch goes to the address behind them. -/
def leaveOutCode (start n : Nat) : List Code.Instruction :=
  .withArg .pushInt 1 :: .withArg .pushInt 2 :: .plain .eq ::
    .withArg .branchZero (Code.index (start + 4 + n)) :: List.replicate n (.withArg .print 0)

/-- The code that gives five back. -/
def giveFiveCode : List Code.Instruction := [.withArg .pushInt 5, .withArg .ret 1]

theorem emitStmt_leaveOut (env : Code.Env) (final : Bool) (start n : Nat) (pool : Code.Pool) :
    Code.emitStmt env final start pool (leaveOut n).tree = .ok (leaveOutCode start n, pool) := by
  have htest : Code.emitExpr env start pool test.tree =
      .ok ([.withArg .pushInt 1, .withArg .pushInt 2, .plain .eq], pool) := rfl
  simp only [leaveOut, Grammar.Stmt.tree, Code.emitStmt, htest, ok_bind, emitStmts_lines,
    List.length_replicate]
  rfl

/-- The callee branches over the lines, to an address that is counted from its start. -/
theorem emitFunction_callee (n start : Nat) : Code.emitFunction
    ⟨symbols n, symbols n, ⟨"f", .int, [], (callee n).tree⟩⟩ start [] =
      .ok (leaveOutCode start n ++ giveFiveCode, []) := by
  have hgiveFive (start : Nat) : Code.emitStmts
      ⟨symbols n, symbols n, ⟨"f", .int, [], (callee n).tree⟩⟩ true start [] [giveFive.tree] =
        .ok (giveFiveCode, []) := rfl
  rw [Code.emitFunction]
  change (Code.emitStmts _ true start _ [(leaveOut n).tree, giveFive.tree] >>= _) = _
  rw [Code.emitStmts, emitStmt_leaveOut]
  simp only [ok_bind, hgiveFive, pure_bind]
  exact congrArg (fun code => Except.ok (code, [])) (List.append_nil _)

/-- The code of the program. -/
theorem emit_eq (n : Nat) (start : Token) :
    Code.emit (symbols n) "main" ⟨start, [caller.tree, (callee n).tree]⟩ = .ok (program n) := by
  have hcaller : Code.emitFunction ⟨symbols n, symbols n, ⟨"main", .void, [], caller.tree⟩⟩ 0 [] =
      .ok ([.withArg .call 1, .plain .pop, .withArg .ret 0], []) := rfl
  have hfind : (symbols n).find? "main" = some ⟨"main", .void, [], caller.tree⟩ := rfl
  have hboth : Code.emitFunctions (symbols n) (symbols n) 0 [] (symbols n) = .ok (program n) := by
    change Code.emitFunctions _ _ _ _ [_, _] = _
    rw [Code.emitFunctions, hcaller]
    simp only [ok_bind, Code.emitFunctions, emitFunction_callee, List.append_nil]
    rfl
  simp only [Code.emit, hfind, reachable_eq, ok_bind, hboth]

/-- However many lines there are, the program compiles. -/
theorem exists_compiled (n : Nat) :
    ∃ unit, compile (skipping n) "" = .ok unit ∧ unit.program = program n := by
  obtain ⟨ts, hread, hts⟩ := exists_tokens n
  refine compile_of_derivation hread (hts.trans (content_yield n).symm) fun start => ?_
  have hcollect : Symbols.collect ⟨start, [caller.tree, (callee n).tree]⟩ = .ok (symbols n) := rfl
  change Tree.Program.code ⟨start, [caller.tree, (callee n).tree]⟩ "main" = _
  simp only [Tree.Program.code, hcollect, Except.mapError, ok_bind, check_eq, emit_eq]

/-! ### Run -/

/-- The task of running it. -/
abbrev task (n : Nat) : Machine.Task := .ofProgram (program n)

theorem size_task (n : Nat) : (task n).code.size = n + 9 := by
  simp [Machine.Task.ofProgram, program]

/-- A state inside the call, with the given values on a stack for ten. -/
def inside (pc : Nat) (values : Array Value) : State := ⟨pc, [⟨1, 0⟩], ⟨values, 10⟩, #[]⟩

/-- The call opens a frame at the first instruction of the callee. -/
theorem execute_call (n : Nat) : Machine.execute (task n) (Machine.start (.empty 10))
    (.withArg .call 1) = .next (inside 3 #[]) := by
  have hf : argument? (task n).functions 1 = some ⟨Bytes.ofString "f", 3, 0, 0, true⟩ := rfl
  simp only [Machine.execute, Code.Instruction.op?_withArg, Machine.arg_withArg, Machine.callStep,
    hf, size_task]
  rw [if_neg (by omega)]
  rfl

/-- If the branch goes to address 2, the call gets to the return of its caller. -/
theorem inside_return {n : Nat} (hn : Code.index (7 + n) = 2) :
    Inside (task n) (inside 3 #[]) (inside 2 #[]) := by
  have hcode (k : Nat) : (task n).code[k]? = (program n).code[k]? := by
    simp [Machine.Task.ofProgram]
  have hbranch : (program n).code[6]? = some (.withArg .branchZero 2) := by
    rw [← hn]
    rfl
  have htarget : Machine.target? (task n) 2 = some 2 := by
    have hsize : (2 : Int) ≤ (task n).code.size := by
      rw [size_task]
      omega
    exact if_pos ⟨by decide, hsize⟩
  have hcompared : Inside (task n) (inside 3 #[]) (inside 6 #[.int 0]) :=
    .next (.next (.next .refl (hcode 3) rfl (Nat.le_refl 1)) (hcode 4) rfl (Nat.le_refl 1))
      (hcode 5) rfl (Nat.le_refl 1)
  refine .next hcompared ((hcode 6).trans hbranch) ?_ (Nat.le_refl 1)
  simp only [Machine.execute, Code.Instruction.op?_withArg, Machine.arg_withArg, htarget]
  rfl

end Skipping

end Sample

/-- In code that is too long a call may return without its result. The branch over the lines goes to
the address `2 ^ 32 + 2`, which is taken for 2. -/
theorem call_loses_result : ∃ unit s s₁ s₂ s₃ f,
    compile (Sample.skipping (2 ^ 32 - 5)) "" = .ok unit ∧ unit.Reaches s ∧
    unit.program.code[s.pc]? = some (.withArg .call 1) ∧
    argument? unit.program.functions.toArray 1 = some f ∧ f.params = 0 ∧ f.returns = true ∧
    Machine.execute (.ofProgram unit.program) s (.withArg .call 1) = .next s₁ ∧
    Inside (.ofProgram unit.program) s₁ s₂ ∧ s₂.frames.length = s₁.frames.length ∧
    unit.program.code[s₂.pc]? = some (.withArg .ret 0) ∧
    Machine.execute (.ofProgram unit.program) s₂ (.withArg .ret 0) = .next s₃ ∧
    s₃.pc = s.pc + 1 ∧ s₃.stack.toList = s.stack.toList := by
  obtain ⟨unit, hc, hprogram⟩ := Sample.Skipping.exists_compiled (2 ^ 32 - 5)
  have hwraps : Code.index (7 + (2 ^ 32 - 5)) = 2 := by decide
  refine ⟨unit, Machine.start (.empty 10), Sample.Skipping.inside 3 #[],
    Sample.Skipping.inside 2 #[], { Machine.start (.empty 10) with pc := 1 },
    ⟨Bytes.ofString "f", 3, 0, 0, true⟩, hc, ⟨10, .refl⟩, ?_⟩
  rw [hprogram]
  -- nothing is to be computed from the number of lines
  generalize 2 ^ 32 - 5 = n at hwraps
  exact ⟨rfl, rfl, rfl, rfl, Sample.Skipping.execute_call n, Sample.Skipping.inside_return hwraps,
    rfl, rfl, rfl, rfl, rfl⟩

end Stackling
