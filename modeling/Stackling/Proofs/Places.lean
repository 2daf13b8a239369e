import Mathlib.Data.List.GetD
import Stackling.Proofs.Code.Moved
import Stackling.Proofs.Grammar.Moved
import Stackling.Proofs.SyntaxErrors
import Stackling.Proofs.Token.Separation

/-!
# What places are for

Places are for messages only. Two texts with the same tokens in different places compile to the same
code, or fail alike, each with the place of its own token (`compile_places`).

The two are not compared with each other. Both come from the same tokens in a third layout, where
each token stands on the line of its number. To come to the layout of a text, a line number is
replaced by the place that the token with this number has in the text (`Token.placeIn`), and every
phase commutes with that.
-/

namespace Stackling

open Stackling.Tree

variable {φ : Position → Position}

/-! ## The phases together -/

instance : Movable CompileError where
  move φ
    | .lexing e => .lexing ⟨φ e.start, φ e.pos, e.cause⟩
    | .parsing e => .parsing (move φ e)
    | .collecting e => .collecting (move φ e)
    | .checking e => .checking (move φ e)
    | .emitting e => .emitting (move φ e)

/-- The code of a tree. -/
def Tree.Program.code (p : Tree.Program) (entry : String) : Except CompileError Code.Program := do
  let symbols ← (Symbols.collect p).mapError .collecting
  (Typing.check symbols entry p).mapError .checking
  (Code.emit symbols entry p).mapError .emitting

/-- The code of tokens with the end of input `eof` behind them. -/
def Token.code (eof : Token) (ts : List Token) (entry : String) :
    Except CompileError Code.Program := do
  let functions ← (readFunctions eof ts).mapError .parsing
  Tree.Program.code ⟨current eof ts, functions⟩ entry

/-- What a text compiles to depends on its tokens only. -/
theorem program_compile {source : Bytes} {ts : List Token}
    (h : Token.ofText (Utf8.decode source) = .ok ts) (entry : String) :
    (compile source entry).map Compiled.program =
      Token.code (endOfInput ts) ts (entryName entry) := by
  have hok : (Except.ok ts).mapError CompileError.lexing = .ok ts := rfl
  have hpure (p : Tree.Program) :
      (pure p : Except ParseError _).mapError CompileError.parsing = pure p := rfl
  change Compiled.program <$> compile source entry = _
  rw [compile, h]
  simp only [hok, ok_bind, Tree.Program.ofTokens, Token.code, Tree.Program.code, mapError_bind,
    hpure, bind_assoc, pure_bind, map_bind, map_pure, bind_pure]

/-- A moved program has the same code, or an error that has moved. -/
theorem Tree.Program.code_move (hφ : φ .nowhere = .nowhere) (p : Tree.Program) (entry : String) :
    (move φ p).code entry = (p.code entry).mapError (move φ) := by
  refine bind_mapError_move (mapError_move (Symbols.collect_move p) fun _ => rfl) fun symbols => ?_
  rw [Typing.check_move hφ, Code.emit_move, mapError_bind]
  cases Typing.check symbols entry p with
  | error e => rfl
  | ok _ => cases Code.emit symbols entry p <;> rfl

/-- Moved tokens are read as the moved functions. -/
theorem readFunctions_move (eof : Token) (ts : List Token) :
    readFunctions (move φ eof) (move φ ts) = move φ (readFunctions eof ts) := by
  have h := Grammar.Script.functions_follows (φ := φ) ts eof
  simp only [Grammar.Script.functions] at h
  cases hfs : readFunctions eof ts <;> cases hfs' : readFunctions (move φ eof) (move φ ts) <;>
    rw [hfs, hfs'] at h <;> cases h <;> rfl

/-- Moved tokens have the same code, or an error that has moved. -/
theorem Token.code_move (hφ : φ .nowhere = .nowhere) (eof : Token) (ts : List Token)
    (entry : String) :
    Token.code (move φ eof) (move φ ts) entry = (Token.code eof ts entry).mapError (move φ) := by
  have hstart : current (move φ eof) (move φ ts) = move φ (current eof ts) := by
    cases ts <;> rfl
  refine bind_mapError_move (mapError_move (readFunctions_move eof ts) fun _ => rfl)
    fun functions => ?_
  rw [hstart]
  exact Tree.Program.code_move hφ ⟨current eof ts, functions⟩ entry

/-! ## Tokens on numbered lines -/

namespace Token

/-- The place of the token number `k` in the layout that has nothing but numbers. -/
def numberedAt (k : Nat) : Position := ⟨k + 1, 0⟩

/-- Tokens with the given contents, each on the line of its number. -/
def numbered (contents : List (Kind × String)) : List Token :=
  contents.mapIdx fun k c => ⟨c.1, c.2, numberedAt k⟩

/-- The place of a token in a text, by the line of its number. -/
def placeIn (ts : List Token) (p : Position) : Position :=
  if 0 < p.line then (tokenAt ts (p.line - 1).toNat).pos else .nowhere

theorem placeIn_nowhere (ts : List Token) : placeIn ts .nowhere = .nowhere := rfl

/-- A number stands for the position of the token with this number. -/
theorem placeIn_numberedAt (ts : List Token) (k : Nat) :
    placeIn ts (numberedAt k) = (tokenAt ts k).pos := by
  have hline : 0 < (numberedAt k).line := by
    simp only [numberedAt]
    omega
  rw [placeIn, if_pos hline]
  congr 2
  simp only [numberedAt]
  omega

/-- The tokens of a text are the numbered ones in other places. -/
theorem move_numbered (ts : List Token) : move (placeIn ts) (numbered (ts.map content)) = ts := by
  refine List.ext_getElem? fun k => ?_
  change ((numbered (ts.map content)).map (move (placeIn ts)))[k]? = ts[k]?
  rw [numbered, List.getElem?_map, List.getElem?_mapIdx, List.getElem?_map]
  cases hk : ts[k]? with
  | none => rfl
  | some t =>
    have hplace : placeIn ts (numberedAt k) = t.pos := by
      rw [placeIn_numberedAt, tokenAt, List.getD_eq_getElem?_getD, hk, Option.getD_some]
    exact congrArg (fun p => some (Token.mk t.kind t.lexeme p)) hplace

/-- Behind all tokens is the end of input. -/
theorem tokenAt_length (ts : List Token) : tokenAt ts ts.length = endOfInput ts := by
  simp [tokenAt]

/-- Behind the end of input there is nothing. -/
theorem tokenAt_min (ts : List Token) (k : Nat) : tokenAt ts (min k ts.length) = tokenAt ts k := by
  rcases Nat.le_total k ts.length with hk | hk
  · rw [Nat.min_eq_left hk]
  · rw [Nat.min_eq_right hk, tokenAt_length, tokenAt, List.getD_eq_default _ _ hk]

/-- The end of input has the number behind all tokens. -/
theorem move_endOfInput {ts : List Token} (hts : AllPlain ts) :
    move (placeIn ts) ⟨.eof, "", numberedAt ts.length⟩ = endOfInput ts := by
  have hlexeme : (endOfInput ts).lexeme = "" := by
    unfold endOfInput
    split
    · rfl
    · next last hlast =>
      have hplain := hts last (List.mem_of_getLast? hlast)
      rw [if_neg hplain.ne_eof]
  calc move (placeIn ts) (Token.mk .eof "" (numberedAt ts.length))
    _ = ⟨.eof, "", placeIn ts (numberedAt ts.length)⟩ := rfl
    _ = ⟨(endOfInput ts).kind, (endOfInput ts).lexeme, (endOfInput ts).pos⟩ := by
      rw [placeIn_numberedAt, tokenAt_length, endOfInput_kind, hlexeme]

end Token

/-- Compiling a text gives what compiling its tokens on numbered lines gives, with the places of the
text. -/
theorem program_compile_numbered {source : Bytes} {ts : List Token}
    (h : Token.ofText (Utf8.decode source) = .ok ts) (entry : String) :
    (compile source entry).map Compiled.program =
      (Token.code ⟨.eof, "", Token.numberedAt (ts.map Token.content).length⟩
        (Token.numbered (ts.map Token.content)) (entryName entry)).mapError
          (move (Token.placeIn ts)) := by
  rw [program_compile h, ← Token.code_move (Token.placeIn_nowhere ts), Token.move_numbered,
    List.length_map, Token.move_endOfInput (Token.allPlain_of_ofText h)]

/-- A text compiles as a derivation does that has the same tokens in whatever places. -/
theorem compile_of_derivation {source : Bytes} {entry : String} {ts : List Token}
    (hread : Token.ofText (Utf8.decode source) = .ok ts) {d : Grammar.Program}
    (hd : ts.map Token.content = d.yield.map Token.content) {p : Code.Program}
    (hcode : ∀ start, Tree.Program.code ⟨start, d.functions.map Grammar.Function.tree⟩
      (entryName entry) = .ok p) :
    ∃ unit, compile source entry = .ok unit ∧ unit.program = p := by
  -- both are taken to where no token has a place
  let φ : Position → Position := fun _ => .nowhere
  have hmove (us : List Token) :
      move φ us = (us.map Token.content).map fun c => ⟨c.1, c.2, .nowhere⟩ := by
    rw [List.map_map]
    rfl
  have hderived : Token.code (endOfInput ts) d.yield (entryName entry) = .ok p := by
    have hfs := Grammar.readFunctions_yield (endOfInput_kind ts) d.functions
    rw [Token.code, Grammar.Program.yield, hfs]
    exact hcode _
  have hplaces : Token.code (move φ (endOfInput ts)) (move φ ts) (entryName entry) =
      (Token.code (endOfInput ts) ts (entryName entry)).mapError (move φ) :=
    Token.code_move rfl _ _ _
  rw [hmove ts, hd, ← hmove, Token.code_move rfl, hderived, eq_comm] at hplaces
  have hprogram : (compile source entry).map Compiled.program = .ok p := by
    rw [program_compile hread]
    exact mapError_eq_ok.mp hplaces
  exact map_eq_ok.mp hprogram

/-! ## Errors that are alike -/

/-- A fault without its place: its kind and its texts. -/
def Diagnostic.unplaced : Diagnostic → Diagnostic
  | lexical _ text => .lexical .nowhere text
  | grammatical _ expected found text => .grammatical .nowhere expected found text
  | semantic _ text => .semantic .nowhere text
  | runtime pc op text cause => .runtime pc op text cause

/-- Two texts with the tokens `ts` and `ts'` fail alike with the errors `e` and `e'`. -/
structure CompileError.Alike (ts ts' : List Token) (e e' : CompileError) : Prop where
  phase : e.phase = e'.phase
  /-- the faults are of the same kind and say the same -/
  fault : e.diagnostic.unplaced = e'.diagnostic.unplaced
  bare : e.diagnostic.bare = e'.diagnostic.bare
  /-- neither has a place, or both have that of the same token or of the end of input -/
  place : (e.diagnostic.pos = .nowhere ∧ e'.diagnostic.pos = .nowhere) ∨
    ∃ k ≤ ts.length, e.diagnostic.pos = (tokenAt ts k).pos ∧ e'.diagnostic.pos = (tokenAt ts' k).pos

namespace CompileError

/-- The position of an error moves. -/
theorem pos_move (e : CompileError) : (move φ e).diagnostic.pos = φ e.diagnostic.pos := by
  cases e with
  | parsing e => cases e <;> rfl
  | lexing | collecting | checking | emitting => rfl

theorem phase_move (e : CompileError) : (move φ e).phase = e.phase := by
  cases e <;> rfl

/-- The rest of an error does not. -/
theorem unplaced_move (e : CompileError) :
    (move φ e).diagnostic.unplaced = e.diagnostic.unplaced := by
  cases e with
  | parsing e => cases e <;> rfl
  | lexing | collecting | checking | emitting => rfl

theorem bare_move (e : CompileError) : (move φ e).diagnostic.bare = e.diagnostic.bare := by
  cases e with
  | parsing e => cases e <;> rfl
  | lexing | collecting | checking | emitting => rfl

/-- An error about a numbered token, brought into two texts. -/
theorem alike_move {ts ts' : List Token} (hlength : ts.length = ts'.length) (e : CompileError) :
    Alike ts ts' (move (Token.placeIn ts) e) (move (Token.placeIn ts') e) := by
  refine ⟨?_, ?_, ?_, ?_⟩
  · rw [phase_move, phase_move]
  · rw [unplaced_move, unplaced_move]
  · rw [bare_move, bare_move]
  · rw [pos_move, pos_move, Token.placeIn, Token.placeIn]
    by_cases hline : 0 < e.diagnostic.pos.line
    · right
      rw [if_pos hline, if_pos hline]
      refine ⟨min (e.diagnostic.pos.line - 1).toNat ts.length, Nat.min_le_right .., ?_, ?_⟩
      · rw [Token.tokenAt_min]
      · rw [hlength, Token.tokenAt_min]
    · left
      rw [if_neg hline, if_neg hline]
      exact ⟨rfl, rfl⟩

end CompileError

/-- **Places are for messages only.** If two texts have the same tokens up to places, then both
compile to the same program, or both fail, in the same phase and with the same message. The errors
have no place, or each has the place of its own token, the same one in both texts. -/
theorem compile_places {source source' : Bytes} {ts ts' : List Token}
    (h : Token.ofText (Utf8.decode source) = .ok ts)
    (h' : Token.ofText (Utf8.decode source') = .ok ts')
    (hsame : ts.map Token.content = ts'.map Token.content) (entry : String) :
    (∃ unit unit', compile source entry = .ok unit ∧ compile source' entry = .ok unit' ∧
      unit.program = unit'.program) ∨
    ∃ e e', compile source entry = .error e ∧ compile source' entry = .error e' ∧
      e.Alike ts ts' e' := by
  have hcode := program_compile_numbered h entry
  have hcode' := program_compile_numbered h' entry
  have hlength : ts.length = ts'.length := by
    simpa only [List.length_map] using congrArg List.length hsame
  rw [hsame] at hcode
  cases hnumbered : Token.code ⟨.eof, "", Token.numberedAt (ts'.map Token.content).length⟩
      (Token.numbered (ts'.map Token.content)) (entryName entry) with
  | ok program =>
    rw [hnumbered] at hcode hcode'
    obtain ⟨unit, hunit, hprogram⟩ := map_eq_ok.mp hcode
    obtain ⟨unit', hunit', hprogram'⟩ := map_eq_ok.mp hcode'
    exact .inl ⟨unit, unit', hunit, hunit', hprogram.trans hprogram'.symm⟩
  | error e =>
    rw [hnumbered] at hcode hcode'
    exact .inr ⟨_, _, map_eq_error.mp hcode, map_eq_error.mp hcode',
      CompileError.alike_move hlength e⟩

namespace Sample

/-- Gives a value to a variable that is not declared. -/
def undeclared : Bytes := Bytes.ofString "function main() \x7b x = 1; \x7d"

def undeclaredTokens : List Token :=
  [key .function 1, name "main" 10, mark .lparen 14, mark .rparen 15, mark .lbrace 17, name "x" 19,
    op .assign 21, number "1" 23, mark .semicolon 24, mark .rbrace 26]

/-- The same on five lines, with a comment. -/
def undeclaredSpread : Bytes :=
  Bytes.ofString "function main()\n\x7b\n  // there is no x\n  x = 1;\n\x7d\n"

def undeclaredSpreadTokens : List Token :=
  List.zipWith (fun t p => { t with pos := p }) undeclaredTokens
    [⟨1, 1⟩, ⟨1, 10⟩, ⟨1, 14⟩, ⟨1, 15⟩, ⟨2, 1⟩, ⟨4, 3⟩, ⟨4, 5⟩, ⟨4, 7⟩, ⟨4, 8⟩, ⟨5, 1⟩]

set_option maxRecDepth 100000 in
theorem undeclared_tokens :
    Token.ofText (Utf8.decode undeclared) = .ok undeclaredTokens ∧
    Token.ofText (Utf8.decode undeclaredSpread) = .ok undeclaredSpreadTokens := by
  decide +kernel

end Sample

/-- Both texts are refused for the variable, and each error points to it. -/
theorem compile_places_undeclared : ∃ e e', compile Sample.undeclared "" = .error e ∧
    compile Sample.undeclaredSpread "" = .error e' ∧
    e.Alike Sample.undeclaredTokens Sample.undeclaredSpreadTokens e' ∧
    e.diagnostic.pos = ⟨1, 19⟩ ∧ e'.diagnostic.pos = ⟨4, 3⟩ := by
  have herror : compile Sample.undeclared "" =
      .error (.checking ⟨⟨1, 19⟩, .unknownIdentifier "x"⟩) := by
    rw [compile_of_tokens Sample.undeclared_tokens.1]
    cbv
  have herror' : compile Sample.undeclaredSpread "" =
      .error (.checking ⟨⟨4, 3⟩, .unknownIdentifier "x"⟩) := by
    rw [compile_of_tokens Sample.undeclared_tokens.2]
    cbv
  have hplaces := compile_places Sample.undeclared_tokens.1 Sample.undeclared_tokens.2
    (by decide) ""
  rcases hplaces with ⟨unit, _, hunit, _⟩ | ⟨e, e', he, he', halike⟩
  · rw [herror] at hunit
    cases hunit
  · rw [herror] at he
    rw [herror'] at he'
    cases he
    cases he'
    exact ⟨_, _, herror, herror', halike, rfl, rfl⟩

end Stackling
