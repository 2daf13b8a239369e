import Mathlib.Data.List.Permutation
import Stackling.Proofs.Datum.RoundTrip
import Stackling.Proofs.Parsing
import Stackling.Proofs.Token.Layout
import Stackling.Proofs.Tree.Erasure
import Stackling.Tree.Dump

/-!
# Dumped trees

The text of a dump is put together piece by piece, with its own way to quote. It is the text that
the datum of the tree is printed as (`Node.dump_eq_text`), so that what is known of data can be
used.

The data that trees are dumped as can be read again, and they say all that trees say. Both hold of
trees whose type names are spelled as the reserved words they are (`Program.Spelled`), and trees of
texts are such trees.

Names and string literals may hold any characters, since they are dumped as strings; whatever else
is in a dump is one of few symbols or a number. That a dump determines its tree follows the tree:
the symbol at the front of a list tells what the node is, and the items behind it are its parts.
-/

namespace Stackling

namespace Tree

/-! ## The text of a dump -/

/-- Replacing a character is done one character at a time. -/
theorem toList_replaceAll (c : Char) (new s : String) : (replaceAll c new s).toList =
    s.toList.flatMap fun d => if d = c then new.toList else [d] :=
  String.toList_ofList

/-- Both replacements come to the escape of one character. -/
theorem toList_quote (s : String) : (quote s).toList = (Datum.string s).chars := by
  have hescape (c : Char) : ((if c = '\\' then "\\\\".toList else [c]).flatMap fun d =>
      if d = '"' then "\\\"".toList else [d]) = Datum.escapeChar c := by
    by_cases hb : c = '\\'
    · subst hb
      rfl
    · by_cases hq : c = '"'
      · subst hq
        rfl
      · simp [Datum.escapeChar, hb, hq]
  have htext : (replaceAll '"' "\\\"" (replaceAll '\\' "\\\\" s)).toList =
      s.toList.flatMap Datum.escapeChar := by
    rw [toList_replaceAll, toList_replaceAll, List.flatMap_assoc]
    exact congrArg s.toList.flatMap (funext hescape)
  rw [quote, String.toList_append, String.toList_append, htext]
  rfl

/-- The case of arguments in the induction for `Expr.toList_dump`: each argument comes with the
blank in front of it. -/
theorem Expr.toList_dumpAll {es : List Expr} (h : ∀ e ∈ es, e.dump.toList = e.toDatum.chars) :
    (Expr.dumpAll es).toList = (Expr.toData es).flatMap fun d => ' ' :: d.chars := by
  induction es with
  | nil => rfl
  | cons e es ih =>
    obtain ⟨he, hes⟩ := List.forall_mem_cons.mp h
    rw [Expr.dumpAll, String.toList_append, String.toList_append, he, ih hes]
    rfl

/-- The text of an expression, put together by its own rules, is the one that its datum is printed
as. In every case the constant pieces (parentheses, symbols, blanks) have to agree, and the quoted
ones by `toList_quote`. -/
theorem Expr.toList_dump (e : Expr) : e.dump.toList = e.toDatum.chars := by
  induction e using Expr.induction with
  | binary op left right hl hr =>
    unfold Expr.dump
    simp [Expr.toDatum, Datum.chars, Datum.charsAll, toList_quote, hl, hr]
  | call start callee args h =>
    unfold Expr.dump
    simp [Expr.toDatum, Datum.chars, Datum.charsAll_cons, toList_quote, Expr.toList_dumpAll h]
  | int literal value =>
    unfold Expr.dump
    simp [Expr.toDatum, intDatum, Datum.chars, Datum.charsAll]
  | bool literal value =>
    unfold Expr.dump
    simp [Expr.toDatum, boolDatum, Datum.chars, Datum.charsAll]
  | str literal | var name =>
    unfold Expr.dump
    simp [Expr.toDatum, Datum.chars, Datum.charsAll, toList_quote]

/-- The case of a block in the induction for `Stmt.toList_dump`. -/
theorem Stmt.toList_dumpAll {ss : List Stmt} (h : ∀ s ∈ ss, s.dump.toList = s.toDatum.chars) :
    (Stmt.dumpAll ss).toList = (Stmt.toData ss).flatMap fun d => ' ' :: d.chars := by
  induction ss with
  | nil => rfl
  | cons s ss ih =>
    obtain ⟨hs, hss⟩ := List.forall_mem_cons.mp h
    rw [Stmt.dumpAll, String.toList_append, String.toList_append, hs, ih hss]
    rfl

/-- The text of a statement is that of its datum. A call statement is dumped as the call. -/
theorem Stmt.toList_dump (s : Stmt) : s.dump.toList = s.toDatum.chars := by
  have hargs (args : List Expr) :
      (Expr.dumpAll args).toList = (Expr.toData args).flatMap fun d => ' ' :: d.chars :=
    Expr.toList_dumpAll fun e _ => e.toList_dump
  induction s using Stmt.induction with
  | ret start value =>
    unfold Stmt.dump
    simp [Stmt.toDatum, Datum.chars, Datum.charsAll, value.toList_dump]
  | cond start test brace body h =>
    unfold Stmt.dump
    simp [Stmt.toDatum, Datum.chars, Datum.charsAll_cons, test.toList_dump, Stmt.toList_dumpAll h]
  | assign target value =>
    unfold Stmt.dump
    simp [Stmt.toDatum, Datum.chars, Datum.charsAll, toList_quote, value.toList_dump]
  | print start args =>
    unfold Stmt.dump
    simp [Stmt.toDatum, Datum.chars, Datum.charsAll_cons, hargs]
  | decl start param value =>
    unfold Stmt.dump
    simp [Stmt.toDatum, TypeName.dump, TypeName.toDatum, Datum.chars, Datum.charsAll,
      toList_quote, value.toList_dump]
  | call start callee args =>
    unfold Stmt.dump
    rw [Expr.toList_dump]
    rfl

/-- The text of a block is that of its datum. -/
theorem blockDump_toList (body : List Stmt) :
    (blockDump body).toList = (blockDatum body).chars := by
  unfold blockDump
  simp [blockDatum, Datum.chars, Datum.charsAll_cons,
    Stmt.toList_dumpAll fun s _ => s.toList_dump]

theorem Param.toList_dump (p : Param) : p.dump.toList = p.toDatum.chars := by
  unfold Param.dump
  simp [Param.toDatum, TypeName.dump, TypeName.toDatum, Datum.chars, Datum.charsAll,
    toList_quote]

/-- Parameters stand in an array, where a blank is between two of them but not in front of the
first. -/
theorem Param.toList_dumpAll (ps : List Param) :
    (Param.dumpAll ps).toList = Datum.charsAll (ps.map Param.toDatum) := by
  fun_induction Param.dumpAll ps with
  | case1 => rfl
  | case2 p => exact p.toList_dump
  | case3 p q ps ih => simp [Datum.charsAll, p.toList_dump, ih]

/-- The text of a function is that of its datum. Without a result type it says `void`. -/
theorem Function.toList_dump (f : Function) : f.dump.toList = f.toDatum.chars := by
  have hreturns : ((f.returns.map TypeName.dump).getD "void").toList =
      ((f.returns.map TypeName.toDatum).getD (.symbol "void")).chars := by
    cases f.returns <;> simp [TypeName.dump, TypeName.toDatum, Datum.chars]
  unfold Function.dump
  simp [Function.toDatum, Datum.chars, Datum.charsAll, toList_quote,
    Param.toList_dumpAll, hreturns, blockDump_toList]

theorem Function.toList_dumpAll (fs : List Function) :
    (Function.dumpAll fs).toList = (fs.map Function.toDatum).flatMap fun d => ' ' :: d.chars := by
  induction fs with
  | nil => rfl
  | cons f fs ih =>
    rw [Function.dumpAll, String.toList_append, String.toList_append, f.toList_dump, ih]
    rfl

/-- The text of a program is that of its datum. -/
theorem Program.toList_dump (p : Program) : p.dump.toList = p.toDatum.chars := by
  unfold Program.dump
  simp [Program.toDatum, Datum.chars, Datum.charsAll_cons, Function.toList_dumpAll]

/-- **The text of a dump is that of its datum.** -/
theorem Node.dump_eq_text (n : Node) : n.dump = n.toDatum.text := by
  have h : n.dump.toList = n.toDatum.chars := by
    cases n with
    | program p => exact p.toList_dump
    | function f => exact f.toList_dump
    | typeName t => rfl
    | param p => exact p.toList_dump
    | block _ body => exact blockDump_toList body
    | stmt s => exact s.toList_dump
    | expr e => exact e.toList_dump
  rw [Datum.text, ← h, String.ofList_toList]

/-- The text of a program is what its datum is printed as. -/
theorem Program.dump_eq_text (p : Program) : p.dump = p.toDatum.text :=
  Node.dump_eq_text (.program p)

/-- The text of an expression is what its datum is printed as. -/
theorem Expr.dump_eq_text (e : Expr) : e.dump = e.toDatum.text := Node.dump_eq_text (.expr e)

/-! ## Type names -/

/-- The token is a reserved word that names a type, spelled as it has to be. -/
def TypeName.Spelled (t : TypeName) : Prop :=
  ∃ k : Keyword, t.token.kind = .keyword k ∧ t.name = k.word

/-- The type names in a statement are spelled. -/
inductive Stmt.Spelled : Stmt → Prop
  | ret (start : Token) (value : Expr) : Spelled (.ret start value)
  | cond (start : Token) (test : Expr) (brace : Token) {body : List Stmt}
      (h : ∀ s ∈ body, Spelled s) : Spelled (.cond start test brace body)
  | assign (target : Token) (value : Expr) : Spelled (.assign target value)
  | print (start : Token) (args : List Expr) : Spelled (.print start args)
  | decl (start : Token) {param : Param} (value : Expr) (h : param.type.Spelled) :
      Spelled (.decl start param value)
  | call (start : Token) (callee : String) (args : List Expr) : Spelled (.call start callee args)

/-- The type names in a function are spelled. -/
structure Function.Spelled (f : Function) : Prop where
  params : ∀ p ∈ f.params, p.type.Spelled
  returns : ∀ t ∈ f.returns, t.Spelled
  body : ∀ s ∈ f.body, s.Spelled

/-- The type names in a program are spelled. -/
def Program.Spelled (p : Program) : Prop := ∀ f ∈ p.functions, f.Spelled

/-! ## Dumps are proper data -/

/-- Numbers are written with digits that the reader of data takes for digits. -/
theorem isDecimalDigit_of_mem_toDigits {n : Nat} {c : Char} (hc : c ∈ Nat.toDigits 10 n) :
    Text.isDecimalDigit c = true := by
  have hd := Nat.isDigit_of_mem_toDigits (by omega) (by omega) hc
  rw [Text.isDecimalDigit, if_pos, hd]
  rw [Text.isDigit_iff] at hd
  omega

/-- A number as it is written, with or without a minus, is an integer of the data. -/
theorem isInteger_toString (v : Int) : Datum.IsInteger (toString v).toList := by
  have hdigits : ∀ n : Nat, ∀ c ∈ Nat.toDigits 10 n, Text.isDecimalDigit c = true :=
    fun _ _ => isDecimalDigit_of_mem_toDigits
  have hstarts : ∀ n : Nat, ∃ c cs, Nat.toDigits 10 n = c :: cs := fun n =>
    List.exists_cons_of_ne_nil Nat.toDigits_ne_nil
  rw [Int.toString_eq_repr, Int.repr_eq_if]
  split
  · obtain ⟨c, cs, hcs⟩ := hstarts v.toNat
    have hall := hdigits v.toNat
    rw [Nat.toList_repr, hcs]
    rw [hcs, List.forall_mem_cons] at hall
    exact .mk (by simp [Datum.Scan.startsInteger, hall.1]) hall.2
  · obtain ⟨c, cs, hcs⟩ := hstarts (-v).toNat
    have hall := hdigits (-v).toNat
    have hminus : "-".toList = ['-'] := rfl
    rw [String.toList_append, Nat.toList_repr, hminus, List.singleton_append]
    refine .mk ?_ hall
    rw [hcs, List.forall_mem_cons] at hall
    simp [Datum.Scan.startsInteger, hcs, hall.1]

theorem Expr.toData_eq_map (es : List Expr) : Expr.toData es = es.map Expr.toDatum := by
  induction es with
  | nil => rfl
  | cons e es ih => rw [Expr.toData, ih, List.map_cons]

theorem Stmt.toData_eq_map (ss : List Stmt) : Stmt.toData ss = ss.map Stmt.toDatum := by
  induction ss with
  | nil => rfl
  | cons s ss ih => rw [Stmt.toData, ih, List.map_cons]

/-- Data are proper if the first and the others are. -/
theorem proper_cons {d : Datum} {ds : List Datum} (hd : d.Proper)
    (hds : ∀ e ∈ ds, e.Proper) : ∀ e ∈ d :: ds, e.Proper :=
  List.forall_mem_cons.mpr ⟨hd, hds⟩

theorem proper_map {α : Type} {f : α → Datum} {as : List α} (h : ∀ a ∈ as, (f a).Proper) :
    ∀ d ∈ as.map f, d.Proper :=
  List.forall_mem_map.mpr h

/-- The datum of an expression is proper, whatever the names and literals in it. They are strings of
the datum, and these may hold anything. -/
theorem Expr.toDatum_proper (e : Expr) : e.toDatum.Proper := by
  induction e using Expr.induction with
  | binary op left right hl hr =>
    exact .list (proper_cons (.symbol (by decide)) (proper_cons (.string _)
      (proper_cons hl (proper_cons hr nofun))))
  | call start callee args h =>
    rw [Expr.toDatum, Expr.toData_eq_map]
    exact .list (proper_cons (.symbol (by decide)) (proper_cons (.string _) (proper_map h)))
  | int literal value =>
    exact .list (proper_cons (.symbol (by decide))
      (proper_cons (.integer (isInteger_toString _)) nofun))
  | bool literal value =>
    have hvalue : (boolDatum value).Proper := .symbol (by cases value <;> decide)
    exact .list (proper_cons (.symbol (by decide)) (proper_cons hvalue nofun))
  | str literal => exact .list (proper_cons (.symbol (by decide)) (proper_cons (.string _) nofun))
  | var name => exact .list (proper_cons (.symbol (by decide)) (proper_cons (.string _) nofun))

/-- A type name is dumped as a symbol, so it has to be one of the words that are symbols. -/
theorem TypeName.Spelled.proper {t : TypeName} (h : t.Spelled) : t.toDatum.Proper := by
  obtain ⟨k, -, hk⟩ := h
  rw [TypeName.toDatum, hk]
  exact .symbol (by cases k <;> decide)

/-- The datum of a statement is proper if the type names in it are spelled. -/
theorem Stmt.Spelled.proper {s : Stmt} (h : s.Spelled) : s.toDatum.Proper := by
  induction h with
  | ret start value =>
    exact .list (proper_cons (.symbol (by decide)) (proper_cons value.toDatum_proper nofun))
  | cond start test brace _ ih =>
    rw [Stmt.toDatum, Stmt.toData_eq_map]
    have hblock := Datum.Proper.list (proper_cons (.symbol (s := "block") (by decide))
      (proper_map ih))
    exact .list (proper_cons (.symbol (by decide)) (proper_cons test.toDatum_proper
      (proper_cons hblock nofun)))
  | assign target value =>
    exact .list (proper_cons (.symbol (by decide)) (proper_cons (.string _)
      (proper_cons value.toDatum_proper nofun)))
  | print start args =>
    rw [Stmt.toDatum, Expr.toData_eq_map]
    exact .list (proper_cons (.symbol (by decide)) (proper_map fun a _ => a.toDatum_proper))
  | decl start value h =>
    exact .list (proper_cons (.symbol (by decide)) (proper_cons (.string _)
      (proper_cons h.proper (proper_cons value.toDatum_proper nofun))))
  | call start callee args =>
    rw [Stmt.toDatum, Expr.toData_eq_map]
    exact .list (proper_cons (.symbol (by decide)) (proper_cons (.string _)
      (proper_map fun a _ => a.toDatum_proper)))

/-- The datum of a function is proper if the type names in it are spelled. -/
theorem Function.Spelled.proper {f : Function} (h : f.Spelled) : f.toDatum.Proper := by
  have hparam : ∀ p ∈ f.params, p.toDatum.Proper := fun p hp =>
    .list (proper_cons (.symbol (by decide)) (proper_cons (.string _)
      (proper_cons (h.params p hp).proper nofun)))
  have hreturns : ((f.returns.map TypeName.toDatum).getD (.symbol "void")).Proper := by
    cases hr : f.returns with
    | none => exact .symbol (by decide)
    | some t => exact (h.returns t hr).proper
  have hblock : (blockDatum f.body).Proper := by
    rw [blockDatum, Stmt.toData_eq_map]
    exact .list (proper_cons (.symbol (by decide)) (proper_map fun s hs => (h.body s hs).proper))
  exact .list (proper_cons (.symbol (by decide)) (proper_cons (.string _)
    (proper_cons (.array (proper_map hparam)) (proper_cons hreturns (proper_cons hblock nofun)))))

/-- The datum of a program is proper if the type names in it are spelled. -/
theorem Program.Spelled.proper {p : Program} (h : p.Spelled) : p.toDatum.Proper :=
  .list (proper_cons (.symbol (by decide)) (proper_map fun f hf => (h f hf).proper))

/-! ## Dumps leave out the tokens that are not read -/

/-- The case of arguments in the induction for `Expr.toDatum_erase`. -/
theorem Expr.toData_erase {es : List Expr} (h : ∀ e ∈ es, e.erase.toDatum = e.toDatum) :
    Expr.toData (Expr.eraseAll es) = Expr.toData es := by
  rw [Expr.toData_eq_map, Expr.toData_eq_map, Expr.eraseAll_eq_map, List.map_map]
  exact List.map_congr_left h

/-- A dump does not say where a token stands. -/
theorem Expr.toDatum_erase (e : Expr) : e.erase.toDatum = e.toDatum := by
  induction e using Expr.induction with
  | binary op left right hl hr => rw [Expr.erase, Expr.toDatum, Expr.toDatum, hl, hr]
  | call start callee args h => rw [Expr.erase, Expr.toDatum, Expr.toDatum, Expr.toData_erase h]
  | int | bool | str | var => rfl

/-- The case of a block in the induction for `Stmt.toDatum_erase`. -/
theorem Stmt.toData_erase {ss : List Stmt} (h : ∀ s ∈ ss, s.erase.toDatum = s.toDatum) :
    Stmt.toData (Stmt.eraseAll ss) = Stmt.toData ss := by
  rw [Stmt.toData_eq_map, Stmt.toData_eq_map, Stmt.eraseAll_eq_map, List.map_map]
  exact List.map_congr_left h

theorem Stmt.toDatum_erase (s : Stmt) : s.erase.toDatum = s.toDatum := by
  have hargs (args : List Expr) : Expr.toData (Expr.eraseAll args) = Expr.toData args :=
    Expr.toData_erase fun a _ => a.toDatum_erase
  induction s using Stmt.induction with
  | ret start value => rw [Stmt.erase, Stmt.toDatum, Stmt.toDatum, value.toDatum_erase]
  | cond start test brace body h =>
    rw [Stmt.erase, Stmt.toDatum, Stmt.toDatum, test.toDatum_erase, Stmt.toData_erase h]
  | assign target value =>
    rw [Stmt.erase, Stmt.toDatum, Stmt.toDatum, value.toDatum_erase, Token.unplaced]
  | print start args => rw [Stmt.erase, Stmt.toDatum, Stmt.toDatum, hargs]
  | decl start param value =>
    rw [Stmt.erase, Stmt.toDatum, Stmt.toDatum, value.toDatum_erase]
    rfl
  | call start callee args => rw [Stmt.erase, Stmt.toDatum, Stmt.toDatum, hargs]

theorem Function.toDatum_erase (f : Function) : f.erase.toDatum = f.toDatum := by
  have hparams : (f.params.map Param.erase).map Param.toDatum = f.params.map Param.toDatum :=
    List.map_map
  have hreturns : (f.returns.map TypeName.erase).map TypeName.toDatum =
      f.returns.map TypeName.toDatum := Option.map_map ..
  have hbody : Stmt.toData (Stmt.eraseAll f.body) = Stmt.toData f.body :=
    Stmt.toData_erase fun s _ => s.toDatum_erase
  rw [Function.toDatum, Function.toDatum, Function.erase, hparams, hreturns, blockDatum, hbody,
    blockDatum]

/-- **A dump leaves out the places of tokens**: without them the dump is the same. -/
theorem Program.toDatum_erase (p : Program) : p.erase.toDatum = p.toDatum := by
  rw [Program.toDatum, Program.toDatum, Program.erase, List.map_map,
    List.map_congr_left fun f _ => f.toDatum_erase]

/-! ## Dumps leave out nothing else -/

/-- Operators are written differently. -/
theorem BinaryOp.symbol_injective : Function.Injective BinaryOp.symbol := by
  intro op op' h
  have hop := (Operator.ofSymbol?_eq_some.mpr h).symm.trans (Operator.ofSymbol?_eq_some.mpr rfl)
  have := congrArg BinaryOp.ofOperator? (Option.some.inj hop)
  rwa [ofOperator?_operator, ofOperator?_operator, Option.some.injEq] at this

/-- Digits can be read back. -/
theorem natRepr_injective : Function.Injective Nat.repr := by
  intro m n h
  have hdigits := congrArg String.toList h
  rw [Nat.toList_repr, Nat.toList_repr] at hdigits
  rw [← Nat.ofDigitChars_ten_toDigits (n := m), hdigits, Nat.ofDigitChars_ten_toDigits]

/-- A number without a sign is not one with a minus. -/
theorem natRepr_ne_minus (m : Nat) (s : String) : m.repr ≠ "-" ++ s := by
  intro h
  have hminus : '-' ∈ m.repr.toList := by simp [h, String.toList_append]
  rw [Nat.toList_repr] at hminus
  exact absurd (isDecimalDigit_of_mem_toDigits hminus) (by decide)

/-- Numbers with a sign can be read back. The minus tells the negative ones from the others. -/
theorem intRepr_injective : Function.Injective Int.repr := by
  intro v w h
  rw [Int.repr_eq_if, Int.repr_eq_if] at h
  split at h <;> split at h
  · have := natRepr_injective h
    omega
  · exact absurd h (natRepr_ne_minus _ _)
  · exact absurd h.symm (natRepr_ne_minus _ _)
  · have := natRepr_injective (String.append_right_inj _ |>.mp h)
    omega

/-- The datum of a literal tells its value. -/
theorem intDatum_injective : Function.Injective intDatum := by
  intro v v' h
  rw [intDatum, intDatum, Datum.integer.injEq, Int.toString_eq_repr, Int.toString_eq_repr] at h
  exact Int32.toInt_inj.mp (intRepr_injective h)

/-- The datum of a truth value tells it. -/
theorem boolDatum_injective : Function.Injective boolDatum := by
  intro b b' h
  cases b <;> cases b' <;> first | rfl | simp [boolDatum] at h

/-- The case of arguments in the induction for `Expr.erase_eq_of_toDatum`. -/
theorem Expr.eraseAll_eq_of_toData {es es' : List Expr}
    (h : ∀ e ∈ es, ∀ e' : Expr, e.toDatum = e'.toDatum → e.erase = e'.erase)
    (heq : Expr.toData es = Expr.toData es') : Expr.eraseAll es = Expr.eraseAll es' := by
  rw [Expr.toData_eq_map, Expr.toData_eq_map] at heq
  rw [Expr.eraseAll_eq_map, Expr.eraseAll_eq_map]
  exact map_eq_map_of_forall (fun e he e' _ => h e he e') heq

/-- The datum of an expression determines it, up to the places of tokens. The symbol at the front is
different for every kind of expression, which leaves one case for each. -/
theorem Expr.erase_eq_of_toDatum {e e' : Expr} (h : e.toDatum = e'.toDatum) :
    e.erase = e'.erase := by
  induction e using Expr.induction generalizing e' with
  | binary op left right hl hr =>
    cases e' with
    | binary op' left' right' =>
      simp only [Expr.toDatum, Datum.list.injEq, List.cons.injEq, Datum.string.injEq, true_and,
        and_true] at h
      obtain ⟨hop, hleft, hright⟩ := h
      rw [Expr.erase, Expr.erase, BinaryOp.symbol_injective hop, hl hleft, hr hright]
    | _ => simp [Expr.toDatum] at h
  | call start callee args ih =>
    cases e' with
    | call start' callee' args' =>
      simp only [Expr.toDatum, Datum.list.injEq, List.cons.injEq, Datum.string.injEq,
        true_and] at h
      obtain ⟨rfl, hargs⟩ := h
      rw [Expr.erase, Expr.erase, Expr.eraseAll_eq_of_toData (fun a ha _ => ih a ha) hargs]
    | _ => simp [Expr.toDatum] at h
  | int literal value =>
    cases e' with
    | int literal' value' =>
      simp only [Expr.toDatum, Datum.list.injEq, List.cons.injEq, true_and, and_true] at h
      rw [Expr.erase, Expr.erase, intDatum_injective h]
    | _ => simp [Expr.toDatum] at h
  | bool literal value =>
    cases e' with
    | bool literal' value' =>
      simp only [Expr.toDatum, Datum.list.injEq, List.cons.injEq, true_and, and_true] at h
      rw [Expr.erase, Expr.erase, boolDatum_injective h]
    | _ => simp [Expr.toDatum] at h
  | str literal =>
    cases e' with
    | str literal' =>
      simp only [Expr.toDatum, Datum.list.injEq, List.cons.injEq, Datum.string.injEq, true_and,
        and_true] at h
      rw [Expr.erase, Expr.erase, Token.unplaced, Token.unplaced, h]
    | _ => simp [Expr.toDatum] at h
  | var name =>
    cases e' with
    | var name' =>
      simp only [Expr.toDatum, Datum.list.injEq, List.cons.injEq, Datum.string.injEq, true_and,
        and_true] at h
      rw [Expr.erase, Expr.erase, Token.unplaced, Token.unplaced, h]
    | _ => simp [Expr.toDatum] at h

/-- The spelling of a type name tells which word it is. -/
theorem TypeName.Spelled.erase_eq {t t' : TypeName} (h : t.Spelled) (h' : t'.Spelled)
    (heq : t.toDatum = t'.toDatum) : t.erase = t'.erase := by
  obtain ⟨k, hkind, hk⟩ := h
  obtain ⟨k', hkind', hk'⟩ := h'
  rw [TypeName.toDatum, TypeName.toDatum, Datum.symbol.injEq] at heq
  have hword : k'.word = k.word := by rw [← hk, ← hk', heq]
  obtain rfl : k = k' := Option.some.inj
    ((Keyword.ofWord?_eq_some.mpr rfl).symm.trans (Keyword.ofWord?_eq_some.mpr hword))
  have hlexeme : t.token.lexeme = t'.token.lexeme := heq
  rw [TypeName.erase, TypeName.erase, hkind, hkind', hlexeme]

/-- A parameter is its name and its type. The type name is a token; that its text tells its kind is
what `Spelled` is for. -/
theorem Param.erase_eq {p p' : Param} (h : p.type.Spelled) (h' : p'.type.Spelled)
    (hname : p.name.lexeme = p'.name.lexeme) (htype : p.type.toDatum = p'.type.toDatum) :
    p.erase = p'.erase := by
  rw [Param.erase, Param.erase, Token.unplaced, Token.unplaced, hname, h.erase_eq h' htype]

/-- The datum of a parameter determines it. -/
theorem Param.erase_eq_of_toDatum {p p' : Param} (h : p.type.Spelled) (h' : p'.type.Spelled)
    (heq : p.toDatum = p'.toDatum) : p.erase = p'.erase := by
  simp only [Param.toDatum, Datum.list.injEq, List.cons.injEq, Datum.string.injEq, true_and,
    and_true] at heq
  exact Param.erase_eq h h' heq.1 heq.2

/-- The case of a block in the induction for `Stmt.Spelled.erase_eq`. -/
theorem Stmt.eraseAll_eq_of_toData {ss ss' : List Stmt} (hss' : ∀ s ∈ ss', s.Spelled)
    (h : ∀ s ∈ ss, ∀ s' : Stmt, s'.Spelled → s.toDatum = s'.toDatum → s.erase = s'.erase)
    (heq : Stmt.toData ss = Stmt.toData ss') : Stmt.eraseAll ss = Stmt.eraseAll ss' := by
  rw [Stmt.toData_eq_map, Stmt.toData_eq_map] at heq
  rw [Stmt.eraseAll_eq_map, Stmt.eraseAll_eq_map]
  exact map_eq_map_of_forall (fun s hs s' hs' => h s hs s' (hss' s' hs')) heq

/-- The datum of a statement determines it, up to the places of tokens. A call statement is dumped
as an expression, but no other statement has that symbol. -/
theorem Stmt.Spelled.erase_eq {s s' : Stmt} (hs : s.Spelled) (hs' : s'.Spelled)
    (h : s.toDatum = s'.toDatum) : s.erase = s'.erase := by
  have hargs {args args' : List Expr} (h : Expr.toData args = Expr.toData args') :
      Expr.eraseAll args = Expr.eraseAll args' :=
    Expr.eraseAll_eq_of_toData (fun _ _ _ => Expr.erase_eq_of_toDatum) h
  induction hs generalizing s' with
  | ret start value =>
    cases hs' with
    | ret start' value' =>
      simp only [Stmt.toDatum, Datum.list.injEq, List.cons.injEq, true_and, and_true] at h
      rw [Stmt.erase, Stmt.erase, Expr.erase_eq_of_toDatum h]
    | _ => simp [Stmt.toDatum] at h
  | cond start test brace _ ih =>
    cases hs' with
    | cond start' test' brace' hbody' =>
      simp only [Stmt.toDatum, Datum.list.injEq, List.cons.injEq, true_and, and_true] at h
      rw [Stmt.erase, Stmt.erase, Expr.erase_eq_of_toDatum h.1,
        Stmt.eraseAll_eq_of_toData hbody' (fun s hs _ => ih s hs) h.2]
    | _ => simp [Stmt.toDatum] at h
  | assign target value =>
    cases hs' with
    | assign target' value' =>
      simp only [Stmt.toDatum, Datum.list.injEq, List.cons.injEq, Datum.string.injEq, true_and,
        and_true] at h
      rw [Stmt.erase, Stmt.erase, Token.unplaced, Token.unplaced, h.1,
        Expr.erase_eq_of_toDatum h.2]
    | _ => simp [Stmt.toDatum] at h
  | print start args =>
    cases hs' with
    | print start' args' =>
      simp only [Stmt.toDatum, Datum.list.injEq, List.cons.injEq, true_and] at h
      rw [Stmt.erase, Stmt.erase, hargs h]
    | _ => simp [Stmt.toDatum] at h
  | @decl start param value ht =>
    cases hs' with
    | @decl start' param' value' ht' =>
      simp only [Stmt.toDatum, Datum.list.injEq, List.cons.injEq, Datum.string.injEq, true_and,
        and_true] at h
      obtain ⟨hname, htype, hvalue⟩ := h
      rw [Stmt.erase, Stmt.erase, Param.erase_eq ht ht' hname htype,
        Expr.erase_eq_of_toDatum hvalue]
    | _ => simp [Stmt.toDatum] at h
  | call start callee args =>
    cases hs' with
    | call start' callee' args' =>
      simp only [Stmt.toDatum, Datum.list.injEq, List.cons.injEq, Datum.string.injEq,
        true_and] at h
      rw [Stmt.erase, Stmt.erase, h.1, hargs h.2]
    | _ => simp [Stmt.toDatum] at h

/-- No type name is spelled as the word for having no result. -/
theorem TypeName.Spelled.toDatum_ne_void {t : TypeName} (h : t.Spelled) :
    t.toDatum ≠ .symbol "void" := by
  obtain ⟨k, -, hk⟩ := h
  rw [TypeName.toDatum, hk]
  cases k <;> simp [Keyword.word]

/-- The datum of a result type determines it. No type that can be spelled is called `void`, so that
a missing one is not mistaken. -/
theorem returns_erase_eq {r r' : Option TypeName} (h : ∀ t ∈ r, t.Spelled)
    (h' : ∀ t ∈ r', t.Spelled)
    (heq : (r.map TypeName.toDatum).getD (.symbol "void") =
      (r'.map TypeName.toDatum).getD (.symbol "void")) :
    r.map TypeName.erase = r'.map TypeName.erase := by
  cases r with
  | none =>
    cases r' with
    | none => rfl
    | some t' => exact absurd heq.symm (h' t' rfl).toDatum_ne_void
  | some t =>
    cases r' with
    | none => exact absurd heq (h t rfl).toDatum_ne_void
    | some t' => exact congrArg some ((h t rfl).erase_eq (h' t' rfl) heq)

/-- The datum of a function determines it, up to the places of tokens. -/
theorem Function.Spelled.erase_eq {f f' : Function} (h : f.Spelled) (h' : f'.Spelled)
    (heq : f.toDatum = f'.toDatum) : f.erase = f'.erase := by
  simp only [Function.toDatum, blockDatum, Datum.list.injEq, List.cons.injEq, Datum.string.injEq,
    Datum.array.injEq, true_and, and_true] at heq
  obtain ⟨hname, hparams, hreturns, hbody⟩ := heq
  have hps : f.params.map Param.erase = f'.params.map Param.erase :=
    map_eq_map_of_forall (fun p hp p' hp' => Param.erase_eq_of_toDatum (h.params p hp)
      (h'.params p' hp')) hparams
  have hss : Stmt.eraseAll f.body = Stmt.eraseAll f'.body :=
    Stmt.eraseAll_eq_of_toData h'.body (fun s hs s' hs' => (h.body s hs).erase_eq hs') hbody
  rw [Function.erase, Function.erase, hname, hps, returns_erase_eq h.returns h'.returns hreturns,
    hss]

/-- **A dump leaves out nothing else**: programs with the same datum differ in the places of tokens
only. -/
theorem Program.Spelled.erase_eq {p p' : Program} (h : p.Spelled) (h' : p'.Spelled)
    (heq : p.toDatum = p'.toDatum) : p.erase = p'.erase := by
  simp only [Program.toDatum, Datum.list.injEq, List.cons.injEq, true_and] at heq
  rw [Program.erase, Program.erase,
    map_eq_map_of_forall (fun f hf f' hf' => (h f hf).erase_eq (h' f' hf')) heq]

end Tree

/-! ## Trees of texts -/

/-- The token, if it is a reserved word, is spelled as that word. -/
def Token.Worded (t : Token) : Prop := ∀ k, t.kind = .keyword k → t.lexeme = k.word

/-- A reserved word is spelled as that word. -/
theorem Scan.Spelled.word_eq {after s : List Char} {k : Keyword} {w : String}
    (h : Spelled after s (.keyword k) w) : w = k.word := by
  cases h with
  | keyword _ hword => exact hword.symm

/-- The reserved words among the tokens of a text are spelled as they are. -/
theorem Token.worded_of_ofText {cs : List Char} {ts : List Token} (h : Token.ofText cs = .ok ts) :
    ∀ t ∈ ts, t.Worded := by
  intro t ht k hk
  obtain ⟨after, s, hspelled⟩ := Scan.exists_spelled_of_ofText h ht
  rw [hk] at hspelled
  exact hspelled.word_eq

namespace Grammar

/-- The type names of the grammar are spelled, if their tokens are. -/
theorem TypeWord.spelled (t : TypeWord) (h : t.1.Worded) : (Tree.TypeName.mk t.1).Spelled := by
  obtain ⟨t, ht⟩ := t
  cases hkind : t.kind with
  | keyword k => exact ⟨k, hkind, h k hkind⟩
  | _ =>
    rw [hkind] at ht
    cases ht

/-- The type name in a member of a list, if there is one, is spelled. -/
def Item.Spelled : (i : Item) → i.Value → Prop
  | .arg, _ => True
  | .param, p => Tree.TypeName.Spelled (Tree.Param.type p)

theorem Element.spelled {i : Item} (e : Element i) (h : ∀ t ∈ e.yield, t.Worded) :
    i.Spelled e.tree := by
  cases e with
  | arg e => exact trivial
  | param p => exact TypeWord.spelled p.type (h _ (by simp [Element.yield, Param.yield]))

theorem Series.spelled {i : Item} {first : Bool} (s : Series i first)
    (h : ∀ t ∈ s.yield, t.Worded) : ∀ v ∈ s.tree, i.Spelled v := by
  match first, s with
  | _, .close rparen =>
    rw [Series.tree]
    exact List.forall_mem_nil _
  | _, .first item rest | _, .next comma item rest =>
    rw [Series.tree]
    exact List.forall_mem_cons.mpr
      ⟨item.spelled fun t ht => h t (by simp [Series.yield, ht]),
        rest.spelled fun t ht => h t (by simp [Series.yield, ht])⟩
termination_by structural s

mutual

/-- The type names in the tree of a statement are spelled, by induction on the derivation: each of
them is one of the tokens it was derived from. -/
theorem Stmt.spelled (s : Stmt) (h : ∀ t ∈ s.yield, t.Worded) : s.tree.Spelled := by
  match s with
  | .ret .. => exact .ret ..
  | .cond start test lbrace body =>
    exact .cond _ _ _ (body.spelled fun t ht => h t (by simp [Stmt.yield, ht]))
  | .assign .. => exact .assign ..
  | .print .. => exact .print ..
  | .decl start param eq value semi =>
    exact .decl _ _ (TypeWord.spelled param.type (h _ (by simp [Stmt.yield, Param.yield])))
  | .call (.mk ..) _ => exact .call ..
termination_by structural s

/-- The statements of a block, together with `Stmt.spelled`. -/
theorem Body.spelled (b : Body) (h : ∀ t ∈ b.yield, t.Worded) : ∀ s ∈ b.tree, s.Spelled := by
  match b with
  | .close rbrace => nofun
  | .cons s rest =>
    exact List.forall_mem_cons.mpr ⟨s.spelled fun t ht => h t (by simp [Body.yield, ht]),
      rest.spelled fun t ht => h t (by simp [Body.yield, ht])⟩
termination_by structural b

end

theorem Function.spelled (f : Function) (h : ∀ t ∈ f.yield, t.Worded) : f.tree.Spelled where
  params := f.params.spelled fun t ht => h t (by simp [Function.yield, ht])
  returns t ht := by
    obtain ⟨⟨arrow, type⟩, hr, rfl⟩ := Option.map_eq_some_iff.mp ht
    exact TypeWord.spelled type (h _ (by simp [Function.yield, hr, returnsYield]))
  body := f.body.spelled fun t ht => h t (by simp [Function.yield, ht])

/-- The type names in the tree of a program are spelled. -/
theorem Program.spelled (p : Program) (h : ∀ t ∈ p.yield, t.Worded) : p.tree.Spelled :=
  List.forall_mem_map.mpr fun f hf =>
    f.spelled fun t ht => h t (List.mem_flatMap.mpr ⟨f, hf, ht⟩)

end Grammar

/-- Type names of texts are spelled as the words they are. -/
theorem Tree.Program.spelled_of_ofTokens {cs : List Char} {ts : List Token} {p : Tree.Program}
    (hts : Token.ofText cs = .ok ts) (hp : Tree.Program.ofTokens ts = .ok p) : p.Spelled := by
  obtain ⟨d, rfl, rfl⟩ := (Tree.Program.ofTokens_iff (Token.allPlain_of_ofText hts)).mp hp
  exact d.spelled (Token.worded_of_ofText hts)

/-- A proper datum is read back from its text. -/
theorem Datum.Proper.reads_text {d : Datum} (h : d.Proper) :
    Datum.ofText d.text.toList = .ok d := by
  rw [Datum.text, String.toList_ofList, h.ofText_chars]

/-- Proper data with the same text are the same, since the text can be read back. -/
theorem Datum.Proper.text_injective {d d' : Datum} (h : d.Proper) (h' : d'.Proper)
    (heq : d.text = d'.text) : d = d' :=
  h.chars_injective h' (String.ofList_injective heq)

/-- **Dumps are faithful.** The dump of a tree that was read from a text can itself be read, as a
datum whose written form is that very dump. Two trees that were read from texts have the same dump
exactly if they are the same up to the tokens that their nodes start with. -/
theorem dump_faithful {cs cs' : List Char} {ts ts' : List Token} (hts : Token.ofText cs = .ok ts)
    (hts' : Token.ofText cs' = .ok ts') :
    (∀ p, Tree.Program.ofTokens ts = .ok p →
      (∃ d, Datum.ofText p.dump.toList = .ok d ∧ d.text = p.dump) ∧
      ∀ p', Tree.Program.ofTokens ts' = .ok p' → (p.dump = p'.dump ↔ p.erase = p'.erase)) ∧
    (∀ e, Tree.Expr.ofTokens ts = .ok e →
      (∃ d, Datum.ofText e.dump.toList = .ok d ∧ d.text = e.dump) ∧
      ∀ e', Tree.Expr.ofTokens ts' = .ok e' → (e.dump = e'.dump ↔ e.erase = e'.erase)) := by
  refine ⟨fun p hp => ?_, fun e _ => ?_⟩
  · have hs := Tree.Program.spelled_of_ofTokens hts hp
    simp only [Tree.Program.dump_eq_text]
    refine ⟨⟨_, hs.proper.reads_text, rfl⟩, fun p' hp' => ⟨fun h => ?_, fun h => ?_⟩⟩
    · have hs' := Tree.Program.spelled_of_ofTokens hts' hp'
      exact hs.erase_eq hs' (hs.proper.text_injective hs'.proper h)
    · rw [← p.toDatum_erase, h, p'.toDatum_erase]
  · simp only [Tree.Expr.dump_eq_text]
    refine ⟨⟨_, e.toDatum_proper.reads_text, rfl⟩, fun e' _ => ⟨fun h => ?_, fun h => ?_⟩⟩
    · exact Tree.Expr.erase_eq_of_toDatum (e.toDatum_proper.text_injective e'.toDatum_proper h)
    · rw [← e.toDatum_erase, h, e'.toDatum_erase]

namespace Sample

/-- The tokens of a function that assigns a text with a quote and a line end in it, at columns of
the first line. -/
def quoting (columns : List Nat) : List Token :=
  List.zipWith (fun (part : Kind × String) column => ⟨part.1, part.2, ⟨1, column⟩⟩)
    [(.keyword .function, "function"), (.ident, "f"), (.delimiter .lparen, "("), (.ident, "s"),
      (.delimiter .colon, ":"), (.keyword .string, "string"), (.delimiter .rparen, ")"),
      (.delimiter .lbrace, "\x7b"), (.ident, "s"), (.operator .assign, "="), (.string, "\"\n"),
      (.delimiter .semicolon, ";"), (.delimiter .rbrace, "\x7d")] columns

def tight : List Token := quoting [1, 10, 11, 12, 13, 14, 20, 21, 22, 23, 24, 30, 31]
def loose : List Token := quoting [1, 10, 11, 13, 15, 17, 24, 26, 28, 30, 32, 38, 40]

/-- The tree of such tokens. -/
def quotingTree (ts : List Token) : Tree.Program :=
  let t (i : Nat) : Token := ts.getD i .blank
  ⟨t 0, [⟨t 0, "f", [⟨t 3, ⟨t 5⟩⟩], none, t 7, [.assign (t 8) (.str (t 10))]⟩]⟩

end Sample

/-- A tightly and a loosely written text of one program. -/
theorem dump_faithful_quoting :
    Token.ofText "function f(s:string)\x7bs=\"\\\"\\n\";\x7d".toList = .ok Sample.tight ∧
    Token.ofText "function f( s : string ) \x7b s = \"\\\"\\n\"; \x7d // f".toList =
      .ok Sample.loose ∧
    Tree.Program.ofTokens Sample.tight = .ok (Sample.quotingTree Sample.tight) ∧
    Tree.Program.ofTokens Sample.loose = .ok (Sample.quotingTree Sample.loose) ∧
    (Sample.quotingTree Sample.tight).dump = "(program (func \"f\" [(param \"s\" string)] " ++
      "void (block (assign \"s\" (string \"\\\"\n\")))))" ∧
    (∃ d, Datum.ofText (Sample.quotingTree Sample.tight).dump.toList = .ok d ∧
      d.text = (Sample.quotingTree Sample.tight).dump) ∧
    (Sample.quotingTree Sample.tight).erase = (Sample.quotingTree Sample.loose).erase := by
  have htight : Token.ofText "function f(s:string)\x7bs=\"\\\"\\n\";\x7d".toList =
      .ok Sample.tight := by
    decide +kernel
  have hloose : Token.ofText "function f( s : string ) \x7b s = \"\\\"\\n\"; \x7d // f".toList =
      .ok Sample.loose := by
    decide +kernel
  have hp : Tree.Program.ofTokens Sample.tight = .ok (Sample.quotingTree Sample.tight) := by cbv
  have hp' : Tree.Program.ofTokens Sample.loose = .ok (Sample.quotingTree Sample.loose) := by cbv
  obtain ⟨hprogram, -⟩ := dump_faithful htight hloose
  obtain ⟨hreads, hsame⟩ := hprogram _ hp
  exact ⟨htight, hloose, hp, hp', by decide +kernel, hreads, (hsame _ hp').mp (by decide +kernel)⟩

end Stackling
