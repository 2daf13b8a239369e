import Stackling.Proofs.Grammar.Boundary
import Stackling.Proofs.Grammar.Script
import Stackling.Proofs.Tree.Moved

/-!
# Parsing at other places

The readers look at what tokens say and hand their places on. So a reader does with moved tokens
what it does with the tokens: it gives the moved tree, or the moved error (`Follows`). This passes
from readers to the readers that are put together from them, as they are.

Where a tree has been read already, what follows depends on it; so `Follows` compares two readers,
one that goes on behind the tree and one that goes on behind the moved one.
-/

namespace Stackling.Grammar

open Stackling.Tree

variable {α β : Type} [Movable α] [Movable β] {φ : Position → Position} {ts : List Token}

/-! ## Readers that follow each other -/

/-- The reader `m'` does with the moved tokens what `m` does with the tokens. -/
def Follows (φ : Position → Position) (m m' : Script α) (ts : List Token) : Prop :=
  ∀ eof, m' (move φ eof) (move φ ts) = move φ (m eof ts)

namespace Follows

variable {m m' : Script α} {f f' : α → Script β}

/-- A reader that takes nothing. -/
theorem pure (a : α) : Follows φ (pure a) (pure (move φ a)) ts := fun _ => rfl

/-- One reader after another. The second one starts behind what the first one took, and gets the
moved value. -/
theorem bind (h : Follows φ m m' ts)
    (hf : ∀ {eof a rest}, m eof ts = .ok (a, rest) → Follows φ (f a) (f' (move φ a)) rest) :
    Follows φ (m >>= f) (m' >>= f') ts :=
  fun eof => bind_move (h eof) fun _ hr => hf hr eof

/-- The last step of a reader makes a value of what was read. -/
theorem bind_pure (h : Follows φ m m' ts) {g g' : α → β} (hg : ∀ a, g' (move φ a) = move φ (g a)) :
    Follows φ (m >>= fun a => Pure.pure (g a)) (m' >>= fun a => Pure.pure (g' a)) ts :=
  h.bind fun {_ a _} _ => hg a ▸ .pure (g a)

/-- A reader that fails does so at the current token, which has moved. -/
theorem fail (x : Expected) : Follows φ (α := α) (Tree.fail x) (Tree.fail x) ts := by
  cases ts <;> exact fun _ => rfl

/-- A reader that goes by the first token follows if it goes on alike behind that token. -/
theorem lead {x : Expected} {g : Token → Option (Script α)}
    (h : ∀ {t : Token} {rest : List Token}, ts = t :: rest →
      Option.Rel (fun s s' => Follows φ s s' rest) (g t) (g (move φ t))) :
    Follows φ (.lead x g) (.lead x g) ts := by
  intro eof
  rcases ts with _ | ⟨t, rest⟩
  · rfl
  change Script.lead x g (move φ eof) (move φ t :: move φ rest) = _
  have hgo := h rfl
  simp only [Script.lead]
  cases hs : g t with
  | none =>
    rw [hs] at hgo
    cases hs' : g (move φ t) with
    | none => rfl
    | some s' =>
      rw [hs'] at hgo
      cases hgo
  | some s =>
    rw [hs] at hgo
    cases hs' : g (move φ t) with
    | none =>
      rw [hs'] at hgo
      cases hgo
    | some s' =>
      rw [hs'] at hgo
      cases hgo with
      | some h => exact h eof

end Follows

/-- Less is left than there was. -/
theorem length_lt_of_bare {γ : Type} {n : Nat} {r : Reading γ n} {a : γ} {rest : List Token}
    (h : bare r = .ok (a, rest)) : rest.length < n := by
  cases r with
  | error e => cases h
  | ok p =>
    cases h
    exact p.lt

/-- The reader looks at the kind of the current token, and this does not move. -/
theorem kind_current_move (eof : Token) (ts : List Token) :
    (current (move φ eof) (move φ ts)).kind = (current eof ts).kind := by
  cases ts <;> rfl

/-! ## Single tokens -/

/-- A reader that takes one token if what it says is right. -/
theorem Follows.single {p : Token → Prop} [DecidablePred p] (hp : ∀ t, p (move φ t) ↔ p t)
    {x : Expected} {g : Token → α} (hg : ∀ t, g (move φ t) = move φ (g t)) :
    Follows φ (.lead x fun t => if p t then some (Pure.pure (g t)) else none)
      (.lead x fun t => if p t then some (Pure.pure (g t)) else none) ts := by
  refine .lead fun {t rest} _ => ?_
  by_cases h : p t
  · rw [if_pos h, if_pos ((hp t).mpr h), hg]
    exact .some (.pure (g t))
  · rw [if_neg h, if_neg (mt (hp t).mp h)]
    exact .none

/-- Taking a token of a kind. -/
theorem token_follows (k : Kind) (ts : List Token) : Follows φ (token k) (token k) ts := by
  rw [token_eq]
  exact .single (fun _ => Iff.rfl) fun _ => rfl

/-- Taking the word of a type. -/
theorem typeName_follows (ts : List Token) : Follows φ typeName typeName ts := by
  rw [typeName_eq]
  exact .single (fun _ => Iff.rfl) fun _ => rfl

namespace Script

instance : (i : Item) → Movable i.Value
  | .arg => inferInstanceAs (Movable Tree.Expr)
  | .param => inferInstanceAs (Movable Tree.Param)

/-- A parameter is a name, a colon and a type. -/
theorem param_follows (ts : List Token) : Follows φ param param ts := by
  rw [param_eq]
  exact (token_follows _ ts).bind fun {_ name rest} _ => (token_follows _ rest).bind
    fun {_ _ rest} _ => (typeName_follows rest).bind_pure fun _ => rfl

/-- If no operator of a level follows, then none does after the move. -/
theorem noOp_move {l : Level} (h : NoOp l ts) : NoOp l (move φ ts) := by
  cases ts with
  | nil => nofun
  | cons t ts =>
    rintro _ ⟨⟩
    exact h t rfl

/-- At most one comparison follows a term, if reading the term to its right follows. -/
theorem comparison_follows (left : Tree.Expr)
    (h : ∀ {t more}, ts = t :: more → Follows φ (phrase .term) (phrase .term) more) :
    Follows φ (comparison left) (comparison (move φ left)) ts := by
  intro eof
  rcases noOp_or .relational ts with hno | ⟨t, more, op, rfl, hop⟩
  · rw [comparison_of_noOp hno]
    exact comparison_of_noOp (noOp_move hno)
  · have hop' : binaryOp? .relational (move φ t) = some op := hop
    have hright : Follows φ (phrase .term >>= fun right => pure (Tree.Expr.binary op left right))
        (phrase .term >>= fun right => pure (.binary op (move φ left) right)) more :=
      (h rfl).bind_pure fun _ => rfl
    rw [comparison_of_op hop, ← hright eof]
    exact comparison_of_op hop' _ _

/-- The first token tells what operand it is, and by its kind; so it is the same case after the
move. Calls and parentheses have operands in turn. -/
theorem operand_follows {t : Token} {rest : List Token} (hcall : Follows φ call call rest)
    (hinner : Follows φ (phrase .expr) (phrase .expr) rest) :
    Option.Rel (fun s s' => Follows φ s s' rest) (operand t) (operand (move φ t)) := by
  have hkind : (move φ t).kind = t.kind := rfl
  have hlexeme : (move φ t).lexeme = t.lexeme := rfl
  unfold operand
  rw [hkind, hlexeme]
  split
  · exact .some (hcall.bind_pure fun c => (Expr.move_call φ t c.1 c.2).symm)
  · cases int32? t.lexeme with
    | none => exact .some fun _ => rfl
    | some v => exact .some (.pure _)
  · exact .some (.pure _)
  · refine .some fun eof => ?_
    split_ifs <;> rfl
  · exact .some (hinner.bind fun {_ e rest} _ => (token_follows _ rest).bind_pure fun _ => rfl)
  · exact .none

/-! ## Expressions -/

/-- A member of a list and those behind it. -/
def cons (i : Item) : Script (List i.Value) := do
  let v ← element i
  let vs ← series i false
  return v :: vs

/-- An item and those after it, if reading each follows. The rest is shorter, for which the
induction of `series_follows` will ask. -/
theorem cons_follows {i : Item} (helement : Follows φ (element i) (element i) ts)
    (hmore : ∀ rest, rest.length < ts.length → Follows φ (series i false) (series i false) rest) :
    Follows φ (cons i) (cons i) ts :=
  helement.bind fun hread => (hmore _ (length_lt_of_bare hread)).bind_pure fun _ => rfl

mutual

/-- A phrase, by induction on the number of tokens and then on how tight it binds, as the readers
recurse. -/
theorem phrase_follows (r : Rank) (ts : List Token) : Follows φ (phrase r) (phrase r) ts := by
  match r with
  | .chain j =>
    -- the operand is read from the same tokens, but as a tighter phrase
    have hfloor : 4 - j.operand.floor < 4 - (Rank.chain j).floor := by cases j <;> decide
    rw [chain_eq]
    refine (phrase_follows j.operand ts).bind fun {_ left rest} hread => ?_
    have hlt := length_lt_of_bare hread
    exact tail_follows j left rest
  | .relation =>
    rw [relation_eq]
    refine (phrase_follows .term ts).bind fun {_ left rest} hread => ?_
    refine comparison_follows left fun {t more} hrest => ?_
    have hlt : more.length < ts.length := by
      have hlt := length_lt_of_bare hread
      rw [hrest, List.length_cons] at hlt
      omega
    exact phrase_follows .term more
  | .atom =>
    rw [atom_eq]
    refine .lead fun {t rest} hts => ?_
    subst hts
    exact operand_follows (call_follows rest) (phrase_follows .expr rest)
termination_by (ts.length, 4 - r.floor)
decreasing_by
  all_goals subst_vars
  · exact .right _ hfloor
  · exact .left _ _ hlt
  · exact .right _ (by decide)
  · exact .left _ _ hlt
  · exact .left _ _ (Nat.lt_succ_self _)
  · exact .left _ _ (Nat.lt_succ_self _)

/-- Operators and operands behind a left operand, which has moved already. -/
theorem tail_follows (j : Joint) (left : Tree.Expr) (ts : List Token) :
    Follows φ (tail j left) (tail j (move φ left)) ts := by
  intro eof
  rcases noOp_or j.level ts with hno | ⟨t, more, op, hts, hop⟩
  · rw [tail_of_noOp hno]
    exact tail_of_noOp (noOp_move hno)
  · have hop' : binaryOp? j.level (move φ t) = some op := hop
    have hlt : more.length < ts.length := by simp [hts]
    have hmore : Follows φ (phrase j.operand >>= fun right => tail j (.binary op left right))
        (phrase j.operand >>= fun right => tail j (.binary op (move φ left) right)) more := by
      refine (phrase_follows j.operand more).bind fun {_ right rest} hread => ?_
      have hlt' := length_lt_of_bare hread
      exact tail_follows j (.binary op left right) rest
    subst hts
    rw [tail_of_op hop, ← hmore eof]
    exact tail_of_op hop' _ _
termination_by (ts.length, 0)
decreasing_by
  · exact .left _ _ hlt
  · exact .left _ _ (hlt'.trans hlt)

/-- A call behind its arrow. -/
theorem call_follows (ts : List Token) : Follows φ call call ts := by
  rw [call_eq]
  refine (token_follows _ ts).bind fun {_ name rest} hname => ?_
  refine (token_follows _ rest).bind fun {_ _ rest'} hlparen => ?_
  have hlt := length_lt_of_bare hname
  have hlt' := length_lt_of_bare hlparen
  exact (series_follows .arg true rest').bind_pure fun _ => rfl
termination_by (ts.length, 0)
decreasing_by exact .left _ _ (hlt'.trans hlt)

/-- An item of a list. -/
theorem element_follows (i : Item) (ts : List Token) :
    Follows φ (element i) (element i) ts := by
  match i with
  | .arg => exact phrase_follows .expr ts
  | .param => exact param_follows ts
termination_by (ts.length, 5)
decreasing_by exact .right _ (by decide)

/-- A list up to its closing parenthesis. -/
theorem series_follows (i : Item) (first : Bool) (ts : List Token) :
    Follows φ (series i first) (series i first) ts := by
  intro eof
  by_cases hc : (current eof ts).kind = .delimiter .rparen
  · have hclose : Follows φ (token (.delimiter .rparen) >>= fun _ => pure ([] : List i.Value))
        (token (.delimiter .rparen) >>= fun _ => pure []) ts :=
      (token_follows _ ts).bind_pure fun _ => rfl
    rw [series_close hc, ← hclose eof]
    exact series_close ((kind_current_move eof ts).trans hc)
  have hc' : (current (move φ eof) (move φ ts)).kind ≠ .delimiter .rparen :=
    (kind_current_move eof ts).symm ▸ hc
  match first with
  | true =>
    have hmore := cons_follows (element_follows i ts) fun rest hlt => series_follows i false rest
    rw [series_first hc, series_first hc']
    exact hmore eof
  | false =>
    have hcomma : Follows φ (token (.delimiter .comma) >>= fun _ => cons i)
        (token (.delimiter .comma) >>= fun _ => cons i) ts := by
      refine (token_follows _ ts).bind fun {_ _ rest} hread => ?_
      have hlt := length_lt_of_bare hread
      exact cons_follows (element_follows i rest) fun rest' hlt' => series_follows i false rest'
    rw [series_next hc, series_next hc']
    exact hcomma eof
termination_by (ts.length, 6)
decreasing_by
  · exact .right _ (by decide)
  · exact .left _ _ hlt
  · exact .left _ _ hlt
  · exact .left _ _ (hlt'.trans hlt)

end

/-! ## Statements -/

/-- What stands behind the first token of a statement. The bodies of conditions are statements that
are shorter. -/
theorem statement_follows {t : Token} {rest : List Token}
    (hbody : ∀ ts, ts.length < rest.length → Follows φ stmts stmts ts) :
    Option.Rel (fun s s' => Follows φ s s' rest) (statement t) (statement (move φ t)) := by
  have hkind : (move φ t).kind = t.kind := rfl
  unfold statement
  rw [hkind]
  split
  · exact .some ((phrase_follows _ rest).bind fun {_ value rest} _ =>
      (token_follows _ rest).bind_pure fun _ => rfl)
  · refine .some ((phrase_follows _ rest).bind fun {_ test mid} htest =>
      (token_follows _ mid).bind fun {_ brace rest'} hbrace => ?_)
    have hlt : rest'.length < rest.length :=
      (length_lt_of_bare hbrace).trans (length_lt_of_bare htest)
    exact (hbody rest' hlt).bind_pure fun body => (Stmt.move_cond φ t test brace body).symm
  · exact .some ((token_follows _ rest).bind fun {_ _ rest} _ =>
      (phrase_follows _ rest).bind fun {_ value rest} _ =>
        (token_follows _ rest).bind_pure fun _ => rfl)
  · exact .some ((token_follows _ rest).bind fun {_ _ rest} _ =>
      (series_follows _ _ rest).bind fun {_ args rest} _ =>
        (token_follows _ rest).bind_pure fun _ => rfl)
  · exact .some ((param_follows rest).bind fun {_ p rest} _ =>
      (token_follows _ rest).bind fun {_ _ rest} _ =>
        (phrase_follows _ rest).bind fun {_ value rest} _ =>
          (token_follows _ rest).bind_pure fun _ => rfl)
  · exact .some ((call_follows rest).bind fun {_ c rest} _ =>
      (token_follows _ rest).bind_pure fun _ => rfl)
  · exact .none

mutual

/-- A statement, by induction on the number of tokens: a block in it is shorter. -/
theorem stmt_follows (ts : List Token) : Follows φ stmt stmt ts := by
  rw [stmt_eq]
  refine .lead fun {t rest} hts => statement_follows fun body hlt => ?_
  have hlt' : body.length < ts.length := by
    rw [hts, List.length_cons]
    omega
  exact stmts_follows body
termination_by (ts.length, 0)
decreasing_by exact .left _ _ hlt'

/-- Statements up to the closing brace. -/
theorem stmts_follows (ts : List Token) : Follows φ stmts stmts ts := by
  have hmore : Follows φ (stmt >>= fun s => stmts >>= fun ss => pure (s :: ss))
      (stmt >>= fun s => stmts >>= fun ss => pure (s :: ss)) ts := by
    refine (stmt_follows ts).bind fun {_ s rest} hread => ?_
    have hlt := length_lt_of_bare hread
    exact (stmts_follows rest).bind_pure fun _ => rfl
  have hclose : Follows φ (token (.delimiter .rbrace) >>= fun _ => pure ([] : List Tree.Stmt))
      (token (.delimiter .rbrace) >>= fun _ => pure []) ts :=
    (token_follows _ ts).bind_pure fun _ => rfl
  intro eof
  have hkind := kind_current_move (φ := φ) eof ts
  by_cases hc : (current eof ts).kind = .delimiter .rbrace
  · rw [stmts_close hc, stmts_close (hkind.trans hc), hclose eof]
  by_cases he : (current eof ts).kind = .eof
  · rw [stmts_eof he, stmts_eof (hkind.trans he)]
    exact Follows.fail _ eof
  · rw [stmts_cons hc he, stmts_cons (hkind ▸ hc) (hkind ▸ he), hmore eof]
termination_by (ts.length, 1)
decreasing_by
  · exact .right _ Nat.zero_lt_one
  · exact .left _ _ hlt

end

/-! ## Functions and programs -/

/-- The result type, if there is one. -/
theorem returns_follows (ts : List Token) : Follows φ returns returns ts := by
  intro eof
  rcases ts with _ | ⟨t, rest⟩
  · rfl
  have hkind : (move φ t).kind = t.kind := rfl
  by_cases h : t.kind = .operator .arrow
  · have htype : Follows φ (typeName >>= fun type => pure (some type))
        (typeName >>= fun type => pure (some type)) rest :=
      (typeName_follows rest).bind_pure fun _ => rfl
    rw [returns_cons h, ← htype eof]
    exact returns_cons (hkind.trans h) _ _
  · have hnone : ∀ t' ∈ (t :: rest).head?, t'.kind ≠ .operator .arrow := by
      rintro _ ⟨⟩
      exact h
    have hnone' : ∀ t' ∈ (move φ (t :: rest)).head?, t'.kind ≠ .operator .arrow := by
      rintro _ ⟨⟩
      exact h
    rw [returns_none hnone, returns_none hnone']
    rfl

/-- A function. -/
theorem function_follows (ts : List Token) : Follows φ function function ts := by
  rw [function_eq]
  exact (token_follows _ ts).bind fun {_ start rest} _ =>
    (token_follows _ rest).bind fun {_ name rest} _ =>
      (token_follows _ rest).bind fun {_ _ rest} _ =>
        (series_follows .param true rest).bind fun {_ params rest} _ =>
          (returns_follows rest).bind fun {_ type rest} _ =>
            (token_follows _ rest).bind fun {_ brace rest} _ =>
              (stmts_follows rest).bind_pure fun _ => rfl

/-- Functions up to the end of input. -/
theorem functions_follows (ts : List Token) : Follows φ functions functions ts := by
  have hmore : Follows φ (function >>= fun f => functions >>= fun fs => pure (f :: fs))
      (function >>= fun f => functions >>= fun fs => pure (f :: fs)) ts := by
    refine (function_follows ts).bind fun {_ f rest} hread => ?_
    have hlt := length_lt_of_bare hread
    exact (functions_follows rest).bind_pure fun _ => rfl
  intro eof
  have hkind := kind_current_move (φ := φ) eof ts
  by_cases he : (current eof ts).kind = .eof
  · simp only [functions, readFunctions_eof he, readFunctions_eof (hkind.trans he)]
    rfl
  · rw [functions_cons he, functions_cons (hkind ▸ he), hmore eof]
termination_by ts.length

end Script

end Stackling.Grammar
