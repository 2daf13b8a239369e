import Stackling.Proofs.Grammar

/-!
# Where derivations start and end

Two facts let the grammar be read with one token of lookahead.

- **Starts.** The first token of an operand or of a statement tells how it was derived. `lead` is
  its kind. No expression starts with a closing parenthesis and no statement with a closing brace,
  so a list or a block goes on exactly as long as its closing mark does not come.
- **Ends.** A phrase could go on only with an operator that binds as tightly as its rank allows.
  `Closes n ts` says that none of level `n` or tighter comes next. What the grammar puts after an
  expression is always a mark, which closes every level, and what it puts after an operand of a
  chain is an operator of the chain's own level, which closes the tighter ones.

The parser's completeness and the uniqueness of derivations both rest on these facts.
-/

namespace Stackling

/-- How tightly the operators of a level bind, as a number. -/
def Tree.Level.index : Tree.Level → Nat
  | logical => 0
  | relational => 1
  | term => 2
  | product => 3

theorem Tree.BinaryOp.operator_injective : Function.Injective Tree.BinaryOp.operator := by
  intro op op' h
  simpa using congrArg Tree.BinaryOp.ofOperator? h

namespace Grammar

open Stackling.Tree (BinaryOp Level)

variable {m n : Nat} {ts rest : List Token}

/-! ## Ends -/

/-- The loosest level whose operators may stand in a phrase of the rank. -/
def Rank.floor : Rank → Nat
  | chain j => j.level.index
  | relation => Level.relational.index
  | atom => 4

@[simp] theorem Rank.floor_relation : Rank.relation.floor = 1 := rfl

@[simp] theorem Rank.floor_term : Rank.term.floor = 2 := rfl

/-- The operands of a level bind tighter by one. -/
theorem Joint.operand_floor (j : Joint) : j.operand.floor = j.level.index + 1 := by
  cases j <;> rfl

/-- The next token is no operator of level `n` or tighter. -/
def Closes (n : Nat) (ts : List Token) : Prop :=
  ∀ t ∈ ts.head?, ∀ op : BinaryOp, t.kind = .operator op.operator → op.level.index < n

theorem closes_nil : Closes n [] := by
  simp [Closes]

/-- What closes a phrase closes every tighter one. -/
theorem Closes.mono (h : Closes m ts) (hmn : m ≤ n) : Closes n ts :=
  fun t ht op hop => Nat.lt_of_lt_of_le (h t ht op hop) hmn

/-- A delimiter closes every phrase. -/
theorem closes_mark {d : Delimiter} (t : Mark d) : Closes n (t.1 :: ts) := by
  intro t' ht' op hop
  obtain rfl : t.1 = t' := by simpa using ht'
  rw [t.2] at hop
  cases hop

/-- An operator closes the phrases that bind tighter than it. -/
theorem closes_op {l : Level} (op : OpToken l) : Closes n (op.token :: ts) ↔ l.index < n := by
  refine ⟨?_, ?_⟩
  · intro h
    have := h op.token (by simp) op.op op.kind_eq
    rwa [op.level_eq] at this
  · intro h t ht op' hop'
    obtain rfl : op.token = t := by simpa using ht
    rw [op.kind_eq, Kind.operator.injEq] at hop'
    rwa [← BinaryOp.operator_injective hop', op.level_eq]

/-- An operand of a chain ends where the rest of the chain starts. -/
theorem Tail.closes {j : Joint} (d : Tail j) (h : Closes j.level.index rest) :
    Closes j.operand.floor (d.yield ++ rest) := by
  rw [j.operand_floor]
  cases d with
  | nil => exact h.mono (Nat.le_succ _)
  | cons op operand more => exact (closes_op op).mpr (Nat.lt_succ_self _)

/-- A member of a list ends where the rest of the list starts. -/
theorem Series.closes {i : Item} (d : Series i false) : Closes n (d.yield ++ rest) := by
  cases d with
  | close rparen => exact closes_mark rparen
  | next comma item more => exact closes_mark comma

/-! ## Starts -/

/-- The first token is of kind `k`. -/
def Starts (k : Kind) (ts : List Token) : Prop := ∃ t more, ts = t :: more ∧ t.kind = k

theorem starts_terminal {k : Kind} (t : Terminal k) : Starts k (t.1 :: ts) :=
  ⟨t.1, ts, rfl, t.2⟩

theorem Starts.append {k : Kind} (h : Starts k ts) : Starts k (ts ++ rest) := by
  obtain ⟨t, more, rfl, hk⟩ := h
  exact ⟨t, more ++ rest, rfl, hk⟩

/-- A text starts with one kind of token. -/
theorem Starts.kind_eq {k k' : Kind} (h : Starts k ts) (h' : Starts k' ts) : k = k' := by
  obtain ⟨t, more, rfl, rfl⟩ := h
  obtain ⟨t', more', heq, rfl⟩ := h'
  cases heq
  rfl

/-- The kind of the first token of an operand. -/
def Phrase.lead : Phrase .atom → Kind
  | .call _ => .operator .arrow
  | .number _ => .number
  | .string _ => .string
  | .truth _ _ _ => .ident
  | .ident _ _ => .ident
  | .parens _ _ _ => .delimiter .lparen

/-- An operand starts with the kind of token that its derivation says. -/
theorem Phrase.starts (d : Phrase .atom) : Starts d.lead d.yield := by
  cases d with
  | call c =>
    obtain ⟨arrow, name, lparen, args⟩ := c
    exact starts_terminal arrow
  | number n => exact ⟨n.token, [], rfl, n.kind_eq⟩
  | string t => exact starts_terminal t
  | truth value t h => exact starts_terminal t
  | ident t h => exact starts_terminal t
  | parens lparen inner rparen => exact starts_terminal lparen

/-- The kind of the first token of a statement. -/
def Stmt.lead : Stmt → Kind
  | .ret _ _ _ => .keyword .ret
  | .cond _ _ _ _ => .keyword .cond
  | .assign _ _ _ _ => .ident
  | .print _ _ _ _ => .keyword .print
  | .decl _ _ _ _ _ => .keyword .var
  | .call _ _ => .operator .arrow

/-- A statement starts with the kind of token that its derivation says. -/
theorem Stmt.starts (s : Stmt) : Starts s.lead s.yield := by
  cases s with
  | ret start value semi => exact starts_terminal start
  | cond start test lbrace body => exact starts_terminal start
  | assign target eq value semi => exact starts_terminal target
  | print start lparen args semi => exact starts_terminal start
  | decl start param eq value semi => exact starts_terminal start
  | call c semi =>
    obtain ⟨arrow, name, lparen, args⟩ := c
    exact starts_terminal arrow

theorem Stmt.lead_ne_rbrace (s : Stmt) : s.lead ≠ .delimiter .rbrace := by
  cases s <;> nofun

/-- A phrase starts as its first operand does. -/
theorem Phrase.exists_starts {r : Rank} (d : Phrase r) :
    ∃ k, Starts k d.yield ∧ k ≠ .delimiter .rparen := by
  match r, d with
  | .chain j, .chain first tail =>
    obtain ⟨k, hk, hne⟩ := first.exists_starts
    exact ⟨k, hk.append, hne⟩
  | .relation, .single term => exact term.exists_starts
  | .relation, .comparison left op right =>
    obtain ⟨k, hk, hne⟩ := left.exists_starts
    exact ⟨k, hk.append, hne⟩
  | .atom, d => exact ⟨d.lead, d.starts, by cases d <;> nofun⟩

/-- An item of a list starts with something else than a closing parenthesis. -/
theorem Element.exists_starts {i : Item} (d : Element i) :
    ∃ k, Starts k d.yield ∧ k ≠ .delimiter .rparen := by
  cases d with
  | arg e => exact e.exists_starts
  | param p => exact ⟨.ident, starts_terminal p.name, nofun⟩

end Grammar

end Stackling
