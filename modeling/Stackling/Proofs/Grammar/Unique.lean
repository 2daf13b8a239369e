import Stackling.Proofs.Grammar.Boundary

/-!
# Derivations are unique

**Unique decomposition.** If two derivations of one symbol are prefixes of the same tokens, and
what follows each of them ends the symbol, then they are the same derivation and the same tokens
follow. This is what has to be proved by induction, since the parts of a derivation are prefixes of
what is left of the tokens; that equal yields have equal derivations is the case where nothing
follows.

The induction is on the first derivation. The first tokens tell that both were built by the same
constructor; the parts are then equal one by one from the left, each time with the rest of the
derivation as what follows.
-/

namespace Stackling.Grammar

variable {u u' : List Token}

/-! ## Terminals -/

/-- A token that comes first determines the terminal it is. -/
theorem val_cons_inj {p : Token → Prop} {t t' : Subtype p} :
    t.1 :: u = t'.1 :: u' ↔ t = t' ∧ u = u' := by
  rw [List.cons.injEq, Subtype.ext_iff]

/-- A token that comes first determines the operator it is, since its kind does. -/
theorem OpToken.cons_inj {l : Tree.Level} {op op' : OpToken l} :
    op.token :: u = op'.token :: u' ↔ op = op' ∧ u = u' := by
  refine ⟨?_, by rintro ⟨rfl, rfl⟩; rfl⟩
  obtain ⟨t, o, hk, hl⟩ := op
  obtain ⟨t', o', hk', hl'⟩ := op'
  rintro h
  cases h
  have ho : o = o' := Tree.BinaryOp.operator_injective (Kind.operator.inj (hk.symm.trans hk'))
  cases ho
  exact ⟨rfl, rfl⟩

/-- A token that comes first determines the number it is. -/
theorem Number.cons_inj {a b : Number} : a.token :: u = b.token :: u' ↔ a = b ∧ u = u' := by
  rw [List.cons.injEq, Number.mk.injEq]

/-- Terminals of different kinds start different texts. -/
theorem val_cons_ne {k k' : Kind} {t : Terminal k} {t' : Terminal k'} (hk : k ≠ k') :
    t.1 :: u ≠ t'.1 :: u' :=
  fun h => hk ((starts_terminal t).kind_eq (h ▸ starts_terminal t'))

theorem spelling_injective : Function.Injective spelling := by
  intro a b
  revert a b
  decide

/-! ## First tokens -/

/-- Operands of the same tokens are derived alike at the front. -/
theorem Phrase.lead_eq {d d' : Phrase .atom} (h : d.yield ++ u = d'.yield ++ u') :
    d.lead = d'.lead :=
  d.starts.append.kind_eq (h ▸ d'.starts.append)

/-- Statements of the same tokens are derived alike at the front. -/
theorem Stmt.lead_eq {s s' : Stmt} (h : s.yield ++ u = s'.yield ++ u') : s.lead = s'.lead :=
  s.starts.append.kind_eq (h ▸ s'.starts.append)

/-- An item is not mistaken for the end of a list. -/
theorem Element.ne_close {i : Item} {d : Element i} {rparen : Mark .rparen} :
    d.yield ++ u ≠ rparen.1 :: u' := by
  obtain ⟨k, hk, hne⟩ := d.exists_starts
  exact fun h => hne (hk.append.kind_eq (h ▸ starts_terminal rparen))

/-- A statement is not mistaken for the end of a block. -/
theorem Stmt.ne_close {s : Stmt} {rbrace : Mark .rbrace} : s.yield ++ u ≠ rbrace.1 :: u' :=
  fun h => s.lead_ne_rbrace (s.starts.append.kind_eq (h ▸ starts_terminal rbrace))

/-! ## Unique decomposition -/

theorem Param.unique {p p' : Param} (h : p.yield ++ u = p'.yield ++ u') : p = p' ∧ u = u' := by
  obtain ⟨name, colon, type⟩ := p
  obtain ⟨name', colon', type'⟩ := p'
  simp only [yield, List.cons_append, List.nil_append, val_cons_inj] at h
  obtain ⟨rfl, rfl, rfl, rfl⟩ := h
  exact ⟨rfl, rfl⟩

mutual

/-- Phrases of the same tokens are the same, even if they are only known to be the front of the same
text. For that what follows must not continue them. The induction is on the first derivation. -/
theorem Phrase.unique {r : Rank} (d d' : Phrase r) {u u' : List Token} (hu : Closes r.floor u)
    (hu' : Closes r.floor u') (h : d.yield ++ u = d'.yield ++ u') : d = d' ∧ u = u' := by
  match r, d with
  | .chain j, .chain first tail =>
    obtain ⟨first', tail'⟩ := d'
    simp only [Phrase.yield, List.append_assoc] at h
    obtain ⟨rfl, htail⟩ := first.unique first' (tail.closes hu) (tail'.closes hu') h
    obtain ⟨rfl, rfl⟩ := tail.unique tail' hu hu' htail
    exact ⟨rfl, rfl⟩
  | .relation, .single term =>
    have hterm := hu.mono (Nat.le_succ _)
    cases d' with
    | single term' =>
      obtain ⟨rfl, rfl⟩ := term.unique term' hterm (hu'.mono (Nat.le_succ _)) h
      exact ⟨rfl, rfl⟩
    | comparison left op right =>
      -- the operator of the comparison would follow a whole relation
      simp only [Phrase.yield, List.append_assoc, List.cons_append] at h
      obtain ⟨-, rfl⟩ := term.unique left hterm ((closes_op op).mpr (Nat.lt_succ_self _)) h
      exact absurd ((closes_op op).mp hu) (Nat.lt_irrefl _)
  | .relation, .comparison left op right =>
    have hleft : Closes Rank.term.floor (op.token :: (right.yield ++ u)) :=
      (closes_op op).mpr (Nat.lt_succ_self _)
    simp only [Phrase.yield, List.append_assoc, List.cons_append] at h
    cases d' with
    | single term' =>
      obtain ⟨-, rfl⟩ := left.unique term' hleft (hu'.mono (Nat.le_succ _)) h
      exact absurd ((closes_op op).mp hu') (Nat.lt_irrefl _)
    | comparison left' op' right' =>
      simp only [Phrase.yield, List.append_assoc, List.cons_append] at h
      obtain ⟨rfl, hop⟩ := left.unique left' hleft ((closes_op op').mpr (Nat.lt_succ_self _)) h
      obtain ⟨rfl, hright⟩ := OpToken.cons_inj.mp hop
      obtain ⟨rfl, rfl⟩ :=
        right.unique right' (hu.mono (Nat.le_succ _)) (hu'.mono (Nat.le_succ _)) hright
      exact ⟨rfl, rfl⟩
  | .atom, .call c =>
    have hlead := Phrase.lead_eq h
    cases d' with
    | call c' =>
      obtain ⟨rfl, rfl⟩ := c.unique c' h
      exact ⟨rfl, rfl⟩
    | _ => cases hlead
  | .atom, .number n =>
    have hlead := Phrase.lead_eq h
    cases d' with
    | number n' =>
      obtain ⟨rfl, rfl⟩ := Number.cons_inj.mp h
      exact ⟨rfl, rfl⟩
    | _ => cases hlead
  | .atom, .string t =>
    have hlead := Phrase.lead_eq h
    cases d' with
    | string t' =>
      obtain ⟨rfl, rfl⟩ := val_cons_inj.mp h
      exact ⟨rfl, rfl⟩
    | _ => cases hlead
  | .atom, .truth value t ht =>
    have hlead := Phrase.lead_eq h
    cases d' with
    | truth value' t' ht' =>
      obtain ⟨rfl, rfl⟩ := val_cons_inj.mp h
      cases spelling_injective (ht.symm.trans ht')
      exact ⟨rfl, rfl⟩
    | ident t' ht' =>
      -- only here the first token leaves a choice, and the spelling makes it
      obtain ⟨rfl, rfl⟩ := val_cons_inj.mp h
      exact absurd ht (ht' value)
    | _ => cases hlead
  | .atom, .ident t ht =>
    have hlead := Phrase.lead_eq h
    cases d' with
    | truth value' t' ht' =>
      obtain ⟨rfl, rfl⟩ := val_cons_inj.mp h
      exact absurd ht' (ht value')
    | ident t' ht' =>
      obtain ⟨rfl, rfl⟩ := val_cons_inj.mp h
      exact ⟨rfl, rfl⟩
    | _ => cases hlead
  | .atom, .parens lparen inner rparen =>
    have hlead := Phrase.lead_eq h
    cases d' with
    | parens lparen' inner' rparen' =>
      simp only [Phrase.yield, List.cons_append, List.append_assoc, List.nil_append,
        val_cons_inj] at h
      obtain ⟨rfl, h⟩ := h
      obtain ⟨rfl, hrparen⟩ := inner.unique inner' (closes_mark rparen) (closes_mark rparen') h
      obtain ⟨rfl, rfl⟩ := val_cons_inj.mp hrparen
      exact ⟨rfl, rfl⟩
    | _ => cases hlead
termination_by structural d

/-- Operators and operands. One tail cannot end where the other goes on, because of what follows it.
-/
theorem Tail.unique {j : Joint} (d d' : Tail j) {u u' : List Token}
    (hu : Closes j.level.index u) (hu' : Closes j.level.index u')
    (h : d.yield ++ u = d'.yield ++ u') : d = d' ∧ u = u' := by
  match d, d' with
  | .nil, .nil => exact ⟨rfl, h⟩
  | .nil, .cons op operand more =>
    -- an operator that goes on with the chain does not end it
    rw [Tail.yield, List.nil_append] at h
    rw [h] at hu
    exact absurd ((closes_op op).mp hu) (Nat.lt_irrefl _)
  | .cons op operand more, .nil =>
    rw [Tail.yield, Tail.yield, List.nil_append] at h
    rw [← h] at hu'
    exact absurd ((closes_op op).mp hu') (Nat.lt_irrefl _)
  | .cons op operand more, .cons op' operand' more' =>
    simp only [Tail.yield, List.cons_append, List.append_assoc, OpToken.cons_inj] at h
    obtain ⟨rfl, h⟩ := h
    obtain ⟨rfl, hmore⟩ := operand.unique operand' (more.closes hu) (more'.closes hu') h
    obtain ⟨rfl, rfl⟩ := more.unique more' hu hu' hmore
    exact ⟨rfl, rfl⟩
termination_by structural d

/-- A call ends with its parenthesis, and so whatever may follow. -/
theorem Call.unique (c c' : Call) {u u' : List Token} (h : c.yield ++ u = c'.yield ++ u') :
    c = c' ∧ u = u' := by
  match c, c' with
  | .mk arrow name lparen args, .mk arrow' name' lparen' args' =>
    simp only [Call.yield, List.cons_append, val_cons_inj] at h
    obtain ⟨rfl, rfl, rfl, h⟩ := h
    obtain ⟨rfl, rfl⟩ := args.unique args' h
    exact ⟨rfl, rfl⟩
termination_by structural c

theorem Element.unique {i : Item} (d d' : Element i) {u u' : List Token} (hu : Closes 0 u)
    (hu' : Closes 0 u') (h : d.yield ++ u = d'.yield ++ u') : d = d' ∧ u = u' := by
  match i, d, d' with
  | .arg, .arg e, .arg e' =>
    obtain ⟨rfl, rfl⟩ := e.unique e' hu hu' h
    exact ⟨rfl, rfl⟩
  | .param, .param p, .param p' =>
    obtain ⟨rfl, rfl⟩ := Param.unique h
    exact ⟨rfl, rfl⟩
termination_by structural d

/-- A list ends with its parenthesis, and so whatever may follow. -/
theorem Series.unique {i : Item} {first : Bool} (d d' : Series i first) {u u' : List Token}
    (h : d.yield ++ u = d'.yield ++ u') : d = d' ∧ u = u' := by
  match first, d, d' with
  | _, .close rparen, .close rparen' =>
    obtain ⟨rfl, rfl⟩ := val_cons_inj.mp h
    exact ⟨rfl, rfl⟩
  | true, .close rparen, .first item more =>
    simp only [Series.yield, List.append_assoc, List.cons_append] at h
    exact absurd h.symm Element.ne_close
  | true, .first item more, .close rparen =>
    simp only [Series.yield, List.append_assoc, List.cons_append] at h
    exact absurd h Element.ne_close
  | true, .first item more, .first item' more' =>
    simp only [Series.yield, List.append_assoc] at h
    obtain ⟨rfl, hmore⟩ := item.unique item' more.closes more'.closes h
    obtain ⟨rfl, rfl⟩ := more.unique more' hmore
    exact ⟨rfl, rfl⟩
  | false, .close rparen, .next comma item more => exact absurd h (val_cons_ne nofun)
  | false, .next comma item more, .close rparen => exact absurd h (val_cons_ne nofun)
  | false, .next comma item more, .next comma' item' more' =>
    simp only [Series.yield, List.cons_append, List.append_assoc, val_cons_inj] at h
    obtain ⟨rfl, h⟩ := h
    obtain ⟨rfl, hmore⟩ := item.unique item' more.closes more'.closes h
    obtain ⟨rfl, rfl⟩ := more.unique more' hmore
    exact ⟨rfl, rfl⟩
termination_by structural d

end

mutual

/-- A statement ends with its semicolon or brace, and so whatever may follow. -/
theorem Stmt.unique (s s' : Stmt) {u u' : List Token} (h : s.yield ++ u = s'.yield ++ u') :
    s = s' ∧ u = u' := by
  have hlead := Stmt.lead_eq h
  match s with
  | .ret start value semi =>
    cases s' with
    | ret start' value' semi' =>
      simp only [Stmt.yield, List.cons_append, List.append_assoc, List.nil_append,
        val_cons_inj] at h
      obtain ⟨rfl, h⟩ := h
      obtain ⟨rfl, hsemi⟩ := value.unique value' (closes_mark semi) (closes_mark semi') h
      obtain ⟨rfl, rfl⟩ := val_cons_inj.mp hsemi
      exact ⟨rfl, rfl⟩
    | _ => cases hlead
  | .cond start test lbrace body =>
    cases s' with
    | cond start' test' lbrace' body' =>
      simp only [Stmt.yield, List.cons_append, List.append_assoc, val_cons_inj] at h
      obtain ⟨rfl, h⟩ := h
      obtain ⟨rfl, hlbrace⟩ := test.unique test' (closes_mark lbrace) (closes_mark lbrace') h
      obtain ⟨rfl, hbody⟩ := val_cons_inj.mp hlbrace
      obtain ⟨rfl, rfl⟩ := body.unique body' hbody
      exact ⟨rfl, rfl⟩
    | _ => cases hlead
  | .assign target eq value semi =>
    cases s' with
    | assign target' eq' value' semi' =>
      simp only [Stmt.yield, List.cons_append, List.append_assoc, List.nil_append,
        val_cons_inj] at h
      obtain ⟨rfl, rfl, h⟩ := h
      obtain ⟨rfl, hsemi⟩ := value.unique value' (closes_mark semi) (closes_mark semi') h
      obtain ⟨rfl, rfl⟩ := val_cons_inj.mp hsemi
      exact ⟨rfl, rfl⟩
    | _ => cases hlead
  | .print start lparen args semi =>
    cases s' with
    | print start' lparen' args' semi' =>
      simp only [Stmt.yield, List.cons_append, List.append_assoc, List.nil_append,
        val_cons_inj] at h
      obtain ⟨rfl, rfl, h⟩ := h
      obtain ⟨rfl, hsemi⟩ := args.unique args' h
      obtain ⟨rfl, rfl⟩ := val_cons_inj.mp hsemi
      exact ⟨rfl, rfl⟩
    | _ => cases hlead
  | .decl start param eq value semi =>
    cases s' with
    | decl start' param' eq' value' semi' =>
      simp only [Stmt.yield, List.cons_append, List.append_assoc, List.nil_append,
        val_cons_inj] at h
      obtain ⟨rfl, h⟩ := h
      obtain ⟨rfl, heq⟩ := Param.unique h
      obtain ⟨rfl, hvalue⟩ := val_cons_inj.mp heq
      obtain ⟨rfl, hsemi⟩ := value.unique value' (closes_mark semi) (closes_mark semi') hvalue
      obtain ⟨rfl, rfl⟩ := val_cons_inj.mp hsemi
      exact ⟨rfl, rfl⟩
    | _ => cases hlead
  | .call c semi =>
    cases s' with
    | call c' semi' =>
      simp only [Stmt.yield, List.append_assoc, List.cons_append, List.nil_append] at h
      obtain ⟨rfl, hsemi⟩ := c.unique c' h
      obtain ⟨rfl, rfl⟩ := val_cons_inj.mp hsemi
      exact ⟨rfl, rfl⟩
    | _ => cases hlead
termination_by structural s

/-- A block ends with its brace, and so whatever may follow. -/
theorem Body.unique (b b' : Body) {u u' : List Token} (h : b.yield ++ u = b'.yield ++ u') :
    b = b' ∧ u = u' := by
  match b, b' with
  | .close rbrace, .close rbrace' =>
    obtain ⟨rfl, rfl⟩ := val_cons_inj.mp h
    exact ⟨rfl, rfl⟩
  | .close rbrace, .cons s more =>
    simp only [Body.yield, List.append_assoc, List.cons_append] at h
    exact absurd h.symm Stmt.ne_close
  | .cons s more, .close rbrace =>
    simp only [Body.yield, List.append_assoc, List.cons_append] at h
    exact absurd h Stmt.ne_close
  | .cons s more, .cons s' more' =>
    simp only [Body.yield, List.append_assoc] at h
    obtain ⟨rfl, hmore⟩ := s.unique s' h
    obtain ⟨rfl, rfl⟩ := more.unique more' hmore
    exact ⟨rfl, rfl⟩
termination_by structural b

end

/-- A result type starts with an arrow, and the brace that follows it is none. -/
theorem returns_unique {r r' : Option (Arrow × TypeWord)} {lbrace lbrace' : Mark .lbrace}
    (h : returnsYield r ++ lbrace.1 :: u = returnsYield r' ++ lbrace'.1 :: u') :
    r = r' ∧ lbrace = lbrace' ∧ u = u' := by
  match r, r' with
  | none, none =>
    obtain ⟨rfl, rfl⟩ := val_cons_inj.mp h
    exact ⟨rfl, rfl, rfl⟩
  | none, some (arrow, type) => exact absurd h (val_cons_ne nofun)
  | some (arrow, type), none => exact absurd h (val_cons_ne nofun)
  | some (arrow, type), some (arrow', type') =>
    simp only [returnsYield, List.cons_append, List.nil_append, val_cons_inj] at h
    obtain ⟨rfl, rfl, rfl, rfl⟩ := h
    exact ⟨rfl, rfl, rfl⟩

/-- A function ends with the brace of its body. -/
theorem Function.unique {f f' : Function} (h : f.yield ++ u = f'.yield ++ u') :
    f = f' ∧ u = u' := by
  obtain ⟨start, name, lparen, params, returns, lbrace, body⟩ := f
  obtain ⟨start', name', lparen', params', returns', lbrace', body'⟩ := f'
  simp only [yield, List.cons_append, List.append_assoc, val_cons_inj] at h
  obtain ⟨rfl, rfl, rfl, h⟩ := h
  obtain ⟨rfl, hreturns⟩ := params.unique params' h
  obtain ⟨rfl, rfl, hbody⟩ := returns_unique hreturns
  obtain ⟨rfl, rfl⟩ := body.unique body' hbody
  exact ⟨rfl, rfl⟩

/-! ## Whole texts -/

/-- **Derivations of expressions are unique.** -/
theorem Phrase.yield_injective : Function.Injective (Phrase.yield (r := .expr)) := by
  intro d d' h
  exact (d.unique d' closes_nil closes_nil (by rw [h])).1

/-- **Derivations of programs are unique.** -/
theorem Program.yield_injective : Function.Injective Program.yield := by
  rintro ⟨fs⟩ ⟨fs'⟩ h
  simp only [yield] at h
  induction fs generalizing fs' with
  | nil =>
    cases fs' with
    | nil => rfl
    | cons f' fs' => cases h
  | cons f fs ih =>
    cases fs' with
    | nil => cases h
    | cons f' fs' =>
      obtain ⟨rfl, hfs⟩ := Function.unique h
      cases ih fs' hfs
      rfl

end Stackling.Grammar
