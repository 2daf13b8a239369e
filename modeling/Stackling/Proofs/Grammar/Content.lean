import Stackling.Proofs.Grammar
import Stackling.Proofs.Token.Wrapped
import Stackling.Proofs.Tree.Erasure

/-!
# Derivations and the places of tokens

The grammar asks of tokens what they say and never where they stand. So tokens with the same content
have the same derivations, and the trees of these are the same up to tokens
(`Phrase.exists_of_content`).

An expression holds no semicolon, which is the mark that ends most statements
(`Phrase.kind_ne_semicolon`).
-/

namespace Stackling.Grammar

open Stackling.Tree (BinaryOp Level)

/-! ## Terminals -/

variable {t : Token} {ts : List Token}

theorem kind_of_content {t' : Token} (h : t.content = t'.content) : t.kind = t'.kind :=
  congrArg Prod.fst h

theorem lexeme_of_content {t' : Token} (h : t.content = t'.content) : t.lexeme = t'.lexeme :=
  congrArg Prod.snd h

/-- The token in the place of another of its kind. -/
def Terminal.put {k : Kind} (u : Terminal k) (h : t.content = u.1.content) : Terminal k :=
  ⟨t, (kind_of_content h).trans u.2⟩

/-- The token in the place of another that spells the same operator. -/
def OpToken.put {l : Level} (op : OpToken l) (h : t.content = op.token.content) : OpToken l :=
  ⟨t, op.op, (kind_of_content h).trans op.kind_eq, op.level_eq⟩

/-- The token in the place of another that spells the same number. -/
def Number.put (n : Number) (h : t.content = n.token.content) : Number where
  token := t
  kind_eq := (kind_of_content h).trans n.kind_eq
  digits := by
    rw [lexeme_of_content h]
    exact n.digits
  small := by
    rw [lexeme_of_content h]
    exact n.small

theorem unplaced_of_content {t' : Token} (h : t.content = t'.content) :
    t.unplaced = t'.unplaced := by
  rw [Token.unplaced, Token.unplaced, lexeme_of_content h]

/-! ## Derivations of the same contents -/

/-- A member of a list without its tokens. -/
def Item.erase : (i : Item) → i.Value → i.Value
  | arg => Tree.Expr.erase
  | param => Tree.Param.erase

/-- A parameter can be derived from any tokens of the same content. -/
theorem Param.exists_of_content (p : Param) (h : ts.map Token.content = p.yield.map Token.content) :
    ∃ p' : Param, p'.yield = ts ∧ p'.tree.erase = p.tree.erase := by
  obtain ⟨name, colon, type⟩ := p
  obtain ⟨n, c, y, rfl, hn, hc, hy⟩ : ∃ n c y, ts = [n, c, y] ∧ n.content = name.1.content ∧
      c.content = colon.1.content ∧ y.content = type.1.content := by
    simpa [Param.yield, List.map_eq_cons_iff, and_assoc] using h
  refine ⟨⟨name.put hn, colon.put hc, ⟨y, kind_of_content hy ▸ type.2⟩⟩, rfl, ?_⟩
  simp only [Param.tree, Tree.Param.erase, Tree.TypeName.erase, Terminal.put,
    unplaced_of_content hn, kind_of_content hy, lexeme_of_content hy]

mutual

/-- A phrase can be derived from any tokens of the same content, with a tree that differs in places
only. The content of a token is its kind and its text; a derivation asks for nothing else. -/
theorem Phrase.exists_of_content {r : Rank} (d : Phrase r) {ts : List Token}
    (h : ts.map Token.content = d.yield.map Token.content) :
    ∃ d' : Phrase r, d'.yield = ts ∧ d'.tree.erase = d.tree.erase := by
  match r, d with
  | _, .chain first rest =>
    rw [Phrase.yield, List.map_append, List.map_eq_append_iff] at h
    obtain ⟨us, vs, rfl, hfirst, hrest⟩ := h
    obtain ⟨first', rfl, ht⟩ := first.exists_of_content hfirst
    obtain ⟨rest', rfl, htail⟩ := rest.exists_of_content hrest
    exact ⟨.chain first' rest', rfl, htail _ _ ht⟩
  | _, .single term =>
    obtain ⟨term', rfl, ht⟩ := term.exists_of_content h
    exact ⟨.single term', rfl, ht⟩
  | _, .comparison left op right =>
    rw [Phrase.yield, List.map_append, List.map_cons, List.map_eq_append_iff] at h
    obtain ⟨us, vs, rfl, hleft, hright⟩ := h
    obtain ⟨o, vs, rfl, ho, hright⟩ := List.map_eq_cons_iff.mp hright
    obtain ⟨left', rfl, hl⟩ := left.exists_of_content hleft
    obtain ⟨right', rfl, hr⟩ := right.exists_of_content hright
    refine ⟨.comparison left' (op.put ho) right', rfl, ?_⟩
    simp only [Phrase.tree, Tree.Expr.erase, hl, hr, OpToken.put]
  | _, .call c =>
    obtain ⟨c', rfl, ht⟩ := c.exists_of_content h
    exact ⟨.call c', rfl, ht⟩
  | _, .number n =>
    obtain ⟨u, rfl, hu⟩ := List.map_eq_singleton_iff.mp h
    refine ⟨.number (n.put hu), rfl, ?_⟩
    simp only [Phrase.tree, Tree.Expr.erase, Number.put, lexeme_of_content hu]
  | _, .string s =>
    obtain ⟨u, rfl, hu⟩ := List.map_eq_singleton_iff.mp h
    refine ⟨.string (s.put hu), rfl, ?_⟩
    simp only [Phrase.tree, Tree.Expr.erase, Terminal.put, unplaced_of_content hu]
  | _, .truth value s hs =>
    obtain ⟨u, rfl, hu⟩ := List.map_eq_singleton_iff.mp h
    exact ⟨.truth value (s.put hu) ((lexeme_of_content hu).trans hs), rfl, rfl⟩
  | _, .ident s hs =>
    obtain ⟨u, rfl, hu⟩ := List.map_eq_singleton_iff.mp h
    have hs' (value : Bool) : (s.put hu).1.lexeme ≠ spelling value := by
      rw [Terminal.put, lexeme_of_content hu]
      exact hs value
    refine ⟨.ident (s.put hu) hs', rfl, ?_⟩
    simp only [Phrase.tree, Tree.Expr.erase, Terminal.put, unplaced_of_content hu]
  | _, .parens lparen inner rparen =>
    rw [Phrase.yield, List.map_cons, List.map_append] at h
    obtain ⟨u, us, rfl, hu, h⟩ := List.map_eq_cons_iff.mp h
    obtain ⟨us, vs, rfl, hinner, hlast⟩ := List.map_eq_append_iff.mp h
    obtain ⟨v, rfl, hv⟩ := List.map_eq_singleton_iff.mp hlast
    obtain ⟨inner', rfl, ht⟩ := inner.exists_of_content hinner
    exact ⟨.parens (lparen.put hu) inner' (rparen.put hv), rfl, ht⟩
termination_by structural d

/-- The rest of a chain, behind operands that are the same up to tokens. -/
theorem Tail.exists_of_content {j : Joint} (d : Tail j) {ts : List Token}
    (h : ts.map Token.content = d.yield.map Token.content) :
    ∃ d' : Tail j, d'.yield = ts ∧ ∀ left left' : Tree.Expr, left'.erase = left.erase →
      (d'.tree left').erase = (d.tree left).erase := by
  match j, d with
  | _, .nil =>
    obtain rfl := List.map_eq_nil_iff.mp h
    exact ⟨.nil, rfl, fun _ _ heq => heq⟩
  | _, .cons op operand rest =>
    rw [Tail.yield, List.map_cons, List.map_append] at h
    obtain ⟨o, us, rfl, ho, h⟩ := List.map_eq_cons_iff.mp h
    obtain ⟨us, vs, rfl, hoperand, hrest⟩ := List.map_eq_append_iff.mp h
    obtain ⟨operand', rfl, ht⟩ := operand.exists_of_content hoperand
    obtain ⟨rest', rfl, htail⟩ := rest.exists_of_content hrest
    refine ⟨.cons (op.put ho) operand' rest', rfl, fun left left' heq => htail _ _ ?_⟩
    simp only [Tree.Expr.erase, heq, ht, OpToken.put]
termination_by structural d

/-- A call can be derived from any tokens of the same content. -/
theorem Call.exists_of_content (c : Call) {ts : List Token}
    (h : ts.map Token.content = c.yield.map Token.content) :
    ∃ c' : Call, c'.yield = ts ∧ (Phrase.call c').tree.erase = (Phrase.call c).tree.erase := by
  match c with
  | .mk arrow name lparen args =>
    rw [Call.yield, List.map_cons, List.map_cons, List.map_cons] at h
    obtain ⟨a, us, rfl, ha, h⟩ := List.map_eq_cons_iff.mp h
    obtain ⟨n, us, rfl, hn, h⟩ := List.map_eq_cons_iff.mp h
    obtain ⟨l, us, rfl, hl, h⟩ := List.map_eq_cons_iff.mp h
    obtain ⟨args', rfl, ht⟩ := args.exists_of_content h
    refine ⟨.mk (arrow.put ha) (name.put hn) (lparen.put hl) args', rfl, ?_⟩
    have ht : Tree.Expr.eraseAll args'.tree = Tree.Expr.eraseAll args.tree := by
      rw [Tree.Expr.eraseAll_eq_map, Tree.Expr.eraseAll_eq_map]
      exact ht
    simp only [Phrase.tree, Tree.Expr.erase, ht, Terminal.put, lexeme_of_content hn]
termination_by structural c

/-- An item of a list can be derived from any tokens of the same content. -/
theorem Element.exists_of_content {i : Item} (d : Element i) {ts : List Token}
    (h : ts.map Token.content = d.yield.map Token.content) :
    ∃ d' : Element i, d'.yield = ts ∧ i.erase d'.tree = i.erase d.tree := by
  match i, d with
  | _, .arg e =>
    obtain ⟨e', rfl, ht⟩ := e.exists_of_content h
    exact ⟨.arg e', rfl, ht⟩
  | _, .param p =>
    obtain ⟨p', rfl, ht⟩ := p.exists_of_content h
    exact ⟨.param p', rfl, ht⟩
termination_by structural d

/-- A list can be derived from any tokens of the same content. -/
theorem Series.exists_of_content {i : Item} {first : Bool} (d : Series i first) {ts : List Token}
    (h : ts.map Token.content = d.yield.map Token.content) :
    ∃ d' : Series i first, d'.yield = ts ∧ d'.tree.map i.erase = d.tree.map i.erase := by
  match first, d with
  | _, .close rparen =>
    obtain ⟨u, rfl, hu⟩ := List.map_eq_singleton_iff.mp h
    exact ⟨.close (rparen.put hu), rfl, rfl⟩
  | _, .first item rest =>
    rw [Series.yield, List.map_append] at h
    obtain ⟨us, vs, rfl, hitem, hrest⟩ := List.map_eq_append_iff.mp h
    obtain ⟨item', rfl, ht⟩ := item.exists_of_content hitem
    obtain ⟨rest', rfl, hts⟩ := rest.exists_of_content hrest
    exact ⟨.first item' rest', rfl, by simp only [Series.tree, List.map_cons, ht, hts]⟩
  | _, .next comma item rest =>
    rw [Series.yield, List.map_cons, List.map_append] at h
    obtain ⟨u, us, rfl, hu, h⟩ := List.map_eq_cons_iff.mp h
    obtain ⟨us, vs, rfl, hitem, hrest⟩ := List.map_eq_append_iff.mp h
    obtain ⟨item', rfl, ht⟩ := item.exists_of_content hitem
    obtain ⟨rest', rfl, hts⟩ := rest.exists_of_content hrest
    exact ⟨.next (comma.put hu) item' rest', rfl, by
      simp only [Series.tree, List.map_cons, ht, hts]⟩
termination_by structural d

end

/-! ## Semicolons -/

mutual

/-- No token of an expression is a semicolon. -/
theorem Phrase.kind_ne_semicolon {r : Rank} (d : Phrase r) :
    ∀ t ∈ d.yield, t.kind ≠ .delimiter .semicolon := by
  match r, d with
  | _, .chain first rest =>
    exact List.forall_mem_append.mpr ⟨first.kind_ne_semicolon, rest.kind_ne_semicolon⟩
  | _, .single term => exact term.kind_ne_semicolon
  | _, .comparison left op right =>
    exact List.forall_mem_append.mpr ⟨left.kind_ne_semicolon,
      List.forall_mem_cons.mpr ⟨by simp [op.kind_eq], right.kind_ne_semicolon⟩⟩
  | _, .call c => exact c.kind_ne_semicolon
  | _, .number n => simp [Phrase.yield, n.kind_eq]
  | _, .string s => simp [Phrase.yield, s.2]
  | _, .truth value s hs => simp [Phrase.yield, s.2]
  | _, .ident s hs => simp [Phrase.yield, s.2]
  | _, .parens lparen inner rparen =>
    exact List.forall_mem_cons.mpr ⟨by simp [lparen.2],
      List.forall_mem_append.mpr ⟨inner.kind_ne_semicolon, by simp [rparen.2]⟩⟩
termination_by structural d

/-- There is no semicolon among operators and operands. -/
theorem Tail.kind_ne_semicolon {j : Joint} (d : Tail j) :
    ∀ t ∈ d.yield, t.kind ≠ .delimiter .semicolon := by
  match j, d with
  | _, .nil => exact List.forall_mem_nil _
  | _, .cons op operand rest =>
    exact List.forall_mem_cons.mpr ⟨by simp [op.kind_eq],
      List.forall_mem_append.mpr ⟨operand.kind_ne_semicolon, rest.kind_ne_semicolon⟩⟩
termination_by structural d

/-- There is no semicolon in a call. -/
theorem Call.kind_ne_semicolon (c : Call) : ∀ t ∈ c.yield, t.kind ≠ .delimiter .semicolon := by
  match c with
  | .mk arrow name lparen args =>
    have hargs := args.kind_ne_semicolon
    simpa [Call.yield, arrow.2, name.2, lparen.2] using hargs
termination_by structural c

theorem Element.kind_ne_semicolon {i : Item} (d : Element i) :
    ∀ t ∈ d.yield, t.kind ≠ .delimiter .semicolon := by
  match i, d with
  | _, .arg e => exact e.kind_ne_semicolon
  | _, .param p =>
    have htype : p.type.1.kind ≠ .delimiter .semicolon := by
      intro h
      have hp := p.type.2
      rw [h] at hp
      cases hp
    simp [Element.yield, Param.yield, p.name.2, p.colon.2, htype]
termination_by structural d

/-- There is no semicolon in a list. -/
theorem Series.kind_ne_semicolon {i : Item} {first : Bool} (d : Series i first) :
    ∀ t ∈ d.yield, t.kind ≠ .delimiter .semicolon := by
  match first, d with
  | _, .close rparen => simp [Series.yield, rparen.2]
  | _, .first item rest =>
    exact List.forall_mem_append.mpr ⟨item.kind_ne_semicolon, rest.kind_ne_semicolon⟩
  | _, .next comma item rest =>
    exact List.forall_mem_cons.mpr ⟨by simp [comma.2],
      List.forall_mem_append.mpr ⟨item.kind_ne_semicolon, rest.kind_ne_semicolon⟩⟩
termination_by structural d

end

end Stackling.Grammar
