import Stackling.Proofs.Parsing

/-!
# The tokens of nodes

Every node of a syntax tree was read from a part of the tokens. `TakenFrom used n` says what that
means: the reader of such nodes takes exactly the tokens `used` and gives back `n`. Parentheses
around an expression leave no trace in the tree, so the token that an expression starts with is the
first one of its part that is no opening parenthesis (`first?`).

`LaidOut ns ts` says that the nodes `ns` were taken from parts of `ts` that follow one another, each
one starting with the first token of its part, and that the children of every node are laid out
within the part of the node in the same way.

Main result: the tree of a derivation is laid out on the yield (`Phrase.laidOut`, `Stmt.laidOut`,
`Function.laidOut`). In a chain the parts of the nodes are the beginnings of the chain, because
operators associate to the left.
-/

namespace Stackling.Grammar

open Stackling.Tree

variable {used part ts ts' : List Token}

/-! ## First tokens -/

/-- The first token, opening parentheses apart. -/
def first? (used : List Token) : Option Token := used.find? fun t => t.kind ≠ .delimiter .lparen

/-- The first token, if it is no opening parenthesis. -/
theorem first?_cons {t : Token} (ht : t.kind ≠ .delimiter .lparen) : first? (t :: ts) = some t :=
  List.find?_cons_of_pos (by simpa using ht)

theorem first?_terminal {k : Kind} (t : Terminal k) (hk : k ≠ .delimiter .lparen) :
    first? (t.1 :: ts) = some t.1 :=
  first?_cons (by rwa [t.2])

theorem first?_append {t : Token} (h : first? ts = some t) : first? (ts ++ ts') = some t := by
  rw [first?, List.find?_append]
  rw [first?] at h
  rw [h, Option.some_or]

mutual

/-- An expression starts with the first of its tokens that is no opening parenthesis. Parentheses in
front belong to no node. -/
theorem Phrase.first?_yield {r : Rank} (d : Phrase r) : first? d.yield = some d.tree.start := by
  match r, d with
  | .chain j, .chain first tail => exact tail.first?_yield first.first?_yield
  | .relation, .single term => exact term.first?_yield
  | .relation, .comparison left op right => exact first?_append left.first?_yield
  | .atom, .call (.mk arrow name lparen args) => exact first?_terminal arrow nofun
  | .atom, .number n => exact first?_cons (by rw [n.kind_eq]; nofun)
  | .atom, .string t => exact first?_terminal t nofun
  | .atom, .truth value t h => exact first?_terminal t nofun
  | .atom, .ident t h => exact first?_terminal t nofun
  | .atom, .parens lparen inner rparen =>
    have hskip : first? (lparen.1 :: (inner.yield ++ [rparen.1])) =
        first? (inner.yield ++ [rparen.1]) :=
      List.find?_cons_of_neg (by simpa using lparen.2)
    exact hskip.trans (first?_append inner.first?_yield)
termination_by structural d

/-- Operators that follow do not change where an expression starts. -/
theorem Tail.first?_yield {j : Joint} (d : Tail j) {left : Tree.Expr} {front : List Token}
    (h : first? front = some left.start) :
    first? (front ++ d.yield) = some (d.tree left).start := by
  match d with
  | .nil =>
    rw [Tail.yield, List.append_nil]
    exact h
  | .cons op operand rest =>
    have hnext : first? (front ++ op.token :: operand.yield) =
        some (Tree.Expr.binary op.op left operand.tree).start := first?_append h
    have hwhole := rest.first?_yield hnext
    rwa [List.append_assoc, List.cons_append] at hwhole
termination_by structural d

end

/-! ## Nodes on tokens -/

/-- The reader of such nodes takes all of `used` for the node. -/
def TakenFrom (used : List Token) : Node → Prop
  | .program p => Tree.Program.ofTokens used = .ok p
  | .function f => Reads (readFunction (endOfInput used) used) f []
  | .typeName t => Reads (readType (endOfInput used) used) t []
  | .param p => Reads (readParam (endOfInput used) used) p []
  | .block brace body => ∃ rest, used = brace :: rest ∧ brace.kind = .delimiter .lbrace ∧
      Reads (readStmts (endOfInput used) rest) body []
  | .stmt s => Reads (readStmt (endOfInput used) used) s []
  | .expr e => Tree.Expr.ofTokens used = .ok e

/-- The nodes are taken from parts of the tokens, in order, and so are the nodes below them. -/
inductive LaidOut : List Node → List Token → Prop
  | nil (ts : List Token) : LaidOut [] ts
  | cons {n : Node} {ns : List Node} {before used after : List Token}
      (taken : TakenFrom used n) (start : first? used = some n.start)
      (below : LaidOut n.children used) (rest : LaidOut ns after) :
      LaidOut (n :: ns) (before ++ (used ++ after))

namespace LaidOut

variable {n : Node} {ns ms : List Node}

/-- A node with the tokens it was taken from, and below it its children. -/
theorem single (taken : TakenFrom used n) (start : first? used = some n.start)
    (below : LaidOut n.children used) : LaidOut [n] used := by
  have h : LaidOut [n] ([] ++ (used ++ [])) := cons taken start below (.nil [])
  rwa [List.nil_append, List.append_nil] at h

/-- Tokens in front belong to none of the nodes. -/
theorem behind (before : List Token) (h : LaidOut ns ts) : LaidOut ns (before ++ ts) := by
  cases h with
  | nil => exact nil _
  | cons taken start below rest =>
    rw [← List.append_assoc]
    exact cons taken start below rest

/-- Nodes side by side. -/
theorem append (h : LaidOut ns ts) (h' : LaidOut ms ts') : LaidOut (ns ++ ms) (ts ++ ts') := by
  induction h with
  | nil ts => exact h'.behind ts
  | cons taken start below rest _ ih =>
    rw [List.append_assoc, List.append_assoc]
    exact cons taken start below ih

/-- What is laid out on a part is laid out on the whole. -/
theorem mono (h : LaidOut ns part) (hpart : part <:+: ts) : LaidOut ns ts := by
  obtain ⟨before, after, rfl⟩ := hpart
  have hfront := (h.behind before).append (.nil after)
  rwa [List.append_nil] at hfront

/-- A token in front belongs to none of the nodes. -/
theorem cons_token (t : Token) (h : LaidOut ns ts) : LaidOut ns (t :: ts) := h.behind [t]

end LaidOut

/-! ## Expressions -/

/-- Every phrase is an expression. -/
def Phrase.asExpr : {r : Rank} → Phrase r → Phrase .expr
  | .chain .logical, d => d
  | .relation, d => .chain (j := .logical) d .nil
  | .chain .term, d => .chain (j := .logical) (.single d) .nil
  | .chain .product, d => .chain (j := .logical) (.single (.chain (j := .term) d .nil)) .nil
  | .atom, d =>
    .chain (j := .logical) (.single (.chain (j := .term) (.chain (j := .product) d .nil) .nil)) .nil

/-- A phrase is an expression on its own, with the same tokens. -/
theorem Phrase.yield_asExpr {r : Rank} (d : Phrase r) : d.asExpr.yield = d.yield := by
  match r, d with
  | .chain .logical, d => rfl
  | .relation, d | .chain .term, d => exact List.append_nil d.yield
  | .chain .product, d => exact (List.append_nil _).trans (List.append_nil d.yield)
  | .atom, d =>
    exact (List.append_nil _).trans ((List.append_nil _).trans (List.append_nil d.yield))

/-- A phrase is an expression on its own, with the same tree. -/
theorem Phrase.tree_asExpr {r : Rank} (d : Phrase r) : d.asExpr.tree = d.tree := by
  match r, d with
  | .chain .logical, d | .relation, d | .chain .term, d | .chain .product, d | .atom, d => rfl

/-- The node of a phrase was taken from its tokens. -/
theorem Phrase.takenFrom {r : Rank} (d : Phrase r) : TakenFrom d.yield (.expr d.tree) := by
  rw [← d.yield_asExpr, ← d.tree_asExpr]
  exact Tree.Expr.ofTokens_yield d.asExpr

/-- A phrase is laid out if its children are. -/
theorem Phrase.laidOut_of_children {r : Rank} (d : Phrase r)
    (h : LaidOut (Node.expr d.tree).children d.yield) : LaidOut [.expr d.tree] d.yield :=
  .single d.takenFrom d.first?_yield h

/-- One more operand at the end. -/
def Tail.snoc {j : Joint} : Tail j → OpToken j.level → Phrase j.operand → Tail j
  | .nil, op, operand => .cons op operand .nil
  | .cons op' operand' rest, op, operand => .cons op' operand' (rest.snoc op operand)

/-- Operators are added at the right end. -/
theorem Tail.yield_snoc {j : Joint} (d : Tail j) (op : OpToken j.level)
    (operand : Phrase j.operand) :
    (d.snoc op operand).yield = d.yield ++ op.token :: operand.yield := by
  fun_induction Tail.snoc d op operand with
  | case1 => simp [yield]
  | case2 j op' operand' rest op operand ih => simp [yield, ih]

/-- The operator that was added last is the outermost one. -/
theorem Tail.tree_snoc {j : Joint} (d : Tail j) (op : OpToken j.level)
    (operand : Phrase j.operand) (left : Tree.Expr) :
    (d.snoc op operand).tree left = .binary op.op (d.tree left) operand.tree := by
  fun_induction Tail.snoc d op operand generalizing left with
  | case1 => rfl
  | case2 j op' operand' rest op operand ih => exact ih _

/-- A node for an operator is laid out if its operands are. -/
theorem LaidOut.binary {r : Rank} (d : Phrase r) {op : BinaryOp} {left right : Tree.Expr}
    {t : Token} (htree : d.tree = .binary op left right) (hyield : d.yield = ts ++ t :: ts')
    (hleft : LaidOut [.expr left] ts) (hright : LaidOut [.expr right] ts') :
    LaidOut [.expr d.tree] d.yield := by
  apply d.laidOut_of_children
  rw [htree, hyield]
  exact hleft.append (hright.cons_token t)

/-- The node of a member of a list. -/
def Item.node : (i : Item) → i.Value → Node
  | .arg => .expr
  | .param => .param

theorem TypeWord.laidOut (t : TypeWord) : LaidOut [.typeName ⟨t.1⟩] [t.1] := by
  refine .single (readType_reads.mpr ⟨rfl, t.2⟩) (first?_cons ?_) (.nil _)
  intro hk
  have ht := t.2
  rw [hk] at ht
  cases ht

theorem Param.laidOut (p : Param) : LaidOut [.param p.tree] p.yield := by
  refine .single ?_ (first?_terminal p.name nofun) ?_
  · rw [← List.append_nil p.yield]
    exact p.reads
  · exact (TypeWord.laidOut p.type).mono ⟨[p.name.1, p.colon.1], [], rfl⟩

mutual

/-- A phrase is laid out over its tokens, by induction on the derivation. -/
theorem Phrase.laidOut {r : Rank} (d : Phrase r) : LaidOut [.expr d.tree] d.yield := by
  match r, d with
  | .chain j, .chain first tail =>
    have hyield : (Phrase.chain first .nil).yield = first.yield := List.append_nil _
    have hwhole := tail.laidOut first .nil (by rw [hyield]; exact first.laidOut)
    rwa [hyield] at hwhole
  | .relation, .single term => exact term.laidOut
  | .relation, .comparison left op right =>
    exact .binary (.comparison left op right) rfl rfl left.laidOut right.laidOut
  | .atom, .call (.mk arrow name lparen args) =>
    apply Phrase.laidOut_of_children
    exact ((args.laidOut.cons_token lparen.1).cons_token name.1).cons_token arrow.1
  | .atom, .number n => exact (Phrase.number n).laidOut_of_children (.nil _)
  | .atom, .string t => exact (Phrase.string t).laidOut_of_children (.nil _)
  | .atom, .truth value t h => exact (Phrase.truth value t h).laidOut_of_children (.nil _)
  | .atom, .ident t h => exact (Phrase.ident t h).laidOut_of_children (.nil _)
  | .atom, .parens lparen inner rparen => exact inner.laidOut.mono ⟨[lparen.1], [rparen.1], rfl⟩
termination_by structural d

-- What is in front, `first` with `done`, is one expression by itself, the left operand of the next
-- operator.
/-- Operators and operands behind others. A chain associates to the left, so its nodes do not follow
the derivation: what was derived up to some operator is a node in its own right. The induction hands
over that part of the chain (`done`), which grows by `Tail.snoc`. -/
theorem Tail.laidOut {j : Joint} (d : Tail j) (first : Phrase j.operand) (done : Tail j)
    (h : LaidOut [.expr (Phrase.chain first done).tree] (Phrase.chain first done).yield) :
    LaidOut [.expr (d.tree (Phrase.chain first done).tree)]
      ((Phrase.chain first done).yield ++ d.yield) := by
  match d with
  | .nil =>
    rw [Tail.yield, List.append_nil]
    exact h
  | .cons op operand rest =>
    have htree : (Phrase.chain first (done.snoc op operand)).tree =
        .binary op.op (Phrase.chain first done).tree operand.tree := done.tree_snoc op operand _
    have hyield : (Phrase.chain first (done.snoc op operand)).yield =
        (Phrase.chain first done).yield ++ op.token :: operand.yield := by
      rw [Phrase.yield, done.yield_snoc, Phrase.yield, List.append_assoc]
    have hmore := rest.laidOut first (done.snoc op operand)
      (.binary _ htree hyield h operand.laidOut)
    rwa [htree, hyield, List.append_assoc, List.cons_append] at hmore
termination_by structural d

/-- An item of a list is laid out over its tokens. -/
theorem Element.laidOut {i : Item} (d : Element i) : LaidOut [i.node d.tree] d.yield := by
  match i, d with
  | .arg, .arg e => exact e.laidOut
  | .param, .param p => exact p.laidOut
termination_by structural d

/-- The items of a list are laid out side by side; commas belong to none of them. -/
theorem Series.laidOut {i : Item} {first : Bool} (d : Series i first) :
    LaidOut (d.tree.map i.node) d.yield := by
  match first, d with
  | _, .close rparen => exact .nil _
  | true, .first item rest => exact item.laidOut.append rest.laidOut
  | false, .next comma item rest => exact (item.laidOut.append rest.laidOut).cons_token comma.1
termination_by structural d

end

/-! ## Statements -/

/-- A block and the brace in front of it. -/
theorem LaidOut.block (lbrace : Mark .lbrace) (b : Body)
    (h : LaidOut (b.tree.map .stmt) b.yield) :
    LaidOut [.block lbrace.1 b.tree] (lbrace.1 :: b.yield) := by
  refine .single ⟨b.yield, rfl, lbrace.2, ?_⟩ (first?_terminal lbrace nofun) (h.cons_token _)
  rw [← List.append_nil b.yield]
  exact b.reads

/-- A statement starts with its first token. -/
theorem Stmt.first?_yield (s : Stmt) : first? s.yield = some s.tree.start := by
  cases s with
  | ret start | cond start | print start | decl start => exact first?_terminal start nofun
  | assign target => exact first?_terminal target nofun
  | call c =>
    obtain ⟨arrow, name, lparen, args⟩ := c
    exact first?_terminal arrow nofun

/-- A statement is laid out if its children are. -/
theorem Stmt.laidOut_of_children (s : Stmt) (h : LaidOut (Node.stmt s.tree).children s.yield) :
    LaidOut [.stmt s.tree] s.yield := by
  refine .single ?_ s.first?_yield h
  rw [← List.append_nil s.yield]
  exact s.reads

mutual

/-- A statement is laid out over its tokens, by induction on the derivation. -/
theorem Stmt.laidOut (s : Stmt) : LaidOut [.stmt s.tree] s.yield := by
  apply s.laidOut_of_children
  match s with
  | .ret start value semi => exact value.laidOut.mono ⟨[start.1], [semi.1], rfl⟩
  | .cond start test lbrace body =>
    exact (test.laidOut.append (.block lbrace body body.laidOut)).cons_token start.1
  | .assign target eq value semi => exact value.laidOut.mono ⟨[target.1, eq.1], [semi.1], rfl⟩
  | .print start lparen args semi => exact args.laidOut.mono ⟨[start.1, lparen.1], [semi.1], rfl⟩
  | .decl start param eq value semi =>
    have hvalue := value.laidOut.mono ⟨[eq.1], [semi.1], rfl⟩
    exact (param.laidOut.append hvalue).cons_token start.1
  | .call c semi =>
    obtain ⟨arrow, name, lparen, args⟩ := c
    exact (Phrase.call (.mk arrow name lparen args)).laidOut.mono ⟨[], [semi.1], rfl⟩
termination_by structural s

/-- The statements of a block are laid out side by side. -/
theorem Body.laidOut (b : Body) : LaidOut (b.tree.map .stmt) b.yield := by
  match b with
  | .close rbrace => exact .nil _
  | .cons s rest => exact s.laidOut.append rest.laidOut
termination_by structural b

end

/-! ## Functions and programs -/

/-- A result type is laid out behind its arrow. -/
theorem returns_laidOut (r : Option (Arrow × TypeWord)) :
    LaidOut ((r.map fun r => (⟨r.2.1⟩ : TypeName)).toList.map .typeName) (returnsYield r) := by
  match r with
  | none => exact .nil _
  | some (arrow, type) => exact (TypeWord.laidOut type).cons_token arrow.1

/-- A function is laid out over its tokens. -/
theorem Function.laidOut (f : Function) : LaidOut [.function f.tree] f.yield := by
  refine .single ?_ (first?_terminal f.start nofun) ?_
  · rw [← List.append_nil f.yield]
    exact f.reads
  · have hparts := f.params.laidOut.append
      ((returns_laidOut f.returns).append (.block f.lbrace f.body f.body.laidOut))
    have hchildren := ((hparts.cons_token f.lparen.1).cons_token f.name.1).cons_token f.start.1
    rwa [← List.append_assoc] at hchildren

/-- Functions are laid out side by side. -/
theorem functions_laidOut (fs : List Function) :
    LaidOut ((fs.map Function.tree).map .function) (fs.flatMap Function.yield) := by
  induction fs with
  | nil => exact .nil _
  | cons f fs ih => exact f.laidOut.append ih

end Stackling.Grammar
