import Stackling.Tree

/-!
# Induction over trees

Calls hold a list of arguments and conditionals a list of statements, so the induction that comes
with the types has a second statement about lists in it. The two principles here put the members
of such a list among the induction hypotheses instead.
-/

namespace Stackling.Tree

/-- Induction over expressions; an argument of a call is a part of it. -/
@[elab_as_elim]
theorem Expr.induction {motive : Expr → Prop}
    (binary : ∀ op left right, motive left → motive right → motive (.binary op left right))
    (call : ∀ start callee args, (∀ a ∈ args, motive a) → motive (.call start callee args))
    (int : ∀ literal value, motive (.int literal value))
    (bool : ∀ literal value, motive (.bool literal value))
    (str : ∀ literal, motive (.str literal))
    (var : ∀ name, motive (.var name)) :
    ∀ e, motive e
  | .binary op left right =>
    binary op left right (Expr.induction binary call int bool str var left)
      (Expr.induction binary call int bool str var right)
  | .call start callee args =>
    call start callee args fun a _ => Expr.induction binary call int bool str var a
  | .int literal value => int literal value
  | .bool literal value => bool literal value
  | .str literal => str literal
  | .var name => var name

/-- Induction over statements; a statement in the body of a conditional is a part of it. -/
@[elab_as_elim]
theorem Stmt.induction {motive : Stmt → Prop}
    (ret : ∀ start value, motive (.ret start value))
    (cond : ∀ start test brace body, (∀ s ∈ body, motive s) →
      motive (.cond start test brace body))
    (assign : ∀ target value, motive (.assign target value))
    (print : ∀ start args, motive (.print start args))
    (decl : ∀ start param value, motive (.decl start param value))
    (call : ∀ start callee args, motive (.call start callee args)) :
    ∀ s, motive s
  | .ret start value => ret start value
  | .cond start test brace body =>
    cond start test brace body fun s _ => Stmt.induction ret cond assign print decl call s
  | .assign target value => assign target value
  | .print start args => print start args
  | .decl start param value => decl start param value
  | .call start callee args => call start callee args

/-- What passes from a node to its children passes to everything below the node. -/
theorem Node.forall_mem_preorder {P : Node → Prop}
    (hchild : ∀ {n c : Node}, P n → c ∈ n.children → P c) {n : Node} (hn : P n) :
    ∀ m ∈ n.preorder, P m := by
  induction n using Node.preorder.induct with
  | case1 n ih =>
    intro m hm
    rw [Node.preorder, List.mem_cons, List.mem_flatMap] at hm
    obtain rfl | ⟨c, -, hm⟩ := hm
    · exact hn
    · exact ih c (hchild hn c.2) m hm

end Stackling.Tree
