import Stackling.Proofs.Tree
import Stackling.Token

/-!
# Trees without their tokens

Nodes keep the tokens they start with so that messages can point at them. What a tree says is read
from few of them: the lexemes of names and of string literals, and the words that name types.
`erase` keeps these and puts one and the same token for every other, and it takes the place away
from those it keeps. Two trees with the same erasure are the same declaration up to tokens.
-/

namespace Stackling

/-- The token that stands for all that are not read. -/
def Token.blank : Token := ⟨.unknown, "", .nowhere⟩

/-- A name without its place. -/
def Token.unplaced (t : Token) : Token := ⟨.ident, t.lexeme, .nowhere⟩

namespace Tree

/-! ## Erasure -/

mutual

/-- An expression without its tokens. -/
def Expr.erase : Expr → Expr
  | .binary op left right => .binary op left.erase right.erase
  | .call _ callee args => .call .blank callee (Expr.eraseAll args)
  | .int _ value => .int .blank value
  | .bool _ value => .bool .blank value
  | .str literal => .str literal.unplaced
  | .var name => .var name.unplaced

/-- Expressions without their tokens. -/
def Expr.eraseAll : List Expr → List Expr
  | [] => []
  | e :: es => e.erase :: Expr.eraseAll es

end

/-- A type name without its place. Its kind is read as well as its spelling. -/
def TypeName.erase (t : TypeName) : TypeName := ⟨⟨t.token.kind, t.token.lexeme, .nowhere⟩⟩

/-- A parameter without places. -/
def Param.erase (p : Param) : Param := ⟨p.name.unplaced, p.type.erase⟩

mutual

/-- A statement without its tokens. -/
def Stmt.erase : Stmt → Stmt
  | .ret _ value => .ret .blank value.erase
  | .cond _ test _ body => .cond .blank test.erase .blank (Stmt.eraseAll body)
  | .assign target value => .assign target.unplaced value.erase
  | .print _ args => .print .blank (Expr.eraseAll args)
  | .decl _ param value => .decl .blank param.erase value.erase
  | .call _ callee args => .call .blank callee (Expr.eraseAll args)

/-- Statements without their tokens. -/
def Stmt.eraseAll : List Stmt → List Stmt
  | [] => []
  | s :: ss => s.erase :: Stmt.eraseAll ss

end

/-- A function without its tokens. -/
def Function.erase (f : Function) : Function :=
  ⟨.blank, f.name, f.params.map Param.erase, f.returns.map TypeName.erase, .blank,
    Stmt.eraseAll f.body⟩

/-- A program without its tokens. -/
def Program.erase (p : Program) : Program := ⟨.blank, p.functions.map Function.erase⟩

/-! ## Lists -/

theorem Expr.eraseAll_eq_map (es : List Expr) : Expr.eraseAll es = es.map Expr.erase := by
  induction es with
  | nil => rfl
  | cons e es ih => rw [Expr.eraseAll, ih, List.map_cons]

theorem Stmt.eraseAll_eq_map (ss : List Stmt) : Stmt.eraseAll ss = ss.map Stmt.erase := by
  induction ss with
  | nil => rfl
  | cons s ss ih => rw [Stmt.eraseAll, ih, List.map_cons]

/-- If `f` tells members apart no better than `g` does, it tells lists apart no better. -/
theorem map_eq_map_of_forall {α β γ : Type} {f : α → β} {g : α → γ} {as bs : List α}
    (h : ∀ a ∈ as, ∀ b ∈ bs, g a = g b → f a = f b) (heq : as.map g = bs.map g) :
    as.map f = bs.map f := by
  induction as generalizing bs with
  | nil => rw [List.map_eq_nil_iff.mp heq.symm]
  | cons a as ih =>
    cases bs with
    | nil => cases heq
    | cons b bs =>
      obtain ⟨hab, hrest⟩ := List.cons.inj heq
      rw [List.map_cons, List.map_cons, h a List.mem_cons_self b List.mem_cons_self hab,
        ih (fun a ha b hb => h a (List.mem_cons_of_mem _ ha) b (List.mem_cons_of_mem _ hb)) hrest]

end Tree

end Stackling
