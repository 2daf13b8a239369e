import Mathlib.Order.Defs.PartialOrder
import Stackling.Proofs.Correctness
import Stackling.Proofs.Grammar.Extent
import Stackling.Proofs.Token.Layout
import Stackling.Proofs.Tree.Walk

/-!
# The start tokens of nodes

A node is known to the outside by the token that it starts with: errors and listings take positions
from there. The parser notes these tokens down at different times, some before and some after it has
read what belongs to the node, and hands them on from an operand to the whole expression.

* The tree of a text is laid out on its tokens (`LaidOut`), so that every node starts with the first
  token of its part, opening parentheses apart.
* The tokens of a text stand at increasing positions (`Token.pairwise_of_ofText`).
* A node that is laid out starts no later than the nodes below it, and its part ends before the part
  of the next one begins. So the nodes start at increasing positions in the order in which a walk
  enters them (`LaidOut.pairwise`).

Main result: `start_of_ofTokens`.
-/

namespace Stackling

/-! ## The order of a walk -/

namespace Tree

/-- The listener that goes down everywhere and writes down the nodes that it enters. -/
def inspector : Listener (List Node) Empty where
  enter seen n _ := (⟨seen ++ [n], []⟩, true)
  leave seen _ _ := ⟨seen, []⟩

/-- The nodes of a tree in the order in which a walk enters them. -/
def Node.inspect (root : Node) : List Node := (walk inspector [] root).1

theorem Node.preorder_eq (n : Node) : n.preorder = n :: n.children.flatMap preorder := by
  rw [preorder]
  congr 1
  conv_rhs => rw [← List.attach_map_subtype_val n.children, List.flatMap_map]

theorem walkAll_inspector {parent : Node} {cs : List Node}
    (ih : ∀ c ∈ cs, ∀ seen stack,
      walkFrom inspector seen ⟨stack, none⟩ c = (seen ++ c.preorder, ⟨stack, none⟩))
    (h : ∀ c ∈ cs, c ∈ parent.children) (seen stack : List Node) :
    walkAll inspector seen ⟨stack, none⟩ parent cs h =
      (seen ++ cs.flatMap Node.preorder, ⟨stack, none⟩) := by
  induction cs generalizing seen with
  | nil => simp [walkAll]
  | cons c cs ihcs =>
    rw [walkAll, ih c List.mem_cons_self]
    simp only [Option.isSome_none, Bool.false_eq_true, if_false]
    rw [ihcs (fun c hc => ih c (List.mem_cons_of_mem _ hc)), List.flatMap_cons, List.append_assoc]

theorem walkFrom_inspector (n : Node) : ∀ seen stack,
    walkFrom inspector seen ⟨stack, none⟩ n = (seen ++ n.preorder, ⟨stack, none⟩) := by
  induction n using Node.preorder.induct with
  | case1 n ih =>
    intro seen stack
    have henter : inspector.enter seen n ⟨stack, none⟩ = (⟨seen ++ [n], []⟩, true) := rfl
    have hleave (seen : List Node) : inspector.leave seen n ⟨stack, none⟩ = ⟨seen, []⟩ := rfl
    have hbelow := walkAll_inspector (fun c hc => ih ⟨c, hc⟩) (fun _ h => h) (seen ++ [n])
      (stack ++ [n])
    rw [walkFrom, henter]
    simp [Context.push, Context.pop, hbelow, hleave, n.preorder_eq]

theorem Node.inspect_eq_preorder (root : Node) : root.inspect = root.preorder := by
  rw [inspect, walk, walkFrom_inspector]
  rfl

end Tree

/-! ## The order of positions -/

/-- Positions are ordered by their lines and then by their columns. -/
instance : LE Position :=
  ⟨fun p q => p.line < q.line ∨ p.line = q.line ∧ p.column ≤ q.column⟩

theorem Position.le_iff {p q : Position} :
    p ≤ q ↔ p.line < q.line ∨ p.line = q.line ∧ p.column ≤ q.column :=
  Iff.rfl

instance : Preorder Position where
  le_refl p := .inr ⟨rfl, Int.le_refl p.column⟩
  le_trans p q r hpq hqr := by
    rw [Position.le_iff] at *
    omega

theorem Position.le_next (p : Position) (c : Char) : p ≤ p.next c := by
  rw [le_iff, next]
  split
  · exact .inl (Int.lt_succ p.line)
  · exact .inr ⟨rfl, Int.le_add_one (Int.le_refl p.column)⟩

theorem Position.le_after (p : Position) (cs : List Char) : p ≤ p.after cs := by
  induction cs generalizing p with
  | nil => exact le_refl p
  | cons c cs ih => exact (p.le_next c).trans (ih (p.next c))

/-- The tokens of a layout stand behind what is in front of it, one behind the other. -/
theorem Scan.Layout.pairwise {lead cs last : List Char} {ps : List Piece}
    (h : Layout lead cs ps last) :
    (∀ p ∈ ps, Position.start.after lead ≤ p.token.pos) ∧
      ps.Pairwise fun p q => p.token.pos ≤ q.token.pos := by
  induction ps generalizing lead cs with
  | nil => exact ⟨List.forall_mem_nil _, .nil⟩
  | cons p ps ih =>
    obtain ⟨hbehind, hpairs⟩ := ih h.tail
    have hlead : Position.start.after lead ≤ p.token.pos := by
      rw [h.head.pos_eq, Position.after_append]
      exact Position.le_after _ _
    have hnext : p.token.pos ≤ Position.start.after (lead ++ p.text) := by
      rw [h.head.pos_eq, Piece.text, ← List.append_assoc, Position.after_append _ (lead ++ p.gap)]
      exact Position.le_after _ _
    have hrest : ∀ q ∈ ps, p.token.pos ≤ q.token.pos := fun q hq => hnext.trans (hbehind q hq)
    exact ⟨List.forall_mem_cons.mpr ⟨hlead, fun q hq => hlead.trans (hrest q hq)⟩,
      .cons hrest hpairs⟩

theorem Token.pairwise_of_ofText {cs : List Char} {ts : List Token}
    (h : Token.ofText cs = .ok ts) : ts.Pairwise fun s t => s.pos ≤ t.pos := by
  obtain ⟨ps, last, hlayout, rfl⟩ := Scan.exists_layout_of_ofText h
  exact List.pairwise_map.mpr hlayout.pairwise.2

/-! ## The order of nodes -/

namespace Grammar

open Stackling.Tree

variable {ts used : List Token} {ns : List Node}

/-- The first token stands in front of all the others that are no opening parentheses. -/
theorem le_of_first? {s t : Token} (hused : used.Pairwise fun s t => s.pos ≤ t.pos)
    (hs : first? used = some s) (ht : t ∈ used) (hk : t.kind ≠ .delimiter .lparen) :
    s.pos ≤ t.pos := by
  obtain ⟨-, parens, rest, rfl, hparens⟩ := List.find?_eq_some_iff_append.mp hs
  have hbehind := (List.pairwise_append.mp hused).2.1
  rcases List.mem_append.mp ht with ht | ht
  · exact absurd (hparens t ht) (by simpa using hk)
  rcases List.mem_cons.mp ht with rfl | ht
  · exact le_refl _
  · exact List.rel_of_pairwise_cons hbehind ht

theorem mem_of_first? {s : Token} (hs : first? used = some s) :
    s ∈ used ∧ s.kind ≠ .delimiter .lparen :=
  ⟨List.mem_of_find?_eq_some hs, by simpa using List.find?_some hs⟩

/-- Nodes that are laid out start with tokens that are no opening parentheses. -/
theorem LaidOut.start_mem (h : LaidOut ns ts) : ∀ n ∈ ns.flatMap Node.preorder,
    n.start ∈ ts ∧ n.start.kind ≠ .delimiter .lparen := by
  induction h with
  | nil => exact List.forall_mem_nil _
  | @cons n ns before used after taken start below rest ihbelow ihrest =>
    rw [List.flatMap_cons, n.preorder_eq]
    intro m hm
    rcases List.mem_append.mp hm with hm | hm
    · have hused : m.start ∈ used ∧ m.start.kind ≠ .delimiter .lparen := by
        rcases List.mem_cons.mp hm with rfl | hm
        · exact mem_of_first? start
        · exact ihbelow m hm
      exact ⟨List.mem_append_right _ (List.mem_append_left _ hused.1), hused.2⟩
    · obtain ⟨hmem, hk⟩ := ihrest m hm
      exact ⟨List.mem_append_right _ (List.mem_append_right _ hmem), hk⟩

/-- **Nodes that are laid out on ordered tokens are ordered**, each one before those below it. -/
theorem LaidOut.pairwise (h : LaidOut ns ts) (hts : ts.Pairwise fun s t => s.pos ≤ t.pos) :
    (ns.flatMap Node.preorder).Pairwise fun m n => m.start.pos ≤ n.start.pos := by
  induction h with
  | nil => exact .nil
  | @cons n ns before used after taken start below rest ihbelow ihrest =>
    obtain ⟨hused, hafter, hacross⟩ :=
      List.pairwise_append.mp (List.pairwise_append.mp hts).2.1
    have hnode := LaidOut.start_mem (.single taken start below)
    rw [List.flatMap_singleton] at hnode
    rw [List.flatMap_cons, List.pairwise_append]
    refine ⟨?_, ihrest hafter, fun m hm m' hm' => ?_⟩
    · rw [n.preorder_eq, List.pairwise_cons]
      refine ⟨fun m hm => ?_, ihbelow hused⟩
      obtain ⟨hmem, hk⟩ := below.start_mem m hm
      exact le_of_first? hused start hmem hk
    · exact hacross _ (hnode m hm).1 _ (rest.start_mem m' hm').1

end Grammar

/-! ## Trees of texts -/

open Stackling.Tree
open Grammar (LaidOut)

/-- **Nodes start with the first of their tokens.** From the tokens of a text, let a program or an
expression be read. The nodes of its tree, the program itself apart, are laid out on the tokens:
each one was taken from a part of the tokens of the node above it, behind those of the nodes before
it, and starts with the first token of this part that is no opening parenthesis. A walk enters the
nodes in the order of the positions at which they start. -/
theorem start_of_ofTokens {cs : List Char} {ts : List Token} (h : Token.ofText cs = .ok ts) :
    (∀ p, Tree.Program.ofTokens ts = .ok p →
      LaidOut (Node.program p).children ts ∧
      (Node.program p).inspect.Pairwise fun m n => m.start.pos ≤ n.start.pos) ∧
    ∀ e, Tree.Expr.ofTokens ts = .ok e →
      LaidOut [.expr e] ts ∧
      (Node.expr e).inspect.Pairwise fun m n => m.start.pos ≤ n.start.pos := by
  have hplain := Token.allPlain_of_ofText h
  have hordered := Token.pairwise_of_ofText h
  refine ⟨fun p hp => ?_, fun e he => ?_⟩
  · obtain ⟨d, rfl, rfl⟩ := (Tree.Program.ofTokens_iff hplain).mp hp
    have hlaid : LaidOut (Node.program d.tree).children d.yield :=
      Grammar.functions_laidOut d.functions
    refine ⟨hlaid, ?_⟩
    rw [Node.inspect_eq_preorder, Node.preorder_eq, List.pairwise_cons]
    refine ⟨fun m hm => ?_, hlaid.pairwise hordered⟩
    -- the program itself starts with the first token of all
    have hmem := (hlaid.start_mem m hm).1
    change (d.yield.headD ⟨.eof, "", .start⟩).pos ≤ m.start.pos
    cases hy : d.yield with
    | nil =>
      rw [hy] at hmem
      cases hmem
    | cons t ts =>
      rw [hy] at hmem hordered
      rcases List.mem_cons.mp hmem with hstart | hmem
      · rw [hstart]
        exact le_refl _
      · exact List.rel_of_pairwise_cons hordered hmem
  · obtain ⟨d, rfl, rfl⟩ := (Tree.Expr.ofTokens_iff hplain).mp he
    refine ⟨d.laidOut, ?_⟩
    rw [Node.inspect_eq_preorder, ← List.flatMap_singleton Node.preorder]
    exact d.laidOut.pairwise hordered

namespace Sample

/-- A function that assigns a product whose first factor is a sum in parentheses. -/
def product : List Char := "function f(a: int) \x7b a = (a + 1) * 2; \x7d".toList

def productTokens : List Token :=
  [key .function 1, name "f" 10, mark .lparen 11, name "a" 12, mark .colon 13, key .int 15,
    mark .rparen 18, mark .lbrace 20, name "a" 22, op .assign 24, mark .lparen 26, name "a" 27,
    op .plus 29, number "1" 31, mark .rparen 32, op .times 34, number "2" 36, mark .semicolon 37,
    mark .rbrace 39]

def productTree : Tree.Program :=
  ⟨key .function 1,
    [⟨key .function 1, "f", [⟨name "a" 12, ⟨key .int 15⟩⟩], none, mark .lbrace 20,
      [.assign (name "a" 22) (.binary .times
        (.binary .plus (.var (name "a" 27)) (.int (number "1" 31) 1)) (.int (number "2" 36) 2))]⟩]⟩

end Sample

/-- The product and the sum start where their first operand does, behind the parenthesis. -/
theorem start_of_ofTokens_product :
    Token.ofText Sample.product = .ok Sample.productTokens ∧
    Tree.Program.ofTokens Sample.productTokens = .ok Sample.productTree ∧
    LaidOut (Node.program Sample.productTree).children Sample.productTokens ∧
    (Node.program Sample.productTree).inspect.map (fun n => n.start.pos.column) =
      [1, 1, 12, 15, 20, 22, 27, 27, 27, 31, 36] ∧
    (Node.program Sample.productTree).inspect.Pairwise fun m n => m.start.pos ≤ n.start.pos := by
  have htext : Token.ofText Sample.product = .ok Sample.productTokens := by decide +kernel
  have hread : Tree.Program.ofTokens Sample.productTokens = .ok Sample.productTree := by cbv
  obtain ⟨hlaid, hordered⟩ := (start_of_ofTokens htext).1 _ hread
  refine ⟨htext, hread, hlaid, ?_, hordered⟩
  rw [Node.inspect_eq_preorder]
  cbv

end Stackling
