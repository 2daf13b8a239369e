import Mathlib.Data.List.Forall2
import Stackling.Proofs.Markdown.Lines
import Stackling.Proofs.Text.Utf8

/-!
# Reading several lines

A text is given by its lines, with a line end after each, where the last one may be missing
(`IsText`). A document is read in parts: `Reads` says what some lines of it come to, whatever
follows them, and parts are put together by `Reads.append`. From between two blocks, fenced code
with the fences around it comes to one block (`reads_fence`).
-/

namespace Stackling.Markdown

open Utf8 (Atom)

/-! ## Texts and lines -/

/-- Lines with a line end after each. -/
def unlines (ls : List (List Char)) : List Char := ls.flatMap (· ++ ['\n'])

/-- A text with the lines `ls`. The last line end may be missing, if there is something before it
on its line. -/
def IsText (ls : List (List Char)) (cs : List Char) : Prop :=
  cs = unlines ls ∨ ∃ front last, last ≠ [] ∧ ls = front ++ [last] ∧ cs = unlines front ++ last

/-- A line as it is read. -/
def IsLine (cs : List Char) (t : Chars) : Prop := ∃ e, IsEnd e ∧ t = chars cs ++ e ∧ t ≠ []

theorem chars_append (cs ds : List Char) : chars (cs ++ ds) = chars cs ++ chars ds :=
  List.map_append

/-- A line ends at its line end. -/
theorem lines_append {cs : List Char} (h : '\n' ∉ cs) (rest : Chars) :
    Chars.lines (chars cs ++ Atom.char '\n' :: rest) =
      (chars cs ++ [Atom.char '\n']) :: Chars.lines rest := by
  induction cs with
  | nil => simp [chars, Chars.lines]
  | cons c cs ih =>
    obtain ⟨hc, hcs⟩ := not_or.mp (mt List.mem_cons.mpr h)
    have ih := ih hcs
    rw [chars] at ih
    simp [chars, Chars.lines, Ne.symm hc, ih]

/-- The last line may lack its line end. -/
theorem lines_of_notMem {cs : List Char} (h : '\n' ∉ cs) (hne : cs ≠ []) :
    Chars.lines (chars cs) = [chars cs] := by
  induction cs with
  | nil => exact absurd rfl hne
  | cons c cs ih =>
    obtain ⟨hc, hcs⟩ := not_or.mp (mt List.mem_cons.mpr h)
    rcases cs with _ | ⟨d, cs⟩
    · simp [chars, Chars.lines, Ne.symm hc]
    · have ih : Chars.lines (chars (d :: cs)) = [chars (d :: cs)] :=
        ih hcs (List.cons_ne_nil d cs)
      rw [chars, List.map_cons, ← chars, Chars.lines,
        if_neg (fun he => hc (Atom.char.inj he).symm), ih]

/-- Lines that were put together are the lines of the text. -/
theorem forall₂_lines_append {ls ls' : List (List Char)} (h : ∀ l ∈ ls, '\n' ∉ l) {rest : Chars}
    (hrest : List.Forall₂ IsLine ls' (Chars.lines rest)) :
    List.Forall₂ IsLine (ls ++ ls') (Chars.lines (chars (unlines ls) ++ rest)) := by
  induction ls with
  | nil => exact hrest
  | cons l ls ih =>
    obtain ⟨hl, hls⟩ := List.forall_mem_cons.mp h
    have hline : chars (unlines (l :: ls)) ++ rest =
        chars l ++ Atom.char '\n' :: (chars (unlines ls) ++ rest) := by
      simp [chars, unlines]
    rw [hline, lines_append hl]
    exact .cons ⟨_, .inr rfl, rfl, by simp⟩ (ih hls)

/-- The lines of a text are read one by one. -/
theorem IsText.forall₂_lines {ls : List (List Char)} {cs : List Char} (h : IsText ls cs)
    (hls : ∀ l ∈ ls, '\n' ∉ l) : List.Forall₂ IsLine ls (Chars.lines (chars cs)) := by
  rcases h with rfl | ⟨front, last, hlast, rfl, rfl⟩
  · have hlines := forall₂_lines_append hls (show List.Forall₂ IsLine [] (Chars.lines []) from .nil)
    rwa [List.append_nil, List.append_nil] at hlines
  · have hmem : '\n' ∉ last := hls last (by simp)
    have hline : List.Forall₂ IsLine [last] (Chars.lines (chars last)) := by
      rw [lines_of_notMem hmem hlast]
      exact .cons ⟨[], .inl rfl, (List.append_nil _).symm, by simpa [chars] using hlast⟩ .nil
    have hlines := forall₂_lines_append (fun l hl => hls l (List.mem_append_left _ hl)) hline
    rwa [chars_append]

/-! ## Reading on -/

/-- Outside of containers, the lines `ts` from number `n` on come to the blocks `bs` and lead from
one leaf to another. -/
def Reads (n : Nat) (leaf : Leaf) (ts : List Chars) (bs : List Block) (leaf' : Leaf) : Prop :=
  ∀ rest, blocksFrom ⟨[], leaf⟩ n (ts ++ rest) =
    bs ++ blocksFrom ⟨[], leaf'⟩ (n + ts.length) rest

section Reads

variable {n : Nat} {leaf leaf' leaf'' : Leaf} {ts ts' : List Chars} {bs bs' : List Block}

theorem Reads.nil (n : Nat) (leaf : Leaf) : Reads n leaf [] [] leaf := fun _ => rfl

/-- A line that is read in one step. -/
theorem reads_of_step {t : Chars} (h : step ⟨[], leaf⟩ n t = (bs, ⟨[], leaf'⟩)) :
    Reads n leaf [t] bs leaf' := by
  intro rest
  rw [List.singleton_append, blocksFrom, h]
  rfl

/-- Parts of a document one after the other. The second one starts with the leaf that the first one
has left. -/
theorem Reads.append (h : Reads n leaf ts bs leaf')
    (h' : Reads (n + ts.length) leaf' ts' bs' leaf'') :
    Reads n leaf (ts ++ ts') (bs ++ bs') leaf'' := by
  intro rest
  rw [List.append_assoc, h, h', List.append_assoc, List.length_append, Nat.add_assoc]

/-- A document that has been read to its end. -/
theorem Reads.blocks_eq {cs : List Char} (h : Reads 1 .nothing (Chars.lines (chars cs)) bs leaf)
    (hi : leaf.IsIdle) : blocks (Utf8.encode cs) = bs := by
  have hend := h []
  rw [List.append_nil] at hend
  rw [blocks, Utf8.split_encode, ← chars, hend]
  cases hi <;> exact List.append_nil bs

theorem exists_append_of_forall₂ {α β : Type} {R : α → β → Prop} {as as' : List α} {bs : List β}
    (h : List.Forall₂ R (as ++ as') bs) :
    ∃ bs₁ bs₂, bs = bs₁ ++ bs₂ ∧ List.Forall₂ R as bs₁ ∧ List.Forall₂ R as' bs₂ := by
  refine ⟨bs.take as.length, bs.drop as.length, (List.take_append_drop ..).symm, ?_, ?_⟩
  · exact (List.forall₂_take_append bs as as' h.flip).flip
  · exact (List.forall₂_drop_append bs as as' h.flip).flip

/-- The lines inside fenced code. -/
theorem reads_content {info : List Char} {start : Nat} {ls : List (List Char)}
    (hls : ∀ l ∈ ls, '\n' ∉ l ∧ ¬ClosesCode l) (h : List.Forall₂ IsLine ls ts)
    (content : List Chars) : Reads n (.fenced (tickFence info) start content) ts []
      (.fenced (tickFence info) start ((ls.map chars).reverse ++ content)) := by
  induction h generalizing n content with
  | nil => exact .nil n _
  | @cons l t ls ts hline _ ih =>
    obtain ⟨⟨hl, hcloses⟩, hls⟩ := List.forall_mem_cons.mp hls
    obtain ⟨e, he, rfl, hne⟩ := hline
    have hfirst : Reads n (.fenced (tickFence info) start content) [chars l ++ e] []
        (.fenced (tickFence info) start (chars l :: content)) :=
      reads_of_step (step_content hl hcloses he hne)
    rw [List.map_cons, List.reverse_cons, List.append_assoc]
    exact hfirst.append (ih hls (chars l :: content))

/-- Fenced code is one block. -/
theorem reads_fence (hi : leaf.IsIdle) {info : List Char} {ls : List (List Char)}
    (hinfo : ∀ c ∈ info, Chars.isSpace (.char c) = false ∧ c ≠ '\x60') (hlen : info.length ≠ 1)
    (hls : ∀ l ∈ ls, '\n' ∉ l ∧ ¬ClosesCode l)
    (h : List.Forall₂ IsLine ((ticks ++ info) :: (ls ++ [ticks])) ts) :
    Reads n leaf ts [.fence (chars info) n (ls.map chars)] .nothing := by
  obtain _ | ⟨⟨e, he, rfl, -⟩, h⟩ := h
  obtain ⟨ts, us, rfl, hcontent, hlast⟩ := exists_append_of_forall₂ h
  obtain _ | ⟨⟨e', he', rfl, -⟩, ⟨⟩⟩ := hlast
  have hopen : Reads n leaf [chars (ticks ++ info) ++ e] [] (.fenced (tickFence info) n []) :=
    reads_of_step (step_opening hi hinfo hlen he)
  have hinside : Reads n leaf ([chars (ticks ++ info) ++ e] ++ ts) []
      (.fenced (tickFence info) n (ls.map chars).reverse) := by
    rw [← List.append_nil (ls.map chars).reverse]
    exact hopen.append (reads_content hls hcontent [])
  have hclose := hinside.append (reads_of_step (step_closing he'))
  rwa [List.reverse_reverse] at hclose

end Reads

end Stackling.Markdown
