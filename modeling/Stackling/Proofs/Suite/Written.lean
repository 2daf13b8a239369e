import Stackling.Proofs.Markdown.Outline
import Stackling.Proofs.Suite
import Stackling.Proofs.Text.Lines

/-!
# Suites that are written out

A test case (`Case`) is written as its heading and after it any number of parts: fences, blank lines
and lines of words. A suite written so is read back as the same cases in the same order
(`extract_written`), whichever parser finds the headings and fences, as long as it conforms. The
input may stand anywhere among the assertions, and prose and fences without a language anywhere,
also before the first heading.

The way goes through the blocks of the document. A written suite is a plain document, so that a
parser finds the blocks one would expect (`Shows`, `ShowsSections`), and what such blocks hold is
what has been written.
-/

namespace Stackling.Suite

open Markdown

/-! ## Writing -/

/-- The lines of the text inside a fence. -/
def contentLines (content : List Char) : List (List Char) :=
  if content = [] then [] else content.splitOn '\n'

/-- What is written after the backticks of a fence. -/
def fenceInfo : Option Role → List Char
  | none => []
  | some r => r.language.toList

/-- Something that stands below a heading. -/
inductive Part where
  | blank (line : List Char)
  | words (line : List Char)
  /-- a fence, in the language of a role or in none -/
  | fence (role : Option Role) (content : List Char)

namespace Part

/-- A part as an element of the document. -/
def element : Part → Element
  | blank line => .blank line
  | words line => .words line
  | fence role content => .fence (fenceInfo role) (contentLines content)

/-- A part that is what it is said to be: no line of a fence closes it, and where the content
matters it does not end in a line end. -/
def Readable : Part → Prop
  | blank line => ∀ c ∈ line, c = ' ' ∨ c = '\t'
  | words line => IsWords line
  | fence role content => (role ≠ none → content.getLast? ≠ some '\n') ∧
      (∀ c ∈ content, c = '\n' ∨ IsLineChar c) ∧ ∀ l ∈ contentLines content, ¬ClosesCode l

/-- The role of a part. -/
def role? : Part → Option Role
  | fence role _ => role
  | _ => none

/-- The input that a part holds. -/
def input? : Part → Option (InputKind × List Char)
  | fence (some (.input k)) content => some (k, content)
  | _ => none

/-- The assertion that a part holds. -/
def assertion? : Part → Option (AssertionKind × List Char)
  | fence (some (.assertion k)) content => some (k, content)
  | _ => none

end Part

/-- A test case to be written. -/
structure Case where
  name : List Char
  kind : InputKind
  input : List Char
  assertions : List (AssertionKind × List Char)
  isWords_name : IsWords name
  input_ne_nil : input ≠ []
  assertions_ne_nil : assertions ≠ []
  /-- what is said of a tree is a datum -/
  isDatum : ∀ a ∈ assertions, a.1 = .tree → ∃ p, Datum.ofText a.2 = .ok p

/-- The parts `ps` write a case. -/
structure Case.Writes (c : Case) (ps : List Part) : Prop where
  readable : ∀ p ∈ ps, p.Readable
  inputs : ps.filterMap Part.input? = [(c.kind, c.input)]
  assertions : ps.filterMap Part.assertion? = c.assertions

/-- The title of the heading that opens a test. -/
def testTitle (name : List Char) : List Char := "Test: ".toList ++ name

/-- The elements that write a case. -/
def sectionElements (c : Case) (ps : List Part) : List Element :=
  .heading (testTitle c.name) :: ps.map Part.element

/-- The elements of a suite: parts in front, and after them every case with its parts. -/
def suiteElements (front : List Part) (ws : List (Case × List Part)) : List Element :=
  front.map Part.element ++ ws.flatMap fun w => sectionElements w.1 w.2

/-- The assertion that a fence of a case stands for. -/
def assertionOf (a : AssertionKind × List Char) : Assertion :=
  ⟨a.1, Utf8.encode a.2, if a.1 = .tree then (Datum.ofText a.2).toOption else none⟩

/-- The test that a case stands for, where the input starts on the given line. -/
def Case.toTest (c : Case) (line : Nat) : TestCase :=
  ⟨Utf8.encode c.name, ⟨c.kind, Utf8.encode c.input, line⟩, c.assertions.map assertionOf⟩

/-! ## The text inside a fence -/

/-- The bytes of characters are their encoding. -/
theorem join_chars (cs : List Char) : Utf8.join (chars cs) = Utf8.encode cs := by
  rw [Utf8.join, chars, List.flatMap_map]
  rfl

theorem encode_ne_nil {cs : List Char} (h : cs ≠ []) : Utf8.encode cs ≠ [] := by
  intro hnil
  have hsplit := Utf8.split_encode cs
  rw [hnil, Utf8.split] at hsplit
  exact h (List.map_eq_nil_iff.mp hsplit.symm)

/-- Lines are put together with line ends as texts or as characters. -/
theorem chars_intercalate (ls : List (List Char)) :
    chars (['\n'].intercalate ls) = [.char '\n'].intercalate (ls.map chars) := by
  induction ls with
  | nil => rfl
  | cons l ls ih =>
    cases ls with
    | nil => simp
    | cons l' ls =>
      rw [List.intercalate_cons_cons, chars_append, ih]
      simp [chars]

/-- A last line that is empty comes after a line end. -/
theorem getLast?_of_splitOn {cs : List Char} (h : (cs.splitOn '\n').getLast? = some []) :
    cs = [] ∨ cs.getLast? = some '\n' := by
  induction cs with
  | nil => exact .inl rfl
  | cons c cs ih =>
    right
    rw [List.splitOn_cons_eq_if_modifyHead] at h
    obtain ⟨l, ls, hls⟩ := List.exists_cons_of_ne_nil (List.splitOn_ne_nil '\n' cs)
    rw [hls] at h ih
    -- `c` ends the first line or is put in front of it; the last line is that of `cs` unless there
    -- is only one
    split at h
    · next hc =>
      rw [List.getLast?_cons_cons] at h
      rcases ih h with rfl | hlast
      · rw [eq_of_beq hc]
        rfl
      · rw [List.getLast?_cons, hlast]
        rfl
    · rcases ls with _ | ⟨l', ls⟩
      · simp at h
      · rw [List.modifyHead_cons, List.getLast?_cons_cons] at h
        rcases ih (by rwa [List.getLast?_cons_cons]) with rfl | hlast
        · simp at hls
        · rw [List.getLast?_cons, hlast]
          rfl

/-- The text inside a fence is the text that was written. -/
theorem fenceText_contentLines {content : List Char} (h : content.getLast? ≠ some '\n') :
    fenceText ((contentLines content).map chars) = Utf8.encode content := by
  rw [contentLines]
  split
  · next hnil =>
    rw [hnil]
    rfl
  · next hne =>
    obtain hnil | ⟨front, last, hlines⟩ := (content.splitOn '\n').eq_nil_or_concat
    · exact absurd hnil (List.splitOn_ne_nil '\n' content)
    rw [List.concat_eq_append] at hlines
    have hlast : chars last ≠ [] := by
      intro hnil
      rw [List.map_eq_nil_iff.mp hnil] at hlines
      exact (getLast?_of_splitOn (by simp [hlines])).elim hne h
    have hkept : (((content.splitOn '\n').map chars).reverse.dropWhile List.isEmpty).reverse =
        (content.splitOn '\n').map chars := by
      rw [hlines, List.map_append, List.reverse_append, List.map_singleton, List.reverse_singleton,
        List.singleton_append, List.dropWhile_cons_of_neg (by simpa using hlast)]
      simp
    calc fenceText ((content.splitOn '\n').map chars)
        = Utf8.join ([.char '\n'].intercalate ((content.splitOn '\n').map chars)) := by
          rw [fenceText, hkept]
          rfl
      _ = Utf8.join (chars (['\n'].intercalate (content.splitOn '\n'))) := by
          rw [chars_intercalate]
      _ = Utf8.encode content := by rw [List.intercalate_splitOn, join_chars]

/-! ## The blocks of written parts -/

/-- The block of a fence that starts on a line. -/
def fenceBlock (role : Option Role) (line : Nat) (content : List Char) : Block :=
  .fence (chars (fenceInfo role)) line ((contentLines content).map chars)

/-- The language of a fence is the first word behind the backticks. -/
theorem fenceLanguage_fenceInfo (r : Role) :
    fenceLanguage (chars (fenceInfo (some r))) = Bytes.ofString r.language := by
  rcases r with (_ | _) | (_ | _ | _ | _) <;> decide

/-- Every role has a language of its own. -/
theorem ofLanguage?_language (r : Role) :
    Role.ofLanguage? (Bytes.ofString r.language) = some r := by
  rcases r with (_ | _) | (_ | _ | _ | _) <;> decide

/-- A fence has a language if it has a role. -/
theorem language?_fenceBlock (role : Option Role) (line : Nat) (content : List Char) :
    language? (fenceBlock role line content) = role.map fun r => Bytes.ofString r.language := by
  rcases role with _ | r
  · rfl
  · have hne : (Bytes.ofString r.language).isEmpty = false := by
      rcases r with (_ | _) | (_ | _ | _ | _) <;> decide
    rw [fenceBlock, language?, fenceLanguage_fenceInfo, hne]
    rfl

/-- A fence with a role is found with its line and its text. -/
theorem fence?_fenceBlock_some (r : Role) (line : Nat) (content : List Char) :
    fence? (fenceBlock (some r) line content) =
      some (r, fenceLine line ((contentLines content).map chars),
        fenceText ((contentLines content).map chars)) := by
  rw [fenceBlock, fence?, fenceLanguage_fenceInfo, ofLanguage?_language]
  rfl

/-- A fence without a role is passed over. -/
theorem fence?_fenceBlock_none (line : Nat) (content : List Char) :
    fence? (fenceBlock none line content) = none := by
  have hrole : Role.ofLanguage? (fenceLanguage (chars (fenceInfo none))) = none := by decide
  rw [fenceBlock, fence?, hrole]
  rfl

/-- The blocks that written parts come to. -/
inductive Shows : List Part → List Block → Prop where
  | nil : Shows [] []
  | blank {ps bs} (line : List Char) (h : Shows ps bs) : Shows (.blank line :: ps) bs
  | words {ps bs} (line : List Char) (h : Shows ps bs) : Shows (.words line :: ps) bs
  | fence {ps bs} (role : Option Role) (content : List Char) (line : Nat) (h : Shows ps bs) :
      Shows (.fence role content :: ps) (fenceBlock role line content :: bs)

namespace Shows

variable {ps : List Part} {bs : List Block}

/-- The parts of a case open no test. -/
theorem opens_eq_none (h : Shows ps bs) : ∀ b ∈ bs, opens? b = none := by
  induction h with
  | nil => exact List.forall_mem_nil _
  | blank _ _ ih | words _ _ ih => exact ih
  | fence _ _ _ _ ih => exact List.forall_mem_cons.mpr ⟨rfl, ih⟩

/-- The languages in the parts of a case are known. -/
theorem known (h : Shows ps bs) : Known bs := by
  induction h with
  | nil => exact List.forall_mem_nil _
  | blank _ _ ih | words _ _ ih => exact ih
  | fence role content line _ ih =>
    refine List.forall_mem_cons.mpr ⟨fun l hl => ?_, ih⟩
    rw [language?_fenceBlock] at hl
    obtain ⟨r, -, rfl⟩ := Option.map_eq_some_iff.mp hl
    exact ⟨r, ofLanguage?_language r⟩

/-- Parts without a role come to blocks without a language. -/
theorem language_eq_none (h : Shows ps bs) (hps : ∀ p ∈ ps, p.role? = none) :
    ∀ b ∈ bs, language? b = none := by
  induction h with
  | nil => exact List.forall_mem_nil _
  | blank _ _ ih | words _ _ ih => exact ih (List.forall_mem_cons.mp hps).2
  | fence role content line _ ih =>
    obtain ⟨hrole, hps⟩ := List.forall_mem_cons.mp hps
    refine List.forall_mem_cons.mpr ⟨?_, ih hps⟩
    rw [language?_fenceBlock, show role = none from hrole]
    rfl

/-- What is picked from the blocks is what is picked from the parts, if it is so for every fence. -/
theorem filterMap_eq {α : Type} {f : Block → Option α} {g : Part → Option α} (h : Shows ps bs)
    (hps : ∀ p ∈ ps, p.Readable) (hblank : ∀ line, g (.blank line) = none)
    (hwords : ∀ line, g (.words line) = none)
    (hfence : ∀ role content line, (Part.fence role content).Readable →
      f (fenceBlock role line content) = g (.fence role content)) :
    bs.filterMap f = ps.filterMap g := by
  induction h with
  | nil => rfl
  | blank line _ ih =>
    rw [ih (List.forall_mem_cons.mp hps).2, List.filterMap_cons_none (hblank line)]
  | words line _ ih =>
    rw [ih (List.forall_mem_cons.mp hps).2, List.filterMap_cons_none (hwords line)]
  | fence role content line _ ih =>
    obtain ⟨hp, hps⟩ := List.forall_mem_cons.mp hps
    rw [List.filterMap_cons, List.filterMap_cons, ih hps, hfence role content line hp]

/-- The inputs among the blocks are the inputs that were written. The content comes back as it was,
since it does not end in a line end. -/
theorem inputs (h : Shows ps bs) (hps : ∀ p ∈ ps, p.Readable) :
    (bs.filterMap input?).map (fun i => (i.kind, i.text)) =
      (ps.filterMap Part.input?).map (Prod.map id Utf8.encode) := by
  rw [List.map_filterMap, List.map_filterMap]
  apply h.filterMap_eq hps (fun _ => rfl) (fun _ => rfl)
  intro role content line hp
  rcases role with _ | k | k
  · rw [input?, fence?_fenceBlock_none]
    rfl
  · rw [input?, fence?_fenceBlock_some, fenceText_contentLines (hp.1 (Option.some_ne_none _))]
    rfl
  · rw [input?, fence?_fenceBlock_some]
    rfl

/-- The assertions among the blocks are the assertions that were written, in order. -/
theorem assertions (h : Shows ps bs) (hps : ∀ p ∈ ps, p.Readable) :
    bs.filterMap assertion? = (ps.filterMap Part.assertion?).map (Prod.map id Utf8.encode) := by
  rw [List.map_filterMap]
  apply h.filterMap_eq hps (fun _ => rfl) (fun _ => rfl)
  intro role content line hp
  rcases role with _ | k | k
  · rw [assertion?, fence?_fenceBlock_none]
    rfl
  · rw [assertion?, fence?_fenceBlock_some]
    rfl
  · rw [assertion?, fence?_fenceBlock_some, fenceText_contentLines (hp.1 (Option.some_ne_none _))]
    rfl

end Shows

/-- A written assertion is stated as it should be. A pattern has to be readable. -/
theorem states_assertionOf {a : AssertionKind × List Char}
    (h : a.1 = .tree → ∃ p, Datum.ofText a.2 = .ok p) :
    States (Prod.map id Utf8.encode a) (assertionOf a) := by
  rcases a with ⟨k, text⟩
  by_cases hk : k = .tree
  · subst hk
    obtain ⟨p, hp⟩ := h rfl
    rw [assertionOf, if_pos rfl, hp]
    exact .tree (by rwa [Utf8.decode_encoded])
  · rw [assertionOf, if_neg hk]
    exact .other hk _

/-- The section of a case that has been written gives its test. -/
theorem Case.Writes.gives {c : Case} {ps : List Part} {bs : List Block} (h : c.Writes ps)
    (hbs : Shows ps bs) : ∃ line, Section.Gives ⟨Utf8.encode c.name, bs⟩ (c.toTest line) := by
  have hinputs := hbs.inputs h.readable
  rw [h.inputs] at hinputs
  obtain ⟨⟨k, text, line⟩, hinput, heq⟩ := List.map_eq_singleton_iff.mp hinputs
  obtain ⟨rfl, rfl⟩ := Prod.mk.inj heq
  refine ⟨line, rfl, ⟨[], hinput, List.forall_mem_nil _⟩, ?_, ?_, ?_⟩
  · exact encode_ne_nil c.input_ne_nil
  · rw [hbs.assertions h.readable, h.assertions]
    apply List.forall₂_map_left_iff.mpr
    apply List.forall₂_map_right_iff.mpr
    exact List.forall₂_same.mpr fun a ha => states_assertionOf (c.isDatum a ha)
  · exact fun hnil => c.assertions_ne_nil (List.map_eq_nil_iff.mp hnil)

/-- The blocks that written cases come to. -/
inductive ShowsSections : List (Case × List Part) → List Block → Prop where
  | nil : ShowsSections [] []
  | cons {ps bs ws cs} (c : Case) (h : Shows ps bs) (hws : ShowsSections ws cs) :
      ShowsSections ((c, ps) :: ws) (.heading (chars (testTitle c.name)) :: (bs ++ cs))

/-- The heading of a case is read as its name. -/
theorem testName?_testTitle (name : List Char) :
    testName? (chars (testTitle name)) = some (Utf8.encode name) := by
  have htitle : chars (testTitle name) = Chars.ofString "Test: " ++ chars name :=
    chars_append _ name
  have hstarts : Chars.startsWith (chars (testTitle name)) "Test: " = true := by
    rw [htitle, Chars.startsWith, List.isPrefixOf_iff_prefix]
    exact List.prefix_append ..
  rw [testName?, if_pos hstarts, ← join_chars, htitle]
  rfl

/-- Blocks without headings of tests belong to what comes before. -/
theorem divide_append {bs : List Block} (h : ∀ b ∈ bs, opens? b = none) (cs : List Block) :
    divide (bs ++ cs) = (bs ++ (divide cs).1, (divide cs).2) := by
  induction bs with
  | nil => rfl
  | cons b bs ih =>
    obtain ⟨hb, hbs⟩ := List.forall_mem_cons.mp h
    rw [List.cons_append, divide, hb, ih hbs]
    rfl

namespace ShowsSections

variable {ws : List (Case × List Part)} {bs : List Block}

/-- The languages in written sections are known. -/
theorem known (h : ShowsSections ws bs) : Known bs := by
  induction h with
  | nil => exact List.forall_mem_nil _
  | cons c h _ ih =>
    rw [known_cons_of_none rfl]
    exact List.forall_mem_append.mpr ⟨h.known, ih⟩

/-- Written sections are divided where they were put together, and nothing is left in front. -/
theorem sections_eq (h : ShowsSections ws bs) : (divide bs).1 = [] ∧
    List.Forall₂ (fun w s => s.name = Utf8.encode w.1.name ∧ Shows w.2 s.blocks) ws
      (divide bs).2 := by
  induction h with
  | nil => exact ⟨rfl, .nil⟩
  | @cons ps bs ws cs c h _ ih =>
    obtain ⟨houtside, hsections⟩ := ih
    have hopens : opens? (.heading (chars (testTitle c.name))) = some (Utf8.encode c.name) :=
      testName?_testTitle c.name
    rw [divide, hopens, divide_append h.opens_eq_none, houtside, List.append_nil]
    exact ⟨rfl, .cons ⟨rfl, h⟩ hsections⟩

end ShowsSections

/-- Each section that was written gives its case. -/
theorem exists_tests {ws : List (Case × List Part)} {ss : List Section}
    (hws : ∀ w ∈ ws, w.1.Writes w.2)
    (h : List.Forall₂ (fun w s => s.name = Utf8.encode w.1.name ∧ Shows w.2 s.blocks) ws ss) :
    ∃ ts, List.Forall₂ Section.Gives ss ts ∧
      List.Forall₂ (fun w t => ∃ line, t = w.1.toTest line) ws ts := by
  induction h with
  | nil => exact ⟨[], .nil, .nil⟩
  | @cons w s ws ss hs _ ih =>
    obtain ⟨hw, hws⟩ := List.forall_mem_cons.mp hws
    obtain ⟨ts, hgives, hts⟩ := ih hws
    obtain ⟨name, bs⟩ := s
    obtain ⟨rfl, hshows⟩ := hs
    obtain ⟨line, ht⟩ := hw.gives hshows
    exact ⟨w.1.toTest line :: ts, .cons ht hgives, .cons ⟨line, rfl⟩ hts⟩

/-! ## Written suites are plain documents -/

/-- The languages consist of letters and hyphens. -/
theorem fenceInfo_plain (role : Option Role) :
    (∀ c ∈ fenceInfo role, isWordChar c = true ∨ c = '-') ∧ (fenceInfo role).length ≠ 1 := by
  rcases role with _ | (_ | _) | (_ | _ | _ | _) <;>
    exact ⟨List.forall_iff_forall_mem.mp (by decide), by decide⟩

/-- A line inside a fence holds what the text holds, except for line ends. -/
theorem isLineChar_of_mem_contentLines {content l : List Char}
    (hcontent : ∀ c ∈ content, c = '\n' ∨ IsLineChar c) (hl : l ∈ contentLines content) :
    ∀ c ∈ l, IsLineChar c := by
  rw [contentLines] at hl
  split at hl
  · cases hl
  · intro c hc
    refine (hcontent c (subset_of_mem_splitOn hl hc)).resolve_left ?_
    rintro rfl
    exact notMem_of_mem_splitOn hl hc

/-- The parts of a case are elements of a plain document. -/
theorem Part.Readable.plain {p : Part} (h : p.Readable) : p.element.Plain := by
  cases p with
  | blank line => exact h
  | words line => exact h
  | fence role content =>
    obtain ⟨hinfo, hlen⟩ := fenceInfo_plain role
    exact ⟨hinfo, hlen, fun l hl => ⟨isLineChar_of_mem_contentLines h.2.1 hl, h.2.2 l hl⟩⟩

/-- The heading of a case is a title as plain documents have them. -/
theorem isTitle_testTitle {name : List Char} (h : IsWords name) : IsTitle (testTitle name) where
  mem := by
    have hfront : ∀ c ∈ "Test: ".toList, isWordChar c = true ∨ c = ':' ∨ c = ' ' :=
      List.forall_iff_forall_mem.mp (by decide)
    refine List.forall_mem_append.mpr ⟨hfront, fun c hc => ?_⟩
    exact (h.mem c hc).imp_right .inr
  first := ⟨'T', rfl, by decide⟩
  last := by
    obtain ⟨front, c, rfl, hc⟩ := h.exists_last
    have htitle : testTitle (front ++ [c]) = "Test: ".toList ++ front ++ [c] :=
      (List.append_assoc ..).symm
    exact ⟨c, htitle ▸ List.getLast?_concat .., hc⟩

/-- A suite that is written out is a plain document. -/
theorem suiteElements_plain {front : List Part} {ws : List (Case × List Part)}
    (hfront : ∀ p ∈ front, p.Readable) (hws : ∀ w ∈ ws, w.1.Writes w.2) :
    ∀ e ∈ suiteElements front ws, e.Plain := by
  refine List.forall_mem_append.mpr ⟨?_, fun e he => ?_⟩
  · exact List.forall_mem_map.mpr fun p hp => (hfront p hp).plain
  · obtain ⟨w, hw, he⟩ := List.mem_flatMap.mp he
    rcases List.mem_cons.mp he with rfl | he
    · exact isTitle_testTitle w.1.isWords_name
    · obtain ⟨p, hp, rfl⟩ := List.mem_map.mp he
      exact ((hws w hw).readable p hp).plain

/-- The blocks of parts are those that a parser finds which conforms. -/
theorem shows_of_outlines {ps : List Part} {bs : List Block}
    (h : Outlines (ps.map Part.element) bs) : Shows ps bs := by
  induction ps generalizing bs with
  | nil =>
    cases h
    exact .nil
  | cons p ps ih =>
    cases p with
    | blank line =>
      obtain _ | ⟨_, h⟩ := h
      exact .blank line (ih h)
    | words line =>
      obtain _ | _ | ⟨_, h⟩ := h
      exact .words line (ih h)
    | fence role content =>
      obtain _ | _ | _ | _ | ⟨_, _, line, h⟩ := h
      exact .fence role content line (ih h)

/-- The blocks of sections are those that a parser finds which conforms. The heading tells where a
section starts. -/
theorem showsSections_of_outlines {ws : List (Case × List Part)} {bs : List Block}
    (h : Outlines (ws.flatMap fun w => sectionElements w.1 w.2) bs) : ShowsSections ws bs := by
  induction ws generalizing bs with
  | nil =>
    cases h
    exact .nil
  | cons w ws ih =>
    rw [List.flatMap_cons, sectionElements, List.cons_append] at h
    obtain _ | _ | _ | ⟨_, h⟩ := h
    obtain ⟨bs₁, bs₂, rfl, hparts, hrest⟩ := h.exists_append
    exact .cons w.1 (shows_of_outlines hparts) (ih hrest)

/-- **A suite that is written out is read back**: the same cases, in the same order. Any parser will
do that finds the headings and fences of plain documents. -/
theorem extract_written {parse : Bytes → List Block} (hparse : Conforms parse)
    {front : List Part} {ws : List (Case × List Part)} {d : List Char}
    (hfront : ∀ p ∈ front, p.Readable ∧ p.role? = none) (hws : ∀ w ∈ ws, w.1.Writes w.2)
    (hd : IsText ((suiteElements front ws).flatMap Element.lines) d) :
    ∃ ts, extract parse (Utf8.encode d) = .ok ts ∧
      List.Forall₂ (fun w t => ∃ line, t = w.1.toTest line) ws ts := by
  have houtlines := hparse _ d (suiteElements_plain (fun p hp => (hfront p hp).1) hws) hd
  obtain ⟨bs, cs, hblocks, hbs, hcs⟩ := houtlines.exists_append
  have hbs := shows_of_outlines hbs
  have hcs := showsSections_of_outlines hcs
  -- the blocks up to the first heading stand outside of tests, all others in the sections
  obtain ⟨houtside, hsections⟩ := hcs.sections_eq
  obtain ⟨tests, hgives, htests⟩ := exists_tests hws hsections
  refine ⟨tests, ?_, htests⟩
  rw [extract, hblocks, ofBlocks_iff_foldlM, foldlM_add_iff]
  refine ⟨List.forall_mem_append.mpr ⟨hbs.known, hcs.known⟩, tests, rfl, ?_⟩
  rw [Remaining, divide_append hbs.opens_eq_none, houtside, List.append_nil]
  exact ⟨hbs.language_eq_none fun p hp => (hfront p hp).2, hgives⟩

/-- A case that is about a sum. -/
def sumCase : Case where
  name := "one and 2".toList
  kind := .expression
  input := "1 +\n\t2".toList
  assertions := [(.tree, "(+ 1 2)".toList), (.refusal, []), (.output, "3".toList)]
  isWords_name := .more (w := "one".toList) (by decide) (List.all_eq_true.mp (by decide))
    (.more (w := "and".toList) (by decide) (List.all_eq_true.mp (by decide))
      (.word (by decide) (List.all_eq_true.mp (by decide))))
  input_ne_nil := by decide
  assertions_ne_nil := by decide
  isDatum := by
    have hdatum : (Datum.ofText "(+ 1 2)".toList).toOption.isSome = true := by decide +kernel
    obtain ⟨p, hp⟩ := Option.isSome_iff_exists.mp hdatum
    have hread := toOption_eq_some.mp hp
    simp only [List.forall_mem_cons]
    exact ⟨fun _ => ⟨p, hread⟩, nofun, nofun, List.forall_mem_nil _⟩

/-- The case with its input behind an assertion and a note between them. -/
def sumParts : List Part :=
  [.blank [], .fence (some (.assertion .tree)) "(+ 1 2)".toList, .words "a note".toList,
   .fence none "## Test: no\n".toList, .fence (some (.input .expression)) "1 +\n\t2".toList,
   .fence (some (.assertion .refusal)) [], .blank " \t".toList,
   .fence (some (.assertion .output)) "3".toList]

/-- A document of one section, without a line end at the end. -/
def sumDocument : String :=
  "Sums\n## Test: one and 2\n\n```ast\n(+ 1 2)\n```\na note\n```\n## Test: no\n\n```\n" ++
    "```waddle-expr\n1 +\n\t2\n```\n```compile-error\n```\n \t\n```execute\n3\n```"

/-- The parts write the case: they can be read, and hold its input and its assertions. -/
theorem sumCase_writes : sumCase.Writes sumParts where
  readable := by
    have hfence {role : Option Role} {content : List Char}
        (hlast : role ≠ none → content.getLast? ≠ some '\n')
        (hchars : content.all fun c => c = '\n' ∨ IsLineChar c)
        (hlines : (contentLines content).all fun l => ¬ClosesCode l) :
        (Part.fence role content).Readable :=
      ⟨hlast, by simpa using hchars, by simpa using hlines⟩
    simp only [sumParts, List.forall_mem_cons]
    refine ⟨List.forall_mem_nil _, hfence (by decide) (by decide) (by decide), ?_,
      hfence (by decide) (by decide) (by decide), hfence (by decide) (by decide) (by decide),
      hfence (by decide) (by decide) (by decide), ?_,
      hfence (by decide) (by decide) (by decide), List.forall_mem_nil _⟩
    · exact .more (w := ['a']) (by decide) (List.all_eq_true.mp (by decide))
        (.word (by decide) (List.all_eq_true.mp (by decide)))
    · exact (List.forall_iff_forall_mem.mp (by decide) : ∀ c ∈ " \t".toList, c = ' ' ∨ c = '\t')
  inputs := rfl
  assertions := rfl

/-- The reader of Markdown finds the case, in a document without a line end at the end. -/
theorem extract_written_sum :
    ∃ ts, extract Markdown.blocks (Utf8.encode sumDocument.toList) = .ok ts ∧
      List.Forall₂ (fun w t => ∃ line, t = w.1.toTest line) [(sumCase, sumParts)] ts := by
  have hwords : (Part.words "Sums".toList).Readable :=
    .word (by decide) (List.all_eq_true.mp (by decide))
  have htext : IsText ((suiteElements [.words "Sums".toList] [(sumCase, sumParts)]).flatMap
      Element.lines) sumDocument.toList :=
    .inr ⟨List.dropLast ((suiteElements [.words "Sums".toList] [(sumCase, sumParts)]).flatMap
      Element.lines), ticks, by decide, by decide +kernel, by decide +kernel⟩
  exact extract_written blocks_conforms (List.forall_mem_singleton.mpr ⟨hwords, rfl⟩)
    (List.forall_mem_singleton.mpr sumCase_writes) htext

end Stackling.Suite
