import Mathlib.Data.List.Forall2
import Stackling.Proofs.Except
import Stackling.Suite

/-!
# Which documents are suites

A document is cut in front of every heading that opens a test (`divide`). It is a suite exactly if
no fence before the first such heading has a language, every other language is known, and every
section gives a test (`ofBlocks_eq_ok_iff`). A section gives the test that has its name, its
assertion fences in order, of which there is one at least, and its input fence.

Of input fences there may be several. Each but the last must be empty, because an input that is
empty counts as absent: a section with an empty input fence in front of its input is accepted
(`ofDocument_second_input`).

Reading a block is taken apart once, in `add_cases`. What a whole document comes to follows from it
by induction on the blocks (`foldlM_add_iff`), with a test that has been read in part in the place
of the first section.
-/

namespace Stackling.Suite

open Markdown (Block)

/-! ## Sections -/

/-- The name of the test that a block opens. -/
def opens? : Block → Option Bytes
  | .heading title => testName? title
  | .fence _ _ _ => none

/-- The language of a block that is a fence with a language. -/
def language? : Block → Option Bytes
  | .heading _ => none
  | .fence info _ _ => if (fenceLanguage info).isEmpty then none else some (fenceLanguage info)

/-- Role, line and text of a block that is a fence in a known language. -/
def fence? : Block → Option (Role × Nat × Bytes)
  | .heading _ => none
  | .fence info line content => (Role.ofLanguage? (fenceLanguage info)).map fun r =>
      (r, fenceLine line content, fenceText content)

/-- The input that a block holds. -/
def input? (b : Block) : Option Input :=
  match fence? b with
  | some (.input k, line, text) => some ⟨k, text, line⟩
  | _ => none

/-- Kind and content of the assertion that a block holds. -/
def assertion? (b : Block) : Option (AssertionKind × Bytes) :=
  match fence? b with
  | some (.assertion k, _, text) => some (k, text)
  | _ => none

/-- The part of a document from a heading that opens a test to the next one. -/
structure Section where
  name : Bytes
  /-- the blocks after the heading -/
  blocks : List Block

/-- The blocks before the first test of a document, and its sections. -/
def divide : List Block → List Block × List Section
  | [] => ([], [])
  | b :: bs =>
    match opens? b with
    | some name => ([], ⟨name, (divide bs).1⟩ :: (divide bs).2)
    | none => (b :: (divide bs).1, (divide bs).2)

theorem divide_nil : divide [] = ([], []) := rfl

/-- An assertion that says what a fence holds. -/
inductive States : AssertionKind × Bytes → Assertion → Prop where
  | tree {text : Bytes} {p : Datum} (h : Datum.ofText (Utf8.decode text) = .ok p) :
      States (.tree, text) ⟨.tree, text, some p⟩
  | other {k : AssertionKind} (h : k ≠ .tree) (text : Bytes) : States (k, text) ⟨k, text, none⟩

/-- The test that a section gives. -/
structure Section.Gives (s : Section) (t : TestCase) : Prop where
  name : t.name = s.name
  /-- the input fence is the last one, and all before it are empty -/
  inputs : ∃ blank, s.blocks.filterMap input? = blank ++ [t.input] ∧ ∀ i ∈ blank, i.text = []
  input_ne_nil : t.input.text ≠ []
  assertions : List.Forall₂ States (s.blocks.filterMap assertion?) t.assertions
  assertions_ne_nil : t.assertions ≠ []

/-- Every language is known. -/
def Known (bs : List Block) : Prop :=
  ∀ b ∈ bs, ∀ l, language? b = some l → ∃ r, Role.ofLanguage? l = some r

/-- A document that is a suite with the tests `ts`. -/
structure WellFormed (bs : List Block) (ts : List TestCase) : Prop where
  /-- outside of tests no fence has a language -/
  outside : ∀ b ∈ (divide bs).1, language? b = none
  known : Known bs
  sections : List.Forall₂ Section.Gives (divide bs).2 ts

/-! ## One block -/

/-- What a block can do. It is prose, opens a test, is in an unknown language or is a fence of a
test. -/
theorem add_cases (b : Block) :
    (opens? b = none ∧ language? b = none ∧ fence? b = none ∧ ∀ p : Progress, p.add b = .ok p) ∨
    (∃ name, opens? b = some name ∧ language? b = none ∧
      ∀ p : Progress, p.add b = p.finish.map fun ts => ⟨ts, some ⟨name, none, []⟩⟩) ∨
    (∃ l, opens? b = none ∧ language? b = some l ∧ Role.ofLanguage? l = none ∧
      ∀ p : Progress, ∃ f, p.add b = .error f) ∨
    ∃ l role line text, opens? b = none ∧ language? b = some l ∧ Role.ofLanguage? l = some role ∧
      fence? b = some (role, line, text) ∧
      (∀ ts, ∃ f, Progress.add ⟨ts, none⟩ b = .error f) ∧
      ∀ ts d, Progress.add ⟨ts, some d⟩ b =
        (d.add role line text).map fun d => ⟨ts, some d⟩ := by
  cases b with
  | heading title =>
    cases hname : testName? title with
    | none => exact .inl ⟨hname, rfl, rfl, fun p => by simp only [Progress.add, hname]⟩
    | some name =>
      exact .inr (.inl ⟨name, hname, rfl, fun p => by simp only [Progress.add, hname]⟩)
  | fence info line content =>
    by_cases hempty : (fenceLanguage info).isEmpty = true
    · have hrole : Role.ofLanguage? (fenceLanguage info) = none := by
        rw [List.isEmpty_iff.mp hempty]
        decide
      refine .inl ⟨rfl, if_pos hempty, by rw [fence?, hrole]; rfl, fun p => ?_⟩
      simp only [Progress.add, if_pos hempty]
    · cases hrole : Role.ofLanguage? (fenceLanguage info) with
      | none =>
        refine .inr (.inr (.inl ⟨_, rfl, if_neg hempty, hrole, fun p => ?_⟩))
        rcases p with ⟨ts, _ | d⟩
        all_goals
          simp only [Progress.add, if_neg hempty, hrole]
          exact ⟨_, rfl⟩
      | some role =>
        refine .inr (.inr (.inr ⟨_, role, fenceLine line content, fenceText content, rfl,
          if_neg hempty, hrole, by rw [fence?, hrole]; rfl, fun ts => ?_, fun ts d => ?_⟩))
        · simp only [Progress.add, if_neg hempty]
          exact ⟨_, rfl⟩
        · simp only [Progress.add, if_neg hempty, hrole]

/-! ## A test that is being read -/

/-- The input of a test that has the input `current` so far, if any, and the input fences `is` to
come. There may be none to come once there is an input. -/
def Takes (current : Option Input) (is : List Input) (i : Input) : Prop :=
  match current with
  | some j => is = [] ∧ i = j
  | none => (∃ blank, is = blank ++ [i] ∧ ∀ j ∈ blank, j.text = []) ∧ i.text ≠ []

/-- An empty input counts as absent. -/
theorem takes_cons (j : Input) (is : List Input) (i : Input) :
    Takes none (j :: is) i ↔ Takes (if j.text.isEmpty then none else some j) is i := by
  by_cases hempty : j.text.isEmpty = true
  · have hnil : j.text = [] := List.isEmpty_iff.mp hempty
    rw [if_pos hempty]
    constructor
    · rintro ⟨⟨_ | ⟨j', blank⟩, heq, hall⟩, hne⟩
      · obtain ⟨rfl, -⟩ := List.cons.inj heq
        exact absurd hnil hne
      · exact ⟨⟨blank, (List.cons.inj heq).2, (List.forall_mem_cons.mp hall).2⟩, hne⟩
    · rintro ⟨⟨blank, rfl, hall⟩, hne⟩
      exact ⟨⟨j :: blank, rfl, List.forall_mem_cons.mpr ⟨hnil, hall⟩⟩, hne⟩
  · have hne : j.text ≠ [] := fun hnil => hempty (List.isEmpty_iff.mpr hnil)
    rw [if_neg hempty]
    constructor
    · rintro ⟨⟨_ | ⟨j', blank⟩, heq, hall⟩, -⟩
      · obtain ⟨rfl, rfl⟩ := List.cons.inj heq
        exact ⟨rfl, rfl⟩
      · obtain ⟨rfl, -⟩ := List.cons.inj heq
        exact absurd (hall j List.mem_cons_self) hne
    · rintro ⟨rfl, rfl⟩
      exact ⟨⟨[], rfl, List.forall_mem_nil _⟩, hne⟩

/-- The test that a draft and the blocks after it give. -/
structure Draft.Gives (d : Draft) (bs : List Block) (t : TestCase) : Prop where
  name : t.name = d.name
  inputs : Takes d.input (bs.filterMap input?) t.input
  assertions : ∃ as, t.assertions = d.assertions ++ as ∧
    List.Forall₂ States (bs.filterMap assertion?) as
  assertions_ne_nil : t.assertions ≠ []

theorem gives_start (s : Section) (t : TestCase) :
    Draft.Gives ⟨s.name, none, []⟩ s.blocks t ↔ s.Gives t := by
  constructor
  · rintro ⟨hname, ⟨hinputs, hne⟩, ⟨as, has, hstates⟩, hsome⟩
    exact ⟨hname, hinputs, hne, by rwa [has], hsome⟩
  · rintro ⟨hname, hinputs, hne, hstates, hsome⟩
    exact ⟨hname, ⟨hinputs, hne⟩, ⟨t.assertions, rfl, hstates⟩, hsome⟩

/-- A block that is no fence of a test adds nothing. -/
theorem gives_cons_of_none {b : Block} (hb : fence? b = none) (d : Draft) (bs : List Block)
    (t : TestCase) : d.Gives (b :: bs) t ↔ d.Gives bs t := by
  have hinputs : (b :: bs).filterMap input? = bs.filterMap input? :=
    List.filterMap_cons_none (by simp only [input?, hb])
  have hassertions : (b :: bs).filterMap assertion? = bs.filterMap assertion? :=
    List.filterMap_cons_none (by simp only [assertion?, hb])
  constructor
  · rintro ⟨hname, htakes, hstates, hsome⟩
    exact ⟨hname, hinputs ▸ htakes, hassertions ▸ hstates, hsome⟩
  · rintro ⟨hname, htakes, hstates, hsome⟩
    exact ⟨hname, hinputs ▸ htakes, hassertions ▸ hstates, hsome⟩

theorem finish_eq_ok_iff (d : Draft) (t : TestCase) : d.finish = .ok t ↔ d.Gives [] t := by
  rcases d with ⟨name, _ | i, as⟩
  · constructor
    · intro h
      cases h
    · rintro ⟨-, ⟨⟨blank, hblank, -⟩, -⟩, -⟩
      simp at hblank
  · simp only [Draft.finish]
    constructor
    · intro h
      split at h
      · cases h
      · next hne =>
        cases h
        exact ⟨rfl, ⟨rfl, rfl⟩, ⟨[], (List.append_nil as).symm, .nil⟩, by simpa using hne⟩
    · rintro ⟨hname, ⟨-, hi⟩, ⟨more, has, hstates⟩, hne⟩
      cases hstates
      rw [List.append_nil] at has
      rcases t with ⟨name', i', as'⟩
      subst hname hi has
      rw [if_neg (by simpa using hne)]

theorem add_input_iff (d d' : Draft) (k : InputKind) (line : Nat) (text : Bytes) :
    d.add (.input k) line text = .ok d' ↔ d.input = none ∧
      d' = { d with input := if text.isEmpty then none else some ⟨k, text, line⟩ } := by
  rcases d with ⟨name, _ | i, as⟩
  · exact ⟨fun h => ⟨rfl, (Except.ok.inj h).symm⟩, fun h => congrArg Except.ok h.2.symm⟩
  · exact ⟨nofun, nofun⟩

theorem add_assertion_iff (d d' : Draft) (k : AssertionKind) (line : Nat) (text : Bytes) :
    d.add (.assertion k) line text = .ok d' ↔
      ∃ a, States (k, text) a ∧ d' = { d with assertions := d.assertions ++ [a] } := by
  constructor
  · intro h
    cases k with
    | tree =>
      simp only [Draft.add] at h
      split at h
      · cases h
      · next p hp =>
        cases h
        exact ⟨_, .tree hp, rfl⟩
    | code | output | refusal =>
      cases h
      exact ⟨_, .other (by decide) text, rfl⟩
  · rintro ⟨a, hstates, rfl⟩
    cases hstates with
    | tree hp => simp only [Draft.add, hp]
    | other hk =>
      cases k with
      | tree => exact absurd rfl hk
      | code | output | refusal => rfl

/-- A fence that is added to a draft counts as the first of the blocks after it. -/
theorem add_gives {b : Block} {role : Role} {line : Nat} {text : Bytes}
    (hb : fence? b = some (role, line, text)) (d : Draft) (bs : List Block) (t : TestCase) :
    (∃ d', d.add role line text = .ok d' ∧ d'.Gives bs t) ↔ d.Gives (b :: bs) t := by
  cases role with
  | input k =>
    have hinputs : (b :: bs).filterMap input? = ⟨k, text, line⟩ :: bs.filterMap input? :=
      List.filterMap_cons_some (by simp only [input?, hb])
    have hassertions : (b :: bs).filterMap assertion? = bs.filterMap assertion? :=
      List.filterMap_cons_none (by simp only [assertion?, hb])
    simp only [add_input_iff]
    constructor
    · rintro ⟨_, ⟨hnone, rfl⟩, hname, htakes, hstates, hsome⟩
      refine ⟨hname, ?_, hassertions ▸ hstates, hsome⟩
      rw [hnone, hinputs, takes_cons]
      exact htakes
    · rintro ⟨hname, htakes, hstates, hsome⟩
      rw [hinputs] at htakes
      rw [hassertions] at hstates
      have hnone : d.input = none := by
        rcases hinput : d.input with _ | i
        · rfl
        · rw [hinput] at htakes
          cases htakes.1
      rw [hnone, takes_cons] at htakes
      exact ⟨_, ⟨hnone, rfl⟩, hname, htakes, hstates, hsome⟩
  | assertion k =>
    have hinputs : (b :: bs).filterMap input? = bs.filterMap input? :=
      List.filterMap_cons_none (by simp only [input?, hb])
    have hassertions : (b :: bs).filterMap assertion? = (k, text) :: bs.filterMap assertion? :=
      List.filterMap_cons_some (by simp only [assertion?, hb])
    simp only [add_assertion_iff]
    constructor
    · rintro ⟨_, ⟨a, ha, rfl⟩, hname, htakes, ⟨as, has, hstates⟩, hsome⟩
      refine ⟨hname, hinputs ▸ htakes, ⟨a :: as, by simpa using has, ?_⟩, hsome⟩
      rw [hassertions]
      exact .cons ha hstates
    · rintro ⟨hname, htakes, ⟨as, has, hstates⟩, hsome⟩
      rw [hinputs] at htakes
      rw [hassertions] at hstates
      cases hstates with
      | cons ha hstates =>
        exact ⟨_, ⟨_, ha, rfl⟩, hname, htakes, ⟨_, by simpa using has, hstates⟩, hsome⟩

/-! ## Whole documents -/

/-- The tests that are still to come: the one that is being read and those of the sections. -/
def Remaining (current : Option Draft) (bs : List Block) (ts : List TestCase) : Prop :=
  match current with
  | none => (∀ b ∈ (divide bs).1, language? b = none) ∧ List.Forall₂ Section.Gives (divide bs).2 ts
  | some d => ∃ t us, ts = t :: us ∧ d.Gives (divide bs).1 t ∧
      List.Forall₂ Section.Gives (divide bs).2 us

theorem known_cons_of_none {b : Block} (hb : language? b = none) (bs : List Block) :
    Known (b :: bs) ↔ Known bs := by
  rw [Known, List.forall_mem_cons]
  exact and_iff_right fun l hl => by simp [hb] at hl

theorem finish_iff (p : Progress) (ts : List TestCase) :
    p.finish = .ok ts ↔ ∃ us, ts = p.finished ++ us ∧ Remaining p.current [] us := by
  rcases p with ⟨done, _ | d⟩
  · simp [Progress.finish, Remaining, divide_nil, eq_comm]
  · simp only [Progress.finish, map_eq_ok, finish_eq_ok_iff, Remaining, divide_nil]
    constructor
    · rintro ⟨t, ht, rfl⟩
      exact ⟨[t], rfl, t, [], rfl, ht, .nil⟩
    · rintro ⟨_, rfl, t, _, rfl, ht, ⟨⟩⟩
      exact ⟨t, ht, rfl⟩

/-- A test heading finishes the test before it and opens the next. -/
theorem remaining_cons_of_opens {b : Block} {name : Bytes} (hb : opens? b = some name)
    (current : Option Draft) (bs : List Block) (ts : List TestCase) :
    Remaining current (b :: bs) ts ↔ ∃ us vs, ts = us ++ vs ∧ Remaining current [] us ∧
      Remaining (some ⟨name, none, []⟩) bs vs := by
  have hdivide : divide (b :: bs) = ([], ⟨name, (divide bs).1⟩ :: (divide bs).2) := by
    simp only [divide, hb]
  have hstart (t : TestCase) := gives_start ⟨name, (divide bs).1⟩ t
  cases current with
  | none =>
    simp only [Remaining, hdivide, divide_nil, hstart]
    constructor
    · rintro ⟨-, _ | ⟨ht, hus⟩⟩
      exact ⟨[], _, rfl, ⟨List.forall_mem_nil _, .nil⟩, _, _, rfl, ht, hus⟩
    · rintro ⟨_, _, rfl, ⟨-, ⟨⟩⟩, t, us, rfl, ht, hus⟩
      exact ⟨List.forall_mem_nil _, .cons ht hus⟩
  | some d =>
    simp only [Remaining, hdivide, divide_nil, hstart]
    constructor
    · rintro ⟨t, _, rfl, ht, _ | ⟨ht', hus⟩⟩
      exact ⟨[t], _, rfl, ⟨t, [], rfl, ht, .nil⟩, _, _, rfl, ht', hus⟩
    · rintro ⟨_, _, rfl, ⟨t, _, rfl, ht, ⟨⟩⟩, t', us, rfl, ht', hus⟩
      exact ⟨t, _, rfl, ht, .cons ht' hus⟩

/-- Prose changes nothing. -/
theorem remaining_cons_of_prose {b : Block} (hopen : opens? b = none) (hl : language? b = none)
    (hf : fence? b = none) (current : Option Draft) (bs : List Block) (ts : List TestCase) :
    Remaining current (b :: bs) ts ↔ Remaining current bs ts := by
  have hdivide : divide (b :: bs) = (b :: (divide bs).1, (divide bs).2) := by
    simp only [divide, hopen]
  cases current with
  | none => simp only [Remaining, hdivide, List.forall_mem_cons, hl, true_and]
  | some d => simp only [Remaining, hdivide, gives_cons_of_none hf]

/-- **What reading comes to**, from any point of a document on. -/
theorem foldlM_add_iff (p : Progress) (bs : List Block) (ts : List TestCase) :
    (bs.foldlM Progress.add p >>= Progress.finish) = .ok ts ↔
      Known bs ∧ ∃ us, ts = p.finished ++ us ∧ Remaining p.current bs us := by
  induction bs generalizing p with
  | nil =>
    rw [List.foldlM_nil, pure_bind, finish_iff]
    exact (and_iff_right (List.forall_mem_nil _)).symm
  | cons b bs ih =>
    rw [List.foldlM_cons, bind_assoc]
    obtain ⟨hopen, hl, hf, hadd⟩ | ⟨name, hopen, hl, hadd⟩ | ⟨l, hopen, hl, hrole, hadd⟩ |
      ⟨l, role, line, text, hopen, hl, hrole, hf, hnone, hsome⟩ := add_cases b
    -- prose
    · rw [hadd, ok_bind, ih, known_cons_of_none hl]
      simp only [remaining_cons_of_prose hopen hl hf]
    -- a heading: the tests are those up to here, then those of the rest
    · rw [hadd, bind_eq_ok, known_cons_of_none hl]
      simp only [ih, map_eq_ok, finish_iff, remaining_cons_of_opens hopen]
      constructor
      · rintro ⟨_, ⟨_, ⟨us, rfl, hus⟩, rfl⟩, hknown, vs, rfl, hvs⟩
        exact ⟨hknown, us ++ vs, List.append_assoc .., us, vs, rfl, hus, hvs⟩
      · rintro ⟨hknown, _, rfl, us, vs, rfl, hus, hvs⟩
        exact ⟨_, ⟨_, ⟨us, rfl, hus⟩, rfl⟩, hknown, vs, (List.append_assoc ..).symm, hvs⟩
    -- an unknown language
    · obtain ⟨f, hf⟩ := hadd p
      rw [hf]
      constructor
      · nofun
      · rintro ⟨hknown, -⟩
        obtain ⟨r, hr⟩ := hknown b List.mem_cons_self l hl
        rw [hrole] at hr
        cases hr
    -- a fence of the test that is being read, if there is one
    · have hknown : Known (b :: bs) ↔ Known bs := by
        rw [Known, List.forall_mem_cons]
        refine and_iff_right fun l' hl' => ⟨role, ?_⟩
        rw [hl] at hl'
        rwa [← Option.some.inj hl']
      have hdivide : divide (b :: bs) = (b :: (divide bs).1, (divide bs).2) := by
        simp only [divide, hopen]
      rcases p with ⟨done, _ | d⟩
      · obtain ⟨f, hf⟩ := hnone done
        rw [hf]
        constructor
        · nofun
        · rintro ⟨-, us, -, houtside, -⟩
          rw [hdivide] at houtside
          have := (List.forall_mem_cons.mp houtside).1
          rw [hl] at this
          cases this
      · rw [hsome, bind_eq_ok, hknown]
        simp only [ih, map_eq_ok, Remaining, hdivide, ← add_gives hf]
        constructor
        · rintro ⟨_, ⟨d', hd', rfl⟩, hknown, _, rfl, t, vs, rfl, ht, hvs⟩
          exact ⟨hknown, _, rfl, t, vs, rfl, ⟨d', hd', ht⟩, hvs⟩
        · rintro ⟨hknown, _, rfl, t, vs, rfl, ⟨d', hd', ht⟩, hvs⟩
          exact ⟨_, ⟨d', hd', rfl⟩, hknown, _, rfl, t, vs, rfl, ht, hvs⟩

theorem ofBlocks_iff_foldlM (bs : List Block) (ts : List TestCase) : ofBlocks bs = .ok ts ↔
    (bs.foldlM Progress.add ⟨[], none⟩ >>= Progress.finish) = .ok ts := by
  rw [ofBlocks]
  split
  · next f hf =>
    rw [hf]
    exact ⟨nofun, nofun⟩
  · next p hp => rw [hp, mapError_eq_ok, ok_bind]

/-- **Which documents are suites**, and with which tests. -/
theorem ofBlocks_eq_ok_iff (bs : List Block) (ts : List TestCase) :
    ofBlocks bs = .ok ts ↔ WellFormed bs ts := by
  rw [ofBlocks_iff_foldlM, foldlM_add_iff]
  constructor
  · rintro ⟨hknown, _, rfl, houtside, hsections⟩
    exact ⟨houtside, hknown, hsections⟩
  · rintro ⟨houtside, hknown, hsections⟩
    exact ⟨hknown, ts, rfl, houtside, hsections⟩

/-- A section with an empty input fence in front of its input. -/
def doubled : Bytes :=
  Bytes.ofString
    "## Test: a\n```waddle-expr\n```\n```waddle-expr\n1\n```\n```execute\n1\n```\n"

/-- It is read as a test, though it has two input fences. -/
theorem ofDocument_second_input :
    (∃ t, ofDocument doubled = .ok [t]) ∧
      (divide (Markdown.blocks doubled)).2.map (fun s => (s.blocks.filterMap input?).length) =
        [2] := by
  have hone : (ofDocument doubled).toOption.map List.length = some 1 := by decide +kernel
  obtain ⟨ts, hts, hlength⟩ := map_toOption_eq_some.mp hone
  obtain ⟨t, rfl⟩ := List.length_eq_one_iff.mp hlength
  exact ⟨⟨t, hts⟩, by decide +kernel⟩

end Stackling.Suite
