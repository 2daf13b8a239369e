import Mathlib.Data.List.Flatten
import Mathlib.Data.List.Forall2
import Stackling.Batch

/-!
# Batches under every schedule

Which task of a batch moves next is up to a schedule, and nothing here is said about one schedule
in particular. `Move` lists what a single move can do. `Lawful` is what every move keeps: the work
is called off only after a report, and the first report is the error of a source that does not
compile. So a task that finds the work called off always comes too late with its own report, and
what a finished batch answers depends on the schedule in one thing only: which of several failing
sources it names (`answer_settles`).

A task has at most three moves, so a schedule finishes a batch if it lets every task move three
times (`isDone_run`). The schedule of `compileAll` is one of these.
-/

namespace Stackling.Batch

variable {entry : String} {sources : List NamedSource} {s : State} {i : Nat} {t : Task}

/-! ## Moves -/

/-- Task `i`, which is `t`, comes to the phase `p`. -/
abbrev State.put (s : State) (i : Nat) (t : Task) (p : Phase) : State :=
  { s with tasks := s.tasks.set i { t with phase := p } }

/-- What a move of task `i`, which is `t`, can make of a state. -/
inductive Move (entry : String) (s : State) (i : Nat) (t : Task) : State → Prop where
  | begins (hp : t.phase = .waiting) (hc : s.calledOff = false) :
      Move entry s i t (s.put i t .compiling)
  | declines (hp : t.phase = .waiting) (hc : s.calledOff = true) :
      Move entry s i t (s.report i t .cancelled)
  | stores {unit : Compiled} (hp : t.phase = .compiling)
      (hc : compile t.source.text entry = .ok unit) :
      Move entry s i t (s.put i t (.done (some unit)))
  | fails {e : CompileError} (hp : t.phase = .compiling)
      (hc : compile t.source.text entry = .error e) :
      Move entry s i t (s.report i t (.source t.source.name e))
  | callsOff (hp : t.phase = .callingOff) :
      Move entry s i t { s.put i t (.done none) with calledOff := true }
  | rests {r : Option Compiled} (hp : t.phase = .done r) : Move entry s i t s

/-- A step of a schedule is one of the moves of the task. -/
theorem step_moves (entry : String) (ht : s.tasks[i]? = some t) :
    Move entry s i t (s.step entry i) := by
  simp only [State.step, ht]
  rcases hp : t.phase with _ | _ | _ | r
  · by_cases hc : s.calledOff = true
    · rw [if_pos hc]
      exact .declines hp hc
    · rw [if_neg hc]
      exact .begins hp (by simpa using hc)
  · rcases hc : compile t.source.text entry with e | unit
    · exact .fails hp hc
    · exact .stores hp hc
  · exact .callsOff hp
  · exact .rests hp

theorem step_of_none (entry : String) (h : s.tasks[i]? = none) : s.step entry i = s := by
  simp only [State.step, h]

/-- The first error that is reported is kept. -/
theorem report_first {b : BatchError} (h : s.reported = none) :
    s.report i t b = { s.put i t .callingOff with reported := some b } := by
  simp only [State.report, h]

/-- Later errors are dropped. -/
theorem report_late {b : BatchError} (h : s.reported ≠ none) :
    s.report i t b = s.put i t (.done none) := by
  unfold State.report
  split
  · next hnone => exact absurd hnone h
  · rfl

/-! ## What every move keeps -/

/-- The report that a source which does not compile gives rise to: its own error, under its
name. -/
structure FailsAs (entry : String) (src : NamedSource) (e : CompileError) (b : BatchError) :
    Prop where
  fails : compile src.text entry = .error e
  report : b = .source src.name e
  /-- the name stands in front of the message -/
  message : b.report.message = src.name ++ Bytes.ofString ": " ++ e.report.message

/-- A source that does not compile fails with its own error. -/
theorem FailsAs.of_error {src : NamedSource} {e : CompileError}
    (h : compile src.text entry = .error e) : FailsAs entry src e (.source src.name e) :=
  ⟨h, rfl, rfl⟩

/-- A task that has ended holds the result of its source, or something was reported. -/
def Task.Accounted (entry : String) (reported : Option BatchError) (t : Task) : Prop :=
  match t.phase with
  | .waiting | .compiling => True
  | .callingOff | .done none => reported ≠ none
  | .done (some unit) => compile t.source.text entry = .ok unit

/-- A state of a batch as tasks bring it about if nobody else calls the work off. -/
structure Lawful (entry : String) (sources : List NamedSource) (s : State) : Prop where
  /-- each source has its task -/
  order : s.tasks.map (·.source) = sources
  /-- what was reported first is the error of a source -/
  reported : ∀ b, s.reported = some b → ∃ src ∈ sources, ∃ e, FailsAs entry src e b
  /-- the work is called off by a report only -/
  calledOff : s.calledOff = true → s.reported ≠ none
  tasks : ∀ t ∈ s.tasks, t.Accounted entry s.reported

/-- A task stays accounted for when an error is reported. -/
theorem Task.Accounted.of_reported {r : Option BatchError} (h : t.Accounted entry r)
    (b : BatchError) : t.Accounted entry (some b) := by
  unfold Task.Accounted at h ⊢
  split
  · trivial
  · trivial
  · simp
  · simp
  · next hp => simpa [hp] using h

/-- Before any task has moved the invariant holds. -/
theorem lawful_start (entry : String) (sources : List NamedSource) :
    Lawful entry sources (start false sources) where
  order := by simp [start, Function.comp_def]
  reported b h := by cases h
  calledOff h := by cases h
  tasks t ht := by
    obtain ⟨src, -, rfl⟩ := List.mem_map.mp ht
    trivial

namespace Lawful

theorem mem_sources (h : Lawful entry sources s) (ht : s.tasks[i]? = some t) :
    t.source ∈ sources := by
  rw [← h.order]
  exact List.mem_map_of_mem (List.mem_of_getElem? ht)

/-- Moving a task on keeps the sources in their places. -/
theorem order_set (h : Lawful entry sources s) (ht : s.tasks[i]? = some t) (p : Phase) :
    (s.tasks.set i { t with phase := p }).map (·.source) = sources := by
  have hsource : (s.tasks.map (·.source))[i]? = some t.source := by simp [ht]
  obtain ⟨hlt, hget⟩ := List.getElem?_eq_some_iff.mp hsource
  rw [List.map_set, ← h.order, ← hget]
  exact List.set_getElem_self hlt

/-- Moving one task keeps the invariant, if the task is accounted for afterwards. -/
theorem put (h : Lawful entry sources s) (ht : s.tasks[i]? = some t) {p : Phase}
    (hp : Task.Accounted entry s.reported { t with phase := p }) :
    Lawful entry sources (s.put i t p) where
  order := h.order_set ht p
  reported := h.reported
  calledOff := h.calledOff
  tasks t' ht' := by
    rcases List.mem_or_eq_of_mem_set ht' with ht' | rfl
    · exact h.tasks t' ht'
    · exact hp

/-- A report keeps the state lawful; only where it is the first one does it matter what it says. -/
theorem report (h : Lawful entry sources s) (ht : s.tasks[i]? = some t) {b : BatchError}
    (hb : s.reported = none → ∃ src ∈ sources, ∃ e, FailsAs entry src e b) :
    Lawful entry sources (s.report i t b) := by
  by_cases hr : s.reported = none
  · rw [report_first hr]
    refine ⟨h.order_set ht _, ?_, by simp, ?_⟩
    · intro b' hb'
      cases hb'
      exact hb hr
    · intro t' ht'
      rcases List.mem_or_eq_of_mem_set ht' with ht' | rfl
      · exact (h.tasks t' ht').of_reported b
      · simp [Task.Accounted]
  · rw [report_late hr]
    exact h.put ht hr

/-- **One move.** The report of a task that finds the work called off is never the first. -/
theorem move {s' : State} (h : Lawful entry sources s) (ht : s.tasks[i]? = some t)
    (hm : Move entry s i t s') : Lawful entry sources s' := by
  cases hm with
  | begins => exact h.put ht trivial
  | declines _ hc => exact h.report ht fun hr => absurd hr (h.calledOff hc)
  | stores _ hc => exact h.put ht hc
  | fails _ hc => exact h.report ht fun _ => ⟨t.source, h.mem_sources ht, _, .of_error hc⟩
  | callsOff hp =>
    have hr : s.reported ≠ none := by
      have := h.tasks t (List.mem_of_getElem? ht)
      simpa [Task.Accounted, hp] using this
    have hput := h.put ht (p := .done none) hr
    exact ⟨hput.order, hput.reported, fun _ => hr, hput.tasks⟩
  | rests => exact h

/-- **A step keeps the invariant.** It is one move of one task; the others stay as they are. -/
theorem step (h : Lawful entry sources s) (i : Nat) : Lawful entry sources (s.step entry i) := by
  rcases ht : s.tasks[i]? with _ | t
  · rw [step_of_none entry ht]
    exact h
  · exact h.move ht (step_moves entry ht)

/-- **All moves of a schedule.** -/
theorem run (h : Lawful entry sources s) (schedule : List Nat) :
    Lawful entry sources (s.run entry schedule) := by
  induction schedule generalizing s with
  | nil => exact h
  | cons i schedule ih => exact ih (h.step i)

end Lawful

/-! ## What a finished batch answers -/

/-- What a batch answers, whatever the schedule was. -/
structure Settles (entry : String) (sources : List NamedSource)
    (answer : Except BatchError (List (Bytes × Compiled))) : Prop where
  /-- if every source compiles: their results, in order, each with the name of its source -/
  allCompile : (∀ src ∈ sources, ∃ unit, compile src.text entry = .ok unit) →
    ∃ results, answer = .ok results ∧
      List.Forall₂ (fun src r => r.1 = src.name ∧ compile src.text entry = .ok r.2) sources results
  /-- if some source does not: the error of such a source, under its name -/
  someFail : (∃ src ∈ sources, ∃ e, compile src.text entry = .error e) →
    ∃ b, answer = .error b ∧ ∃ src ∈ sources, ∃ e, FailsAs entry src e b
  /-- if exactly one does not, there is no choice -/
  oneFails : ∀ (i : Nat) (src : NamedSource) (e : CompileError), sources[i]? = some src →
    compile src.text entry = .error e →
    (∀ j src', j ≠ i → sources[j]? = some src' → ∃ unit, compile src'.text entry = .ok unit) →
    answer = .error (.source src.name e)

/-- What a task that has ended stored, under the name of its source. -/
def Task.stored? (t : Task) : Option (Bytes × Compiled) :=
  match t.phase with
  | .done (some unit) => some (t.source.name, unit)
  | _ => none

/-- Without a reported error the answer is what the tasks have stored, in the order of the sources.
-/
theorem answer_of_unreported (hr : s.reported = none) :
    s.answer = .ok (s.tasks.filterMap Task.stored?) := by
  cases s
  cases hr
  rfl

/-- What the tasks of a batch that ended without a report have stored. -/
theorem forall₂_stored {tasks : List Task} (hd : ∀ t ∈ tasks, ∃ r, t.phase = .done r)
    (ha : ∀ t ∈ tasks, t.Accounted entry none) :
    List.Forall₂ (fun src r => r.1 = src.name ∧ compile src.text entry = .ok r.2)
      (tasks.map (·.source)) (tasks.filterMap Task.stored?) := by
  induction tasks with
  | nil => exact .nil
  | cons t tasks ih =>
    have ih := ih (fun t' ht' => hd t' (List.mem_cons_of_mem t ht'))
      fun t' ht' => ha t' (List.mem_cons_of_mem t ht')
    have hacc := ha t List.mem_cons_self
    obtain ⟨r, hr⟩ := hd t List.mem_cons_self
    rcases r with _ | unit
    · simp [Task.Accounted, hr] at hacc
    · simp only [Task.Accounted, hr] at hacc
      simp only [List.map_cons, List.filterMap_cons, Task.stored?, hr]
      exact .cons ⟨rfl, hacc⟩ ih

/-- A schedule is done when every task is. -/
theorem isDone_iff : s.isDone = true ↔ ∀ t ∈ s.tasks, ∃ r, t.phase = .done r := by
  rw [State.isDone, List.all_eq_true]
  refine forall₂_congr fun t _ => ?_
  rcases t.phase with _ | _ | _ | r <;> simp

/-- A lawful batch that has ended settles its sources. -/
theorem Lawful.settles (h : Lawful entry sources s) (hd : s.isDone = true) :
    Settles entry sources s.answer := by
  have hd := isDone_iff.mp hd
  have hanswer : (∃ b, s.answer = .error b ∧ ∃ src ∈ sources, ∃ e, FailsAs entry src e b) ∨
      ∃ results, s.answer = .ok results ∧ List.Forall₂
        (fun src r => r.1 = src.name ∧ compile src.text entry = .ok r.2) sources results := by
    rcases hr : s.reported with _ | b
    · have hstored := forall₂_stored hd (hr ▸ h.tasks)
      rw [h.order] at hstored
      exact .inr ⟨_, answer_of_unreported hr, hstored⟩
    · exact .inl ⟨b, by rw [State.answer, hr], h.reported b hr⟩
  have hsome : (∃ src ∈ sources, ∃ e, compile src.text entry = .error e) →
      ∃ b, s.answer = .error b ∧ ∃ src ∈ sources, ∃ e, FailsAs entry src e b := by
    rintro ⟨src, hsrc, e, he⟩
    refine hanswer.resolve_right ?_
    rintro ⟨results, -, hall⟩
    have hok := ((List.forall₂_and_left _ _).mp (hall.imp fun src r h =>
      ⟨(⟨r.2, h.2⟩ : ∃ unit, compile src.text entry = .ok unit), h⟩)).1
    obtain ⟨unit, hunit⟩ := hok src hsrc
    rw [he] at hunit
    cases hunit
  refine ⟨?_, hsome, ?_⟩
  · intro hall
    refine hanswer.resolve_left ?_
    rintro ⟨b, -, src, hsrc, e, hf⟩
    obtain ⟨unit, hunit⟩ := hall src hsrc
    rw [hf.fails] at hunit
    cases hunit
  · intro i src e hi he hothers
    obtain ⟨b, hb, src', hsrc', e', hf⟩ := hsome ⟨src, List.mem_of_getElem? hi, e, he⟩
    obtain ⟨j, hj⟩ := List.getElem?_of_mem hsrc'
    by_cases hij : j = i
    · subst hij
      obtain rfl : src = src' := Option.some.inj (hi.symm.trans hj)
      obtain rfl : e = e' := Except.error.inj (he.symm.trans hf.fails)
      rw [hb, hf.report]
    · obtain ⟨unit, hunit⟩ := hothers j src' hij hj
      rw [hf.fails] at hunit
      cases hunit

/-! ## Schedules that finish -/

/-- The number of moves a task has left, at most. -/
def Phase.left : Phase → Nat
  | waiting => 3
  | compiling => 2
  | callingOff => 1
  | done _ => 0

/-- A move of one task is none of another. -/
theorem Move.getElem?_of_ne {s' : State} {j : Nat} (hm : Move entry s i t s') (h : i ≠ j) :
    s'.tasks[j]? = s.tasks[j]? := by
  cases hm with
  | begins | stores | callsOff => exact List.getElem?_set_ne h
  | declines | fails =>
    unfold State.report
    split <;> exact List.getElem?_set_ne h
  | rests => rfl

/-- Every move of a task takes one from what it has left. -/
theorem Move.left {s' : State} (hm : Move entry s i t s') (ht : s.tasks[i]? = some t) :
    ∃ t', s'.tasks[i]? = some t' ∧ t'.phase.left ≤ t.phase.left - 1 := by
  have hlt : i < s.tasks.length := (List.getElem?_eq_some_iff.mp ht).1
  have hset : ∀ t' : Task, (s.tasks.set i t')[i]? = some t' := fun t' =>
    List.getElem?_set_self hlt
  cases hm with
  | begins hp | stores hp | callsOff hp => exact ⟨_, hset _, by simp [hp, Phase.left]⟩
  | declines hp | fails hp =>
    unfold State.report
    split <;> exact ⟨_, hset _, by simp [hp, Phase.left]⟩
  | rests hp => exact ⟨t, ht, by simp [hp, Phase.left]⟩

/-- A task that a schedule lets move `n` times has `n` moves less. -/
theorem left_run (entry : String) (schedule : List Nat) (ht : s.tasks[i]? = some t) :
    ∃ t', (s.run entry schedule).tasks[i]? = some t' ∧
      t'.phase.left ≤ t.phase.left - schedule.count i := by
  induction schedule generalizing s t with
  | nil => exact ⟨t, ht, by simp⟩
  | cons j schedule ih =>
    by_cases hij : j = i
    · subst hij
      obtain ⟨t₁, ht₁, hle₁⟩ := (step_moves entry ht).left ht
      obtain ⟨t₂, ht₂, hle₂⟩ := ih ht₁
      refine ⟨t₂, ht₂, ?_⟩
      rw [List.count_cons_self]
      omega
    · have hsame : (s.step entry j).tasks[i]? = some t := by
        rcases hj : s.tasks[j]? with _ | t'
        · rw [step_of_none entry hj, ht]
        · rw [(step_moves entry hj).getElem?_of_ne hij, ht]
      obtain ⟨t', ht', hle⟩ := ih hsame
      exact ⟨t', ht', by rwa [List.count_cons_of_ne hij]⟩

/-- **Three moves are enough** for every task, in whatever order. -/
theorem isDone_run {schedule : List Nat} (h : ∀ i < sources.length, 3 ≤ schedule.count i) :
    ((start false sources).run entry schedule).isDone = true := by
  rw [isDone_iff]
  intro t ht
  obtain ⟨i, hi⟩ := List.getElem?_of_mem ht
  have horder := ((lawful_start entry sources).run schedule).order
  have hlt : i < sources.length := by
    rw [← horder, List.length_map]
    exact (List.getElem?_eq_some_iff.mp hi).1
  have hstart : (start false sources).tasks[i]? = some ⟨sources[i], .waiting⟩ := by
    simp [start, hlt]
  obtain ⟨t', ht', hle⟩ := left_run entry schedule hstart
  obtain rfl : t = t' := Option.some.inj (hi.symm.trans ht')
  have hcount := h i hlt
  have hleft : t.phase.left ≤ 3 - schedule.count i := hle
  rcases hp : t.phase with _ | _ | _ | r
  · simp only [hp, Phase.left] at hleft
    omega
  · simp only [hp, Phase.left] at hleft
    omega
  · simp only [hp, Phase.left] at hleft
    omega
  · exact ⟨r, rfl⟩

/-- In the order of the tasks each one gets its three turns. -/
theorem count_inOrder {n : Nat} (h : i < n) : 3 ≤ (inOrder n).count i := by
  have hone : [i].Sublist (List.range n) := List.singleton_sublist.mpr (List.mem_range.mpr h)
  have hmoves : [i, i, i].Sublist (inOrder n) := hone.flatMap fun i => [i, i, i]
  simpa using hmoves.count_le i

/-- **What a batch answers does not depend on the schedule**, up to the choice among failing
sources. However the moves of the tasks are interleaved, once all of them have ended the answer
settles the sources; a schedule ends all of them if it lets each move three times; and the answer
of `compileAll` is one of these. -/
theorem answer_settles (entry : String) (sources : List NamedSource) :
    (∀ schedule, ((start false sources).run entry schedule).isDone = true →
      Settles entry sources ((start false sources).run entry schedule).answer) ∧
    (∀ schedule, (∀ i < sources.length, 3 ≤ schedule.count i) →
      ((start false sources).run entry schedule).isDone = true) ∧
    Settles entry sources (compileAll false sources entry) := by
  have hsettles : ∀ schedule, ((start false sources).run entry schedule).isDone = true →
      Settles entry sources ((start false sources).run entry schedule).answer :=
    fun schedule => ((lawful_start entry sources).run schedule).settles
  have hdone : ∀ schedule, (∀ i < sources.length, 3 ≤ schedule.count i) →
      ((start false sources).run entry schedule).isDone = true :=
    fun _ => isDone_run
  exact ⟨hsettles, hdone, hsettles _ (hdone _ fun i hi => count_inOrder hi)⟩

namespace Sample

/-- A program that does nothing. -/
def idle : Bytes := Bytes.ofString "function main() \x7b\x7d"

/-- A source that compiles, and one that does not, for it has no function to start in. -/
def pair : List NamedSource := [⟨Bytes.ofString "a", idle⟩, ⟨Bytes.ofString "b", []⟩]

theorem idle_tokens : Token.ofText (Utf8.decode idle) = .ok
    [⟨.keyword .function, "function", ⟨1, 1⟩⟩, ⟨.ident, "main", ⟨1, 10⟩⟩,
      ⟨.delimiter .lparen, "(", ⟨1, 14⟩⟩, ⟨.delimiter .rparen, ")", ⟨1, 15⟩⟩,
      ⟨.delimiter .lbrace, "\x7b", ⟨1, 17⟩⟩, ⟨.delimiter .rbrace, "\x7d", ⟨1, 18⟩⟩] := by
  decide +kernel

theorem idle_compiles : ∃ unit, compile idle "" = .ok unit := by
  simp only [compile, idle_tokens, Except.mapError]
  exact ⟨_, by cbv⟩

theorem empty_fails : compile [] "" = .error (.checking ⟨.nowhere, .noEntryPoint⟩) := by
  cbv

end Sample

/-- Of the two sources of `Sample.pair` the second is reported, whether the tasks take turns, the
second comes first and calls the work off, or they run in order. -/
theorem answer_settles_pair :
    let error := BatchError.source (Bytes.ofString "b") (.checking ⟨.nowhere, .noEntryPoint⟩)
    ((start false Sample.pair).run "" [0, 1, 0, 1, 0, 1]).answer = .error error ∧
    ((start false Sample.pair).run "" [1, 1, 1, 0, 0, 0]).answer = .error error ∧
    compileAll false Sample.pair "" = .error error := by
  obtain ⟨hsettles, hdone, hall⟩ := answer_settles "" Sample.pair
  have hothers : ∀ j src, j ≠ 1 → Sample.pair[j]? = some src →
      ∃ unit, compile src.text "" = .ok unit := by
    intro j src hj hsrc
    obtain rfl : j = 0 := by
      have := (List.getElem?_eq_some_iff.mp hsrc).1
      simp only [Sample.pair, List.length_cons, List.length_nil] at this
      omega
    cases hsrc
    exact Sample.idle_compiles
  have hone := fun answer (h : Settles "" Sample.pair answer) =>
    h.oneFails 1 ⟨Bytes.ofString "b", []⟩ _ rfl Sample.empty_fails hothers
  refine ⟨hone _ (hsettles _ (hdone _ ?_)), hone _ (hsettles _ (hdone _ ?_)), hone _ hall⟩
  · decide
  · decide

end Stackling.Batch
