import Stackling.Proofs.Machine.Bare

/-!
# The stack is a bounded list

Whatever is asked of a new stack, one request after another, the answers are those of a list that
holds no more values than the stack has room for (`perform_bounded`). `refusal?` says which
requests are refused and why; it looks at the number of values only, and a refused request changes
nothing. Capacities that are not positive stand for the default.

On bare memory the stack is a row of cells with a count beside it, and a value that is taken off
leaves its cell behind. The row goes through the same requests with the same answers, strays
nowhere, and its cells from the count on are all zero at any time: no value that was dropped can
come up again.
-/

namespace Stackling.Machine

/-- What is asked of a stack. -/
inductive Request where
  | push (v : Value)
  | pop
  | peek
  | get (i : Int)
  | set (i : Int) (v : Value)
  | truncate (n : Int)
  | values
  | count
  | capacity
  deriving DecidableEq, Repr

/-- What a stack answers. -/
inductive Answer where
  | done
  | value (v : Value)
  | values (vs : List Value)
  | number (n : Int)
  | refused (e : StackError)
  deriving DecidableEq, Repr

/-- Meets a request, or refuses it and stays as it is. -/
def Stack.perform (s : Stack) : Request → Answer × Stack
  | .push v => write (s.push v)
  | .pop =>
    match s.pop with
    | .ok (v, s') => (.value v, s')
    | .error e => (.refused e, s)
  | .peek => (read s.peek, s)
  | .get i => (read (s.get i), s)
  | .set i v => write (s.set i v)
  | .truncate n => write (s.truncate n)
  | .values => (.values s.toList, s)
  | .count => (.number s.count, s)
  | .capacity => (.number s.capacity, s)
where
  /-- The answer to a request for a value. -/
  read : Except StackError Value → Answer
    | .ok v => .value v
    | .error e => .refused e
  /-- The answer to a request that changes the stack. -/
  write : Except StackError Stack → Answer × Stack
    | .ok s' => (.done, s')
    | .error e => (.refused e, s)

/-- Meets requests one after another. -/
def Stack.performAll (s : Stack) : List Request → List Answer × Stack
  | [] => ([], s)
  | r :: rs =>
    let rest := (s.perform r).2.performAll rs
    ((s.perform r).1 :: rest.1, rest.2)

/-! ## Bounded lists -/

/-- A list of no more than `capacity` values. -/
structure BoundedList (capacity : Nat) where
  values : List Value
  length_le : values.length ≤ capacity

/-- Why a request to a list of `n` values is refused: there is no room for another, there is none to
take, an index that none of them has, a number of them to leave that is not there. -/
def refusal? (capacity n : Nat) : Request → Option StackError
  | .push _ => if n < capacity then none else some .overflow
  | .pop | .peek => if n = 0 then some .underflow else none
  | .get i | .set i _ => if 0 ≤ i ∧ i < n then none else some (.badSlot i n)
  | .truncate m => if 0 ≤ m ∧ m ≤ n then none else some .underflow
  | .values | .count | .capacity => none

/-- The answer to a request that is not refused. -/
def answer (capacity : Nat) (vs : List Value) : Request → Answer
  | .push _ | .set _ _ | .truncate _ => .done
  | .pop | .peek => .value (vs.getLastD .zero)
  | .get i => .value (vs.getD i.toNat .zero)
  | .values => .values vs
  | .count => .number vs.length
  | .capacity => .number capacity

/-- The list after a request that is not refused. -/
def after (vs : List Value) : Request → List Value
  | .push v => vs ++ [v]
  | .pop => vs.dropLast
  | .set i v => vs.set i.toNat v
  | .truncate n => vs.take n.toNat
  | .peek | .get _ | .values | .count | .capacity => vs

theorem length_after_le {c : Nat} {vs : List Value} {r : Request}
    (h : refusal? c vs.length r = none) (hle : vs.length ≤ c) : (after vs r).length ≤ c := by
  cases r with
  | push v =>
    have hroom : vs.length < c := by simpa [refusal?] using h
    rw [after, List.length_append]
    exact hroom
  | pop | set | truncate =>
    simp only [after, List.length_dropLast, List.length_set, List.length_take]
    omega
  | peek | get | values | count | capacity => exact hle

namespace BoundedList

variable {c : Nat}

/-- The list without values. -/
def nil : BoundedList c := ⟨[], Nat.zero_le c⟩

/-- Meets a request, or refuses it and stays as it is. -/
def perform (l : BoundedList c) (r : Request) : Answer × BoundedList c :=
  match h : refusal? c l.values.length r with
  | some e => (.refused e, l)
  | none => (answer c l.values r, ⟨after l.values r, length_after_le h l.length_le⟩)

/-- Meets requests one after another. -/
def performAll (l : BoundedList c) : List Request → List Answer × BoundedList c
  | [] => ([], l)
  | r :: rs =>
    let rest := (l.perform r).2.performAll rs
    ((l.perform r).1 :: rest.1, rest.2)

theorem perform_of_some {l : BoundedList c} {r : Request} {e : StackError}
    (h : refusal? c l.values.length r = some e) : l.perform r = (.refused e, l) := by
  rw [perform]
  split
  · next e' h' => rw [Option.some.inj (h.symm.trans h')]
  · next h' => cases h.symm.trans h'

theorem perform_of_none {l : BoundedList c} {r : Request}
    (h : refusal? c l.values.length r = none) :
    l.perform r = (answer c l.values r, ⟨after l.values r, length_after_le h l.length_le⟩) := by
  rw [perform]
  split
  · next h' => cases h.symm.trans h'
  · rfl

end BoundedList

/-! ## The stack -/

namespace Stack

variable {s : Stack} {r : Request}

theorem perform_of_some {e : StackError} (h : refusal? s.capacity s.count r = some e) :
    s.perform r = (.refused e, s) := by
  cases r with
  | push v =>
    simp only [refusal?] at h
    split at h
    · cases h
    · cases h
      rw [perform, push_of_le v (by omega)]
      rfl
  | pop | peek =>
    simp only [refusal?] at h
    split at h
    · next h0 =>
      cases h
      have hback : s.values.back? = none := by
        simpa [count] using h0
      simp only [perform, pop, peek, hback, perform.read]
    · cases h
  | get i | set i v =>
    simp only [refusal?] at h
    split at h
    · cases h
    · next hout =>
      cases h
      simp only [perform, get, set, if_neg hout, perform.read, perform.write]
  | truncate n =>
    simp only [refusal?] at h
    split at h
    · cases h
    · next hout =>
      cases h
      simp only [perform, truncate, if_neg hout, perform.write]
  | values | count | capacity => cases h

/-- A stack that is not empty has a value on top. -/
theorem exists_concat (h : s.count ≠ 0) : ∃ vs v, s.toList = vs ++ [v] := by
  rcases s.toList.eq_nil_or_concat with hnil | ⟨vs, v, hlist⟩
  · rw [← length_toList, hnil] at h
    exact absurd rfl h
  · exact ⟨vs, v, by rw [hlist, List.concat_eq_append]⟩

theorem perform_of_none (h : refusal? s.capacity s.count r = none) :
    (s.perform r).1 = answer s.capacity s.toList r ∧
      (s.perform r).2.toList = after s.toList r ∧ (s.perform r).2.capacity = s.capacity := by
  cases r with
  | push v =>
    obtain ⟨s', hpush, hlist, hcap⟩ := push_of_lt v (show s.count < s.capacity by
      simpa [refusal?] using h)
    simp only [perform, hpush, perform.write]
    exact ⟨rfl, hlist, hcap⟩
  | pop =>
    obtain ⟨vs, v, hlist⟩ := exists_concat (show s.count ≠ 0 by simpa [refusal?] using h)
    obtain ⟨s', hpop, hlist', hcap⟩ := pop_of_toList hlist
    simp only [perform, hpop, answer, after, hlist]
    exact ⟨by simp, by simpa using hlist', hcap⟩
  | peek =>
    obtain ⟨vs, v, hlist⟩ := exists_concat (show s.count ≠ 0 by simpa [refusal?] using h)
    rw [perform, peek_of_toList hlist]
    exact ⟨by simp [perform.read, answer, hlist], rfl, rfl⟩
  | get i =>
    have hin : 0 ≤ i ∧ i < s.count := by simpa [refusal?] using h
    obtain ⟨n, rfl⟩ := Int.eq_ofNat_of_zero_le hin.1
    have hlt : n < s.toList.length := by simpa using hin.2
    rw [perform, get_of_getElem? (List.getElem?_eq_getElem hlt)]
    exact ⟨by simp [perform.read, answer, List.getElem?_eq_getElem hlt], rfl, rfl⟩
  | set i v =>
    have hin : 0 ≤ i ∧ i < s.count := by simpa [refusal?] using h
    obtain ⟨n, rfl⟩ := Int.eq_ofNat_of_zero_le hin.1
    obtain ⟨s', hset, hlist, hcap⟩ := set_of_lt (s := s) v (show n < s.toList.length by
      simpa using hin.2)
    simp only [perform, hset, perform.write]
    exact ⟨rfl, hlist, hcap⟩
  | truncate m =>
    have hin : 0 ≤ m ∧ m ≤ s.count := by simpa [refusal?] using h
    obtain ⟨n, rfl⟩ := Int.eq_ofNat_of_zero_le hin.1
    obtain ⟨s', htrunc, hlist, hcap⟩ :=
      truncate_of_toList (s.toList.take_append_drop n).symm
    have hlen : (s.toList.take n).length = n := by
      rw [List.length_take, length_toList]
      omega
    rw [hlen] at htrunc
    simp only [perform, htrunc, perform.write]
    exact ⟨rfl, hlist, hcap⟩
  | values | count | capacity => exact ⟨by simp [perform, answer], rfl, rfl⟩

/-- One request to a stack and to a list with the same values. -/
theorem perform_bounded {c : Nat} {l : BoundedList c} (h : s.toList = l.values)
    (hc : s.capacity = c) (r : Request) :
    (s.perform r).1 = (l.perform r).1 ∧ (s.perform r).2.toList = (l.perform r).2.values ∧
      (s.perform r).2.capacity = c := by
  subst hc
  have hcount : s.count = l.values.length := by rw [← length_toList, h]
  rcases hr : refusal? s.capacity s.count r with _ | e
  · obtain ⟨hanswer, hlist, hcap⟩ := perform_of_none hr
    rw [BoundedList.perform_of_none (hcount ▸ hr), hanswer, hlist, h]
    exact ⟨rfl, rfl, hcap⟩
  · rw [perform_of_some hr, BoundedList.perform_of_some (hcount ▸ hr)]
    exact ⟨rfl, h, rfl⟩

end Stack

/-! ## The row of cells -/

namespace Bare.State

/-- The value in the topmost cell that is in use. -/
def peek (s : State) : Except Stop Value :=
  if s.count = 0 then s.fail (.stack .underflow) else fetch .cells s.cells (s.count - 1)

/-- The values in the cells that are in use. -/
def values (s : State) : Except Stop (List Value) :=
  if 0 ≤ s.count ∧ s.count ≤ s.cells.length then .ok (s.cells.take s.count.toNat)
  else .error (.stray .cells s.count)

/-- A failed check is an answer too; the row is then as the operation left it. -/
def settle : Except Stop (Answer × State) → Except Stop (Answer × State)
  | .error (.fault s (.stack e)) => .ok (.refused e, s)
  | x => x

/-- Meets a request. -/
def perform (s : State) : Request → Except Stop (Answer × State)
  | .push v => settle do return (.done, ← s.push v)
  | .pop => settle do
    let (v, s) ← s.pop
    return (.value v, s)
  | .peek => settle do return (.value (← s.peek), s)
  | .get i => settle do return (.value (← s.get i), s)
  | .set i v => settle do return (.done, ← s.set i v)
  | .truncate n => settle do return (.done, ← s.truncate n)
  | .values => settle do return (.values (← s.values), s)
  | .count => .ok (.number s.count, s)
  | .capacity => .ok (.number s.cells.length, s)

/-- Meets requests one after another. -/
def performAll (s : State) : List Request → Except Stop (List Answer × State)
  | [] => .ok ([], s)
  | r :: rs => do
    let (a, s) ← s.perform r
    let (as, s) ← s.performAll rs
    return (a :: as, s)

/-- A new row of `capacity` cells. -/
def fresh (capacity : Nat) : State where
  pc := 0
  frames := bareFrames []
  cells := List.replicate capacity .zero
  count := 0
  output := #[]

end Bare.State

variable {s : State}

theorem peek_bare : s.bare.peek =
    match s.stack.peek with
    | .ok v => .ok v
    | .error e => .error (.fault s.bare (.stack e)) := by
  rcases s.stack.toList.eq_nil_or_concat with hnil | ⟨vs, v, hlist⟩
  · have hvalues : s.stack.values = #[] := by simpa [Stack.toList] using hnil
    have hcount : s.bare.count = 0 := by simp [State.bare, Stack.count, hvalues]
    rw [Bare.State.peek, if_pos hcount, Stack.peek, hvalues]
    rfl
  · rw [List.concat_eq_append] at hlist
    have hcount : s.stack.count = vs.length + 1 := by rw [← Stack.length_toList, hlist]; simp
    have hindex : s.bare.count - 1 = (vs.length : Int) := by
      simp only [State.bare, hcount]
      omega
    have htop : s.stack.cells[vs.length]? = some v := by
      rw [Stack.cells_of_toList hlist, List.append_assoc]
      simp
    rw [Bare.State.peek, if_neg (by omega), hindex, Stack.peek_of_toList hlist]
    exact fetch_of_getElem? htop

theorem values_bare (hs : s.Fits) : s.bare.values = .ok s.stack.toList := by
  have hlen : s.bare.cells.length = s.stack.capacity := Stack.length_cells hs
  have hcount : s.bare.count.toNat = s.stack.toList.length := by simp
  have hin : 0 ≤ s.bare.count ∧ s.bare.count ≤ s.bare.cells.length := by
    rw [hlen, State.bare_count]
    exact ⟨Int.natCast_nonneg _, Int.ofNat_le.mpr hs⟩
  rw [Bare.State.values, if_pos hin, hcount, State.bare_cells, Stack.cells, List.take_left]

/-- One request to a stack and to its row of cells. -/
theorem perform_bare (hs : s.Fits) (r : Request) : s.bare.perform r =
    .ok ((s.stack.perform r).1, { s with stack := (s.stack.perform r).2 }.bare) := by
  cases r with
  | push v =>
    rw [Bare.State.perform, push_bare hs, Stack.perform]
    rcases s.stack.push v with e | stack <;> rfl
  | pop =>
    rw [Bare.State.perform, pop_bare hs, Stack.perform]
    rcases s.stack.pop with e | ⟨v, stack⟩ <;> rfl
  | peek =>
    rw [Bare.State.perform, peek_bare, Stack.perform]
    rcases s.stack.peek with e | v <;> rfl
  | get i =>
    rw [Bare.State.perform, get_bare, Stack.perform]
    rcases s.stack.get i with e | v <;> rfl
  | set i v =>
    rw [Bare.State.perform, set_bare, Stack.perform]
    rcases s.stack.set i v with e | stack <;> rfl
  | truncate m =>
    by_cases hneg : m < 0
    · rw [Bare.State.perform, Bare.State.truncate, if_pos (.inl hneg), Stack.perform,
        Stack.truncate, if_neg (by omega)]
      rfl
    · obtain ⟨n, rfl⟩ := Int.eq_ofNat_of_zero_le (Int.not_lt.mp hneg)
      rw [Bare.State.perform, truncate_bare hs, Stack.perform]
      rcases s.stack.truncate n with e | stack <;> rfl
  | values =>
    rw [Bare.State.perform, values_bare hs]
    rfl
  | count => rfl
  | capacity =>
    have hlen : s.bare.cells.length = s.stack.capacity := Stack.length_cells hs
    rw [Bare.State.perform, hlen]
    rfl

/-! ## Any number of requests -/

/-- Requests to a stack, to its row of cells and to a list with the same values. -/
theorem performAll_bounded {c : Nat} {l : BoundedList c} (h : s.stack.toList = l.values)
    (hc : s.stack.capacity = c) (rs : List Request) :
    ∃ stack, s.stack.performAll rs = ((l.performAll rs).1, stack) ∧
      s.bare.performAll rs = .ok ((l.performAll rs).1, { s with stack := stack }.bare) ∧
      stack.toList = (l.performAll rs).2.values ∧ stack.capacity = c := by
  induction rs generalizing s l with
  | nil => exact ⟨s.stack, rfl, rfl, h, hc⟩
  | cons r rs ih =>
    have hfits : s.Fits := by
      rw [State.Fits, ← Stack.length_toList, h, hc]
      exact l.length_le
    obtain ⟨hanswer, hlist, hcap⟩ := Stack.perform_bounded h hc r
    obtain ⟨stack, hstack, hrow, hlist', hcap'⟩ :=
      ih (s := { s with stack := (s.stack.perform r).2 }) hlist hcap
    refine ⟨stack, ?_, ?_, hlist', hcap'⟩
    · dsimp only at hstack
      rw [Stack.performAll, hstack, hanswer]
      rfl
    · rw [Bare.State.performAll, perform_bare hfits, ok_bind]
      dsimp only
      rw [hrow, ok_bind, hanswer]
      rfl

/-- A stack and a row of cells that stand for a list. -/
structure Represents {c : Nat} (s : Stack) (b : Bare.State) (l : BoundedList c) : Prop where
  toList : s.toList = l.values
  capacity : s.capacity = c
  length_cells : b.cells.length = c
  count : b.count = l.values.length
  /-- the cells in use hold the values -/
  used : b.cells.take l.values.length = l.values
  /-- all others hold zero -/
  unused : ∀ i, l.values.length ≤ i → i < c → b.cells[i]? = some .zero
  /-- requests are refused exactly where the list refuses them -/
  refuses : ∀ r e, (s.perform r).1 = .refused e ↔ refusal? c l.values.length r = some e
  /-- and then nothing changes -/
  keeps : ∀ r e, refusal? c l.values.length r = some e →
    s.perform r = (.refused e, s) ∧ b.perform r = .ok (.refused e, b)

theorem answer_ne_refused (c : Nat) (vs : List Value) (r : Request) (e : StackError) :
    answer c vs r ≠ .refused e := by
  cases r <;> nofun

/-- A stack and its row of cells stand for the list of its values. -/
theorem represents_bare {c : Nat} {l : BoundedList c} (h : s.stack.toList = l.values)
    (hc : s.stack.capacity = c) : Represents s.stack s.bare l := by
  subst hc
  have hcount : s.stack.count = l.values.length := by rw [← Stack.length_toList, h]
  have hfits : s.Fits := by
    rw [State.Fits, hcount]
    exact l.length_le
  have hcells : s.bare.cells =
      l.values ++ List.replicate (s.stack.capacity - l.values.length) Value.zero :=
    Stack.cells_of_toList h
  have hrefused : ∀ r e, refusal? s.stack.capacity l.values.length r = some e →
      s.stack.perform r = (.refused e, s.stack) := by
    intro r e hr
    rw [← hcount] at hr
    exact Stack.perform_of_some hr
  refine ⟨h, rfl, Stack.length_cells hfits, ?_, ?_, ?_, ?_, ?_⟩
  · rw [State.bare_count, hcount]
  · rw [hcells, List.take_left]
  · intro i hi hlt
    rw [hcells, List.getElem?_append_right hi, List.getElem?_replicate, if_pos (by omega)]
  · intro r e
    refine ⟨fun hanswer => ?_, fun hr => by rw [hrefused r e hr]⟩
    rcases hr : refusal? s.stack.capacity l.values.length r with _ | e'
    · rw [← hcount] at hr
      rw [(Stack.perform_of_none hr).1] at hanswer
      exact absurd hanswer (answer_ne_refused _ _ r e)
    · rw [hrefused r e' hr] at hanswer
      rw [Answer.refused.inj hanswer]
  · intro r e hr
    refine ⟨hrefused r e hr, ?_⟩
    rw [perform_bare hfits, hrefused r e hr]

/-- **The stack is a bounded list**: so it answers any requests from the start, and on bare memory
no cell holds a value that was dropped. -/
theorem performAll_empty (capacity : Int) (rs : List Request) :
    let c := if capacity ≤ 0 then 1024 else capacity.toNat
    let run := (BoundedList.nil : BoundedList c).performAll rs
    ∃ s b, (Stack.empty capacity).performAll rs = (run.1, s) ∧
      (Bare.State.fresh c).performAll rs = .ok (run.1, b) ∧ Represents s b run.2 := by
  intro c run
  obtain ⟨stack, hstack, hrow, hlist, hcap⟩ :=
    performAll_bounded (s := start (.empty capacity)) (l := BoundedList.nil) (c := c) rfl rfl rs
  exact ⟨stack, _, hstack, hrow,
    represents_bare (s := { start (.empty capacity) with stack := stack }) hlist hcap⟩

end Stackling.Machine
