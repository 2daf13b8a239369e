import Stackling.Proofs.Machine

/-!
# The cells an instruction touches

`Accesses s i c` says that the instruction `i` reads, writes or pops the cell number `c` of the
stack when it is executed in `s`. That no access is left out is `execute_rebase`: an instruction
that accesses no cell below some height does the same whatever stands there, and it stays there
(`prefix_of_execute`). This holds of all code, also of code that no compiler would emit.
-/

namespace Stackling.Machine

open Code

/-- The instruction reads, writes or pops the cell with index `c`, counted from the bottom. A
negative index is a cell that it misses. The cell that a push fills is none of the stack's yet. -/
def Accesses (s : State) (i : Instruction) (c : Int) : Prop :=
  match i.op? with
  | none | some .pushInt | some .pushStr | some .branch | some .call => False
  | some .loadLocal => c = s.base + i.arg.toInt
  | some .storeLocal => c = s.stack.count - 1 ∨ c = s.base + i.arg.toInt
  | some .pop | some .branchZero => c = s.stack.count - 1
  -- the frame is cut off, and a result is taken first
  | some .ret => s.frames ≠ [] ∧
      (s.base ≤ c ∧ c < s.stack.count ∨ i.arg ≠ 0 ∧ c = s.stack.count - 1)
  | some .print => s.stack.count - i.arg.toInt ≤ c ∧ c < s.stack.count
  | some _ => c = s.stack.count - 1 ∨ c = s.stack.count - 2

/-! ## Other values at the bottom -/

/-- The stack with the values `ws` in place of as many at its bottom. -/
def Stack.rebase (ws : List Value) (s : Stack) : Stack :=
  { s with values := (ws ++ s.toList.drop ws.length).toArray }

/-- The state with the values `ws` in place of as many at the bottom of its stack. -/
def State.rebase (ws : List Value) (s : State) : State := { s with stack := s.stack.rebase ws }

/-- The same with an outcome's state. -/
def Outcome.rebase (ws : List Value) : Outcome → Outcome
  | .next s => .next (s.rebase ws)
  | .halt s => .halt (s.rebase ws)
  | .fault s cause => .fault (s.rebase ws) cause

namespace Stack

variable {s : Stack} {ws : List Value}

/-- A stack that is high enough, in two parts: what `rebase` replaces, and what it keeps. -/
theorem exists_split (h : ws.length ≤ s.count) : ∃ below vs : List Value,
    below.length = ws.length ∧ s = ⟨(below ++ vs).toArray, s.capacity⟩ := by
  refine ⟨s.toList.take ws.length, s.toList.drop ws.length, ?_, ?_⟩
  · rw [List.length_take, length_toList, Nat.min_eq_left h]
  · rw [List.take_append_drop]
    rfl

/-- Rebasing exchanges the lowest values and keeps the others. -/
theorem rebase_mk {below vs : List Value} {n : Nat} (h : below.length = ws.length) :
    rebase ws ⟨(below ++ vs).toArray, n⟩ = ⟨(ws ++ vs).toArray, n⟩ := by
  simp [rebase, toList, ← h]

/-- There are as many values as before. -/
theorem count_rebase (h : ws.length ≤ s.count) : (s.rebase ws).count = s.count := by
  obtain ⟨below, vs, hlen, hs⟩ := exists_split h
  rw [hs, rebase_mk hlen]
  simp [count, hlen]

/-- Pushing is above. -/
theorem push_rebase (h : ws.length ≤ s.count) (v : Value) :
    (s.rebase ws).push v = (s.push v).map (rebase ws) := by
  obtain ⟨below, vs, hlen, hs⟩ := exists_split h
  rw [hs, rebase_mk hlen]
  simp only [push, count, List.size_toArray, List.length_append, hlen]
  split
  · simp only [List.push_toArray, List.append_assoc, Except.map, rebase_mk hlen]
  · rfl

/-- Popping a value that is above. -/
theorem pop_rebase (h : ws.length < s.count) :
    (s.rebase ws).pop = s.pop.map fun r => (r.1, r.2.rebase ws) := by
  obtain ⟨below, vs, hlen, hs⟩ := exists_split (Nat.le_of_lt h)
  rw [hs] at h ⊢
  rw [rebase_mk hlen]
  rcases vs.eq_nil_or_concat with rfl | ⟨us, v, rfl⟩
  · simp [count, hlen] at h
  · simp [pop, Except.map, rebase_mk hlen]

/-- Reading a cell that is above. -/
theorem get_rebase (h : ws.length ≤ s.count) {i : Int} (hi : ws.length ≤ i) :
    (s.rebase ws).get i = s.get i := by
  obtain ⟨below, vs, hlen, hs⟩ := exists_split h
  obtain ⟨k, rfl⟩ : ∃ k : Nat, i = ((ws.length + k : Nat) : Int) :=
    ⟨(i - ws.length).toNat, by omega⟩
  rw [hs, rebase_mk hlen]
  simp only [get, count, List.size_toArray, List.length_append, Int.toNat_natCast,
    Array.getD_eq_getD_getElem?, List.getElem?_toArray, List.getElem?_append_right, hlen,
    Nat.le_add_right, Nat.add_sub_cancel_left]

/-- Writing a cell that is above. -/
theorem set_rebase (h : ws.length ≤ s.count) {i : Int} (hi : ws.length ≤ i) (v : Value) :
    (s.rebase ws).set i v = (s.set i v).map (rebase ws) := by
  obtain ⟨below, vs, hlen, hs⟩ := exists_split h
  obtain ⟨k, rfl⟩ : ∃ k : Nat, i = ((ws.length + k : Nat) : Int) :=
    ⟨(i - ws.length).toNat, by omega⟩
  rw [hs, rebase_mk hlen]
  simp only [set, count, List.size_toArray, List.length_append, hlen]
  split
  · simp only [Int.toNat_natCast, List.setIfInBounds_toArray, List.set_append_right,
      Nat.le_add_right, Nat.add_sub_cancel_left, Except.map, hlen, rebase_mk hlen]
  · rfl

/-- Truncating to a height that is above. -/
theorem truncate_rebase (h : ws.length ≤ s.count) {n : Int} (hn : ws.length ≤ n) :
    (s.rebase ws).truncate n = (s.truncate n).map (rebase ws) := by
  obtain ⟨below, vs, hlen, hs⟩ := exists_split h
  obtain ⟨k, rfl⟩ : ∃ k : Nat, n = ((ws.length + k : Nat) : Int) :=
    ⟨(n - ws.length).toNat, by omega⟩
  rw [hs, rebase_mk hlen]
  simp only [truncate, count, List.size_toArray, List.length_append, hlen]
  split
  · have hcut : (below ++ vs).take (ws.length + k) = below ++ vs.take k := by
      rw [← hlen, List.take_length_add_append]
    simp only [Int.toNat_natCast, Array.shrink_eq_take, Array.take_eq_extract, List.extract_toArray,
      List.extract_eq_take_drop, Nat.sub_zero, List.drop_zero, List.take_length_add_append, hcut,
      Except.map, rebase_mk hlen]
  · rfl

theorem takeTop_mk (us line : List Value) (n : Nat) :
    takeTop ⟨(us ++ line).toArray, n⟩ line.length = (line, ⟨us.toArray, n⟩) := by
  simp [takeTop, count]

/-- Taking values that are above. -/
theorem takeTop_rebase {n : Nat} (h : ws.length + n ≤ s.count) :
    (s.rebase ws).takeTop n = ((s.takeTop n).1, (s.takeTop n).2.rebase ws) := by
  obtain ⟨below, vs, hlen, hs⟩ := exists_split (Nat.le_trans (Nat.le_add_right _ n) h)
  rw [hs] at h ⊢
  obtain ⟨us, line, rfl, rfl⟩ : ∃ us line, vs = us ++ line ∧ line.length = n := by
    refine ⟨vs.take (vs.length - n), vs.drop (vs.length - n), ?_, ?_⟩
    · rw [List.take_append_drop]
    · simp only [count, List.size_toArray, List.length_append, hlen] at h
      rw [List.length_drop]
      omega
  rw [rebase_mk hlen, ← List.append_assoc, ← List.append_assoc, takeTop_mk, takeTop_mk,
    rebase_mk hlen]

theorem count_of_pop {v : Value} {s' : Stack} (h : s.pop = .ok (v, s')) :
    s'.count + 1 = s.count := by
  rw [pop] at h
  split at h
  · cases h
  · rename_i v' hback
    cases h
    have hpos : 0 < s.values.size := by
      rcases hsize : s.values.size with _ | n
      · simp [Array.size_eq_zero_iff.mp hsize] at hback
      · omega
    simp only [count, Array.size_pop]
    omega

theorem count_of_truncate {n : Nat} {s' : Stack} (h : s.truncate n = .ok s') : s'.count = n := by
  rw [truncate] at h
  split at h
  · cases h
    simp only [count] at *
    simp
    omega
  · cases h

end Stack

section Execute

variable {task : Task} {s : State} {ws : List Value}

/-- Pushing and going on. -/
theorem pushThen_rebase (h : ws.length ≤ s.stack.count) (next : Nat) (v : Value) :
    pushThen (s.rebase ws) next v = (pushThen s next v).rebase ws := by
  simp only [pushThen, State.rebase, Stack.push_rebase h]
  rcases s.stack.push v with e | stack <;> rfl

/-- Popping an integer that is above, or failing at a value that is no integer. -/
theorem popInt_rebase (h : ws.length < s.stack.count) : popInt (s.rebase ws) =
    match popInt s with
    | .error (s', cause) => .error (s'.rebase ws, cause)
    | .ok (i, s') => .ok (i, s'.rebase ws) := by
  simp only [popInt, State.rebase, Stack.pop_rebase h]
  rcases s.stack.pop with e | ⟨v, stack⟩
  · rfl
  · cases v <;> rfl

theorem count_of_popInt {i : Int32} {s' : State} (h : popInt s = .ok (i, s')) :
    s'.stack.count + 1 = s.stack.count := by
  rw [popInt] at h
  rcases hpop : s.stack.pop with e | ⟨v, stack⟩ <;> rw [hpop] at h
  · cases h
  · cases v <;> cases h
    exact Stack.count_of_pop hpop

/-- An operation whose two operands are above. -/
theorem binaryStep_rebase (h : ws.length + 2 ≤ s.stack.count) (op : Opcode) :
    binaryStep (s.rebase ws) op = (binaryStep s op).rebase ws := by
  simp only [binaryStep, popInt_rebase (show ws.length < s.stack.count by omega)]
  rcases hpop : popInt s with ⟨s', cause⟩ | ⟨right, s₁⟩
  · rfl
  have hcount := count_of_popInt hpop
  simp only [popInt_rebase (show ws.length < s₁.stack.count by omega)]
  rcases hpop₁ : popInt s₁ with ⟨s', cause⟩ | ⟨left, s₂⟩
  · rfl
  have hcount₁ := count_of_popInt hpop₁
  dsimp only
  split
  · rfl
  · exact pushThen_rebase (by omega) _ _

/-- Storing a value that is above into a slot that is. -/
theorem storeStep_rebase {arg : Int32} (h : ws.length < s.stack.count)
    (hslot : (ws.length : Int) ≤ baseOf s.frames + arg.toInt) :
    storeStep (s.rebase ws) arg = (storeStep s arg).rebase ws := by
  simp only [storeStep, State.rebase, Stack.pop_rebase h]
  rcases hpop : s.stack.pop with e | ⟨v, stack⟩
  · rfl
  have hcount := Stack.count_of_pop hpop
  simp only [Except.map, Stack.set_rebase (show ws.length ≤ stack.count by omega) hslot]
  rcases stack.set (baseOf s.frames + arg.toInt) v with e | stack' <;> rfl

/-- A call accesses no cell. It only counts them. -/
theorem callStep_rebase (h : ws.length ≤ s.stack.count) (arg : Int32) :
    callStep task (s.rebase ws) arg = (callStep task s arg).rebase ws := by
  have hcount : (s.rebase ws).stack.count = s.stack.count := Stack.count_rebase h
  have hbase : (s.rebase ws).base = s.base := rfl
  simp only [callStep, hcount, hbase]
  rcases argument? task.functions arg with _ | f
  · rfl
  dsimp only
  split
  · rfl
  · split <;> rfl

/-- A return to a base that is above, with a result that is. -/
theorem returnStep_rebase {arg : Int32} (h : ws.length ≤ s.stack.count)
    (hbase : s.frames ≠ [] → ws.length ≤ s.base)
    (harg : s.frames ≠ [] → arg ≠ 0 → ws.length < s.stack.count) :
    returnStep (s.rebase ws) arg = (returnStep s arg).rebase ws := by
  obtain ⟨pc, _ | ⟨frame, outer⟩, stack, output⟩ := s
  · rfl
  have hcut : (ws.length : Int) ≤ frame.base := Int.ofNat_le.mpr (hbase (List.cons_ne_nil _ _))
  by_cases hzero : arg = 0
  · simp only [returnStep, State.rebase, if_pos hzero, Stack.truncate_rebase h hcut]
    rcases stack.truncate frame.base with e | stack₁ <;> rfl
  · have hpos : ws.length < stack.count := harg (List.cons_ne_nil _ _) hzero
    simp only [returnStep, State.rebase, if_neg hzero, Stack.pop_rebase hpos]
    rcases hpop : stack.pop with e | ⟨v, stack₁⟩
    · rfl
    have hcount := Stack.count_of_pop hpop
    have hle₁ : ws.length ≤ stack₁.count := by omega
    simp only [Except.map, Stack.truncate_rebase hle₁ hcut]
    rcases htrunc : stack₁.truncate frame.base with e | stack₂
    · rfl
    have hle₂ : ws.length ≤ stack₂.count := by
      have := Stack.count_of_truncate htrunc
      omega
    simp only [Stack.push_rebase hle₂]
    rcases stack₂.push v with e | stack₃ <;> rfl

/-- Printing values that are above. -/
theorem printStep_rebase {arg : Int32} (h : ws.length ≤ s.stack.count)
    (harg : (ws.length : Int) + arg.toInt ≤ s.stack.count) :
    printStep (s.rebase ws) arg = (printStep s arg).rebase ws := by
  simp only [printStep, State.rebase, Stack.count_rebase h]
  split
  · rfl
  · rw [Stack.takeTop_rebase (by omega)]
    rfl

/-- **An instruction does not depend on cells that it does not access**, and leaves them alone. -/
theorem execute_rebase {i : Instruction} (h : ws.length ≤ s.stack.count)
    (hi : ∀ c, Accesses s i c → (ws.length : Int) ≤ c) :
    execute task (s.rebase ws) i = (execute task s i).rebase ws := by
  rcases hop : i.op? with _ | op
  · simp only [execute, hop]
    rfl
  simp only [Accesses, hop] at hi
  cases op with
  | pushInt =>
    simp only [execute, hop]
    exact pushThen_rebase h _ _
  | pushStr =>
    simp only [execute, hop]
    rcases argument? task.strings i.arg with _ | t
    · rfl
    · exact pushThen_rebase h _ _
  | loadLocal =>
    have hget : (s.rebase ws).stack.get ((s.rebase ws).base + i.arg.toInt) =
        s.stack.get (s.base + i.arg.toInt) := Stack.get_rebase h (hi _ rfl)
    simp only [execute, hop, hget]
    rcases s.stack.get (s.base + i.arg.toInt) with e | v
    · rfl
    · exact pushThen_rebase h _ _
  | storeLocal =>
    have htop := hi _ (.inl rfl)
    simp only [execute, hop]
    exact storeStep_rebase (by omega) (hi _ (.inr rfl))
  | pop =>
    have htop := hi _ rfl
    have hpop : (s.rebase ws).stack.pop = _ := Stack.pop_rebase (by omega)
    simp only [execute, hop, hpop]
    rcases s.stack.pop with e | ⟨v, stack⟩ <;> rfl
  | branch =>
    simp only [execute, hop]
    rcases target? task i.arg with _ | dest <;> rfl
  | branchZero =>
    have htop := hi _ rfl
    simp only [execute, hop]
    rcases target? task i.arg with _ | dest
    · rfl
    · simp only [popInt_rebase (show ws.length < s.stack.count by omega)]
      rcases popInt s with ⟨s', cause⟩ | ⟨v, s'⟩ <;> rfl
  | call =>
    simp only [execute, hop]
    exact callStep_rebase h _
  | ret =>
    simp only [execute, hop]
    refine returnStep_rebase h ?_ ?_
    · intro hframes
      -- the lowest cell that is cut off, if there is one
      by_cases hlt : s.base < s.stack.count
      · have := hi s.base ⟨hframes, .inl ⟨by omega, by omega⟩⟩
        omega
      · omega
    · intro hframes harg
      have := hi _ ⟨hframes, .inr ⟨harg, rfl⟩⟩
      omega
  | print =>
    simp only [execute, hop]
    refine printStep_rebase h ?_
    by_cases hlt : (s.stack.count : Int) - i.arg.toInt < s.stack.count
    · have := hi _ ⟨Int.le_refl _, hlt⟩
      omega
    · omega
  | add | sub | mul | div | eq | ne | gt | ge | lt | le =>
    have htwo := hi _ (.inr rfl)
    simp only [execute, hop]
    exact binaryStep_rebase (by omega) _

end Execute

/-- Rebasing on the values that are there changes nothing. -/
theorem State.rebase_of_prefix {s : State} {below : List Value} (h : below <+: s.stack.toList) :
    s.rebase below = s := by
  obtain ⟨vs, hvs⟩ := h
  have hstack : s.stack.rebase below = s.stack := by
    rw [Stack.rebase, ← hvs, List.drop_left, hvs]
    rfl
  rw [State.rebase, hstack]

/-- **Cells that are not accessed keep their values.** -/
theorem prefix_of_execute {task : Task} {s s' : State} {i : Instruction} {below : List Value}
    (h : below <+: s.stack.toList) (hi : ∀ c, Accesses s i c → (below.length : Int) ≤ c)
    (ho : execute task s i = .next s') : below <+: s'.stack.toList := by
  have hlen : below.length ≤ s.stack.count := by simpa using h.length_le
  have hsame : execute task (s.rebase below) i = (execute task s i).rebase below :=
    execute_rebase hlen hi
  rw [State.rebase_of_prefix h, ho] at hsame
  have hs' : s' = s'.rebase below := by simpa [Outcome.rebase] using hsame
  rw [hs']
  exact List.prefix_append _ _

end Stackling.Machine
