import Stackling.Proofs.Code.Program

/-!
# Tables and the code they belong to

`Emission pool code pool'` says how emitting code changes the pool, one instruction at a time: an
instruction that pushes a text looks its text up, and no other instruction touches the pool. Every
emitter is an emission, and what is known of pools follows by induction on emissions: the pool has
no text twice, each text is pushed, each push is of a text in the pool, and there are no more texts
than instructions.

A function that is not alone has at least one instruction. So a program whose code is short enough
for 32-bit addresses has tables that are short enough, too (`emit_tables`).
-/

namespace Stackling.Code

open Stackling.Tree Stackling.Symbols

/-! ## Emissions -/

/-- The instructions of `code`, one after the other, take the pool from `pool` to `pool'`. -/
inductive Emission : Pool → List Instruction → Pool → Prop where
  | nil {pool : Pool} : Emission pool [] pool
  | plain {pool pool' : Pool} {i : Instruction} {code : List Instruction}
      (hi : i.op? ≠ some .pushStr) (hmore : Emission pool code pool') :
      Emission pool (i :: code) pool'
  | push {pool pool₁ pool' : Pool} {s : Bytes} {n : Nat} {code : List Instruction}
      (hn : pool.intern s = (n, pool₁)) (hmore : Emission pool₁ code pool') :
      Emission pool (.withArg .pushStr (index n) :: code) pool'

/-- Looking a text up finds it, or puts it at the end. -/
theorem intern_cases {pool pool' : Pool} {s : Bytes} {n : Nat}
    (h : pool.intern s = (n, pool')) :
    (n < pool.length ∧ pool' = pool) ∨ (n = pool.length ∧ s ∉ pool ∧ pool' = pool ++ [s]) := by
  unfold Pool.intern at h
  split at h
  · next i hi =>
    cases h
    exact .inl ⟨(List.idxOf?_eq_some_iff.mp hi).1, rfl⟩
  · next hi =>
    cases h
    exact .inr ⟨rfl, List.idxOf?_eq_none_iff.mp hi, rfl⟩

namespace Emission

variable {pool pool' pool'' : Pool} {code more : List Instruction}

theorem append (h : Emission pool code pool') (h' : Emission pool' more pool'') :
    Emission pool (code ++ more) pool'' := by
  induction h with
  | nil => exact h'
  | plain hi _ ih => exact .plain hi (ih h')
  | push hn _ ih => exact .push hn (ih h')

/-- Instructions that push no text leave the pool alone. -/
theorem of_plain (h : ∀ i ∈ code, i.op? ≠ some .pushStr) : Emission pool code pool := by
  induction code with
  | nil => exact .nil
  | cons i code ih => exact .plain (h i (by simp)) (ih fun j hj => h j (by simp [hj]))

/-- One more instruction, at the end. -/
theorem concat (h : Emission pool code pool') {i : Instruction} (hi : i.op? ≠ some .pushStr) :
    Emission pool (code ++ [i]) pool' :=
  h.append (.plain hi .nil)

/-- The pool grows by one text for each instruction at most. -/
theorem length_le (h : Emission pool code pool') :
    pool.length ≤ pool'.length ∧ pool'.length ≤ pool.length + code.length := by
  induction h with
  | nil => simp
  | plain hi _ ih =>
    rw [List.length_cons]
    omega
  | push hn _ ih =>
    obtain ⟨-, rfl⟩ | ⟨-, -, rfl⟩ := intern_cases hn
    · rw [List.length_cons]
      omega
    · simp only [List.length_append, List.length_cons, List.length_nil] at ih ⊢
      omega

/-- No text is in the pool twice. -/
theorem nodup (h : Emission pool code pool') (hnd : pool.Nodup) : pool'.Nodup := by
  induction h with
  | nil => exact hnd
  | plain hi _ ih => exact ih hnd
  | push hn _ ih =>
    obtain ⟨-, rfl⟩ | ⟨-, hnew, rfl⟩ := intern_cases hn
    · exact ih hnd
    · exact ih (List.nodup_append.mpr ⟨hnd, List.nodup_singleton _, by grind⟩)

/-- What is pushed is in the pool. -/
theorem arg_of_mem (h : Emission pool code pool') {i : Instruction} (hi : i ∈ code)
    (hop : i.op? = some .pushStr) : ∃ n < pool'.length, i.arg = index n := by
  induction h with
  | nil => cases hi
  | plain hne _ ih =>
    rcases List.mem_cons.mp hi with rfl | hi
    · exact absurd hop hne
    · exact ih hi
  | push hn hmore ih =>
    rcases List.mem_cons.mp hi with rfl | hi
    · refine ⟨_, Nat.lt_of_lt_of_le ?_ hmore.length_le.1, rfl⟩
      obtain ⟨hlt, rfl⟩ | ⟨rfl, -, rfl⟩ := intern_cases hn
      · exact hlt
      · simp
    · exact ih hi

/-- A text that came into the pool is pushed. -/
theorem push_mem (h : Emission pool code pool') {n : Nat} (hn : pool.length ≤ n)
    (hn' : n < pool'.length) : Instruction.withArg .pushStr (index n) ∈ code := by
  induction h with
  | nil => omega
  | plain hi _ ih => exact List.mem_cons_of_mem _ (ih hn hn')
  | push hint _ ih =>
    obtain ⟨-, rfl⟩ | ⟨rfl, -, rfl⟩ := intern_cases hint
    · exact List.mem_cons_of_mem _ (ih hn hn')
    · rcases Nat.eq_or_lt_of_le hn with rfl | hlt
      · exact List.mem_cons_self
      · exact List.mem_cons_of_mem _ (ih (by simpa using Nat.succ_le_of_lt hlt) hn')

end Emission

/-! ## Emitters -/

/-- An emitter that takes the pool from `pool` to the one it gives. -/
def Pools (pool : Pool) (r : Emitted) : Prop :=
  ∀ {code : List Instruction} {pool' : Pool}, r = .ok (code, pool') → Emission pool code pool'

section

variable {env : Env}

theorem emitExprs_pools_of {es : List Expr}
    (h : ∀ e ∈ es, ∀ start pool, Pools pool (emitExpr env start pool e)) (start : Nat)
    (pool : Pool) : Pools pool (emitExprs env start pool es) := by
  induction es generalizing start pool with
  | nil =>
    intro code pool' hok
    rw [emitExprs] at hok
    cases hok
    exact .nil
  | cons e es ih =>
    intro code pool' hok
    simp only [emitExprs, bind_eq_ok, pure_eq_ok] at hok
    obtain ⟨⟨code₁, pool₁⟩, h₁, ⟨code₂, pool₂⟩, h₂, heq⟩ := hok
    cases heq
    have hem₁ := h e (by simp) start pool h₁
    exact hem₁.append (ih (fun e' he => h e' (by simp [he])) _ pool₁ h₂)

/-- No operator pushes a text. -/
theorem strategy_ne_pushStr (op : BinaryOp) : strategy op ≠ .operation .pushStr := by
  cases op <;> nofun

theorem emitExpr_pools (e : Expr) (start : Nat) (pool : Pool) :
    Pools pool (emitExpr env start pool e) := by
  induction e using Expr.induction generalizing start pool with
  | int | bool =>
    intro code pool' hok
    rw [emitExpr] at hok
    cases hok
    exact .plain (by simp) .nil
  | str literal =>
    intro code pool' hok
    rw [emitExpr] at hok
    rcases hi : pool.intern (Bytes.ofString literal.lexeme) with ⟨i, pool₁⟩
    rw [hi] at hok
    cases hok
    exact .push hi .nil
  | var name =>
    intro code pool' hok
    rw [emitExpr] at hok
    split at hok <;> cases hok
    exact .plain (by simp) .nil
  | binary op left right ihl ihr =>
    intro code pool' hok
    simp only [emitExpr, bind_eq_ok] at hok
    obtain ⟨-, -, ⟨l, pool₁⟩, hleft, hok⟩ := hok
    have hl := ihl start pool hleft
    rcases hop : strategy op with opcode | _ | _ <;>
      simp only [hop, bind_eq_ok, pure_eq_ok] at hok <;>
      obtain ⟨⟨r, pool₂⟩, hright, heq⟩ := hok <;> cases heq <;>
      have hr := ihr _ pool₁ hright
    · refine (hl.append hr).concat ?_
      rw [Instruction.op?_plain]
      rintro heq
      exact strategy_ne_pushStr op (by rw [hop, Option.some.inj heq])
    · exact (hl.append (.plain (by simp) hr)).append (.of_plain (by simp))
    · exact (hl.append (.of_plain (by simp))).append hr
  | call first callee args ih =>
    intro code pool' hok
    simp only [emitExpr, bind_eq_ok] at hok
    obtain ⟨⟨as, pool₁⟩, hargs, hok⟩ := hok
    have ha := emitExprs_pools_of ih start pool hargs
    rcases hidx : env.order.findIdx? (fun f => f.name == callee) with _ | i <;>
      simp only [hidx] at hok <;> cases hok
    exact ha.concat (by simp)

theorem emitStore_pools (start : Nat) (pool : Pool) (place : Position) (name : String)
    (value : Expr) : Pools pool (emitStore env start pool place name value) := by
  intro code pool' hok
  unfold emitStore at hok
  split at hok
  · cases hok
  · simp only [bind_eq_ok, pure_eq_ok] at hok
    obtain ⟨⟨code₁, pool₁⟩, h₁, heq⟩ := hok
    cases heq
    exact (emitExpr_pools value start pool h₁).concat (by simp)

theorem emitStmts_pools_of {ss : List Stmt}
    (h : ∀ s ∈ ss, ∀ final start pool, Pools pool (emitStmt env final start pool s))
    (final : Bool) (start : Nat) (pool : Pool) :
    Pools pool (emitStmts env final start pool ss) := by
  induction ss generalizing start pool with
  | nil =>
    intro code pool' hok
    rw [emitStmts] at hok
    cases hok
    exact .nil
  | cons s ss ih =>
    intro code pool' hok
    simp only [emitStmts, bind_eq_ok, pure_eq_ok] at hok
    obtain ⟨⟨code₁, pool₁⟩, h₁, ⟨code₂, pool₂⟩, h₂, heq⟩ := hok
    cases heq
    have hem₁ := h s (by simp) _ start pool h₁
    exact hem₁.append (ih (fun s' hs => h s' (by simp [hs])) _ pool₁ h₂)

theorem emitStmt_pools (s : Stmt) (final : Bool) (start : Nat) (pool : Pool) :
    Pools pool (emitStmt env final start pool s) := by
  induction s using Stmt.induction generalizing final start pool with
  | cond first test brace body ih =>
    intro code pool' hok
    simp only [emitStmt, bind_eq_ok, pure_eq_ok] at hok
    obtain ⟨⟨t, pool₁⟩, h₁, ⟨b, pool₂⟩, h₂, heq⟩ := hok
    cases heq
    have ht := emitExpr_pools test start pool h₁
    exact ht.append (.plain (by simp) (emitStmts_pools_of ih false _ pool₁ h₂))
  | ret first value =>
    intro code pool' hok
    simp only [emitStmt, bind_eq_ok] at hok
    obtain ⟨⟨code₁, pool₁⟩, h₁, hok⟩ := hok
    have hv := emitExpr_pools value start pool h₁
    split at hok <;> cases hok
    · exact hv
    · exact hv.concat (by simp)
  | assign target value =>
    intro code pool' hok
    rw [emitStmt] at hok
    exact emitStore_pools _ _ _ _ _ hok
  | decl first param value =>
    intro code pool' hok
    rw [emitStmt] at hok
    exact emitStore_pools _ _ _ _ _ hok
  | print first args =>
    intro code pool' hok
    simp only [emitStmt, bind_eq_ok, pure_eq_ok] at hok
    obtain ⟨⟨as, pool₁⟩, h₁, heq⟩ := hok
    cases heq
    exact (emitExprs_pools_of (fun e _ => emitExpr_pools e) start pool h₁).concat (by simp)
  | call first callee args =>
    intro code pool' hok
    simp only [emitStmt, bind_eq_ok, pure_eq_ok] at hok
    obtain ⟨⟨c, pool₁⟩, h₁, heq⟩ := hok
    cases heq
    have hc := emitExpr_pools _ start pool h₁
    split
    · exact hc.concat (by simp)
    · rwa [List.append_nil]

theorem emitFunction_pools (start : Nat) (pool : Pool) :
    Pools pool (emitFunction env start pool) := by
  intro code pool' hok
  obtain ⟨body, hbody, rfl⟩ := emitFunction_eq_ok hok
  have hreserve : Emission pool
      (List.replicate env.function.localCount (.withArg .pushInt 0)) pool := by
    refine .of_plain fun i hi => ?_
    rw [List.eq_of_mem_replicate hi]
    simp
  have hcode := hreserve.append
    (emitStmts_pools_of (fun s _ => emitStmt_pools s) true _ pool hbody)
  split
  · rwa [List.append_nil]
  · exact hcode.concat (by simp)

end

/-! ## Programs -/

theorem emitFunctions_emission {t : Table} {order fs : List Symbols.Function} {start : Nat}
    {pool : Pool} {prog : Program} (h : emitFunctions t order start pool fs = .ok prog) :
    Emission pool prog.code prog.strings := by
  induction fs generalizing start pool prog with
  | nil =>
    rw [emitFunctions] at h
    cases h
    exact .nil
  | cons f fs ih =>
    simp only [emitFunctions, bind_eq_ok, pure_eq_ok] at h
    obtain ⟨⟨code, pool₁⟩, hf, rest, hfs, rfl⟩ := h
    exact (emitFunction_pools _ _ hf).append (ih hfs)

theorem emitFunctions_length {t : Table} {order fs : List Symbols.Function} {start : Nat}
    {pool : Pool} {prog : Program} (h : emitFunctions t order start pool fs = .ok prog) :
    prog.functions.length = fs.length ∧ (order.length ≠ 1 → fs.length ≤ prog.code.length) := by
  induction fs generalizing start pool prog with
  | nil =>
    rw [emitFunctions] at h
    cases h
    simp
  | cons f fs ih =>
    simp only [emitFunctions, bind_eq_ok, pure_eq_ok] at h
    obtain ⟨⟨code, pool₁⟩, hf, rest, hfs, rfl⟩ := h
    obtain ⟨hfuns, hcode⟩ := ih hfs
    simp only [List.length_append, List.length_cons, hfuns]
    refine ⟨trivial, fun halone => ?_⟩
    have hpos := List.length_pos_of_ne_nil
      (emitFunction_ne_nil (beq_eq_false_iff_ne.mpr halone) hf)
    have := hcode halone
    omega

/-- The pool of a program starts empty. -/
theorem emit_emission {t : Table} {entry : String} {p : Tree.Program} {prog : Program}
    (h : emit t entry p = .ok prog) : Emission [] prog.code prog.strings := by
  obtain ⟨f, order, -, -, h⟩ := emit_eq_ok h
  exact emitFunctions_emission h

/-- **A program's tables are no longer than its code**, one function apart. -/
theorem emit_tables {t : Table} {entry : String} {p : Tree.Program} {prog : Program}
    (h : emit t entry p = .ok prog) : prog.strings.length ≤ prog.code.length ∧
      prog.functions.length ≤ max 1 prog.code.length := by
  obtain ⟨f, order, -, -, hfs⟩ := emit_eq_ok h
  obtain ⟨hfuns, hcode⟩ := emitFunctions_length hfs
  refine ⟨by simpa using (emit_emission h).length_le.2, ?_⟩
  by_cases halone : order.length = 1
  · omega
  · have := hcode halone
    omega

end Stackling.Code
