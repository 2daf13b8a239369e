import Stackling.Proofs.Code.StackTyping
import Stackling.Proofs.Machine.Invariant

/-!
# Runs conform to the stack map

A configuration conforms to a stack map if the values of its innermost frame have the types of the
spot it is at, and every frame below waits for a result at a spot that expects one. Where the spots
obey their rules the machine cannot leave these configurations (`closed_conforms`), so every
instruction of a compiled program finds its operands in every run.
-/

namespace Stackling.Code

open Stackling.Symbols
open Machine (Task Config Frame Value Step Halts DividesByZero baseOf)

variable {task : Task} {parts : List Part} {map : Nat → Option Spot}

/-- `Callers map f frames below`: the frames below one of `f` hold the values `below`, and each of
them goes on at a spot with its own values and the result it waits for. -/
inductive Callers (map : Nat → Option Spot) :
    Symbols.Function → List Frame → List Value → Prop where
  | nil {f : Symbols.Function} : Callers map f [] []
  | cons {f g : Symbols.Function} {back : Nat} {frames : List Frame} {below vs : List Value}
      {types : List Ty} (hback : map back = some ⟨g, types ++ results f.returns⟩)
      (hvs : FitsAll vs types) (hrest : Callers map g frames below) :
      Callers map f (⟨back, (below ++ vs).length⟩ :: frames) (below ++ vs)

theorem Callers.baseOf_eq {f : Symbols.Function} {frames : List Frame} {below : List Value}
    (h : Callers map f frames below) : baseOf frames = below.length := by
  cases h <;> rfl

/-- A slot of the innermost frame is one of its own values. -/
theorem Callers.getElem?_slot {f : Symbols.Function} {frames : List Frame} {below : List Value}
    (h : Callers map f frames below) (vs : List Value) (slot : Nat) :
    (below ++ vs)[baseOf frames + slot]? = vs[slot]? := by
  rw [h.baseOf_eq, List.getElem?_append_right (Nat.le_add_right _ _), Nat.add_sub_cancel_left]

/-- The values on the stack have the types of the map. -/
inductive Conforms (map : Nat → Option Spot) (c : Config) : Prop where
  | intro {f : Symbols.Function} {types : List Ty} {below vs : List Value}
      (hspot : map c.pc = some ⟨f, types⟩) (hvalues : c.values = below ++ vs)
      (hvs : FitsAll vs types) (hcallers : Callers map f c.frames below) : Conforms map c

/-- The value on top has the type that the map says. -/
theorem Conforms.top {c : Config} (h : Conforms map c) {f : Symbols.Function} {types : List Ty}
    {ty : Ty} (hspot : map c.pc = some ⟨f, types ++ [ty]⟩) :
    ∃ vs v, c.values = vs ++ [v] ∧ Fits v ty := by
  obtain ⟨hspot', hvalues, hvs, -⟩ := h
  rw [hspot] at hspot'
  cases hspot'
  obtain ⟨us, v, rfl, -, hfit⟩ := hvs.split_last
  exact ⟨_, v, by rw [hvalues, List.append_assoc], hfit⟩

section Rules

variable {pc : Nat} {frames : List Frame} {below vs : List Value} {out : Bytes}
  {f : Symbols.Function} {types : List Ty}

/-- A value of the right type is pushed. -/
theorem Conforms.push {v : Value} {ty : Ty} (hnext : map (pc + 1) = some ⟨f, types ++ [ty]⟩)
    (hvs : FitsAll vs types) (hcallers : Callers map f frames below) (hv : Fits v ty) :
    Conforms map ⟨pc + 1, frames, below ++ vs ++ [v], out⟩ :=
  .intro hnext (List.append_assoc _ _ _) (hvs.append (.cons hv .nil)) hcallers

/-- **What a rule is good for**: the instruction leads to a configuration that conforms again. -/
theorem Rule.advance (h : Rule task parts map pc ⟨f, types⟩) (hvs : FitsAll vs types)
    (hcallers : Callers map f frames below) :
    Halts task ⟨pc, frames, below ++ vs, out⟩ ∨
      DividesByZero task ⟨pc, frames, below ++ vs, out⟩ ∨
      ∃ c, Step task ⟨pc, frames, below ++ vs, out⟩ c ∧ Conforms map c := by
  have hbase := hcallers.baseOf_eq
  cases h with
  | stop hnone => exact .inl (.inl hnone)
  | pushInt hi hfit hnext => exact .inr (.inr ⟨_, .pushInt hi, .push hnext hvs hcallers hfit⟩)
  | pushStr hi ht hnext =>
    exact .inr (.inr ⟨_, .pushStr hi ht, .push hnext hvs hcallers (.str _)⟩)
  | load hpart hi harg hslot hnext =>
    obtain ⟨v, hget, hfit⟩ := hvs.getElem? hslot
    refine .inr (.inr ⟨_, .load hi harg ?_, .push hnext hvs hcallers hfit⟩)
    rw [hcallers.getElem?_slot, hget]
  | store hi harg hslot hnext =>
    obtain ⟨us, v, rfl, hus, hfit⟩ := hvs.split_last
    have hlt := (List.getElem?_eq_some_iff.mp hslot).1
    rw [← hus.length_eq] at hlt
    refine .inr (.inr ⟨_, .store hi harg (List.append_assoc _ _ _).symm ?_, ?_⟩)
    · rw [hbase, List.length_append]
      omega
    · refine .intro hnext ?_ (hus.set hslot hfit) hcallers
      dsimp only [Machine.Config.next]
      rw [hbase, List.set_append_right _ _ (Nat.le_add_right _ _), Nat.add_sub_cancel_left]
  | pop hi hnext =>
    obtain ⟨us, v, rfl, hus, -⟩ := hvs.split_last
    exact .inr (.inr ⟨_, .pop hi (List.append_assoc _ _ _).symm, .intro hnext rfl hus hcallers⟩)
  | @operate _ _ _ op _ hi hop hfit hnext =>
    obtain ⟨us, l, r, rfl, hus⟩ := hvs.split_ints
    have hv := (List.append_assoc below us [.int l, .int r]).symm
    by_cases hzero : op = .div ∧ r = 0
    · obtain ⟨rfl, rfl⟩ := hzero
      exact .inr (.inl ⟨_, _, l, hi, hv⟩)
    · exact .inr (.inr ⟨_, .operate hi hop hv hzero, .push hnext hus hcallers (hfit l r)⟩)
  | branch hi hto hdest => exact .inr (.inr ⟨_, .branch hi hto, .intro hdest rfl hvs hcallers⟩)
  | branchZero hi hto hnext hdest =>
    obtain ⟨us, v, rfl, hus, hfit⟩ := hvs.split_last
    obtain ⟨i, rfl⟩ : ∃ i, v = .int i := by
      rcases fits_bool_iff.mp hfit with rfl | rfl <;> exact ⟨_, rfl⟩
    refine .inr (.inr ⟨_, .branchZero hi hto (List.append_assoc _ _ _).symm, ?_⟩)
    refine .intro ?_ rfl hus hcallers
    dsimp only
    split
    · exact hdest
    · exact hnext
  | call hi hf hlt hentry hnext =>
    obtain ⟨us, args, rfl, hus, hargs⟩ := hvs.split
    have hlen := hargs.length_eq
    rw [List.length_map] at hlen
    refine .inr (.inr ⟨_, .call hi hf rfl hlt (List.append_assoc _ _ _).symm ?_ ?_, ?_⟩)
    · rw [hlen]
      rfl
    · dsimp only
      rw [hbase, List.length_append]
      omega
    · exact .intro hentry (List.append_assoc _ _ _).symm hargs (.cons hnext hus hcallers)
  | ret hi hvoid =>
    cases hcallers with
    | nil =>
      -- nobody waits for the outermost frame
      exact .inl (.inr ⟨rfl, 0, hi⟩)
    | cons hback hus hrest =>
      refine .inr (.inr ⟨_, .ret hi rfl rfl, .intro hback rfl ?_ hrest⟩)
      simpa [results, hvoid] using hus
  | retValue hi harg hvalue =>
    obtain ⟨locals, v, rfl, -, hfit⟩ := hvs.split_last
    cases hcallers with
    | nil => exact .inl (.inr ⟨rfl, _, hi⟩)
    | cons hback hus hrest =>
      rw [results_of_ne_void hvalue] at hback
      refine .inr (.inr ⟨_, .retValue hi harg rfl (List.append_assoc _ _ _).symm, ?_⟩)
      exact .intro hback (List.append_assoc _ _ _) (hus.append (.cons hfit .nil)) hrest
  | print hi harg hnext =>
    obtain ⟨us, line, rfl, hus, hline⟩ := hvs.split
    refine .inr (.inr ⟨_, .print hi (hline.length_eq ▸ harg) (List.append_assoc _ _ _).symm ?_,
      .intro hnext rfl hus hcallers⟩)
    dsimp only
    rw [hbase, List.length_append]
    omega

end Rules

/-- Inversion for the rule of a load. -/
theorem Rule.of_load {pc : Nat} {f : Symbols.Function} {types : List Ty} {arg : Int32}
    (h : Rule task parts map pc ⟨f, types⟩) (hi : task.At pc .loadLocal arg) :
    ∃ name v, ⟨f, pc, .var name⟩ ∈ parts ∧ arg.toInt = (v : Variable).slot ∧
      types[v.slot]? = some v.type ∧ map (pc + 1) = some ⟨f, types ++ [v.type]⟩ := by
  cases h with
  | stop hnone =>
    rw [Task.At, hnone] at hi
    cases hi
  | load hpart hi' harg hslot hnext =>
    obtain ⟨-, rfl⟩ := hi.inj hi'
    exact ⟨_, _, hpart, harg, hslot, hnext⟩
  | operate hi' hop =>
    obtain ⟨rfl, -⟩ := hi.inj hi'
    simp [Machine.arithmeticOps] at hop
  | pushInt hi' | pushStr hi' | store hi' | pop hi' | branch hi' | branchZero hi' | call hi'
  | ret hi' | retValue hi' | print hi' => cases (hi.inj hi').1

/-- A load in a conforming configuration: it is the code of a variable, and the value that is
pushed has the type that the map has for it. -/
theorem Conforms.load
    (hrules : ∀ {pc : Nat} {spot : Spot}, map pc = some spot → Rule task parts map pc spot)
    {c : Config} (h : Conforms map c) {arg : Int32} (hi : task.At c.pc .loadLocal arg) :
    ∃ f types name ty, map c.pc = some ⟨f, types⟩ ∧ ⟨f, c.pc, .var name⟩ ∈ parts ∧
      map (c.pc + 1) = some ⟨f, types ++ [ty]⟩ ∧
      ∃ w, Fits w ty ∧ Step task c (c.next (c.values ++ [w])) := by
  obtain ⟨hspot, hvalues, hvs, hcallers⟩ := h
  obtain ⟨name, v, hpart, harg, hslot, hnext⟩ := (hrules hspot).of_load hi
  obtain ⟨w, hget, hfit⟩ := hvs.getElem? hslot
  refine ⟨_, _, name, v.type, hspot, hpart, hnext, w, hfit, .load hi harg ?_⟩
  rw [hvalues, hcallers.getElem?_slot, hget]

/-- **Conforming configurations are closed** if every spot obeys its rule. -/
theorem closed_conforms
    (h : ∀ {pc : Nat} {spot : Spot}, map pc = some spot → Rule task parts map pc spot) :
    Machine.Closed task (Conforms map) := by
  rintro ⟨pc, frames, values, out⟩ ⟨hspot, rfl, hvs, hcallers⟩
  exact (h hspot).advance hvs hcallers

end Stackling.Code
