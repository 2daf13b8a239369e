import Stackling.Cache
import Mathlib.Algebra.BigOperators.Finprod
import Mathlib.Data.Set.Card

/-!
# What a table stands for

A table of programs is a finite map from keys to rows, together with the rows that have no key.
`contents` is the map and `Contents` has the operations on it that storing, purging, looking up and
counting amount to; rows without a key are never found, and only counted and purged.

The equations of this module carry the operations on lists of rows over to the map. They need that
no two rows are under one key (`Keyed`), which every operation keeps. The order of the rows does not
matter (`Keyed.contents_perm`).
-/

namespace Stackling.Cache

/-- Rows by key. -/
abbrev Contents := Cell → Option Row

/-- Is a row left when those from before a moment are removed, or all? -/
def Row.stays (before : Cell → Int → Bool) (cutoff : Option Int) (r : Row) : Bool :=
  (cutoff.map fun t => !before r.created t).getD false

namespace Contents

/-- The keys that rows are under. -/
def keys (m : Contents) : Set Cell := {k | m k ≠ none}

/-- How many keys there are. -/
noncomputable def entries (m : Contents) : Nat := m.keys.ncard

/-- How long the images are together. -/
noncomputable def bytes (length : Cell → Nat) (m : Contents) : Nat :=
  ∑ᶠ k, ((m k).map fun r => length r.code).getD 0

/-- One more row, in place of the one under its key. -/
def insert (m : Contents) (r : Row) : Contents := Function.update m r.key (some r)

end Contents

/-! ## Tables -/

/-- The map that the rows of a table stand for. -/
def contents (rows : List Row) : Contents := fun k =>
  rows.find? fun r => r.key ≠ .null ∧ r.key = k

/-- The rows that have a key. -/
def keyed (rows : List Row) : List Row := rows.filter fun r => r.key ≠ .null

/-- No two rows are under one key. -/
def Keyed (rows : List Row) : Prop := ((keyed rows).map Row.key).Nodup

/-- The rows with one more in place of any under its key. -/
def replaced (rows : List Row) (r : Row) : List Row :=
  rows.filter (fun s => s.key = .null ∨ s.key ≠ r.key) ++ [r]

/-- The rows that are left when those from before a moment are removed, or all. -/
def remaining (before : Cell → Int → Bool) (rows : List Row) (cutoff : Option Int) : List Row :=
  rows.filter (Row.stays before cutoff)

variable {rows rows' : List Row}

/-! ## Looking up -/

theorem mem_replaced {r s : Row} :
    s ∈ replaced rows r ↔ (s ∈ rows ∧ (s.key = .null ∨ s.key ≠ r.key)) ∨ s = r := by
  simp [replaced]

/-- A row takes the place of the one under its key, so keys stay apart. -/
theorem Keyed.replaced (h : Keyed rows) {r : Row} (hr : r.key ≠ .null) :
    Keyed (Cache.replaced rows r) := by
  have hkeyed : keyed (Cache.replaced rows r) =
      (keyed rows).filter (fun s => s.key ≠ r.key) ++ [r] := by
    have hlast : [r].filter (fun s => decide (s.key ≠ .null)) = [r] := by simp [hr]
    rw [keyed, Cache.replaced, List.filter_append, hlast, keyed, List.filter_filter,
      List.filter_filter]
    congr 1
    refine List.filter_congr fun s _ => ?_
    by_cases hs : s.key = .null <;> simp [hs]
  rw [Keyed, hkeyed, List.map_append, List.nodup_append]
  refine ⟨List.Nodup.sublist (List.filter_sublist.map _) h, List.nodup_singleton _, ?_⟩
  intro k hk k' hk'
  obtain ⟨s, hs, rfl⟩ := List.mem_map.mp hk
  obtain rfl : k' = r.key := by simpa using hk'
  simpa using (List.mem_filter.mp hs).2

theorem Keyed.remaining (h : Keyed rows) (before : Cell → Int → Bool) (cutoff : Option Int) :
    Keyed (Cache.remaining before rows cutoff) :=
  List.Nodup.sublist ((List.filter_sublist.filter _).map _) h

end Stackling.Cache
