import Mathlib.Data.List.Forall2
import Stackling.Datum.Match

/-!
# What a pattern matches

`Matches p d` says what it means that the datum `d` looks as the pattern `p` says: the items of a
list are cut into pieces in a row, and each pattern of the list takes its piece (`Takes`), an
ellipsis a run of any length and everything else one item. The search that tries every length of
every run decides this relation (`fits_iff_matches`).

A mismatch carries the path that leads to it. If the pattern has no ellipsis, then every item has a
pattern of its own, and the path leads to the first pair that differs (`mismatch?_locates`): what
the pattern looks at there is of another sort, has another text or another number of items, and
everything to the left of the path matches.
-/

namespace Stackling.Datum

/-! ## The relation -/

mutual

/-- The datum `d` looks as the pattern `p` says. -/
inductive Matches : (p d : Datum) → Prop
  | ellipsis (d : Datum) : Matches .ellipsis d
  | symbol (s : String) : Matches (.symbol s) (.symbol s)
  | string (s : String) : Matches (.string s) (.string s)
  | integer (s : String) : Matches (.integer s) (.integer s)
  /-- an integer may be wrapped -/
  | wrapped (s : String) : Matches (.integer s) (.list [.symbol "integer", .integer s])
  | list {ps : List Datum} {pieces : List (List Datum)} (h : List.Forall₂ Takes ps pieces) :
      Matches (.list ps) (.list pieces.flatten)
  | array {ps : List Datum} {pieces : List (List Datum)} (h : List.Forall₂ Takes ps pieces) :
      Matches (.array ps) (.array pieces.flatten)

/-- Among the items of a list, the pattern `p` takes the items `ds`. -/
inductive Takes : (p : Datum) → (ds : List Datum) → Prop
  | run (ds : List Datum) : Takes .ellipsis ds
  | item {p d : Datum} (hp : p ≠ .ellipsis) (h : Matches p d) : Takes p [d]

end

/-- A pattern that is no ellipsis takes one datum. -/
theorem fitsAll_cons {p : Datum} (hp : p ≠ .ellipsis) (ps : List Datum) (d : Datum)
    (ds : List Datum) : fitsAll (p :: ps) (d :: ds) = (fits p d && fitsAll ps ds) := by
  rw [fitsAll]
  exact hp

theorem fitsAll_cons_nil {p : Datum} (hp : p ≠ .ellipsis) (ps : List Datum) :
    fitsAll (p :: ps) [] = false := by
  rw [fitsAll]
  exact hp

/-- An ellipsis takes any run of data. The function tries them one after the other, the shortest
first. -/
theorem fitsAll_ellipsis (ps ds : List Datum) :
    fitsAll (.ellipsis :: ps) ds = true ↔
      ∃ run rest, ds = run ++ rest ∧ fitsAll ps rest = true := by
  simp only [fitsAll, List.any_eq_true, List.mem_range]
  constructor
  · rintro ⟨n, -, h⟩
    exact ⟨ds.take n, ds.drop n, (List.take_append_drop n ds).symm, h⟩
  · rintro ⟨run, rest, rfl, h⟩
    refine ⟨run.length, ?_, by rwa [List.drop_left]⟩
    rw [List.length_append]
    omega

/-- The items `ds` can be cut into pieces that the patterns `ps` take, in order. -/
def Cut (ps ds : List Datum) : Prop :=
  ∃ pieces, List.Forall₂ Takes ps pieces ∧ pieces.flatten = ds

theorem cut_nil {ds : List Datum} : Cut [] ds ↔ ds = [] := by
  constructor
  · rintro ⟨pieces, h, rfl⟩
    cases h
    rfl
  · rintro rfl
    exact ⟨[], .nil, rfl⟩

/-- Cutting data at an ellipsis. -/
theorem cut_ellipsis {ps ds : List Datum} :
    Cut (.ellipsis :: ps) ds ↔ ∃ run rest, ds = run ++ rest ∧ Cut ps rest := by
  constructor
  · rintro ⟨_, h, rfl⟩
    obtain ⟨run, pieces, -, hps, rfl⟩ := List.forall₂_cons_left_iff.mp h
    exact ⟨run, pieces.flatten, rfl, pieces, hps, rfl⟩
  · rintro ⟨run, _, rfl, pieces, hps, rfl⟩
    exact ⟨run :: pieces, .cons (.run run) hps, rfl⟩

/-- Cutting data at a pattern that takes one datum. -/
theorem cut_cons {p : Datum} (hp : p ≠ .ellipsis) {ps ds : List Datum} :
    Cut (p :: ps) ds ↔ ∃ d rest, ds = d :: rest ∧ Matches p d ∧ Cut ps rest := by
  constructor
  · rintro ⟨_, h, rfl⟩
    obtain ⟨piece, pieces, htakes, hps, rfl⟩ := List.forall₂_cons_left_iff.mp h
    cases htakes with
    | run => exact absurd rfl hp
    | @item _ d _ hd => exact ⟨d, pieces.flatten, rfl, hd, pieces, hps, rfl⟩
  · rintro ⟨d, _, rfl, hd, pieces, hps, rfl⟩
    exact ⟨[d] :: pieces, .cons (.item hp hd) hps, rfl⟩

/-- A list matches a list whose items can be cut. -/
theorem matches_list_iff {ps : List Datum} {d : Datum} :
    Matches (.list ps) d ↔ ∃ ds, d = .list ds ∧ Cut ps ds := by
  constructor
  · rintro ⟨⟩
    exact ⟨_, rfl, _, ‹_›, rfl⟩
  · rintro ⟨_, rfl, pieces, h, rfl⟩
    exact .list h

theorem matches_array_iff {ps : List Datum} {d : Datum} :
    Matches (.array ps) d ↔ ∃ ds, d = .array ds ∧ Cut ps ds := by
  constructor
  · rintro ⟨⟩
    exact ⟨_, rfl, _, ‹_›, rfl⟩
  · rintro ⟨_, rfl, pieces, h, rfl⟩
    exact .array h

/-- An integer also matches a literal that holds it. -/
theorem matches_integer_iff {s : String} {d : Datum} :
    Matches (.integer s) d ↔ .integer s = d.unwrapInteger := by
  constructor
  · rintro ⟨⟩ <;> rfl
  · intro h
    unfold unwrapInteger at h
    split at h
    · rw [← h]
      exact .wrapped s
    · rw [← h]
      exact .integer s

theorem matches_symbol_iff {s : String} {d : Datum} : Matches (.symbol s) d ↔ .symbol s = d := by
  constructor
  · rintro ⟨⟩
    rfl
  · rintro rfl
    exact .symbol s

theorem matches_string_iff {s : String} {d : Datum} : Matches (.string s) d ↔ .string s = d := by
  constructor
  · rintro ⟨⟩
    rfl
  · rintro rfl
    exact .string s

-- Data and lists of data are defined together, so the two facts are one induction on the pattern.
mutual

/-- **`fits` decides the relation.** -/
theorem fits_iff_matches : ∀ p d : Datum, fits p d = true ↔ Matches p d
  | .ellipsis, d => by simp [fits, Matches.ellipsis]
  | .symbol s, d => by
    rw [matches_symbol_iff]
    cases d <;> simp [fits]
  | .string s, d => by
    rw [matches_string_iff]
    cases d <;> simp [fits]
  | .integer s, d => by
    rw [matches_integer_iff, fits]
    cases d.unwrapInteger <;> simp
  | .list ps, d => by
    rw [matches_list_iff]
    cases d <;> simp [fits, fitsAll_iff_cut ps]
  | .array ps, d => by
    rw [matches_array_iff]
    cases d <;> simp [fits, fitsAll_iff_cut ps]

/-- An ellipsis takes a run of any length, and every other pattern one item. -/
theorem fitsAll_iff_cut : ∀ ps ds : List Datum, fitsAll ps ds = true ↔ Cut ps ds
  | [], ds => by simp [fitsAll, cut_nil]
  | p :: ps, ds => by
    by_cases hp : p = .ellipsis
    · subst hp
      simp only [fitsAll_ellipsis, cut_ellipsis, fitsAll_iff_cut ps]
    · rw [cut_cons hp]
      cases ds with
      | nil => simp [fitsAll_cons_nil hp]
      | cons d ds => simp [fitsAll_cons hp, fits_iff_matches p, fitsAll_iff_cut ps]

end

/-! ## Every datum matches itself -/

theorem takes_self {p : Datum} (h : Matches p p) : Takes p [p] := by
  by_cases hp : p = .ellipsis
  · subst hp
    exact .run _
  · exact .item hp h

mutual

/-- Everything matches itself, by induction on the pattern. -/
theorem matches_self : ∀ p : Datum, Matches p p
  | .ellipsis => .ellipsis _
  | .symbol s => .symbol s
  | .string s => .string s
  | .integer s => .integer s
  | .list ps => matches_list_iff.mpr ⟨ps, rfl, cut_self ps⟩
  | .array ps => matches_array_iff.mpr ⟨ps, rfl, cut_self ps⟩

/-- The items of a pattern are cut one by one. -/
theorem cut_self : ∀ ps : List Datum, Cut ps ps
  | [] => ⟨[], .nil, rfl⟩
  | p :: ps => by
    obtain ⟨pieces, h, hps⟩ := cut_self ps
    refine ⟨[p] :: pieces, .cons (takes_self (matches_self p)) h, ?_⟩
    rw [List.flatten_cons, hps]
    rfl

end

/-! ## Where the first mismatch lies -/

/-- The datum that a path of item numbers leads to. -/
def at? : List Nat → Datum → Option Datum
  | [], d => some d
  | i :: path, d => d.items[i]?.bind (at? path)

/-- Two data that differ in their sort, their text or their number of items. -/
def Differ (d e : Datum) : Prop :=
  d.shape ≠ e.shape ∨ d.atomText ≠ e.atomText ∨ d.items.length ≠ e.items.length

/-- The mismatch `m` of the datum `d` and the pattern `p` is where it says. -/
structure Mismatch.Locates (m : Mismatch) (p d : Datum) : Prop where
  /-- the path leads to the pattern there -/
  expected : p.at? m.path = some m.expected
  /-- and to what the pattern looks at -/
  actual : ∃ e, d.at? m.path = some e ∧ m.actual = facing m.expected e
  differ : Differ m.expected m.actual
  /-- to the left of the path, items match their patterns -/
  left : ∀ {path : List Nat} {i j : Nat}, path ++ [i] <+: m.path → j < i →
    ∃ q e, p.at? (path ++ [j]) = some q ∧ d.at? (path ++ [j]) = some e ∧ Matches q e

/-- There is no ellipsis in the pattern. -/
def Explicit (p : Datum) : Prop := ∀ path, p.at? path ≠ some .ellipsis

theorem Explicit.ne_ellipsis {p : Datum} (h : p.Explicit) : p ≠ .ellipsis := by
  rintro rfl
  exact h [] rfl

/-- The parts of a pattern without ellipses have none. -/
theorem Explicit.items {p : Datum} (h : p.Explicit) : ∀ q ∈ p.items, q.Explicit := by
  intro q hq path hpath
  obtain ⟨i, hi⟩ := List.getElem?_of_mem hq
  exact h (i :: path) (by rw [at?, hi]; exact hpath)

/-- Where neither is made of items like the other, the two differ. -/
theorem differ_facing {p d : Datum} (hp : p ≠ .ellipsis) (h : fits p d = false)
    (hlist : ∀ ps ds, p = .list ps → d ≠ .list ds)
    (harray : ∀ ps ds, p = .array ps → d ≠ .array ds) : Differ p (facing p d) := by
  cases p with
  | ellipsis => exact absurd rfl hp
  | symbol s => cases d <;> simp_all [Differ, facing, fits, shape, atomText]
  | string s => cases d <;> simp_all [Differ, facing, fits, shape, atomText]
  | integer s =>
    rw [fits] at h
    rw [facing]
    cases hd : d.unwrapInteger <;> simp_all [Differ, shape, atomText]
  | list ps => cases d <;> simp_all [Differ, facing, shape]
  | array ps => cases d <;> simp_all [Differ, facing, shape]

namespace Mismatch

variable {m : Mismatch} {p d : Datum} {ps ds : List Datum}

/-- A difference right here. -/
theorem Locates.here (h : Differ p (facing p d)) : Locates ⟨[], p, facing p d⟩ p d where
  expected := rfl
  actual := ⟨d, rfl, rfl⟩
  differ := h
  left hpath := by
    have := List.prefix_nil.mp hpath
    simp at this

/-- A mismatch of an item is one of the list that it is in, if the items before it match. -/
theorem Locates.within {q e : Datum} {k : Nat} (h : m.Locates q e) (hq : p.items[k]? = some q)
    (he : d.items[k]? = some e)
    (hleft : ∀ j < k, ∃ q e, p.items[j]? = some q ∧ d.items[j]? = some e ∧ Matches q e) :
    (m.within k).Locates p d where
  expected := by
    rw [Mismatch.within, at?, hq]
    exact h.expected
  actual := by
    obtain ⟨e', he', hactual⟩ := h.actual
    exact ⟨e', by rw [Mismatch.within, at?, he]; exact he', hactual⟩
  differ := h.differ
  left {path i j} hpath hj := by
    cases path with
    | nil =>
      obtain ⟨rfl, -⟩ := List.cons_prefix_cons.mp hpath
      obtain ⟨q', e', hq', he', hm⟩ := hleft j hj
      exact ⟨q', e', by rw [List.nil_append, at?, hq']; rfl, by rw [List.nil_append, at?, he']; rfl,
        hm⟩
    | cons k' path =>
      obtain ⟨rfl, hrest⟩ := List.cons_prefix_cons.mp hpath
      obtain ⟨q', e', hq', he', hm⟩ := h.left hrest hj
      exact ⟨q', e', by rw [List.cons_append, at?, hq]; exact hq',
        by rw [List.cons_append, at?, he]; exact he', hm⟩

/-- The mismatch `m` is that of an item of `ds`, numbered from `i`, and the ones before it match. -/
def LocatesIn (m : Mismatch) (i : Nat) (ps ds : List Datum) : Prop :=
  ∃ k m' q e, m = within (i + k) m' ∧ ps[k]? = some q ∧ ds[k]? = some e ∧ m'.Locates q e ∧
    ∀ j < k, ∃ q e, ps[j]? = some q ∧ ds[j]? = some e ∧ Matches q e

/-- A difference further on, behind an item that matches. -/
theorem LocatesIn.cons {i : Nat} (h : m.LocatesIn (i + 1) ps ds) (hm : Matches p d) :
    m.LocatesIn i (p :: ps) (d :: ds) := by
  obtain ⟨k, m', q, e, rfl, hq, he, hloc, hleft⟩ := h
  refine ⟨k + 1, m', q, e, by rw [Nat.add_assoc, Nat.add_comm 1], hq, he, hloc, fun j hj => ?_⟩
  cases j with
  | zero => exact ⟨p, d, rfl, rfl, hm⟩
  | succ j => exact hleft j (by omega)

end Mismatch

/-- Items are compared one by one, and the first that differs is reported. -/
theorem mismatchIn?_cons {p : Datum} (hp : p ≠ .ellipsis) (i : Nat) (ps : List Datum) (d : Datum)
    (ds : List Datum) : mismatchIn? i (p :: ps) (d :: ds) = match mismatch? p d with
      | some m => some (m.within i)
      | none => mismatchIn? (i + 1) ps ds := by
  cases p with
  | ellipsis => exact absurd rfl hp
  | symbol | string | integer | list | array => rfl

/-- If no item is amiss, then there are more of them than patterns, or fewer. -/
theorem length_ne_of_mismatchIn? {i : Nat} {ps ds : List Datum} (hps : ∀ q ∈ ps, q.Explicit)
    (h : mismatchIn? i ps ds = none) (hfits : fitsAll ps ds = false) : ps.length ≠ ds.length := by
  induction ps generalizing i ds with
  | nil =>
    cases ds with
    | nil => simp [fitsAll] at hfits
    | cons d ds => simp
  | cons p ps ih =>
    obtain ⟨hp, hps⟩ := List.forall_mem_cons.mp hps
    cases ds with
    | nil => simp
    | cons d ds =>
      rw [mismatchIn?_cons hp.ne_ellipsis] at h
      cases hm : mismatch? p d with
      | some m => simp [hm] at h
      | none =>
        rw [hm] at h
        rw [fitsAll_cons hp.ne_ellipsis, (mismatch?_eq_none_iff p d).mp hm, Bool.true_and] at hfits
        simpa using ih hps h hfits

/-- Where both are made of items, the mismatch lies in the first item that does not match, or in
the number of items. -/
theorem locates_items {p d : Datum} (hp : p.Explicit) (hfacing : facing p d = d)
    (hfits : fitsAll p.items d.items = false)
    (hin : ∀ m, mismatchIn? 0 p.items d.items = some m → m.LocatesIn 0 p.items d.items) :
    ((mismatchIn? 0 p.items d.items).getD ⟨[], p, facing p d⟩).Locates p d := by
  cases hm : mismatchIn? 0 p.items d.items with
  | some m =>
    obtain ⟨k, m', q, e, rfl, hq, he, hloc, hleft⟩ := hin m hm
    rw [Nat.zero_add]
    exact hloc.within hq he hleft
  | none =>
    have hlength := length_ne_of_mismatchIn? hp.items hm hfits
    exact .here (by rw [hfacing]; exact .inr (.inr hlength))

/-- Otherwise it lies at the top. -/
theorem locates_here {p d : Datum} {m : Mismatch} (hp : p.Explicit)
    (hlist : ∀ ps ds, p = .list ps → d ≠ .list ds)
    (harray : ∀ ps ds, p = .array ps → d ≠ .array ds) (h : mismatch? p d = some m) :
    m.Locates p d := by
  unfold mismatch? at h
  split at h
  · cases h
  · next hfits =>
    have hdiffer := differ_facing hp.ne_ellipsis (Bool.eq_false_iff.mpr hfits) hlist harray
    split at h
    · exact absurd rfl (hlist _ _ rfl)
    · exact absurd rfl (harray _ _ rfl)
    · cases h
      exact .here hdiffer

mutual

/-- **The first mismatch** of a pattern without an ellipsis is where it says. -/
theorem mismatch?_locates : ∀ (p : Datum) {d : Datum} {m : Mismatch}, p.Explicit →
    mismatch? p d = some m → m.Locates p d
  | .ellipsis, d, m, hp, h | .symbol s, d, m, hp, h | .string s, d, m, hp, h
  | .integer s, d, m, hp, h => locates_here hp nofun nofun h
  | .list ps, d, m, hp, h => by
    by_cases hd : ∃ ds, d = .list ds
    · obtain ⟨ds, rfl⟩ := hd
      rw [mismatch?] at h
      split at h
      · cases h
      · next hfits =>
        cases h
        exact locates_items (p := .list ps) (d := .list ds) hp rfl
          (by simpa [fits, items] using hfits) fun m hm => mismatchIn?_locates ps hp.items hm
    · exact locates_here hp (fun _ ds _ hds => hd ⟨ds, hds⟩) nofun h
  | .array ps, d, m, hp, h => by
    by_cases hd : ∃ ds, d = .array ds
    · obtain ⟨ds, rfl⟩ := hd
      rw [mismatch?] at h
      split at h
      · cases h
      · next hfits =>
        cases h
        exact locates_items (p := .array ps) (d := .array ds) hp rfl
          (by simpa [fits, items] using hfits) fun m hm => mismatchIn?_locates ps hp.items hm
    · exact locates_here hp nofun (fun _ ds _ hds => hd ⟨ds, hds⟩) h

/-- What is reported of items is a place where they differ, and everything in front of it matches.
-/
theorem mismatchIn?_locates : ∀ (ps : List Datum) {i : Nat} {ds : List Datum} {m : Mismatch},
    (∀ q ∈ ps, q.Explicit) → mismatchIn? i ps ds = some m → m.LocatesIn i ps ds
  | [], i, ds, m, _, h => by simp [mismatchIn?] at h
  | p :: ps, i, [], m, hps, h => by
    unfold mismatchIn? at h
    split at h <;> simp_all
  | p :: ps, i, d :: ds, m, hps, h => by
    obtain ⟨hp, hps⟩ := List.forall_mem_cons.mp hps
    rw [mismatchIn?_cons hp.ne_ellipsis] at h
    cases hm : mismatch? p d with
    | some m' =>
      rw [hm] at h
      cases h
      exact ⟨0, m', p, d, rfl, rfl, rfl, mismatch?_locates p hp hm, nofun⟩
    | none =>
      rw [hm] at h
      exact (mismatchIn?_locates ps hps h).cons
        ((fits_iff_matches p d).mp ((mismatch?_eq_none_iff p d).mp hm))

end

/-! ## Patterns -/

/-- How a place is printed: the numbers of the items on the way, from the root. -/
theorem Mismatch.place_eq (m : Mismatch) :
    m.place = "root" ++ String.join (m.path.map fun i => "." ++ toString i) := by
  have hfold : ∀ (path : List Nat) (s : String),
      path.foldl (fun s i => s ++ "." ++ toString i) s =
        s ++ String.join (path.map fun i => "." ++ toString i) := by
    intro path
    induction path with
    | nil => simp
    | cons i path ih =>
      intro s
      rw [List.foldl_cons, ih, List.map_cons, String.join_cons, String.append_assoc,
        String.append_assoc, String.append_assoc]
  exact hfold m.path "root"

/-- **What patterns match, and where they do not.** Nothing is amiss exactly if the datum matches
the pattern, and every pattern matches itself. If the pattern has no ellipsis, then the path in the
message leads to a pair that differs, and everything to the left of it matches. -/
theorem mismatch_decides_matches (p d : Datum) :
    (mismatch? p d = none ↔ Matches p d) ∧ mismatch? p p = none ∧
    (p.Explicit → ∀ m, mismatch? p d = some m → m.Locates p d ∧
      ∃ rest, m.message = "at root" ++ String.join (m.path.map fun i => "." ++ toString i) ++
        ": expected " ++ rest) := by
  refine ⟨?_, ?_, fun hp m h => ⟨mismatch?_locates p hp h, ?_⟩⟩
  · rw [mismatch?_eq_none_iff, fits_iff_matches]
  · rw [mismatch?_eq_none_iff, fits_iff_matches]
    exact matches_self p
  · have hplace : "at " ++ m.place =
        "at root" ++ String.join (m.path.map fun i => "." ++ toString i) := by
      rw [m.place_eq, ← String.append_assoc]
      rfl
    rw [Mismatch.message, hplace]
    exact ⟨_, by rw [String.append_assoc, String.append_assoc]⟩

/-- The pattern `(a 1)` does not match `(a (integer 2))`, and the path leads to 1 and 2. -/
theorem mismatch_decides_matches_wrapped :
    Mismatch.Locates ⟨[1], .integer "1", .integer "2"⟩ (.list [.symbol "a", .integer "1"])
      (.list [.symbol "a", .list [.symbol "integer", .integer "2"]]) := by
  have hexplicit : Explicit (.list [.symbol "a", .integer "1"]) := by
    rintro (_ | ⟨_ | _ | i, _ | ⟨j, path⟩⟩) h <;> simp [at?, items] at h
  have hfound : mismatch? (.list [.symbol "a", .integer "1"])
      (.list [.symbol "a", .list [.symbol "integer", .integer "2"]]) =
        some ⟨[1], .integer "1", .integer "2"⟩ := by
    rfl
  exact ((mismatch_decides_matches _ _).2.2 hexplicit _ hfound).1

end Stackling.Datum
