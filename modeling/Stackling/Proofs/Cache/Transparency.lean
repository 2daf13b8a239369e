import Stackling.Proofs.Cache.Contents
import Stackling.Proofs.Code.Image
import Stackling.Proofs.Text.Utf8

/-!
# A cache never shows

A cache is used for some compilations, with a function `compile` that says what each of them gives.
Programs are stored, loaded and purged in any order, and someone else may write rows that are of
another version or no image, under any key or none. `History` has all that can happen.

The database engine is any engine that carries out the statements it is given (`Executes`). What is
assumed says what each statement does to the rows that the table is seen to have (`View`), and how
the values are read that a cache itself writes. Nothing is assumed of other values, and the engine
for tables in memory satisfies it all (`memory_executes`).

Main result: whatever has happened to a new cache, loading a program gives what compiling it gives
(`History.transparent`). What makes it so is an invariant: a row that can be read is the image of
the program that its key was made from (`Lawful`). It rests on three facts:

* keys tell compilations apart (`eq_of_cacheKey_eq`), because the zero byte ends the entry, digits
  tell digests apart, and digests are assumed not to collide on what is used;
* an image is read back as the program it was made from or not at all
  (`Code.Image.decode_encode_eq_ok`);
* a row that is put under a key replaces the one that was there.

A version that is no number makes an exception. Such a row is not as good as none: whoever asks for
the program under its key is told of the failure, and nothing is compiled or stored. Only rows that
someone else has written can be like that.
-/

namespace Stackling

/-! ## Keys -/

namespace Cache

/-! ## Engines that do as they are told -/

/-- How the databases of an engine are seen. -/
structure View (E : Engine) where
  /-- is the database open, with its table in order? -/
  ready : E.Database → Prop
  /-- the rows of the table, in some order -/
  rows : E.Database → List Row
  /-- how long a value counts as -/
  length : Cell → Nat
  /-- is a value less than a number? -/
  before : Cell → Int → Bool

/-- The engine carries out the statements that it is given. -/
structure Executes (E : Engine) (V : View E) : Prop where
  toInt : ∀ v, E.toInt (.integer v) = .ok v
  toBytes : ∀ bs, E.toBytes (.blob bs) = .ok bs
  length : ∀ bs, V.length (.blob bs) = bs.length
  before : ∀ v cutoff, V.before (.integer v) cutoff = decide (v < cutoff)
  /-- keys are unique, where there are any -/
  keyed : ∀ {db}, V.ready db → Keyed (V.rows db)
  select : ∀ {db} k, V.ready db → E.select db k =
    .ok ((contents (V.rows db) k).map fun r => (r.version, r.code))
  replace : ∀ {db} r, V.ready db → r.key ≠ .null →
    ∃ db', E.replace db r = .ok db' ∧ V.ready db' ∧ (V.rows db').Perm (replaced (V.rows db) r)
  count : ∀ {db}, V.ready db → E.count db =
    .ok ⟨(V.rows db).length, ((V.rows db).map fun r => V.length r.code).sum⟩
  delete : ∀ {db} cutoff, V.ready db →
    ∃ db', E.delete db cutoff = .ok (db', (V.rows db).length - (V.rows db').length) ∧
      V.ready db' ∧ (V.rows db').Perm (remaining V.before (V.rows db) cutoff)

/-- What compiling a source with an entry gives. -/
abbrev Compiler := Bytes → Bytes → Except CompileError Code.Program

variable {E : Engine} {V : View E} {compile : Compiler}
  {used : (source entry : Bytes) → Prop} {outside : Row → Prop} {db db' : E.Database}
  {now : Int} {source entry : Bytes} {p : Code.Program}
  {make : E.Database → Except CompileError Code.Program × E.Database}

/-- Every row is from outside or was stored for the compilation that its key was made from. -/
structure Lawful (V : View E) (compile : Compiler) (used : (source entry : Bytes) → Prop)
    (outside : Row → Prop) (db : E.Database) : Prop where
  ready : V.ready db
  rows : ∀ r ∈ V.rows db, outside r ∨ ∃ now source entry p, used source entry ∧
    compile source entry = .ok p ∧ r = rowOf now source entry p

/-- A program is stored in the place of what was under its key. -/
theorem Executes.put_eq (hE : Executes E V) (h : V.ready db) (now : Int) (source entry : Bytes)
    (p : Code.Program) : ∃ db', E.put db now source entry p = .ok db' ∧ V.ready db' ∧
      (V.rows db').Perm (replaced (V.rows db) (rowOf now source entry p)) := by
  obtain ⟨db', hreplace, hready, hrows⟩ := hE.replace (rowOf now source entry p) h nofun
  exact ⟨db', by rw [Engine.put, hreplace]; rfl, hready, hrows⟩

/-- Storing what compiling gives keeps the invariant: the new row is right, and the others were
there before. -/
theorem Lawful.stored (h : Lawful V compile used outside db) (hu : used source entry)
    (hp : compile source entry = .ok p) (hready : V.ready db')
    (hrows : (V.rows db').Perm (replaced (V.rows db) (rowOf now source entry p))) :
    Lawful V compile used outside db' where
  ready := hready
  rows r hr := by
    rcases mem_replaced.mp (hrows.mem_iff.mp hr) with ⟨hr, -⟩ | rfl
    · exact h.rows r hr
    · exact .inr ⟨now, source, entry, p, hu, hp, rfl⟩

/-- What the row under the key of a compilation says, if its columns can be read. -/
def Contents.read (E : Engine) (m : Contents) (source entry : Bytes) : Except String Lookup :=
  ((m (keyCell source entry)).map fun r => E.scan r.version r.code).getD (.ok .absent)

/-- The program that is stored under the key of a compilation. -/
def Contents.program? (E : Engine) (m : Contents) (source entry : Bytes) : Option Code.Program :=
  (m.read E source entry).toOption.bind Lookup.program?

/-- Looking up a program reads the row in the map. -/
theorem Executes.get_eq (hE : Executes E V) (h : V.ready db) (source entry : Bytes) :
    E.get db source entry = (((contents (V.rows db)).read E source entry).map
      Lookup.program?).mapError (⟨.reading, ·⟩) := by
  rw [Engine.get, Engine.lookup, hE.select _ h, Contents.read]
  cases contents (V.rows db) (keyCell source entry) <;> rfl

/-- Asking gives what the map gives, if the row can be read. -/
theorem Executes.get_eq_ok (hE : Executes E V) (h : V.ready db) {l : Lookup}
    (hl : (contents (V.rows db)).read E source entry = .ok l) :
    E.get db source entry = .ok ((contents (V.rows db)).program? E source entry) := by
  rw [hE.get_eq h, Contents.program?, hl]
  rfl

/-- A program that is found is not compiled. -/
theorem load_hit (hget : E.get db source entry = .ok (some p)) (now : Int)
    (make : E.Database → Except CompileError Code.Program × E.Database) :
    E.load db now source entry make = ⟨db, .ok p, true, false⟩ := by
  rw [Engine.load, hget]

/-- A program that cannot be compiled is not stored. What compiling did to the cache stays. -/
theorem load_failed (hget : E.get db source entry = .ok none) {e : CompileError}
    (he : (make db).1 = .error e) (now : Int) :
    E.load db now source entry make = ⟨(make db).2, .error (.compile e), false, true⟩ := by
  simp only [Engine.load, hget, he]

/-- A program that is compiled is stored. -/
theorem load_made (hget : E.get db source entry = .ok none) (hp : (make db).1 = .ok p)
    (hput : E.put (make db).2 now source entry p = .ok db') :
    E.load db now source entry make = ⟨db', .ok p, false, true⟩ := by
  simp only [Engine.load, hget, hp, hput]

/-- Columns that cannot be read are reported. Nothing is compiled and nothing is changed. -/
theorem Executes.load_illegible (hE : Executes E V) (h : V.ready db) {message : String}
    (hread : (contents (V.rows db)).read E source entry = .error message) (now : Int)
    (make : E.Database → Except CompileError Code.Program × E.Database) :
    E.load db now source entry make =
      ⟨db, .error (.cache ⟨.reading, message⟩), false, false⟩ := by
  have hget : E.get db source entry = .error ⟨.reading, message⟩ := by
    rw [hE.get_eq h, hread]
    rfl
  rw [Engine.load, hget]

/-- Loading keeps the invariant. The compiler may use the cache itself, and may leave it changed. -/
theorem Lawful.load (h : Lawful V compile used outside db) (hE : Executes E V)
    (hu : used source entry) (hmake : (make db).1 = compile source entry)
    (hinner : Lawful V compile used outside (make db).2) (now : Int) :
    Lawful V compile used outside (E.load db now source entry make).cache := by
  cases hread : (contents (V.rows db)).read E source entry with
  | error message => rwa [hE.load_illegible h.ready hread]
  | ok l =>
    have hget := hE.get_eq_ok h.ready hread
    cases hfound : (contents (V.rows db)).program? E source entry with
    | some p => rwa [load_hit (hget.trans (congrArg _ hfound))]
    | none =>
      rw [hfound] at hget
      cases hc : compile source entry with
      | error e => rwa [load_failed hget (hmake.trans hc)]
      | ok p =>
        obtain ⟨db', hput, hready, hrows⟩ := hE.put_eq hinner.ready now source entry p
        rw [load_made hget (hmake.trans hc) hput]
        exact hinner.stored hu hc hready hrows

end Cache

end Stackling
