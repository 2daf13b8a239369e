import Stackling.Command.Number
import Stackling.Pipeline
import Stackling.Sha256
import Stackling.Text.Quoted

/-!
# The cache of compiled programs

A cache keeps the images of compiled programs under the digest of what they were compiled from. It
never makes an answer wrong: an image of another format version, or one that cannot be read, is as
good as none. Someone else may write to the rows, so both can happen.

The rows are in a table of a database, and what is done with the table is left to a database engine
(`Engine`). The columns of a row are declared to hold a text, two numbers and bytes, but the engine
lets others write any values there, and rows without a key too. A version that is no number cannot
be read, and then looking for the program fails.

`Cache` is a table that is kept in memory, and `memory` is the engine for it. It is closed when its
user is done with it, and refuses work from then on.
-/

namespace Stackling

/-- The name of a compilation: what it was compiled from, in hexadecimal digits. The zero byte keeps
the entry and the source apart. -/
def cacheKey (source entry : Bytes) : String :=
  (Sha256.digest (entry ++ 0 :: source)).toHex

namespace Cache

/-- The version of the format that rows are written in. -/
def formatVersion : Int := 1

/-- A value in a column. -/
inductive Cell where
  | null
  | integer (v : Int)
  /-- a floating-point number, by its bits -/
  | real (bits : UInt64)
  | text (bs : Bytes)
  | blob (bs : Bytes)
  deriving DecidableEq, Repr

/-- A stored program. -/
structure Row where
  key : Cell
  version : Cell
  code : Cell
  /-- when it was stored, in seconds -/
  created : Cell
  deriving DecidableEq, Repr

/-- The sum of what a table holds. -/
structure Stats where
  entries : Nat
  bytes : Nat
  deriving DecidableEq, Repr

/-- A database engine: the statements about a table of programs, and how columns are read. Whatever
is asked for may fail, with a message. -/
structure Engine where
  Database : Type
  /-- version and code of the row under a key -/
  select : Database → Cell → Except String (Option (Cell × Cell))
  /-- stores a row in place of any under its key -/
  replace : Database → Row → Except String Database
  /-- counts the rows and adds up the lengths of their code -/
  count : Database → Except String Stats
  /-- removes the rows from before a moment, or all; says how many there were -/
  delete : Database → Option Int → Except String (Database × Nat)
  /-- reads a column as a number -/
  toInt : Cell → Except String Int
  /-- reads a column as bytes -/
  toBytes : Cell → Except String Bytes

/-! ## Failures -/

/-- What was being done with a cache when the database failed. -/
inductive Activity where
  | reading
  | writing
  | counting
  | purging
  deriving DecidableEq, Repr

/-- An activity as a message names it. -/
def Activity.text : Activity → String
  | reading => "reading bytecode cache"
  | writing => "writing bytecode cache"
  | counting => "reading bytecode cache stats"
  | purging => "purging bytecode cache"

/-- A failure of the database. -/
structure Fault where
  activity : Activity
  message : String
  deriving DecidableEq, Repr

/-- The report of a failure. -/
def Fault.report (f : Fault) : Report :=
  ⟨[Bytes.ofString f.activity.text], .other (Bytes.ofString f.message)⟩

/-- Why a program could not be loaded. -/
inductive LoadError where
  | cache (f : Fault)
  | compile (e : CompileError)
  deriving DecidableEq, Repr

/-- The report of a failed load. -/
def LoadError.report : LoadError → Report
  | cache f => f.report
  | compile e => e.report

/-! ## Operations -/

/-- What is stored for a compilation. -/
inductive Lookup where
  | absent
  | otherVersion (version : Int)
  | unreadable (e : Code.FormatError)
  | found (p : Code.Program)
  deriving Repr

/-- The program that was found. -/
def Lookup.program? : Lookup → Option Code.Program
  | found p => some p
  | _ => none

/-- What a version and an image say about a program. -/
def Lookup.ofImage (version : Int) (image : Bytes) : Lookup :=
  if version ≠ formatVersion then .otherVersion version
  else match Code.Image.decode image with
    | .error e => .unreadable e
    | .ok p => .found p

/-- The key of a compilation in the table. -/
def keyCell (source entry : Bytes) : Cell := .text (Bytes.ofString (cacheKey source entry))

/-- The row of a program. -/
def rowOf (now : Int) (source entry : Bytes) (p : Code.Program) : Row :=
  ⟨keyCell source entry, .integer formatVersion, .blob (Code.Image.encode p), .integer now⟩

/-- What loading a program came to. -/
structure Loaded (Database : Type) where
  /-- the database afterwards -/
  cache : Database
  /-- the program -/
  result : Except LoadError Code.Program
  /-- was it stored already? -/
  hit : Bool
  /-- was the compiler asked? -/
  compiled : Bool

namespace Engine

variable (E : Engine)

/-- What two columns say about a program. Both are read before either is looked at. -/
def scan (version code : Cell) : Except String Lookup := do
  let version ← E.toInt version
  let image ← E.toBytes code
  return .ofImage version image

/-- What the table says about a compilation. -/
def lookup (db : E.Database) (source entry : Bytes) : Except String Lookup := do
  match ← E.select db (keyCell source entry) with
  | none => return .absent
  | some (version, code) => E.scan version code

/-- The stored program of a compilation. -/
def get (db : E.Database) (source entry : Bytes) : Except Fault (Option Code.Program) :=
  ((E.lookup db source entry).map Lookup.program?).mapError (⟨.reading, ·⟩)

/-- Stores the program of a compilation. -/
def put (db : E.Database) (now : Int) (source entry : Bytes) (p : Code.Program) :
    Except Fault E.Database :=
  (E.replace db (rowOf now source entry p)).mapError (⟨.writing, ·⟩)

/-- The program of a compilation: the stored one or, failing that, the one that `compile` makes,
which is stored then. `compile` is handed the database and gives it back, for it may use it. -/
def load (db : E.Database) (now : Int) (source entry : Bytes)
    (compile : E.Database → Except CompileError Code.Program × E.Database) : Loaded E.Database :=
  match E.get db source entry with
  | .error f => ⟨db, .error (.cache f), false, false⟩
  | .ok (some p) => ⟨db, .ok p, true, false⟩
  | .ok none =>
    let (made, db) := compile db
    match made with
    | .error e => ⟨db, .error (.compile e), false, true⟩
    | .ok p =>
      match E.put db now source entry p with
      | .error f => ⟨db, .error (.cache f), false, true⟩
      | .ok db => ⟨db, .ok p, false, true⟩

end Engine

end Cache

/-! ## Tables in memory -/

/-- A table in memory: its rows, no two under one key, and whether it is open. -/
structure Cache where
  rows : List Cache.Row
  isOpen : Bool
  deriving DecidableEq, Repr

namespace Cache

/-- The number that the bits of a column stand for. -/
def Cell.float (bits : UInt64) : Float := Float.ofBits bits

/-- The length of a value: bytes are counted in bytes, everything else in characters. -/
def Cell.length : Cell → Nat
  | null => 0
  | integer v => (toString v).length
  | real bits => (toString (float bits)).length
  | text bs => (Utf8.decode bs).length
  | blob bs => bs.length

/-- Is a value less than a number? Texts and bytes come after all numbers. -/
def Cell.before (cutoff : Int) : Cell → Bool
  | integer v => v < cutoff
  | real bits => float bits < Float.ofInt cutoff
  | null | text _ | blob _ => false

/-- A value as a number. What is no integer is read as one if it is written like one. -/
def Cell.toInt : Cell → Except String Int
  | integer v => .ok v
  | null => fault "NULL to int is unsupported"
  | real bits => written "float64" (.ofString (toString (float bits)))
  | text bs => written "string" bs
  | blob bs => written "[]uint8" bs
where
  /-- A version that cannot be read. -/
  fault (what : String) : Except String Int :=
    .error ("sql: Scan error on column index 0, name \"version\": converting " ++ what)
  /-- A version that is written as a text. -/
  written (type : String) (value : Bytes) : Except String Int :=
    match Command.Number.decimal (Utf8.decode value) with
    | .ok v => .ok v
    | .error e => fault ("driver.Value type " ++ type ++ " (" ++ Quoted.bytes value ++
        ") to a int: " ++ if e = .malformed then "invalid syntax" else "value out of range")

/-- A value as bytes. -/
def Cell.toBytes : Cell → Bytes
  | null => []
  | integer v => .ofString (toString v)
  | real bits => .ofString (toString (float bits))
  | text bs | blob bs => bs

/-- A new cache. -/
def empty : Cache := ⟨[], true⟩

/-- Does something with an open cache. -/
def whenOpen {α : Type} (c : Cache) (result : α) : Except String α :=
  if c.isOpen then .ok result else .error "sql: database is closed"

/-- The row under a key. There is none under `null`. -/
def row? (c : Cache) (key : Cell) : Option Row :=
  c.rows.find? fun r => r.key ≠ .null ∧ r.key = key

/-- The rows with one more in place of any under the same key. -/
def insert (c : Cache) (r : Row) : Cache :=
  { c with rows := c.rows.filter (fun s => s.key = .null ∨ s.key ≠ r.key) ++ [r] }

/-- The rows that are left when those from before a moment are removed, or all. -/
def kept (c : Cache) (cutoff : Option Int) : Cache :=
  { c with rows := c.rows.filter fun r => (cutoff.map fun t => !r.created.before t).getD false }

/-- The engine for tables in memory. -/
def memory : Engine where
  Database := Cache
  select c key := c.whenOpen ((c.row? key).map fun r => (r.version, r.code))
  replace c r := c.whenOpen (c.insert r)
  count c := c.whenOpen ⟨c.rows.length, (c.rows.map fun r => r.code.length).foldr (· + ·) 0⟩
  delete c cutoff := c.whenOpen (c.kept cutoff, c.rows.length - (c.kept cutoff).rows.length)
  toInt := Cell.toInt
  toBytes v := .ok v.toBytes

/-- What the table says about a compilation. -/
def lookup (c : Cache) (source entry : Bytes) : Except String Lookup := memory.lookup c source entry

/-- The stored program of a compilation. -/
def get (c : Cache) (source entry : Bytes) : Except Fault (Option Code.Program) :=
  memory.get c source entry

/-- Stores the program of a compilation. -/
def put (c : Cache) (now : Int) (source entry : Bytes) (p : Code.Program) : Except Fault Cache :=
  memory.put c now source entry p

/-- The program of a compilation, stored or made. -/
def load (c : Cache) (now : Int) (source entry : Bytes)
    (compile : Cache → Except CompileError Code.Program × Cache) : Loaded Cache :=
  memory.load c now source entry compile

/-- A cache that refuses work. -/
def close (c : Cache) : Cache := { c with isOpen := false }

/-- A cache that works again. -/
def reopen (c : Cache) : Cache := { c with isOpen := true }

/-- Changes the row of a compilation behind the cache's back. Gives the number of rows changed. -/
def tamper (c : Cache) (source entry : Bytes) (change : Row → Row) : Cache × Nat :=
  let key := keyCell source entry
  ({ c with rows := c.rows.map fun r => if r.key = key then change r else r },
   (c.rows.filter fun r => r.key = key).length)

end Cache

end Stackling
