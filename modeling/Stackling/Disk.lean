import Stackling.Cache.File
import Stackling.Command.Dialogue

/-!
# Files in memory

A `Disk` is a tree of files below one directory. A path is a list of names; a directory exists as
long as there is a file below it, and the topmost one always does. `Dialogue.onDisk` carries out a
dialogue on a disk and keeps what it says.
-/

namespace Stackling

open Command (FileError CacheFault Dialogue)

/-- Files and caches by the names that lead to them. -/
structure Disk where
  files : List (List String × Bytes)
  caches : List (List String × Cache)
  deriving Repr

namespace Disk

/-- The names that lead to a path from the topmost directory. -/
def names (path : String) : List String :=
  (path.splitToList (· = '/')).foldl (fun names part =>
    if part = "" || part = "." then names
    else if part = ".." then names.dropLast
    else names ++ [part]) []

/-- The path that names spell. -/
def spell (names : List String) : String := "/".intercalate names

/-- Files given by their paths. -/
def ofFiles (files : List (String × Bytes)) : Disk :=
  ⟨files.map fun f => (names f.1, f.2), []⟩

/-- The file that names lead to. -/
def file? (d : Disk) (names : List String) : Option Bytes := d.files.lookup names

/-- Is there a directory where names lead to? -/
def isDirectory (d : Disk) (names : List String) : Bool :=
  names.isEmpty ||
    (d.files.map (·.1) ++ d.caches.map (·.1)).any fun other =>
      names.isPrefixOf other && names.length < other.length

/-- Why nothing is found where names lead to: a file stands in the way, or nothing does. -/
def absence (d : Disk) (names : List String) : FileError :=
  if (List.range names.length).any fun n => (d.file? (names.take n)).isSome then .notDirectory
  else .missing

/-- The fault of a path as such: it is empty, or leads away from the topmost directory, or asks for
a directory with a slash at its end. -/
def pathFault? (d : Disk) (path : String) : Option FileError :=
  if path = "" || path.startsWith "/" then some .missing
  else if path.endsWith "/" && (d.file? (names path)).isSome then some .notDirectory
  else none

/-- Reads a file. -/
def read (d : Disk) (path : String) : Except FileError Bytes :=
  match d.pathFault? path with
  | some e => .error e
  | none =>
    if d.isDirectory (names path) then .error .isDirectory
    else match d.file? (names path) with
      | some content => .ok content
      | none => .error (d.absence (names path))

/-- Why a file cannot be written. -/
def writeFault? (d : Disk) (path : String) : Option FileError :=
  match d.pathFault? path with
  | some e => some e
  | none =>
    let names := names path
    if d.isDirectory names || path.endsWith "/" then some .isDirectory
    else if d.isDirectory names.dropLast then none
    else some (d.absence names)

/-- Writes a file. -/
def write (d : Disk) (path : String) (content : Bytes) : Except FileError Disk :=
  match d.writeFault? path with
  | some e => .error e
  | none =>
    let names := names path
    .ok { d with files := d.files.filter (fun f => f.1 != names) ++ [(names, content)] }

/-- The path of a cache that is not kept. -/
def transientCache : String := ":memory:"

/-- Opens a cache: the one that is there, or a new one. -/
def openCache (d : Disk) (path : String) : Except CacheFault Cache :=
  if path = transientCache then .ok .empty
  else
    match d.caches.lookup (names path) with
    | some c => .ok c.reopen
    | none =>
      if (d.writeFault? path).isSome then .error .unreachable
      else
        match Cache.ofFile? ((d.file? (names path)).getD []) with
        | some c => .ok c
        | none => .error .notCache

/-- Keeps a cache. -/
def storeCache (d : Disk) (path : String) (c : Cache) : Disk :=
  if path = transientCache then d
  else
    let names := names path
    { d with caches := d.caches.filter (fun f => f.1 != names) ++ [(names, c.close)] }

/-- The files of a disk that another does not have in the same form. -/
def changedSince (d before : Disk) : List (String × Bytes) :=
  (d.files.filter fun f => before.file? f.1 != some f.2).map fun f => (spell f.1, f.2)

end Disk

namespace Command

/-- What a dialogue on a disk leaves. -/
structure Outcome (α : Type) where
  result : α
  output : Bytes
  errors : Bytes
  disk : Disk

namespace Outcome

/-- An outcome after something was written to the output. -/
def afterPrint {α : Type} (text : Bytes) (o : Outcome α) : Outcome α :=
  { o with output := text ++ o.output }

/-- An outcome after something was written to the error stream. -/
def afterComplaint {α : Type} (text : Bytes) (o : Outcome α) : Outcome α :=
  { o with errors := text ++ o.errors }

end Outcome

/-- Carries out a dialogue on a disk at a given moment, which is also given as a time of day. -/
def Dialogue.onDisk {α : Type} (now : Int) (time : String) (disk : Disk) : Dialogue α → Outcome α
  | .done result => ⟨result, [], [], disk⟩
  | .print text next => (next.onDisk now time disk).afterPrint text
  | .complain text next => (next.onDisk now time disk).afterComplaint text
  | .remark e next => (next.onDisk now time disk).afterComplaint (e.line time)
  | .read path next => (next (disk.read path)).onDisk now time disk
  | .write path content next =>
    match disk.write path content with
    | .ok disk => (next (.ok ())).onDisk now time disk
    | .error e => (next (.error e)).onDisk now time disk
  | .openCache path next => (next (disk.openCache path) now).onDisk now time disk
  | .storeCache path c next => next.onDisk now time (disk.storeCache path c)

end Command

end Stackling
