import Stackling.Command.Trace

/-!
# Dialogues with the surroundings

A command reads and writes files, keeps a cache and talks on two streams. What it does is a value:
a `Dialogue` says what the command asks for next and how it goes on with the answer, so that
commands are pure functions and whoever carries out a dialogue decides what the files and the clock
are. There are two who do: `Dialogue.onDisk` in memory, and the program itself.
-/

namespace Stackling.Command

/-- Why a file cannot be read or written. -/
inductive FileError where
  | missing
  | isDirectory
  | notDirectory
  | denied
  | other (text : String)
  deriving DecidableEq, Repr

namespace FileError

/-- The words for an error. -/
def reason : FileError → String
  | missing => "no such file or directory"
  | isDirectory => "is a directory"
  | notDirectory => "not a directory"
  | denied => "permission denied"
  | other text => text

/-- The message when reading fails. A directory can be opened, but not read. -/
def readMessage (path : String) (e : FileError) : String :=
  (if e = isDirectory then "read " else "open ") ++ path ++ ": " ++ e.reason

/-- The message when writing fails. -/
def writeMessage (path : String) (e : FileError) : String := "open " ++ path ++ ": " ++ e.reason

end FileError

/-- Why a cache cannot be opened. -/
inductive CacheFault where
  | unreachable
  | notCache
  deriving DecidableEq, Repr

/-- The message when a cache cannot be opened. -/
def CacheFault.message : CacheFault → String
  | unreachable => "unable to open database file: out of memory (14)"
  | notCache => "file is not a database (26)"

/-- What a command does up to a result of type `α`. -/
inductive Dialogue (α : Type) : Type where
  | done (result : α)
  /-- writes to the output -/
  | print (text : Bytes) (next : Dialogue α)
  /-- writes to the error stream -/
  | complain (text : Bytes) (next : Dialogue α)
  /-- writes a remark to the error stream, with the time of day -/
  | remark (e : Event) (next : Dialogue α)
  | read (path : String) (next : Except FileError Bytes → Dialogue α)
  | write (path : String) (content : Bytes) (next : Except FileError Unit → Dialogue α)
  /-- opens a cache; also tells the time, in seconds -/
  | openCache (path : String) (next : Except CacheFault Cache → Int → Dialogue α)
  | storeCache (path : String) (c : Cache) (next : Dialogue α)

namespace Dialogue

/-- Goes on with the result of a dialogue. -/
def bind {α β : Type} (d : Dialogue α) (f : α → Dialogue β) : Dialogue β :=
  match d with
  | done a => f a
  | print text next => print text (bind next f)
  | complain text next => complain text (bind next f)
  | remark e next => remark e (bind next f)
  | read path next => read path fun r => bind (next r) f
  | write path content next => write path content fun r => bind (next r) f
  | openCache path next => openCache path fun c now => bind (next c now) f
  | storeCache path c next => storeCache path c (bind next f)

instance : Monad Dialogue where
  pure := done
  bind := bind

/-- Writes to the output. -/
def say (text : Bytes) : Dialogue Unit := print text (done ())

/-- Writes to the error stream. -/
def warn (text : Bytes) : Dialogue Unit := complain text (done ())

/-- Writes those of the remarks that a trace of the given level tells. -/
def tell (level : Level) : List Event → Dialogue Unit
  | [] => done ()
  | e :: es => if level.tells e.level then remark e (tell level es) else tell level es

/-- Reads a file. -/
def readFile (path : String) : Dialogue (Except FileError Bytes) := read path done

/-- Writes a file. -/
def writeFile (path : String) (content : Bytes) : Dialogue (Except FileError Unit) :=
  write path content done

end Dialogue

end Stackling.Command
