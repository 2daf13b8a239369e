import Stackling.Cache.Database

/-!
# Caches as files

A cache is kept in a text file: a line that says what the file is, and a line for every row with its
key, its version, its code and its moment. A value is written as a letter for its type and, behind
it, the number or the bytes in hexadecimal digits. A database file is read too.
-/

namespace Stackling.Cache

/-- The first line of a cache file. -/
def fileHeader : String := "stackling cache"

/-- A value as a word. -/
def Cell.toWord : Cell → String
  | null => "n"
  | integer v => "i" ++ toString v
  | real bits => "r" ++ toString bits.toNat
  | text bs => "t" ++ bs.toHex
  | blob bs => "b" ++ bs.toHex

/-- The value that a word stands for. -/
def Cell.ofWord? (word : String) : Option Cell :=
  match word.toList with
  | ['n'] => some null
  | 'i' :: digits => (String.ofList digits).toInt?.map integer
  | 'r' :: digits => (String.ofList digits).toNat?.map fun n => real (UInt64.ofNat n)
  | 't' :: digits => (Bytes.ofHex? (String.ofList digits)).map text
  | 'b' :: digits => (Bytes.ofHex? (String.ofList digits)).map blob
  | _ => none

/-- The line of a row. -/
def Row.toLine (r : Row) : String :=
  " ".intercalate ([r.key, r.version, r.code, r.created].map Cell.toWord)

/-- The row that a line holds. -/
def Row.ofLine? (line : String) : Option Row :=
  match (line.splitOn " ").mapM Cell.ofWord? with
  | some [key, version, code, created] => some ⟨key, version, code, created⟩
  | _ => none

/-- The text of a cache file. -/
def toFile (c : Cache) : String :=
  String.join ((fileHeader :: c.rows.map Row.toLine).map (· ++ "\n"))

/-- The cache that the lines of a file hold. -/
def ofLines? : List String → Option Cache
  | [] => none
  | header :: lines =>
    if header = fileHeader then (lines.mapM Row.ofLine?).map fun rows => ⟨rows, true⟩ else none

/-- The cache that a file holds. An empty file holds an empty cache. -/
def ofFile? (content : Bytes) : Option Cache :=
  if content.isEmpty then some .empty
  else if Database.magic.isPrefixOf content then Database.read? content
  else ofLines? (((String.ofList (Utf8.decode content)).splitOn "\n").filter (· ≠ ""))

end Stackling.Cache
