import Stackling.Cache

/-!
# Database files

A table of programs may be in a file that a SQLite database engine has written. Such a file is a
sequence of pages of one size. The pages of a table form a tree whose leaves hold the rows, and a
row that is too long for its leaf goes on in pages of its own. The first page begins with a header,
and behind it is the table of all tables.
-/

namespace Stackling.Cache.Database

/-- How a database file begins. -/
def magic : Bytes := Bytes.ofString "SQLite format 3\x00"

/-- A number with the most significant byte first. -/
def number (bs : Bytes) : Nat := bs.foldl (fun n b => 256 * n + b.toNat) 0

/-- A number that may be negative, in two's complement. -/
def signed (bs : Bytes) : Int :=
  let limit : Nat := 1 <<< (8 * bs.length)
  if 2 * number bs < limit then number bs else (number bs : Int) - limit

/-- The `n` bytes from an offset on. -/
def slice? (bs : Bytes) (offset n : Nat) : Option Bytes :=
  let part := (bs.drop offset).take n
  if part.length = n then some part else none

/-- The numbers that follow each other, in groups of seven bits. The highest bit of a byte says that
the number goes on, except in a ninth byte, which is the last and whole. `n` is what the `count`
bytes before are worth. -/
def groups? (n count : Nat) : Bytes → Option (List Nat)
  | [] => if count = 0 then some [] else none
  | b :: bs =>
    if count = 8 then (groups? 0 0 bs).map ((256 * n + b.toNat) :: ·)
    else if b < 128 then (groups? 0 0 bs).map ((128 * n + b.toNat) :: ·)
    else groups? (128 * n + (b.toNat - 128)) (count + 1) bs

/-- The first such number, and what is behind it. -/
def group? (n count : Nat) : Bytes → Option (Nat × Bytes)
  | [] => none
  | b :: bs =>
    if count = 8 then some (256 * n + b.toNat, bs)
    else if b < 128 then some (128 * n + b.toNat, bs)
    else group? (128 * n + (b.toNat - 128)) (count + 1) bs

/-! ## Rows -/

/-- The value of a column with the given type code, and what is behind it. -/
def value? (type : Nat) (bs : Bytes) : Option (Cell × Bytes) :=
  let take (n : Nat) (f : Bytes → Cell) : Option (Cell × Bytes) :=
    (slice? bs 0 n).map fun part => (f part, bs.drop n)
  match type with
  | 0 => some (.null, bs)
  | 5 => take 6 fun part => .integer (signed part)
  | 6 => take 8 fun part => .integer (signed part)
  | 7 => take 8 fun part => .real (UInt64.ofNat (number part))
  | 8 => some (.integer 0, bs)
  | 9 => some (.integer 1, bs)
  | 10 | 11 => none
  | n =>
    if n < 5 then take n fun part => .integer (signed part)
    else take ((n - 12) / 2) (if n % 2 = 0 then .blob else .text)

/-- The values of columns one after the other. -/
def values? : List Nat → Bytes → Option (List Cell)
  | [], _ => some []
  | type :: types, bs => do
    let (v, rest) ← value? type bs
    return v :: (← values? types rest)

/-- The columns of a row: the codes of their types, with the length of it all in front, and then the
values. -/
def columns? (row : Bytes) : Option (List Cell) := do
  let (length, rest) ← group? 0 0 row
  let codes := rest.take (length - (row.length - rest.length))
  values? (← groups? 0 0 codes) (row.drop length)

/-! ## Pages -/

/-- A file in pages. The end of each page may be reserved for others. -/
structure File where
  bytes : Bytes
  pageSize : Nat
  usable : Nat

namespace File

/-- A file that has the header of a database. -/
def ofBytes? (bytes : Bytes) : Option File := do
  if !magic.isPrefixOf bytes then none
  let size := number (← slice? bytes 16 2)
  let pageSize := if size = 1 then 0x10000 else size
  return ⟨bytes, pageSize, pageSize - number (← slice? bytes 20 1)⟩

/-- A page. They are counted from one. -/
def page? (f : File) (page : Nat) : Option Bytes :=
  if page = 0 then none else slice? f.bytes ((page - 1) * f.pageSize) f.pageSize

/-- The `n` bytes that are in a chain of pages, each of which begins with the number of the next. -/
def chained? (f : File) (n page : Nat) : Option Bytes := do
  let bs ← f.page? page
  if _h : n ≤ f.usable - 4 ∨ f.usable ≤ 4 then slice? bs 4 n
  else
    let next ← slice? bs 0 4
    return (← slice? bs 4 (f.usable - 4)) ++ (← f.chained? (n - (f.usable - 4)) (number next))
termination_by n

/-- A row of `n` bytes. If it is too long, most of it is in other pages, and the number of the first
of them is behind what is here. -/
def row? (f : File) (n : Nat) (bs : Bytes) : Option Bytes := do
  if n ≤ f.usable - 35 then slice? bs 0 n
  else
    let least := (f.usable - 12) * 32 / 255 - 23
    let most := least + (n - least) % (f.usable - 4)
    let here := if most ≤ f.usable - 35 then most else least
    return (← slice? bs 0 here) ++ (← f.chained? (n - here) (number (← slice? bs here 4)))

/-- The `count` offsets that are listed in a page. -/
def offsets? (page : Bytes) (start count : Nat) : Option (List Nat) :=
  (List.range count).mapM fun i => (slice? page (start + 2 * i) 2).map number

/-- The rows of the tree below a page, which has so many levels at most. -/
def rows? (f : File) : (levels page : Nat) → Option (List (List Cell))
  | 0, _ => none
  | levels + 1, page => do
    let bs ← f.page? page
    let start := if page = 1 then 100 else 0
    let kind := number (← slice? bs start 1)
    let count := number (← slice? bs (start + 3) 2)
    if kind = 13 then
      (← offsets? bs (start + 8) count).mapM fun offset => do
        let (length, rest) ← group? 0 0 (bs.drop offset)
        -- The number of the row is of no use here.
        let (_, rest) ← group? 0 0 rest
        columns? (← f.row? length rest)
    else if kind = 5 then
      let children ← (← offsets? bs (start + 12) count).mapM fun offset => slice? bs offset 4
      let last ← slice? bs (start + 8) 4
      return (← (children ++ [last]).mapM fun child => f.rows? levels (number child)).flatten
    else none

end File

/-- The levels that a tree may have. -/
def maxLevels : Nat := 20

/-- The first page of the table of programs, if there is such a table. -/
def root? (tables : List (List Cell)) : Option Nat :=
  tables.findSome? fun
    | [.text type, .text name, _, .integer root, _] =>
      if type = Bytes.ofString "table" ∧ name = Bytes.ofString "programs" then some root.toNat
      else none
    | _ => none

/-- The row of the table of programs that has the given columns. -/
def ofColumns? : List Cell → Option Row
  | [key, version, code, created] => some ⟨key, version, code, created⟩
  | _ => none

/-- The cache in a database file. -/
def read? (bytes : Bytes) : Option Cache := do
  let f ← File.ofBytes? bytes
  match root? (← f.rows? maxLevels 1) with
  | none => return .empty
  | some root => return ⟨← (← f.rows? maxLevels root).mapM ofColumns?, true⟩

end Stackling.Cache.Database
