import Stackling.Text.Utf8
import Stackling.Text.Utf16

/-!
# Source files

A source file says with its first bytes how it is encoded: `FF FE` and `FE FF` are UTF-16 in
either order, `EF BB BF` is UTF-8, and the mark is dropped. Without a mark it is UTF-8.

The decoding itself is left to a library of decoders (`Decoders`). `standard` is the one that is
used. It never fails: ill-formed pieces are replaced, except behind the mark of UTF-8, where the
bytes are taken as they are.
-/

namespace Stackling.Source

/-- The marks that a file may start with. -/
inductive Mark where
  | utf8
  | utf16 (o : Utf16.Order)
  deriving DecidableEq, Repr

/-- The bytes of a mark. -/
def Mark.bytes : Mark → Bytes
  | utf8 => [0xEF, 0xBB, 0xBF]
  | utf16 .little => [0xFF, 0xFE]
  | utf16 .big => [0xFE, 0xFF]

/-- A library of decoders, which turn bytes into UTF-8. -/
structure Decoders where
  Decoder : Type
  /-- the decoder for UTF-8 -/
  utf8 : Decoder
  /-- the decoder for what is behind a mark -/
  behind : Mark → Decoder
  /-- the decoder that goes by the mark, and without one does as the given decoder -/
  override : Decoder → Decoder
  /-- what a decoder makes of bytes, or why it fails -/
  run : Decoder → Bytes → Except String Bytes

/-- The text of a source file, as UTF-8. -/
def read (lib : Decoders) (data : Bytes) : Except String Bytes :=
  (lib.run (lib.override lib.utf8) data).mapError ("decoding source: " ++ ·)

/-! ## The standard decoders -/

/-- The standard decoders. -/
inductive Standard where
  | utf8
  | behind (m : Mark)
  | override (fallback : Standard)

/-- What is behind a mark. UTF-8 is taken as it is. -/
def Mark.decode : Mark → Bytes → Bytes
  | utf8, bs => bs
  | utf16 o, bs => Utf8.encode (Utf16.decode o bs)

/-- What a standard decoder makes of bytes. -/
def Standard.run : Standard → Bytes → Bytes
  | utf8, bs => Utf8.repair bs
  | behind m, bs => m.decode bs
  | override _, 0xFF :: 0xFE :: rest => Mark.decode (.utf16 .little) rest
  | override _, 0xFE :: 0xFF :: rest => Mark.decode (.utf16 .big) rest
  | override _, 0xEF :: 0xBB :: 0xBF :: rest => Mark.decode .utf8 rest
  | override fallback, bs => fallback.run bs

/-- The standard decoders as a library. -/
def standard : Decoders where
  Decoder := Standard
  utf8 := .utf8
  behind := .behind
  override := .override
  run d bs := .ok (d.run bs)

/-- The text of a source file as the standard decoders read it. -/
def decode (data : Bytes) : Bytes := (Standard.override .utf8).run data

end Stackling.Source
