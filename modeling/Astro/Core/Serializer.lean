import Astro.Library.Cursor
import Astro.Library.LittleEndian
import Astro.Core.Env

/-!
# serializer.hpp

`ByteWriter` appends fixed-width little-endian numbers and length-prefixed
byte strings to a buffer; `ByteReader` reads them back and throws
`SerializeError` when the buffer is too short.
-/

namespace Astro

open LittleEndian (shiftBytes orBytes)
open Cursor (Reader)

-- ---------------------------------------------------------------------------
-- ByteWriter
-- ---------------------------------------------------------------------------

structure ByteWriter where
  buffer : Bytes := []

namespace ByteWriter

def writeLeValue (w : ByteWriter) (size value : Nat) : ByteWriter :=
  { w with buffer := w.buffer ++ shiftBytes size value }

def writeU8 (w : ByteWriter) (value : UInt8) : ByteWriter :=
  { w with buffer := w.buffer ++ [value] }
def writeU32 (w : ByteWriter) (value : UInt32) : ByteWriter := w.writeLeValue 4 value.toNat
def writeU64 (w : ByteWriter) (value : UInt64) : ByteWriter := w.writeLeValue 8 value.toNat

def writeRaw (w : ByteWriter) (bytes : Bytes) : ByteWriter := { w with buffer := w.buffer ++ bytes }

/-- The length is cast to `uint32_t`: a longer string gets a truncated prefix. -/
def writeBytes (w : ByteWriter) (bytes : Bytes) : ByteWriter :=
  (w.writeU32 (UInt32.ofNat bytes.length)).writeRaw bytes

def writeString (w : ByteWriter) (str : Bytes) : ByteWriter :=
  (w.writeU32 (UInt32.ofNat str.length)).writeRaw str

def take (w : ByteWriter) : Bytes := w.buffer

end ByteWriter

-- ---------------------------------------------------------------------------
-- ByteReader
-- ---------------------------------------------------------------------------

/-- `src_` and `pos_`. -/
abbrev ByteReader := Cursor UInt8

/-- A sequence of calls on a `ByteReader`. -/
abbrev Decode (α : Type) := Reader Exn UInt8 α

namespace ByteReader

/-- `src_.size() - pos_`, which wraps around when the position is past the end. -/
def remainingBytes (r : ByteReader) : Nat :=
  if r.pos ≤ r.src.length then r.src.length - r.pos else 2 ^ 64 - (r.pos - r.src.length)

def truncated : Exn := .serializeError "deserialize: truncated/invalid buffer"

def ensure (condition : Bool) : Decode Unit :=
  if condition then pure () else Reader.fail truncated

/-- The loop of `read_value`, with `i` bytes read so far and `n` to go. -/
def readLoop : (n i value : Nat) → Decode Nat
  | 0, _, value => pure value
  | n + 1, i, value => do
    let byte ← Reader.next .outOfBounds
    readLoop n (i + 1) (value ||| (byte.toNat <<< (8 * i)))

def readValue (size : Nat) : Decode Nat := do
  let r ← Reader.get
  ensure (size ≤ remainingBytes r)
  readLoop size 0 0

def readU8 : Decode UInt8 := do return UInt8.ofNat (← readValue 1)
def readU32 : Decode UInt32 := do return UInt32.ofNat (← readValue 4)
def readU64 : Decode UInt64 := do return UInt64.ofNat (← readValue 8)

def readBytes : Decode Bytes := do
  let len ← readU32
  let r ← Reader.get
  ensure (len.toNat ≤ remainingBytes r)
  Reader.slice .outOfBounds len.toNat

def readString : Decode Bytes := do
  let len ← readU32
  let r ← Reader.get
  ensure (len.toNat ≤ remainingBytes r)
  Reader.slice .outOfBounds len.toNat

end ByteReader

end Astro
