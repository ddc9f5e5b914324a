import Astro.Core.SerializerLaws

/-!
# Any sequence of fields

A schema is a list of kinds of fields. Whatever fields are written, reading
the kinds of them gives them back, and stops where they end.
-/

namespace Astro

open LittleEndian (toLE)
open ByteReader
open ByteWriter (lengthPrefixed)
open Cursor.Reader

/-- A call on a `ByteWriter`. -/
inductive Field
  | u8 (value : UInt8)
  | u32 (value : UInt32)
  | u64 (value : UInt64)
  | bytes (value : Bytes)
  | string (value : Bytes)
  | raw (value : Bytes)
  deriving DecidableEq

inductive Kind
  | u8
  | u32
  | u64
  | bytes
  | string
  | raw (size : Nat)
  deriving DecidableEq

namespace Field

def kind : Field → Kind
  | u8 _ => .u8
  | u32 _ => .u32
  | u64 _ => .u64
  | bytes _ => .bytes
  | string _ => .string
  | raw value => .raw value.length

def write (writer : ByteWriter) : Field → ByteWriter
  | u8 value => writer.writeU8 value
  | u32 value => writer.writeU32 value
  | u64 value => writer.writeU64 value
  | bytes value => writer.writeBytes value
  | string value => writer.writeString value
  | raw value => writer.writeRaw value

/-- A length that is written fits its prefix. -/
def Fits : Field → Prop
  | bytes value | string value => value.length < 2 ^ 32
  | _ => True

instance : DecidablePred Fits
  | u8 _ | u32 _ | u64 _ | raw _ => isTrue trivial
  | bytes value | string value => inferInstanceAs (Decidable (value.length < 2 ^ 32))

def written : Field → Bytes
  | u8 value => [value]
  | u32 value => toLE 4 value.toNat
  | u64 value => toLE 8 value.toNat
  | bytes value | string value => lengthPrefixed value
  | raw value => value

theorem buffer_write (field : Field) (writer : ByteWriter) :
    (field.write writer).buffer = writer.buffer ++ field.written := by
  cases field <;> simp [write, written]

end Field

def writeFields (writer : ByteWriter) (fields : List Field) : ByteWriter :=
  fields.foldl Field.write writer

/-- Raw bytes have no reader of their own: they are read one by one. -/
def readRaw : (size : Nat) → Decode Bytes
  | 0 => pure []
  | size + 1 => do
    let byte ← readU8
    let bytes ← readRaw size
    return byte :: bytes

def Kind.read : Kind → Decode Field
  | u8 => do return .u8 (← readU8)
  | u32 => do return .u32 (← readU32)
  | u64 => do return .u64 (← readU64)
  | bytes => do return .bytes (← readBytes)
  | string => do return .string (← readString)
  | raw size => do return .raw (← readRaw size)

def readKinds : List Kind → Decode (List Field)
  | [] => pure []
  | kind :: kinds => do
    let field ← kind.read
    let fields ← readKinds kinds
    return field :: fields

theorem readRaw_consumes (bytes : Bytes) : Consumes (readRaw bytes.length) bytes bytes := by
  induction bytes with
  | nil => exact .pure _
  | cons byte bytes ih => exact readU8_consumes.bind (ih.bind_nil (.pure _))

theorem Kind.read_consumes {field : Field} (h : field.Fits) :
    Consumes field.kind.read field.written field := by
  cases field with
  | u8 value => exact readU8_consumes.map _
  | u32 value => exact (readU32_consumes value).map _
  | u64 value => exact (readU64_consumes value).map _
  | bytes value => exact (readBytes_consumes h).map _
  | string value => exact (readString_consumes h).map _
  | raw value => exact (readRaw_consumes value).map _

theorem buffer_writeFields (fields : List Field) (writer : ByteWriter) :
    (writeFields writer fields).buffer = writer.buffer ++ fields.flatMap Field.written := by
  induction fields generalizing writer with
  | nil => simp [writeFields]
  | cons field fields ih =>
    have hrest := ih (field.write writer)
    rw [Field.buffer_write, List.append_assoc] at hrest
    exact hrest

theorem readKinds_consumes {fields : List Field} (h : ∀ field ∈ fields, field.Fits) :
    Consumes (readKinds (fields.map Field.kind)) (fields.flatMap Field.written) fields := by
  induction fields with
  | nil => exact .pure _
  | cons field fields ih =>
    obtain ⟨hfield, hfields⟩ := List.forall_mem_cons.mp h
    exact (Kind.read_consumes hfield).bind ((ih hfields).bind_nil (.pure _))

/-- Reading the kinds of the fields that were written, whatever follows them,
gives the fields back, and what follows is what remains. -/
theorem readKinds_writeFields (fields : List Field) (suffix : Bytes)
    (h : ∀ field ∈ fields, field.Fits) :
    ∃ r, (readKinds (fields.map Field.kind)).run ⟨(writeFields {} fields).take ++ suffix, 0⟩ =
        (.ok fields, r) ∧
      r.rest = suffix ∧ remainingBytes r = suffix.length := by
  have hbuffer : (writeFields {} fields).take = fields.flatMap Field.written :=
    buffer_writeFields fields {}
  rw [hbuffer]
  have hrange : Cursor.InRange ⟨fields.flatMap Field.written ++ suffix, 0⟩ := Nat.zero_le _
  have hrest : Cursor.rest ⟨fields.flatMap Field.written ++ suffix, 0⟩ =
      fields.flatMap Field.written ++ suffix := rfl
  have htook := Took.of_rest hrange hrest
  have hsuffix := List.append_cancel_left (hrest.symm.trans htook.rest)
  refine ⟨_, readKinds_consumes h _ suffix hrange hrest, hsuffix.symm, ?_⟩
  rw [remainingBytes_rest htook.inRange, ← hsuffix]

/-- A string that looks like a length, behind raw bytes and before a suffix. -/
theorem readKinds_writeFields_sample :
    let fields := [.u8 7, .raw [1, 2], .string [2, 0, 0, 0], .u64 300, .bytes []]
    ∃ r, (readKinds [.u8, .raw 2, .string, .u64, .bytes]).run
        ⟨(writeFields {} fields).take ++ [9, 9], 0⟩ = (.ok fields, r) ∧
      r.rest = [9, 9] ∧ remainingBytes r = 2 :=
  readKinds_writeFields [.u8 7, .raw [1, 2], .string [2, 0, 0, 0], .u64 300, .bytes []] [9, 9]
    (by decide)

end Astro
