import Astro.Core.Serializer

/-!
# The reader undoes the writer

What each `ByteWriter` call appends, and what each `ByteReader` call does:
on the bytes of the matching write it consumes exactly them and returns the
value (`Consumes`); on any buffer it stays in range and moves at least its
fixed width (`Advances`).
-/

namespace Astro

open LittleEndian (toLE ofLE orBytes)
open Cursor (Reader)
open Cursor.Reader

-- ---------------------------------------------------------------------------
-- Writes
-- ---------------------------------------------------------------------------

namespace ByteWriter

@[simp] theorem buffer_writeU8 : (writeU8 w value).buffer = w.buffer ++ [value] := rfl

@[simp] theorem buffer_writeU32 : (writeU32 w value).buffer = w.buffer ++ toLE 4 value.toNat := by
  simp [writeU32, writeLeValue, LittleEndian.shiftBytes_eq_toLE]

@[simp] theorem buffer_writeU64 : (writeU64 w value).buffer = w.buffer ++ toLE 8 value.toNat := by
  simp [writeU64, writeLeValue, LittleEndian.shiftBytes_eq_toLE]

@[simp] theorem buffer_writeRaw : (writeRaw w bytes).buffer = w.buffer ++ bytes := rfl

def lengthPrefixed (bytes : Bytes) : Bytes := toLE 4 (UInt32.ofNat bytes.length).toNat ++ bytes

@[simp] theorem buffer_writeBytes :
    (writeBytes w bytes).buffer = w.buffer ++ lengthPrefixed bytes := by
  simp [writeBytes, lengthPrefixed]

@[simp] theorem buffer_writeString :
    (writeString w str).buffer = w.buffer ++ lengthPrefixed str := by
  simp [writeString, lengthPrefixed]

@[simp] theorem take_eq : take w = w.buffer := rfl

@[simp] theorem length_lengthPrefixed : (lengthPrefixed bytes).length = 4 + bytes.length := by
  simp [lengthPrefixed]

/-- Length prefixes make byte strings below 2^32 self-delimiting. -/
theorem lengthPrefixed_append_inj {xs ys s t : Bytes} (hx : xs.length < 2 ^ 32)
    (hy : ys.length < 2 ^ 32) (h : lengthPrefixed xs ++ s = lengthPrefixed ys ++ t) :
    xs = ys ∧ s = t := by
  simp only [lengthPrefixed, List.append_assoc] at h
  obtain ⟨hlen, h⟩ := List.append_inj h (by simp)
  replace hlen := LittleEndian.toLE_inj (UInt32.toNat_lt _) (UInt32.toNat_lt _) hlen
  rw [UInt32.toNat_ofNat_of_lt' hx, UInt32.toNat_ofNat_of_lt' hy] at hlen
  exact List.append_inj h hlen

/-- Bytes in a number that is dropped by the cast leave the prefix as it is. -/
theorem lengthPrefixed_append_wrapped {s t : Bytes} (h : 2 ^ 32 ∣ t.length) :
    lengthPrefixed (s ++ t) = lengthPrefixed s ++ t := by
  have hlen : (UInt32.ofNat (s ++ t).length).toNat = (UInt32.ofNat s.length).toNat := by
    rw [List.length_append, UInt32.toNat_ofNat', UInt32.toNat_ofNat']
    omega
  rw [lengthPrefixed, hlen, lengthPrefixed, List.append_assoc]

end ByteWriter

-- ---------------------------------------------------------------------------
-- Reads
-- ---------------------------------------------------------------------------

namespace ByteReader

theorem remainingBytes_eq {r : ByteReader} (hr : r.InRange) :
    remainingBytes r = r.src.length - r.pos := if_pos hr

theorem remainingBytes_rest {r : ByteReader} (hr : r.InRange) :
    remainingBytes r = r.rest.length := by
  rw [remainingBytes_eq hr, r.length_rest]

@[simp] theorem ensure_true : ensure true = pure () := rfl
@[simp] theorem ensure_false : ensure false = fail truncated := rfl

theorem readLoop_consumes (bytes : Bytes) (i value : Nat) :
    Consumes (readLoop bytes.length i value) bytes (orBytes i value bytes) := by
  induction bytes generalizing i value with
  | nil => exact .pure _
  | cons b bytes ih => exact Consumes.next.bind (ih _ _)

theorem run_readValue {r : ByteReader} (hr : r.InRange) (size : Nat) :
    (readValue size).run r = if size ≤ r.rest.length
      then (.ok (ofLE (r.rest.take size)), r.skip size) else (.error truncated, r) := by
  simp only [readValue, run_bind, run_get, remainingBytes_rest hr]
  by_cases h : size ≤ r.rest.length
  · have hloop := readLoop_consumes (r.rest.take size) 0 0 r (r.rest.drop size) hr (by simp)
    rw [List.length_take, Nat.min_eq_left h, LittleEndian.orBytes_zero] at hloop
    simp [h, hloop]
  · simp [h]

theorem readValue_consumes : Consumes (readValue bytes.length) bytes (ofLE bytes) := by
  intro r tail hr h
  simp [run_readValue hr, h]

theorem readValue_advances : Advances Exn.outOfBounds size (readValue size) := by
  refine .of_run fun r hr => ?_
  rw [run_readValue hr]
  split
  next h =>
    rw [r.length_rest] at h
    have hr' : r.pos ≤ r.src.length := hr
    exact .inr ⟨_, size, Nat.le_refl _, by omega, rfl⟩
  next => exact .inl ⟨truncated, by simp [truncated], rfl⟩

theorem readValue_toLE (h : v < 256 ^ size) : Consumes (readValue size) (toLE size v) v := by
  have hc : Consumes (readValue (toLE size v).length) (toLE size v) (ofLE (toLE size v)) :=
    readValue_consumes
  rwa [LittleEndian.length_toLE, LittleEndian.ofLE_toLE_of_lt h] at hc

theorem readU8_consumes : Consumes readU8 [value] value := by
  have hv : Consumes (readValue 1) (toLE 1 value.toNat) value.toNat := readValue_toLE value.toNat_lt
  have h := hv.map UInt8.ofNat
  have hb : toLE 1 value.toNat = [value] := by simp [LittleEndian.toLE]
  rwa [hb, UInt8.ofNat_toNat] at h

theorem readU32_consumes (value : UInt32) : Consumes readU32 (toLE 4 value.toNat) value := by
  have hv : Consumes (readValue 4) (toLE 4 value.toNat) value.toNat :=
    readValue_toLE value.toNat_lt
  have h := hv.map UInt32.ofNat
  rwa [UInt32.ofNat_toNat] at h

theorem readU64_consumes (value : UInt64) : Consumes readU64 (toLE 8 value.toNat) value := by
  have hv : Consumes (readValue 8) (toLE 8 value.toNat) value.toNat :=
    readValue_toLE value.toNat_lt
  have h := hv.map UInt64.ofNat
  rwa [UInt64.ofNat_toNat] at h

theorem le_length_rest_of_readValue {r : ByteReader} (hr : r.InRange)
    (h : (readValue size).run r = (.ok value, r')) : size ≤ r.rest.length := by
  rw [run_readValue hr] at h
  split at h
  next hle => exact hle
  next => cases h

theorem readU8_took {r : ByteReader} (hr : r.InRange) (h : readU8.run r = (.ok value, r')) :
    Took r [value] r' := by
  obtain ⟨_, _, hvalue, -⟩ := bind_ok.mp h
  have hlen := le_length_rest_of_readValue hr hvalue
  obtain ⟨byte, tail, hrest⟩ := List.exists_cons_of_length_pos hlen
  have hcons : r.rest = [byte] ++ tail := hrest
  obtain ⟨rfl, htook⟩ := readU8_consumes.took hr hcons h
  exact htook

theorem readU32_took {r : ByteReader} (hr : r.InRange) (h : readU32.run r = (.ok value, r')) :
    Took r (toLE 4 value.toNat) r' := by
  obtain ⟨_, _, hvalue, -⟩ := bind_ok.mp h
  obtain ⟨v, tail, hlt, hrest⟩ := LittleEndian.exists_toLE (le_length_rest_of_readValue hr hvalue)
  rw [← UInt32.toNat_ofNat_of_lt' hlt] at hrest
  obtain ⟨rfl, htook⟩ := (readU32_consumes _).took hr hrest h
  exact htook

theorem readU64_took {r : ByteReader} (hr : r.InRange) (h : readU64.run r = (.ok value, r')) :
    Took r (toLE 8 value.toNat) r' := by
  obtain ⟨_, _, hvalue, -⟩ := bind_ok.mp h
  obtain ⟨v, tail, hlt, hrest⟩ := LittleEndian.exists_toLE (le_length_rest_of_readValue hr hvalue)
  rw [← UInt64.toNat_ofNat_of_lt' hlt] at hrest
  obtain ⟨rfl, htook⟩ := (readU64_consumes _).took hr hrest h
  exact htook

theorem readU8_advances : Advances Exn.outOfBounds 1 readU8 :=
  readValue_advances.bind fun _ => .pure _

theorem readU32_advances : Advances Exn.outOfBounds 4 readU32 :=
  readValue_advances.bind fun _ => .pure _

theorem readU64_advances : Advances Exn.outOfBounds 8 readU64 :=
  readValue_advances.bind fun _ => .pure _

theorem run_checked_slice {r : ByteReader} (hr : r.InRange) (len : Nat) :
    (do let r ← get; ensure (len ≤ remainingBytes r); slice .outOfBounds len : Decode Bytes).run r =
      if len ≤ r.rest.length then (.ok (r.rest.take len), r.skip len)
      else (.error truncated, r) := by
  simp only [run_bind, run_get, remainingBytes_rest hr]
  by_cases h : len ≤ r.rest.length
  · have hfit : r.pos + len ≤ r.src.length := by
      rw [r.length_rest] at h
      have hr' : r.pos ≤ r.src.length := hr
      omega
    simp [h, run_slice, hfit]
  · simp [h]

theorem readBytes_consumes (h : bytes.length < 2 ^ 32) :
    Consumes readBytes (ByteWriter.lengthPrefixed bytes) bytes := by
  refine (readU32_consumes _).bind fun r tail hr hrest => ?_
  rw [run_checked_slice hr, UInt32.toNat_ofNat_of_lt' h]
  simp [hrest]

theorem readString_consumes (h : str.length < 2 ^ 32) :
    Consumes readString (ByteWriter.lengthPrefixed str) str := readBytes_consumes h

theorem readBytes_took {r : ByteReader} (hr : r.InRange) (h : readBytes.run r = (.ok bytes, r')) :
    Took r (ByteWriter.lengthPrefixed bytes) r' ∧ bytes.length < 2 ^ 32 := by
  obtain ⟨len, r₁, hlen, h⟩ := bind_ok.mp h
  have htook := readU32_took hr hlen
  rw [run_checked_slice htook.inRange] at h
  split at h
  next hle =>
    cases h
    have hsize : (r₁.rest.take len.toNat).length = len.toNat := by simpa using hle
    have hfield : ByteWriter.lengthPrefixed (r₁.rest.take len.toNat) =
        toLE 4 len.toNat ++ r₁.rest.take len.toNat := by
      rw [ByteWriter.lengthPrefixed, hsize, UInt32.ofNat_toNat]
    have hslice : Took r₁ (r₁.rest.take len.toNat) (r₁.skip (r₁.rest.take len.toNat).length) :=
      .of_rest htook.inRange (List.take_append_drop _ _).symm
    rw [hsize] at hslice
    rw [hfield, hsize]
    exact ⟨htook.trans hslice, len.toNat_lt⟩
  next => cases h

theorem readString_took {r : ByteReader} (hr : r.InRange) (h : readString.run r = (.ok str, r')) :
    Took r (ByteWriter.lengthPrefixed str) r' ∧ str.length < 2 ^ 32 := readBytes_took hr h

theorem readBytes_advances : Advances Exn.outOfBounds 4 readBytes := by
  refine readU32_advances.bind (j := 0) fun len => .of_run fun r hr => ?_
  rw [run_checked_slice hr]
  split
  next h =>
    rw [r.length_rest] at h
    have hr' : r.pos ≤ r.src.length := hr
    exact .inr ⟨_, len.toNat, Nat.zero_le _, by omega, rfl⟩
  next => exact .inl ⟨truncated, by simp [truncated], rfl⟩

theorem readString_advances : Advances Exn.outOfBounds 4 readString := readBytes_advances

end ByteReader

end Astro
