import Astro.Storage.Codec

/-!
# What the decoder drops

A payload that is accepted has one reading, and the block is all of it but the
tag bytes, the schema, the high half of the version and trailing bytes. The
serialized block is the payload exactly when these are as `serialize` writes
them.
-/

namespace Astro.BlockStore

/-- However the payload is read, nothing that the decoder drops differs from
what `serialize` writes. -/
def Canonical (payload : Bytes) : Prop :=
  ∀ w : WireBlock, w.Fits → w.bytes = payload → w.Exact

theorem serialize_eq_bytes_iff {w : WireBlock} (h : w.Fits) :
    w.block.serialize = w.bytes ↔ w.Exact := by
  have hdecoded : decodePayload (fun _ => true) w.bytes = .ok w.block :=
    decodePayload_iff_wire.mpr ⟨w, h, rfl, rfl, rfl⟩
  have hfits := Block.fits_wire.mpr (decodePayload_fits hdecoded)
  rw [← Block.bytes_wire, ← WireBlock.wire_block_iff]
  constructor
  · exact WireBlock.bytes_inj hfits h
  · intro heq
    rw [heq]

theorem serialize_eq_of_canonical (h : decodePayload allocTransactions payload = .ok block)
    (hc : Canonical payload) : block.serialize = payload := by
  obtain ⟨w, hfits, -, hbytes, rfl⟩ := decodePayload_iff_wire.mp h
  rw [← hbytes]
  exact (serialize_eq_bytes_iff hfits).mpr (hc w hfits hbytes)

/-- An accepted payload has one reading, which gives the block and says
whether the payload is the block's serialization. Of the payloads that drop
nothing, no two give the same block. -/
theorem decodePayload_canonical (allocTransactions : Nat → Bool) (payload : Bytes) (block : Block)
    (h : decodePayload allocTransactions payload = .ok block) :
    (∃ w : WireBlock, w.Fits ∧ w.bytes = payload ∧ w.block = block ∧
      (∀ w' : WireBlock, w'.Fits → w'.bytes = payload → w' = w) ∧
      (block.serialize = payload ↔ w.Exact)) ∧
    ∀ payload', decodePayload allocTransactions payload' = .ok block →
      Canonical payload → Canonical payload' → payload = payload' := by
  constructor
  · obtain ⟨w, hfits, -, rfl, rfl⟩ := decodePayload_iff_wire.mp h
    exact ⟨w, hfits, rfl, rfl, fun w' hfits' => WireBlock.bytes_inj hfits' hfits,
      serialize_eq_bytes_iff hfits⟩
  · intro payload' h' hc hc'
    rw [← serialize_eq_of_canonical h hc, ← serialize_eq_of_canonical h' hc']

/-- The block of `sampleChild` behind wrong tag bytes, another schema, a
version above 16 bits and trailing bytes. -/
def sampleLoose : WireBlock :=
  { (sampleChild [sampleTx 1]).wire with
    transactions := [{ (sampleTx 1).wire with
      tag := 0, subtag := 7, schema := 2, version := 0x10001, trailing := [9] }]
    trailing := [8] }

theorem decodePayload_drops :
    decodePayload (fun _ => true) sampleLoose.bytes = .ok (sampleChild [sampleTx 1]) ∧
      decodePayload (fun _ => true) (sampleChild [sampleTx 1]).serialize =
        .ok (sampleChild [sampleTx 1]) ∧
      (sampleChild [sampleTx 1]).serialize ≠ sampleLoose.bytes := by
  decide +kernel

theorem decodePayload_canonical_sample :
    ∃ w : WireBlock, w.Fits ∧ w.bytes = sampleLoose.bytes ∧ w.block = sampleChild [sampleTx 1] ∧
      (∀ w' : WireBlock, w'.Fits → w'.bytes = sampleLoose.bytes → w' = w) ∧
      ((sampleChild [sampleTx 1]).serialize = sampleLoose.bytes ↔ w.Exact) :=
  (decodePayload_canonical (fun _ => true) sampleLoose.bytes (sampleChild [sampleTx 1])
    (by decide +kernel)).1

end Astro.BlockStore
