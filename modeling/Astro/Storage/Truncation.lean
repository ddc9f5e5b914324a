import Astro.Core.Building
import Astro.Storage.TornLog

/-!
# Lengths that do not fit

Lengths and counts are cast to 32 bits when they are written, and nothing
before that looks at them. A block for which a cast drops something is
acknowledged like any other, and what is loaded is never that block.
-/

namespace Astro

open FramedLog
open ByteWriter (lengthPrefixed lengthPrefixed_append_wrapped)
open LittleEndian (toLE)
open BlockStore (StoredRecord record decodePayload)

/-- A result of `append_and_store` that hides no truncation: a block that is
acknowledged is the last one loaded, and one whose lengths do not fit is
refused. -/
structure Untruncated (E : Env) (block : Block)
    (result : Except Exn ValidationResult × Chain × BlockStore) : Prop where
  loaded : Acknowledged result.1 →
    ∃ blocks, result.2.2.loadAllBlocks E = .ok blocks ∧ blocks.getLast? = some block
  refused : ¬block.Fits → ¬Acknowledged result.1

namespace BlockStore

theorem loadAllBlocks_appendBlock {store : BlockStore} {block : Block} (hE : E.Roomy)
    (hlog : Frames (StoredRecord E.sha256) (store.log.getD []) stored)
    (hsize : block.serialize.length ≤ maxSize) (hio : io.Clean) (hread : store.canRead = true)
    (hwrite : store.canWrite = true) :
    (store.appendBlock E io block).2.loadAllBlocks E = .ok blocks ↔
      ∃ loaded, decodePayload (fun _ => true) block.serialize = .ok loaded ∧
        blocks = stored ++ [loaded] := by
  rw [appendBlock_clean E block hio hwrite]
  exact loadAllBlocks_recordBytes hE hlog hsize rfl hread

/-- The block is loaded back from the end of the log only if it fits: whatever
the decoder makes of the bytes, its lengths fit. -/
theorem last_loaded_iff {store : BlockStore} {block : Block} (hE : E.Roomy)
    (hlog : Frames (StoredRecord E.sha256) (store.log.getD []) stored)
    (hsize : block.serialize.length ≤ maxSize) (hio : io.Clean) (hread : store.canRead = true)
    (hwrite : store.canWrite = true) :
    (∃ blocks, (store.appendBlock E io block).2.loadAllBlocks E = .ok blocks ∧
      blocks.getLast? = some block) ↔ block.Fits := by
  simp only [loadAllBlocks_appendBlock hE hlog hsize hio hread hwrite]
  rw [← decodePayload_serialize_iff]
  constructor
  · rintro ⟨blocks, ⟨loaded, hdecode, rfl⟩, hlast⟩
    obtain rfl : loaded = block := by simpa using hlast
    exact hdecode
  · intro hdecode
    exact ⟨stored ++ [block], ⟨block, hdecode, rfl⟩, List.getLast?_concat⟩

end BlockStore

/-- `append_and_store` truncates nothing exactly when the block is refused by
`validate_block` or its lengths fit. -/
theorem appendAndStore_untruncated_iff (E : Env) (c : Chain) (block : Block) (io : AppendTransfers)
    (store : BlockStore) (stored : List Block) (hE : E.Roomy)
    (hlog : Frames (StoredRecord E.sha256) (store.log.getD []) stored)
    (hsize : block.serialize.length ≤ maxSize) (hio : io.Clean) (hread : store.canRead = true)
    (hwrite : store.canWrite = true) :
    Untruncated E block (c.appendAndStore E block io store) ↔
      (Acknowledged (c.validateBlock E block) → block.Fits) := by
  rw [Chain.acknowledged_validateBlock]
  by_cases hv : ValidBlock E c.config c.blocks block
  · have hack : Acknowledged (c.appendAndStore E block io store).1 :=
      Chain.acknowledged_appendAndStore.mpr ⟨hv, BlockStore.appendBlock_ok hio hwrite⟩
    have hiff := BlockStore.last_loaded_iff hE hlog hsize hio hread hwrite
    rw [← Chain.store_of_acknowledged hack] at hiff
    simp only [hv, true_imp_iff]
    constructor
    · exact fun hu => hiff.mp (hu.loaded hack)
    · exact fun hfits => ⟨fun _ => hiff.mpr hfits, fun hno => absurd hfits hno⟩
  · have hrefused : ¬Acknowledged (c.appendAndStore E block io store).1 :=
      fun hack => hv (Chain.acknowledged_appendAndStore.mp hack).1
    simp only [hv, false_imp_iff, iff_true]
    exact ⟨fun hack => absurd hack hrefused, fun _ => hrefused⟩

-- ---------------------------------------------------------------------------
-- A genesis note of 2^32 bytes
-- ---------------------------------------------------------------------------

def coinbase (note : Bytes) : Transaction := { fromPubPem := [], toLabel := note }

/-- A label of zero bytes is followed by the length of the signature, which is
zero as well. -/
theorem serialize_coinbase (h : 2 ^ 32 ∣ n) : (coinbase (List.replicate n 0)).serialize false =
    (coinbase []).serialize false ++ List.replicate n 0 := by
  have hlabel : lengthPrefixed (List.replicate n 0) = lengthPrefixed [] ++ List.replicate n 0 :=
    lengthPrefixed_append_wrapped (s := []) (by rwa [List.length_replicate])
  have hempty : lengthPrefixed [] = List.replicate 4 0 := by decide
  have hcomm : List.replicate n (0 : UInt8) ++ List.replicate 4 0 =
      List.replicate 4 0 ++ List.replicate n 0 := by
    rw [List.replicate_append_replicate, List.replicate_append_replicate, Nat.add_comm]
  simp only [Transaction.serialize_eq, coinbase, hlabel, hempty, hcomm, List.append_assoc,
    Bool.false_eq_true, if_false]

/-- What is loaded in place of a genesis block: the header, and the coinbase
without its note. -/
def withoutNote (sha256 : Bytes → Hash256) (note : Bytes) (time : UInt64) : Block :=
  { header := (makeGenesisBlock sha256 note time).header, transactions := [coinbase []] }

theorem serialize_makeGenesisBlock (h : 2 ^ 32 ∣ n) :
    (makeGenesisBlock sha256 (List.replicate n 0) time).serialize =
      (withoutNote sha256 (List.replicate n 0) time).serialize ++ List.replicate n 0 := by
  have htransactions : (makeGenesisBlock sha256 (List.replicate n 0) time).transactions =
      [coinbase (List.replicate n 0)] := rfl
  have hwrapped : 2 ^ 32 ∣ (List.replicate n (0 : UInt8)).length := by
    rwa [List.length_replicate]
  rw [Block.serialize_eq, Block.serialize_eq, htransactions]
  simp only [withoutNote, Block.transactionBytes, List.flatMap_singleton, List.length_singleton,
    serialize_coinbase h, lengthPrefixed_append_wrapped hwrapped, List.append_assoc]

theorem fits_withoutNote : (withoutNote sha256 note time).Fits := by
  refine ⟨by simp [withoutNote], ?_, ?_⟩ <;>
    simp only [withoutNote, List.forall_mem_singleton]
  · exact ⟨by decide, by decide, by decide⟩
  · decide

theorem not_fits_makeGenesisBlock (h : 2 ^ 32 ≤ note.length) :
    ¬(makeGenesisBlock sha256 note time).Fits := by
  intro hfits
  have hlabel := (hfits.lengths (coinbase note) (List.mem_singleton.mpr rfl)).toLabel
  exact absurd hlabel (Nat.not_lt.mpr h)

theorem length_serialize_coinbase :
    ((coinbase note).serialize false).length = 38 + note.length := by
  rw [← Transaction.bytes_wire, WireTransaction.length_bytes]
  simp [Transaction.wire, coinbase]

theorem length_serialize_makeGenesisBlock :
    (makeGenesisBlock sha256 note time).serialize.length = 130 + note.length := by
  have htransactions : (makeGenesisBlock sha256 note time).transactions = [coinbase note] := rfl
  rw [Block.serialize_eq, htransactions]
  simp only [Block.transactionBytes, List.flatMap_singleton, List.length_append,
    BlockHeader.length_serialize, LittleEndian.length_toLE, ByteWriter.length_lengthPrefixed,
    length_serialize_coinbase]
  omega

/-- An empty chain acknowledges a genesis block with a note of zero bytes, any
multiple of 2^32 of them, and loads it without the note. -/
theorem appendAndStore_drops_note (hE : E.Roomy) (h : 2 ^ 32 ∣ n) (hn : 0 < n)
    (hsize : 130 + n ≤ maxSize) (hio : io.Clean) :
    let block := makeGenesisBlock E.sha256 (List.replicate n 0) time
    let result := ({} : Chain).appendAndStore E block io {}
    Acknowledged result.1 ∧
      result.2.2.loadAllBlocks E = .ok [withoutNote E.sha256 (List.replicate n 0) time] ∧
      withoutNote E.sha256 (List.replicate n 0) time ≠ block ∧ ¬Untruncated E block result := by
  intro block result
  have hv : ValidBlock E {} [] block := Chain.validBlock_makeGenesisBlock (.inl rfl)
  have hack : Acknowledged result.1 :=
    Chain.acknowledged_appendAndStore.mpr ⟨hv, BlockStore.appendBlock_ok hio rfl⟩
  have hlen : block.serialize.length ≤ maxSize := by
    rwa [length_serialize_makeGenesisBlock, List.length_replicate]
  have hdecode : decodePayload (fun _ => true) block.serialize =
      .ok (withoutNote E.sha256 (List.replicate n 0) time) := by
    rw [serialize_makeGenesisBlock h]
    exact BlockStore.decodePayload_append fits_withoutNote rfl _
  have hfits : ¬block.Fits := by
    apply not_fits_makeGenesisBlock
    rw [List.length_replicate]
    exact Nat.le_of_dvd hn h
  refine ⟨hack, ?_, fun heq => hfits (heq ▸ fits_withoutNote), fun hu => hu.refused hfits hack⟩
  rw [Chain.store_of_acknowledged hack,
    BlockStore.loadAllBlocks_appendBlock hE .nil hlen hio rfl rfl]
  exact ⟨_, hdecode, rfl⟩

theorem appendAndStore_not_untruncated :
    let block := makeGenesisBlock sampleEnv.sha256 (List.replicate (2 ^ 32) 0) 0
    let result := ({} : Chain).appendAndStore sampleEnv block (.buffered none none) {}
    Acknowledged result.1 ∧
      result.2.2.loadAllBlocks sampleEnv =
        .ok [withoutNote sampleEnv.sha256 (List.replicate (2 ^ 32) 0) 0] ∧
      withoutNote sampleEnv.sha256 (List.replicate (2 ^ 32) 0) 0 ≠ block ∧
      ¬Untruncated sampleEnv block result :=
  appendAndStore_drops_note sampleEnv_roomy (Nat.dvd_refl _) (by decide) (by decide) (by decide)

theorem appendAndStore_untruncated_second :
    Untruncated sampleEnv (sampleChild [sampleTx 1])
      (Chain.appendAndStore sampleEnv { blocks := [sampleGenesis] } (sampleChild [sampleTx 1])
        (.buffered none none) { log := some (record sampleSha256 sampleGenesis) }) := by
  refine (appendAndStore_untruncated_iff sampleEnv { blocks := [sampleGenesis] }
    (sampleChild [sampleTx 1]) (.buffered none none)
    { log := some (record sampleSha256 sampleGenesis) } [sampleGenesis] sampleEnv_roomy
    (.single (BlockStore.storedRecord_record BlockStore.storable_sampleGenesis))
    BlockStore.storable_sampleChild.size (by decide) rfl rfl).mpr
    fun _ => BlockStore.storable_sampleChild.fits

end Astro
