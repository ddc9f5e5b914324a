import Astro.Storage.Wire

/-!
# The decoder undoes the encoder

`load_all_blocks` decodes what `Block::serialize` wrote, field by field, as
long as its lengths fit. Whether it accepts a payload depends on the bytes
alone, as long as there is room for the transactions.
-/

namespace Astro.BlockStore

open ByteReader
open LittleEndian (toLE)
open Cursor (Reader)
open Cursor.Reader

-- ---------------------------------------------------------------------------
-- Round trips
-- ---------------------------------------------------------------------------

theorem readTransaction_consumes {tx : Transaction} (h : tx.Fits) :
    Consumes readTransaction (tx.serialize false) tx := by
  have hfields : tx.wire.fields = tx.serialize false := by
    rw [← tx.bytes_wire]
    exact (List.append_nil _).symm
  have hconsumes : Consumes readTransaction tx.wire.fields tx.wire.transaction :=
    WireTransaction.readTransaction_consumes (tx.transaction_wire.symm ▸ h)
  rwa [hfields, tx.transaction_wire] at hconsumes

theorem readBlock_consumes {block : Block} (h : block.Fits)
    (halloc : allocTransactions block.transactions.length = true) :
    Consumes (readBlock allocTransactions) block.serialize block := by
  have hfields : block.wire.fields = block.serialize := by
    rw [← block.bytes_wire]
    exact (List.append_nil _).symm
  have hconsumes : Consumes (readBlock allocTransactions) block.wire.fields block.wire.block :=
    WireBlock.readBlock_consumes (Block.fits_wire.mpr h) (by simpa [Block.wire] using halloc)
  rwa [hfields, block.block_wire] at hconsumes

theorem decodePayload_append {block : Block} (h : block.Fits)
    (halloc : allocTransactions block.transactions.length = true) (s : Bytes) :
    decodePayload allocTransactions (block.serialize ++ s) = .ok block := by
  rw [decodePayload, readBlock_consumes h halloc _ s (Nat.zero_le _) rfl]

theorem decodePayload_serialize {block : Block} (h : block.Fits)
    (halloc : allocTransactions block.transactions.length = true) :
    decodePayload allocTransactions block.serialize = .ok block := by
  simpa using decodePayload_append h halloc []

/-- The slice that `parse_transaction` is given in turn `i` of the loop. -/
def readSlice (i : Nat) : Decode Bytes := do
  let _ ← readHeader
  let _ ← readU32
  let _ ← readTransactions i
  readBytes

theorem readSlice_consumes {block : Block} (h : block.Fits)
    (hsplit : block.transactions = before ++ tx :: after) :
    ∃ bytes rest, block.serialize = bytes ++ rest ∧
      Consumes (readSlice before.length) bytes (tx.serialize false) := by
  have hbefore : ∀ w ∈ before.map Transaction.wire, w.Fits := by
    simp only [List.forall_mem_map, Transaction.fits_wire]
    exact fun tx htx => ⟨h.lengths tx (by simp [hsplit, htx]), h.sizes tx (by simp [hsplit, htx])⟩
  have hloop := WireBlock.readTransactions_consumes hbefore
  rw [List.length_map] at hloop
  have hslice : Consumes (readSlice before.length)
      (block.header.serialize ++ (toLE 4 (UInt32.ofNat block.transactions.length).toNat ++
        (WireBlock.slices (before.map Transaction.wire) ++
          ByteWriter.lengthPrefixed (tx.serialize false)))) (tx.serialize false) := by
    refine (readHeader_consumes _).bind ((readU32_consumes _).bind (hloop.bind ?_))
    exact readBytes_consumes (h.sizes tx (by simp [hsplit]))
  refine ⟨_, Block.transactionBytes after, ?_, hslice⟩
  simp [Block.serialize_eq, hsplit, Block.transactionBytes, WireBlock.slices, List.flatMap_map]

/-- The decoder takes the serialized block from the front of whatever follows
it, and the parser takes every slice to its end. -/
theorem readBlock_serialize_append (allocTransactions : Nat → Bool) (block : Block) (s : Bytes)
    (h : block.Fits) (halloc : allocTransactions block.transactions.length = true) :
    (∃ r, (readBlock allocTransactions).run ⟨block.serialize ++ s, 0⟩ = (.ok block, r) ∧
      r.rest = s) ∧
    ∀ before tx after, block.transactions = before ++ tx :: after →
      ((readSlice before.length).run ⟨block.serialize ++ s, 0⟩).1 = .ok (tx.serialize false) ∧
      ∃ r, readTransaction.run ⟨tx.serialize false, 0⟩ = (.ok tx, r) ∧ r.rest = [] := by
  have hzero (bytes : Bytes) : Cursor.InRange ⟨bytes, 0⟩ := Nat.zero_le _
  constructor
  · exact ⟨_, readBlock_consumes h halloc _ s (hzero _) rfl, Cursor.rest_skip_append rfl⟩
  · intro before tx after hsplit
    constructor
    · obtain ⟨bytes, rest, hserialize, hslice⟩ := readSlice_consumes h hsplit
      have hrest : Cursor.rest ⟨block.serialize ++ s, 0⟩ = bytes ++ (rest ++ s) := by
        rw [hserialize, List.append_assoc]
        rfl
      rw [hslice _ _ (hzero _) hrest]
    · have hparse := readTransaction_consumes (h.lengths tx (by simp [hsplit]))
      have hrest : Cursor.rest ⟨tx.serialize false, 0⟩ = tx.serialize false ++ [] := by
        rw [List.append_nil]
        rfl
      exact ⟨_, hparse _ [] (hzero _) hrest, Cursor.rest_skip_append hrest⟩

theorem readBlock_serialize_append_two :
    let block := sampleChild [sampleTx 1, { sampleTx 2 with toLabel := [0xA1, 1, 1] }]
    ∃ r, (readBlock fun n => n ≤ 2).run ⟨block.serialize ++ [7, 0], 0⟩ = (.ok block, r) ∧
      r.rest = [7, 0] :=
  (readBlock_serialize_append (fun n => n ≤ 2)
    (sampleChild [sampleTx 1, { sampleTx 2 with toLabel := [0xA1, 1, 1] }]) [7, 0]
    (by decide +kernel) rfl).1

-- ---------------------------------------------------------------------------
-- Any payload
-- ---------------------------------------------------------------------------

/-- The allocator has a say in the room for the transactions, and only there. -/
theorem decodePayload_ok_iff : decodePayload allocTransactions payload = .ok block ↔
    decodePayload (fun _ => true) payload = .ok block ∧
      allocTransactions block.transactions.length = true := by
  simp only [decodePayload_iff_wire]
  constructor
  · rintro ⟨w, hfits, halloc, hbytes, rfl⟩
    exact ⟨⟨w, hfits, trivial, hbytes, rfl⟩, by simpa [WireBlock.block] using halloc⟩
  · rintro ⟨⟨w, hfits, -, hbytes, rfl⟩, halloc⟩
    exact ⟨w, hfits, by simpa [WireBlock.block] using halloc, hbytes, rfl⟩

/-- No payload decodes to a block whose lengths do not fit. -/
theorem decodePayload_fits (h : decodePayload allocTransactions payload = .ok block) :
    block.Fits := by
  obtain ⟨w, hfits, -, -, rfl⟩ := decodePayload_iff_wire.mp h
  refine ⟨by simpa [WireBlock.block] using hfits.count, ?_, ?_⟩ <;>
    simp only [WireBlock.block, List.forall_mem_map]
  · exact fun tx htx => (hfits.transactions tx htx).transaction
  · intro tx htx
    refine Nat.lt_of_le_of_lt ?_ (hfits.transactions tx htx).size
    rw [← Transaction.bytes_wire, WireTransaction.length_bytes, WireTransaction.length_bytes]
    exact Nat.le_add_right _ _

/-- The decoder gives a block back exactly when no length was truncated. -/
theorem decodePayload_serialize_iff {block : Block} :
    decodePayload (fun _ => true) block.serialize = .ok block ↔ block.Fits :=
  ⟨decodePayload_fits, fun h => decodePayload_serialize h rfl⟩

theorem decodePayload_roomy {E : Env} (hE : E.Roomy) :
    decodePayload E.allocTransactions payload = .ok block ↔
      decodePayload (fun _ => true) payload = .ok block := by
  rw [decodePayload_ok_iff]
  exact ⟨fun h => h.1, fun h => ⟨h, hE.transactions _ (decodePayload_fits h).count⟩⟩

end Astro.BlockStore
