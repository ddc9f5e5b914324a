import Astro.Core.Block
import Astro.Core.SerializerLaws

/-!
# What headers and transactions look like as bytes

A header has one serialization of 84 bytes and can be told from it. A
transaction can be told, up to its signature, from its signing serialization,
as long as its lengths fit their prefixes. A block is its header, a count and
its transactions, each behind its length.
-/

namespace Astro

open LittleEndian (toLE)
open ByteWriter (lengthPrefixed lengthPrefixed_append_inj)

-- ---------------------------------------------------------------------------
-- Headers
-- ---------------------------------------------------------------------------

namespace BlockHeader

theorem serialize_eq (header : BlockHeader) : header.serialize =
    toLE 4 header.version.toNat ++ (header.prevHash.bytes ++ (header.merkleRoot.bytes ++
      (toLE 8 header.timestamp.toNat ++ toLE 8 header.nonce.toNat))) := by
  simp [serialize]

theorem length_serialize (header : BlockHeader) : header.serialize.length = 84 := by
  simp [serialize_eq, header.prevHash.size_eq, header.merkleRoot.size_eq]

theorem serialize_inj {header header' : BlockHeader} (h : header.serialize = header'.serialize) :
    header = header' := by
  rw [serialize_eq, serialize_eq] at h
  obtain ⟨hversion, h⟩ := List.append_inj h (by simp)
  obtain ⟨hprev, h⟩ :=
    List.append_inj h (header.prevHash.size_eq.trans header'.prevHash.size_eq.symm)
  obtain ⟨hroot, h⟩ :=
    List.append_inj h (header.merkleRoot.size_eq.trans header'.merkleRoot.size_eq.symm)
  obtain ⟨htime, hnonce⟩ := List.append_inj h (by simp)
  replace hversion := LittleEndian.toLE_inj (UInt32.toNat_lt _) (UInt32.toNat_lt _) hversion
  replace htime := LittleEndian.toLE_inj (UInt64.toNat_lt _) (UInt64.toNat_lt _) htime
  replace hnonce := LittleEndian.toLE_inj (UInt64.toNat_lt _) (UInt64.toNat_lt _) hnonce
  cases header
  cases header'
  simp only [mk.injEq]
  exact ⟨UInt32.toNat_inj.mp hversion, Hash256.ext_bytes hprev, Hash256.ext_bytes hroot,
    UInt64.toNat_inj.mp htime, UInt64.toNat_inj.mp hnonce⟩

theorem hash_inj {headers : List BlockHeader}
    (hfree : CollisionFree sha256 (headers.map serialize)) {header header' : BlockHeader}
    (hm : header ∈ headers) (hm' : header' ∈ headers)
    (h : header.hash sha256 = header'.hash sha256) : header = header' :=
  serialize_inj (hfree _ (List.mem_map_of_mem hm) _ (List.mem_map_of_mem hm') h)

end BlockHeader

-- ---------------------------------------------------------------------------
-- Transactions
-- ---------------------------------------------------------------------------

namespace Transaction

/-- The lengths of the three byte strings fit their prefixes. -/
structure Fits (tx : Transaction) : Prop where
  fromPubPem : tx.fromPubPem.length < 2 ^ 32
  toLabel : tx.toLabel.length < 2 ^ 32
  signature : tx.signature.length < 2 ^ 32

instance (tx : Transaction) : Decidable tx.Fits :=
  decidable_of_iff (tx.fromPubPem.length < 2 ^ 32 ∧ tx.toLabel.length < 2 ^ 32 ∧
      tx.signature.length < 2 ^ 32)
    ⟨fun ⟨h1, h2, h3⟩ => ⟨h1, h2, h3⟩, fun ⟨h1, h2, h3⟩ => ⟨h1, h2, h3⟩⟩

/-- What is signed. -/
def unsigned (tx : Transaction) : Transaction := { tx with signature := [] }

theorem serialize_eq (tx : Transaction) (forSigning : Bool) : tx.serialize forSigning =
    [0xA1] ++ ([0x01] ++ (toLE 4 1 ++ (toLE 4 tx.version.toNat ++ (toLE 8 tx.nonce.toNat ++
      (toLE 8 tx.amount.toNat ++ (lengthPrefixed tx.fromPubPem ++ (lengthPrefixed tx.toLabel ++
        (if forSigning then toLE 4 0 else lengthPrefixed tx.signature)))))))) := by
  cases forSigning <;> simp [serialize]

/-- Whatever follows them, two signing serializations show the same fields. -/
theorem serialize_signing_append_inj {tx tx' : Transaction} {s s' : Bytes}
    (hpem : tx.fromPubPem.length < 2 ^ 32) (hlabel : tx.toLabel.length < 2 ^ 32)
    (hpem' : tx'.fromPubPem.length < 2 ^ 32) (hlabel' : tx'.toLabel.length < 2 ^ 32)
    (h : tx.serialize true ++ s = tx'.serialize true ++ s') :
    tx.unsigned = tx'.unsigned ∧ s = s' := by
  rw [serialize_eq, serialize_eq] at h
  simp only [List.append_assoc, List.append_cancel_left_eq] at h
  obtain ⟨hversion, h⟩ := List.append_inj h (by simp)
  obtain ⟨hnonce, h⟩ := List.append_inj h (by simp)
  obtain ⟨hamount, h⟩ := List.append_inj h (by simp)
  obtain ⟨hfrom, h⟩ := lengthPrefixed_append_inj hpem hpem' h
  obtain ⟨hto, h⟩ := lengthPrefixed_append_inj hlabel hlabel' h
  obtain ⟨-, hs⟩ := List.append_inj h rfl
  have hlt (v : UInt16) : v.toNat < 256 ^ 4 := Nat.lt_trans v.toNat_lt (by decide)
  replace hversion := LittleEndian.toLE_inj (hlt _) (hlt _) hversion
  replace hnonce := LittleEndian.toLE_inj (UInt64.toNat_lt _) (UInt64.toNat_lt _) hnonce
  replace hamount := LittleEndian.toLE_inj (UInt64.toNat_lt _) (UInt64.toNat_lt _) hamount
  simp only [unsigned, mk.injEq, and_true]
  exact ⟨⟨UInt16.toNat_inj.mp hversion, UInt64.toNat_inj.mp hnonce, UInt64.toNat_inj.mp hamount,
    hfrom, hto⟩, hs⟩

theorem serialize_signing_inj {tx tx' : Transaction} (hfits : tx.Fits) (hfits' : tx'.Fits)
    (h : tx.serialize true = tx'.serialize true) : tx.unsigned = tx'.unsigned := by
  have happend : tx.serialize true ++ [] = tx'.serialize true ++ [] := by rw [h]
  exact (serialize_signing_append_inj hfits.fromPubPem hfits.toLabel hfits'.fromPubPem
    hfits'.toLabel happend).1

end Transaction

-- ---------------------------------------------------------------------------
-- Blocks
-- ---------------------------------------------------------------------------

namespace Block

/-- The count, the lengths and the sizes of a block fit their prefixes. -/
structure Fits (block : Block) : Prop where
  count : block.transactions.length < 2 ^ 32
  lengths : ∀ tx ∈ block.transactions, tx.Fits
  sizes : ∀ tx ∈ block.transactions, (tx.serialize false).length < 2 ^ 32

instance (block : Block) : Decidable block.Fits :=
  decidable_of_iff (block.transactions.length < 2 ^ 32 ∧ (∀ tx ∈ block.transactions, tx.Fits) ∧
    ∀ tx ∈ block.transactions, (tx.serialize false).length < 2 ^ 32)
    ⟨fun ⟨h1, h2, h3⟩ => ⟨h1, h2, h3⟩, fun ⟨h1, h2, h3⟩ => ⟨h1, h2, h3⟩⟩

def transactionBytes (txs : List Transaction) : Bytes :=
  txs.flatMap fun tx => lengthPrefixed (tx.serialize false)

theorem buffer_writeTransactions :
    (writeTransactions writer txs).buffer = writer.buffer ++ transactionBytes txs := by
  induction txs generalizing writer with
  | nil => simp [writeTransactions, transactionBytes]
  | cons tx txs ih =>
    rw [writeTransactions, ih]
    simp [transactionBytes, lengthPrefixed]

theorem serialize_eq (block : Block) : block.serialize = block.header.serialize ++
    (toLE 4 (UInt32.ofNat block.transactions.length).toNat ++
      transactionBytes block.transactions) := by
  simp [serialize, buffer_writeTransactions]

theorem serialize_ne_nil (block : Block) : block.serialize ≠ [] := by
  intro h
  have hlength := congrArg List.length h
  simp [serialize_eq, BlockHeader.length_serialize] at hlength

end Block

end Astro
