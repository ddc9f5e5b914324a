import Astro.Core.BlockLaws
import Astro.Storage.BlockStore

/-!
# What a payload says

`WireTransaction` and `WireBlock` hold every byte of a payload that the
decoder accepts, with those that it reads and drops: the tag bytes, the
schema, the high half of the version, and what stands behind the last field
of a transaction or behind the last transaction. A payload is accepted if and
only if it is the bytes of such a block (`decodePayload_iff_wire`), and of
one only (`WireBlock.bytes_inj`).
-/

namespace Astro

open ByteReader
open ByteWriter (lengthPrefixed lengthPrefixed_append_inj)
open LittleEndian (toLE)
open Cursor (Reader)
open Cursor.Reader

structure WireTransaction where
  tag : UInt8
  subtag : UInt8
  schema : UInt32
  version : UInt32
  nonce : UInt64
  amount : UInt64
  fromPubPem : Bytes
  toLabel : Bytes
  signature : Bytes
  trailing : Bytes
  deriving DecidableEq

structure WireBlock where
  header : BlockHeader
  transactions : List WireTransaction
  trailing : Bytes
  deriving DecidableEq

-- ---------------------------------------------------------------------------
-- Transactions
-- ---------------------------------------------------------------------------

namespace WireTransaction

def fields (w : WireTransaction) : Bytes :=
  [w.tag] ++ ([w.subtag] ++ (toLE 4 w.schema.toNat ++ (toLE 4 w.version.toNat ++
    (toLE 8 w.nonce.toNat ++ (toLE 8 w.amount.toNat ++ (lengthPrefixed w.fromPubPem ++
      (lengthPrefixed w.toLabel ++ lengthPrefixed w.signature)))))))

/-- The slice that `parse_transaction` is given. -/
def bytes (w : WireTransaction) : Bytes := w.fields ++ w.trailing

/-- The transaction that `parse_transaction` makes of it. -/
def transaction (w : WireTransaction) : Transaction :=
  { version := w.version.toUInt16, nonce := w.nonce, amount := w.amount,
    fromPubPem := w.fromPubPem, toLabel := w.toLabel, signature := w.signature }

/-- The lengths that were read as numbers of 32 bits. -/
structure Fits (w : WireTransaction) : Prop where
  transaction : w.transaction.Fits
  size : w.bytes.length < 2 ^ 32

/-- What is dropped is what `serialize` writes in its place. -/
structure Exact (w : WireTransaction) : Prop where
  tag : w.tag = 0xA1
  subtag : w.subtag = 0x01
  schema : w.schema = 1
  version : w.version.toNat < 2 ^ 16
  trailing : w.trailing = []

theorem length_bytes (w : WireTransaction) : w.bytes.length =
    38 + (w.fromPubPem.length + w.toLabel.length + w.signature.length) + w.trailing.length := by
  simp only [bytes, fields, List.length_append, List.length_singleton, LittleEndian.length_toLE,
    ByteWriter.length_lengthPrefixed]
  omega

theorem fields_append_inj {w w' : WireTransaction} (hfits : w.transaction.Fits)
    (hfits' : w'.transaction.Fits) (h : w.fields ++ s = w'.fields ++ s') :
    { w with trailing := [] } = { w' with trailing := [] } ∧ s = s' := by
  simp only [fields, List.append_assoc] at h
  obtain ⟨htag, h⟩ := List.append_inj h rfl
  obtain ⟨hsubtag, h⟩ := List.append_inj h rfl
  obtain ⟨hschema, h⟩ := List.append_inj h (by simp)
  obtain ⟨hversion, h⟩ := List.append_inj h (by simp)
  obtain ⟨hnonce, h⟩ := List.append_inj h (by simp)
  obtain ⟨hamount, h⟩ := List.append_inj h (by simp)
  obtain ⟨hfrom, h⟩ := lengthPrefixed_append_inj hfits.fromPubPem hfits'.fromPubPem h
  obtain ⟨hto, h⟩ := lengthPrefixed_append_inj hfits.toLabel hfits'.toLabel h
  obtain ⟨hsig, hs⟩ := lengthPrefixed_append_inj hfits.signature hfits'.signature h
  have h32 {v v' : UInt32} (hv : toLE 4 v.toNat = toLE 4 v'.toNat) : v = v' :=
    UInt32.toNat_inj.mp (LittleEndian.toLE_inj (UInt32.toNat_lt _) (UInt32.toNat_lt _) hv)
  have h64 {v v' : UInt64} (hv : toLE 8 v.toNat = toLE 8 v'.toNat) : v = v' :=
    UInt64.toNat_inj.mp (LittleEndian.toLE_inj (UInt64.toNat_lt _) (UInt64.toNat_lt _) hv)
  simp only [mk.injEq, and_true]
  exact ⟨⟨List.singleton_inj.mp htag, List.singleton_inj.mp hsubtag, h32 hschema, h32 hversion,
    h64 hnonce, h64 hamount, hfrom, hto, hsig⟩, hs⟩

theorem bytes_inj {w w' : WireTransaction} (hfits : w.Fits) (hfits' : w'.Fits)
    (h : w.bytes = w'.bytes) : w = w' := by
  obtain ⟨hfields, htrailing⟩ := fields_append_inj hfits.transaction hfits'.transaction h
  cases w
  cases w'
  simp_all

theorem readTransaction_consumes {w : WireTransaction} (h : w.transaction.Fits) :
    Consumes BlockStore.readTransaction w.fields w.transaction := by
  refine readU8_consumes.bind (readU8_consumes.bind ((readU32_consumes _).bind ?_))
  refine (readU32_consumes _).bind ((readU64_consumes _).bind ((readU64_consumes _).bind ?_))
  refine (readBytes_consumes h.fromPubPem).bind ((readString_consumes h.toLabel).bind ?_)
  exact (readBytes_consumes h.signature).bind_nil (.pure _)

theorem readTransaction_took {r : ByteReader} (hr : r.InRange)
    (h : BlockStore.readTransaction.run r = (.ok tx, r')) :
    ∃ w : WireTransaction, w.transaction.Fits ∧ w.transaction = tx ∧ Took r w.fields r' := by
  simp only [BlockStore.readTransaction, bind_ok] at h
  obtain ⟨tag, _, htag, subtag, _, hsubtag, schema, _, hschema, version, _, hversion,
    nonce, _, hnonce, amount, _, hamount, fromPubPem, _, hfrom, toLabel, _, hto,
    signature, _, hsig, h⟩ := h
  cases h
  have h₁ := readU8_took hr htag
  have h₂ := readU8_took h₁.inRange hsubtag
  have h₃ := readU32_took h₂.inRange hschema
  have h₄ := readU32_took h₃.inRange hversion
  have h₅ := readU64_took h₄.inRange hnonce
  have h₆ := readU64_took h₅.inRange hamount
  obtain ⟨h₇, hfits₁⟩ := readBytes_took h₆.inRange hfrom
  obtain ⟨h₈, hfits₂⟩ := readString_took h₇.inRange hto
  obtain ⟨h₉, hfits₃⟩ := readBytes_took h₈.inRange hsig
  exact ⟨⟨tag, subtag, schema, version, nonce, amount, fromPubPem, toLabel, signature, []⟩,
    ⟨hfits₁, hfits₂, hfits₃⟩, rfl,
    h₁.trans (h₂.trans (h₃.trans (h₄.trans (h₅.trans (h₆.trans (h₇.trans (h₈.trans h₉)))))))⟩

theorem parseTransaction_iff_wire : BlockStore.parseTransaction txBytes = .ok tx ↔
    ∃ w : WireTransaction, w.transaction.Fits ∧ w.bytes = txBytes ∧ w.transaction = tx := by
  have hrange : Cursor.InRange ⟨txBytes, 0⟩ := Nat.zero_le _
  constructor
  · intro h
    obtain ⟨w, hfits, htx, htook⟩ := readTransaction_took hrange (Prod.ext h rfl)
    exact ⟨{ w with trailing := (BlockStore.readTransaction.run ⟨txBytes, 0⟩).2.rest }, hfits,
      htook.rest.symm, htx⟩
  · rintro ⟨w, hfits, rfl, rfl⟩
    rw [BlockStore.parseTransaction, readTransaction_consumes hfits _ w.trailing hrange rfl]

end WireTransaction

-- ---------------------------------------------------------------------------
-- Blocks
-- ---------------------------------------------------------------------------

namespace BlockStore

theorem readU8s_consumes (bytes : Bytes) (h : bytes.length = n) :
    Consumes (readU8s n) bytes ⟨bytes, h⟩ := by
  induction bytes generalizing n with
  | nil =>
    subst h
    exact .pure _
  | cons byte bytes ih =>
    subst h
    exact readU8_consumes.bind ((ih rfl).bind_nil (.pure _))

theorem readHash_consumes (hash : Hash256) : Consumes readHash hash.bytes hash :=
  (readU8s_consumes hash.bytes hash.size_eq).bind_nil (.pure _)

theorem readHeader_consumes (header : BlockHeader) :
    Consumes readHeader header.serialize header := by
  rw [BlockHeader.serialize_eq]
  refine (readU32_consumes _).bind ((readHash_consumes _).bind ((readHash_consumes _).bind ?_))
  exact (readU64_consumes _).bind ((readU64_consumes _).bind_nil (.pure _))

theorem readU8s_took {r : ByteReader} (hr : r.InRange) (h : (readU8s n).run r = (.ok bytes, r')) :
    Took r bytes.val r' := by
  induction n generalizing r with
  | zero =>
    cases h
    exact .nil hr
  | succ n ih =>
    simp only [readU8s, bind_ok] at h
    obtain ⟨byte, _, hbyte, bytes, _, hbytes, h⟩ := h
    cases h
    have htook := readU8_took hr hbyte
    exact htook.trans (ih htook.inRange hbytes)

theorem readHash_took {r : ByteReader} {hash : Hash256} (hr : r.InRange)
    (h : readHash.run r = (.ok hash, r')) : Took r hash.bytes r' := by
  obtain ⟨_, _, hbytes, h⟩ := bind_ok.mp h
  cases h
  exact readU8s_took hr hbytes

theorem readHeader_took {r : ByteReader} (hr : r.InRange)
    (h : readHeader.run r = (.ok header, r')) : Took r header.serialize r' := by
  simp only [readHeader, bind_ok] at h
  obtain ⟨version, _, hversion, prevHash, _, hprev, merkleRoot, _, hroot,
    timestamp, _, htime, nonce, _, hnonce, h⟩ := h
  cases h
  have h₁ := readU32_took hr hversion
  have h₂ := readHash_took h₁.inRange hprev
  have h₃ := readHash_took h₂.inRange hroot
  have h₄ := readU64_took h₃.inRange htime
  have h₅ := readU64_took h₄.inRange hnonce
  rw [BlockHeader.serialize_eq]
  exact h₁.trans (h₂.trans (h₃.trans (h₄.trans h₅)))

end BlockStore

namespace WireBlock

def slices (ws : List WireTransaction) : Bytes := ws.flatMap fun w => lengthPrefixed w.bytes

def fields (w : WireBlock) : Bytes :=
  w.header.serialize ++ (toLE 4 (UInt32.ofNat w.transactions.length).toNat ++ slices w.transactions)

def bytes (w : WireBlock) : Bytes := w.fields ++ w.trailing

/-- The block that `load_all_blocks` makes of it. -/
def block (w : WireBlock) : Block :=
  { header := w.header, transactions := w.transactions.map WireTransaction.transaction }

structure Fits (w : WireBlock) : Prop where
  count : w.transactions.length < 2 ^ 32
  transactions : ∀ tx ∈ w.transactions, tx.Fits

structure Exact (w : WireBlock) : Prop where
  transactions : ∀ tx ∈ w.transactions, tx.Exact
  trailing : w.trailing = []

theorem slices_append_inj {ws ws' : List WireTransaction} (hlen : ws.length = ws'.length)
    (hfits : ∀ w ∈ ws, w.Fits) (hfits' : ∀ w ∈ ws', w.Fits)
    (h : slices ws ++ s = slices ws' ++ s') : ws = ws' ∧ s = s' := by
  induction ws generalizing ws' with
  | nil =>
    obtain rfl := List.length_eq_zero_iff.mp hlen.symm
    exact ⟨rfl, h⟩
  | cons w ws ih =>
    cases ws' with
    | nil => cases hlen
    | cons w' ws' =>
      obtain ⟨hw, hws⟩ := List.forall_mem_cons.mp hfits
      obtain ⟨hw', hws'⟩ := List.forall_mem_cons.mp hfits'
      simp only [slices, List.flatMap_cons, List.append_assoc] at h
      obtain ⟨hbytes, h⟩ := lengthPrefixed_append_inj hw.size hw'.size h
      obtain ⟨rfl, hs⟩ := ih (Nat.succ.inj hlen) hws hws' h
      exact ⟨by rw [WireTransaction.bytes_inj hw hw' hbytes], hs⟩

theorem bytes_inj {w w' : WireBlock} (hfits : w.Fits) (hfits' : w'.Fits)
    (h : w.bytes = w'.bytes) : w = w' := by
  simp only [bytes, fields, List.append_assoc] at h
  obtain ⟨hheader, h⟩ := List.append_inj h (by simp [BlockHeader.length_serialize])
  obtain ⟨hcount, h⟩ := List.append_inj h (by simp)
  replace hcount := LittleEndian.toLE_inj (UInt32.toNat_lt _) (UInt32.toNat_lt _) hcount
  rw [UInt32.toNat_ofNat_of_lt' hfits.count, UInt32.toNat_ofNat_of_lt' hfits'.count] at hcount
  obtain ⟨htransactions, htrailing⟩ :=
    slices_append_inj hcount hfits.transactions hfits'.transactions h
  cases w
  cases w'
  simp only [mk.injEq]
  exact ⟨BlockHeader.serialize_inj hheader, htransactions, htrailing⟩

theorem readTransactions_consumes {ws : List WireTransaction} (h : ∀ w ∈ ws, w.Fits) :
    Consumes (BlockStore.readTransactions ws.length) (slices ws)
      (ws.map WireTransaction.transaction) := by
  induction ws with
  | nil => exact .pure _
  | cons w ws ih =>
    obtain ⟨hw, hws⟩ := List.forall_mem_cons.mp h
    have hparse := WireTransaction.parseTransaction_iff_wire.mpr ⟨w, hw.transaction, rfl, rfl⟩
    exact (readBytes_consumes hw.size).bind
      ((Consumes.lift hparse).nil_bind ((ih hws).bind_nil (.pure _)))

theorem readTransactions_took {r : ByteReader} (hr : r.InRange)
    (h : (BlockStore.readTransactions n).run r = (.ok txs, r')) :
    ∃ ws : List WireTransaction, ws.length = n ∧ (∀ w ∈ ws, w.Fits) ∧
      ws.map WireTransaction.transaction = txs ∧ Took r (slices ws) r' := by
  induction n generalizing r txs with
  | zero =>
    cases h
    exact ⟨[], rfl, by simp, rfl, .nil hr⟩
  | succ n ih =>
    simp only [BlockStore.readTransactions, bind_ok, run_lift, Prod.mk.injEq] at h
    obtain ⟨txBytes, _, hbytes, tx, _, ⟨hparse, rfl⟩, txs, _, hrest, h⟩ := h
    cases h
    obtain ⟨htook, hsize⟩ := readBytes_took hr hbytes
    obtain ⟨w, hfits, rfl, rfl⟩ := WireTransaction.parseTransaction_iff_wire.mp hparse
    obtain ⟨ws, rfl, hws, rfl, htooks⟩ := ih htook.inRange hrest
    exact ⟨w :: ws, rfl, List.forall_mem_cons.mpr ⟨⟨hfits, hsize⟩, hws⟩, rfl, htook.trans htooks⟩

theorem readBlock_consumes {w : WireBlock} (h : w.Fits)
    (halloc : allocTransactions w.transactions.length = true) :
    Consumes (BlockStore.readBlock allocTransactions) w.fields w.block := by
  have hcount := UInt32.toNat_ofNat_of_lt' h.count
  refine (BlockStore.readHeader_consumes _).bind ((readU32_consumes _).bind ?_)
  rw [hcount]
  refine (Consumes.lift (a := ()) (by simp [BlockStore.reserve, halloc])).nil_bind ?_
  exact (readTransactions_consumes h.transactions).bind_nil (.pure _)

theorem readBlock_took {r : ByteReader} {block : Block} (hr : r.InRange)
    (h : (BlockStore.readBlock allocTransactions).run r = (.ok block, r')) :
    ∃ w : WireBlock, w.Fits ∧ allocTransactions w.transactions.length = true ∧ w.block = block ∧
      Took r w.fields r' := by
  simp only [BlockStore.readBlock, bind_ok, run_lift, Prod.mk.injEq] at h
  obtain ⟨header, _, hheader, numTxs, _, hnum, _, _, ⟨hreserve, rfl⟩, txs, _, htxs, h⟩ := h
  cases h
  have h₁ := BlockStore.readHeader_took hr hheader
  have h₂ := readU32_took h₁.inRange hnum
  obtain ⟨ws, hlen, hws, rfl, h₃⟩ := readTransactions_took h₂.inRange htxs
  have hcount : UInt32.ofNat ws.length = numTxs := by rw [hlen, UInt32.ofNat_toNat]
  refine ⟨⟨header, ws, []⟩, ⟨hlen ▸ numTxs.toNat_lt, hws⟩, ?_, rfl, ?_⟩
  · unfold BlockStore.reserve at hreserve
    split at hreserve
    next halloc => exact hlen ▸ halloc
    next => cases hreserve
  · rw [← hcount] at h₂
    exact h₁.trans (h₂.trans h₃)

end WireBlock

/-- Which payloads are accepted, and as what. -/
theorem BlockStore.decodePayload_iff_wire :
    decodePayload allocTransactions payload = .ok block ↔
      ∃ w : WireBlock, w.Fits ∧ allocTransactions w.transactions.length = true ∧
        w.bytes = payload ∧ w.block = block := by
  have hrange : Cursor.InRange ⟨payload, 0⟩ := Nat.zero_le _
  constructor
  · intro h
    obtain ⟨w, hfits, halloc, hblock, htook⟩ := WireBlock.readBlock_took hrange (Prod.ext h rfl)
    exact ⟨{ w with trailing := ((readBlock allocTransactions).run ⟨payload, 0⟩).2.rest },
      ⟨hfits.count, hfits.transactions⟩, halloc, htook.rest.symm, hblock⟩
  · rintro ⟨w, hfits, halloc, rfl, rfl⟩
    rw [decodePayload, WireBlock.readBlock_consumes hfits halloc _ w.trailing hrange rfl]

-- ---------------------------------------------------------------------------
-- What `serialize` writes
-- ---------------------------------------------------------------------------

def Transaction.wire (tx : Transaction) : WireTransaction :=
  { tag := 0xA1, subtag := 0x01, schema := 1, version := tx.version.toUInt32, nonce := tx.nonce,
    amount := tx.amount, fromPubPem := tx.fromPubPem, toLabel := tx.toLabel,
    signature := tx.signature, trailing := [] }

def Block.wire (block : Block) : WireBlock :=
  { header := block.header, transactions := block.transactions.map Transaction.wire,
    trailing := [] }

@[simp] theorem Transaction.bytes_wire (tx : Transaction) : tx.wire.bytes = tx.serialize false := by
  simp [serialize_eq, wire, WireTransaction.bytes, WireTransaction.fields]

@[simp] theorem Transaction.transaction_wire (tx : Transaction) : tx.wire.transaction = tx := by
  simp [wire, WireTransaction.transaction]

theorem Transaction.fits_wire {tx : Transaction} :
    tx.wire.Fits ↔ tx.Fits ∧ (tx.serialize false).length < 2 ^ 32 := by
  rw [← tx.bytes_wire]
  constructor
  · rintro ⟨hfits, hsize⟩
    exact ⟨tx.transaction_wire ▸ hfits, hsize⟩
  · rintro ⟨hfits, hsize⟩
    exact ⟨tx.transaction_wire.symm ▸ hfits, hsize⟩

@[simp] theorem Block.bytes_wire (block : Block) : block.wire.bytes = block.serialize := by
  simp [serialize_eq, wire, WireBlock.bytes, WireBlock.fields, WireBlock.slices, transactionBytes,
    List.flatMap_map]

@[simp] theorem Block.block_wire (block : Block) : block.wire.block = block := by
  simp [wire, WireBlock.block, Function.comp_def]

theorem Block.fits_wire {block : Block} : block.wire.Fits ↔ block.Fits := by
  constructor
  · rintro ⟨hcount, htransactions⟩
    simp only [wire, List.length_map, List.forall_mem_map, Transaction.fits_wire]
      at hcount htransactions
    exact ⟨hcount, fun tx htx => (htransactions tx htx).1, fun tx htx => (htransactions tx htx).2⟩
  · rintro ⟨hcount, hlengths, hsizes⟩
    refine ⟨by simpa [wire] using hcount, ?_⟩
    simp only [wire, List.forall_mem_map, Transaction.fits_wire]
    exact fun tx htx => ⟨hlengths tx htx, hsizes tx htx⟩

theorem WireTransaction.wire_transaction_iff {w : WireTransaction} :
    w.transaction.wire = w ↔ w.Exact := by
  have hversion : w.version.toUInt16.toUInt32 = w.version ↔ w.version.toNat < 2 ^ 16 := by
    rw [← UInt32.toNat_inj]
    simp only [UInt16.toNat_toUInt32, UInt32.toNat_toUInt16]
    exact ⟨fun h => h ▸ Nat.mod_lt _ (by decide), Nat.mod_eq_of_lt⟩
  cases w
  simp only [Transaction.wire, transaction, mk.injEq, true_and] at hversion ⊢
  constructor
  · rintro ⟨rfl, rfl, rfl, hv, rfl⟩
    exact ⟨rfl, rfl, rfl, hversion.mp hv, rfl⟩
  · rintro ⟨htag, hsubtag, hschema, hv, htrailing⟩
    exact ⟨htag.symm, hsubtag.symm, hschema.symm, hversion.mpr hv, htrailing.symm⟩

theorem WireBlock.wire_block_iff {w : WireBlock} : w.block.wire = w ↔ w.Exact := by
  have hmap : (w.transactions.map WireTransaction.transaction).map Transaction.wire =
      w.transactions ↔ ∀ tx ∈ w.transactions, tx.Exact := by
    rw [List.map_map]
    nth_rewrite 2 [← List.map_id w.transactions]
    simp only [List.map_inj_left, ← WireTransaction.wire_transaction_iff]
    rfl
  cases w
  simp only [Block.wire, block, mk.injEq, true_and] at hmap ⊢
  rw [hmap]
  constructor
  · rintro ⟨htransactions, rfl⟩
    exact ⟨htransactions, rfl⟩
  · rintro ⟨htransactions, htrailing⟩
    exact ⟨htransactions, htrailing.symm⟩

end Astro
