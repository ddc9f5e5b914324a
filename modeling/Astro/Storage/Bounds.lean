import Astro.Storage.Codec

/-!
# How far the decoder reads

Whatever is called on a `ByteReader`, and also after it has thrown, the
position stays inside the buffer. On a payload, every completed turn of the
transaction loop has taken the 42 bytes that the shortest transaction needs,
so that the payload and not the declared count bounds the work.
-/

namespace Astro

open ByteReader
open ByteWriter (lengthPrefixed)
open LittleEndian (toLE)
open Cursor (Reader)
open Cursor.Reader

-- ---------------------------------------------------------------------------
-- Any calls
-- ---------------------------------------------------------------------------

inductive ReaderCall
  | readU8
  | readU32
  | readU64
  | readBytes
  | readString
  | remainingBytes

namespace ReaderCall

/-- The call, whatever it returns. -/
def perform : ReaderCall → Decode Unit
  | readU8 => do let _ ← ByteReader.readU8
  | readU32 => do let _ ← ByteReader.readU32
  | readU64 => do let _ ← ByteReader.readU64
  | readBytes => do let _ ← ByteReader.readBytes
  | readString => do let _ ← ByteReader.readString
  | remainingBytes => do let _ ← Reader.get

/-- The reader after a sequence of calls; one that threw is used further. -/
def performAll (r : ByteReader) (calls : List ReaderCall) : ByteReader :=
  calls.foldl (fun r call => (call.perform.run r).2) r

theorem perform_advances (call : ReaderCall) : Advances Exn.outOfBounds 0 call.perform := by
  cases call with
  | readU8 => exact (readU8_advances.bind fun _ => .pure _).mono (Nat.zero_le _)
  | readU32 => exact (readU32_advances.bind fun _ => .pure _).mono (Nat.zero_le _)
  | readU64 => exact (readU64_advances.bind fun _ => .pure _).mono (Nat.zero_le _)
  | readBytes => exact (readBytes_advances.bind fun _ => .pure _).mono (Nat.zero_le _)
  | readString => exact (readString_advances.bind fun _ => .pure _).mono (Nat.zero_le _)
  | remainingBytes => exact Advances.get.bind fun _ => .pure _

theorem performAll_inRange {r : ByteReader} (hr : r.InRange) (calls : List ReaderCall) :
    (performAll r calls).src = r.src ∧ (performAll r calls).InRange := by
  induction calls generalizing r with
  | nil => exact ⟨rfl, hr⟩
  | cons call calls ih =>
    have hcall := perform_advances call
    obtain ⟨hsrc, hrange⟩ := ih (hcall.inRange r hr)
    exact ⟨hsrc.trans (hcall.src r hr), hrange⟩

end ReaderCall

-- ---------------------------------------------------------------------------
-- The decoder stays inside the payload
-- ---------------------------------------------------------------------------

namespace BlockStore

theorem readTransaction_advances : Advances Exn.outOfBounds 38 readTransaction :=
  readU8_advances.bind fun _ => readU8_advances.bind fun _ => readU32_advances.bind fun _ =>
    readU32_advances.bind fun _ => readU64_advances.bind fun _ => readU64_advances.bind fun _ =>
      readBytes_advances.bind fun _ => readString_advances.bind fun _ =>
        readBytes_advances.bind fun _ => .pure _

theorem parseTransaction_ne_outOfBounds (txBytes : Bytes) :
    parseTransaction txBytes ≠ .error .outOfBounds :=
  readTransaction_advances.safe ⟨txBytes, 0⟩ (Nat.zero_le _)

theorem readU8s_advances (n : Nat) : Advances Exn.outOfBounds n (readU8s n) := by
  induction n with
  | zero => exact .pure _
  | succ n ih =>
    have hstep : Advances Exn.outOfBounds (1 + (n + 0)) (readU8s (n + 1)) :=
      readU8_advances.bind fun _ => ih.bind fun _ => .pure _
    exact hstep.mono (Nat.le_of_eq (Nat.add_comm n 1))

theorem readHash_advances : Advances Exn.outOfBounds 32 readHash :=
  (readU8s_advances 32).bind fun _ => .pure _

theorem readHeader_advances : Advances Exn.outOfBounds 84 readHeader :=
  readU32_advances.bind fun _ => readHash_advances.bind fun _ => readHash_advances.bind fun _ =>
    readU64_advances.bind fun _ => readU64_advances.bind fun _ => .pure _

theorem readTransactions_advances (n : Nat) : Advances Exn.outOfBounds 0 (readTransactions n) := by
  induction n with
  | zero => exact .pure _
  | succ n ih =>
    have hstep : Advances Exn.outOfBounds 4 (readTransactions (n + 1)) :=
      readBytes_advances.bind fun txBytes =>
        (Advances.lift (parseTransaction_ne_outOfBounds txBytes)).bind fun _ =>
          ih.bind fun _ => .pure _
    exact hstep.mono (Nat.zero_le _)

theorem decodePayload_ne_outOfBounds (allocTransactions : Nat → Bool) (payload : Bytes) :
    decodePayload allocTransactions payload ≠ .error .outOfBounds := by
  have hreserve (n : Nat) : reserve allocTransactions n ≠ .error .outOfBounds := by
    unfold reserve
    split <;> simp
  have hread : Advances Exn.outOfBounds 88 (readBlock allocTransactions) :=
    readHeader_advances.bind fun _ => readU32_advances.bind fun numTxs =>
      (Advances.lift (hreserve numTxs.toNat)).bind fun _ =>
        (readTransactions_advances numTxs.toNat).bind fun _ => .pure _
  exact hread.safe ⟨payload, 0⟩ (Nat.zero_le _)

-- ---------------------------------------------------------------------------
-- The transaction loop
-- ---------------------------------------------------------------------------

/-- One turn of the loop over the transactions. -/
def readTurn : Decode Transaction := do
  let txBytes ← readBytes
  Reader.lift (parseTransaction txBytes)

/-- How many turns are completed before the loop ends or throws. -/
def turnsCompleted : Nat → ByteReader → Nat
  | 0, _ => 0
  | n + 1, r => match readTurn.run r with
    | (.ok _, r') => turnsCompleted n r' + 1
    | (.error _, _) => 0

/-- What precedes the loop: the header, the count, and the room for as many
transactions. -/
def beforeLoop (allocTransactions : Nat → Bool) : Decode Nat := do
  let _ ← readHeader
  let numTxs ← readU32
  Reader.lift (reserve allocTransactions numTxs.toNat)
  return numTxs.toNat

/-- The turns of the loop that are completed for a payload. -/
def loopTurns (allocTransactions : Nat → Bool) (payload : Bytes) : Nat :=
  match (beforeLoop allocTransactions).run ⟨payload, 0⟩ with
  | (.ok numTxs, r) => turnsCompleted numTxs r
  | (.error _, _) => 0

theorem readTransactions_succ (n : Nat) (r : ByteReader) : (readTransactions (n + 1)).run r =
    (do let tx ← readTurn; let txs ← readTransactions n; return tx :: txs :
      Decode (List Transaction)).run r := by
  simp only [readTransactions, readTurn, run_bind]
  rcases readBytes.run r with ⟨_ | txBytes, r'⟩ <;> rfl

/-- The loop ends without throwing when it has completed all its turns. -/
theorem turnsCompleted_eq_iff {r : ByteReader} :
    turnsCompleted n r = n ↔ ∃ txs, ((readTransactions n).run r).1 = .ok txs := by
  induction n generalizing r with
  | zero => exact ⟨fun _ => ⟨[], rfl⟩, fun _ => rfl⟩
  | succ n ih =>
    rw [readTransactions_succ]
    rcases hturn : readTurn.run r with ⟨e | tx, r'⟩
    · simp [turnsCompleted, run_bind, hturn]
    · have hloop := ih (r := r')
      rcases hrest : (readTransactions n).run r' with ⟨e | txs, r''⟩ <;> rw [hrest] at hloop <;>
        simpa [turnsCompleted, run_bind, hturn, hrest] using hloop

theorem loopTurns_of_ok (h : decodePayload allocTransactions payload = .ok block) :
    loopTurns allocTransactions payload = block.transactions.length := by
  have hrun : (readBlock allocTransactions).run ⟨payload, 0⟩ = (.ok block, _) := Prod.ext h rfl
  simp only [readBlock, bind_ok, run_lift, Prod.mk.injEq] at hrun
  obtain ⟨header, r₁, hheader, numTxs, r₂, hcount, _, _, ⟨hreserve, rfl⟩, txs, _, htxs, hblock⟩ :=
    hrun
  cases hblock
  have hbefore : (beforeLoop allocTransactions).run ⟨payload, 0⟩ = (.ok numTxs.toNat, r₂) :=
    bind_ok.mpr ⟨header, r₁, hheader, bind_ok.mpr ⟨numTxs, r₂, hcount,
      bind_ok.mpr ⟨(), r₂, by rw [run_lift, hreserve], rfl⟩⟩⟩
  have h₁ := readHeader_took (Nat.zero_le _) hheader
  have h₂ := readU32_took h₁.inRange hcount
  obtain ⟨ws, hlen, -, rfl, -⟩ := WireBlock.readTransactions_took h₂.inRange htxs
  have hturns := turnsCompleted_eq_iff.mpr ⟨_, congrArg Prod.fst htxs⟩
  simp only [loopTurns, hbefore, hturns, List.length_map, hlen]

theorem readTurn_took {r : ByteReader} (hr : r.InRange) (h : readTurn.run r = (.ok tx, r')) :
    ∃ w : WireTransaction, Took r (lengthPrefixed w.bytes) r' := by
  obtain ⟨txBytes, _, hbytes, h⟩ := bind_ok.mp h
  obtain ⟨hparse, rfl⟩ := Prod.mk.inj h
  obtain ⟨w, -, rfl, -⟩ := WireTransaction.parseTransaction_iff_wire.mp hparse
  exact ⟨w, (readBytes_took hr hbytes).1⟩

theorem turnsCompleted_le {r : ByteReader} (hr : r.InRange) (n : Nat) :
    42 * turnsCompleted n r ≤ r.rest.length := by
  induction n generalizing r with
  | zero => exact Nat.zero_le _
  | succ n ih =>
    rw [turnsCompleted]
    split
    next tx r' hturn =>
      obtain ⟨w, htook⟩ := readTurn_took hr hturn
      have hrest := ih htook.inRange
      rw [htook.rest, List.length_append, ByteWriter.length_lengthPrefixed, w.length_bytes]
      omega
    next => exact Nat.zero_le _

theorem loopTurns_le (allocTransactions : Nat → Bool) (payload : Bytes) :
    loopTurns allocTransactions payload ≤ (payload.length - 88) / 42 := by
  unfold loopTurns
  split
  next numTxs r h =>
    simp only [beforeLoop, bind_ok] at h
    obtain ⟨header, _, hheader, count, _, hcount, _, _, hreserve, h⟩ := h
    cases h
    cases (Prod.mk.inj hreserve).2
    have h₁ := readHeader_took (Nat.zero_le _) hheader
    have h₂ := readU32_took h₁.inRange hcount
    have hlen := congrArg List.length (h₁.trans h₂).rest
    have hturns := turnsCompleted_le h₂.inRange count.toNat
    simp only [Cursor.rest, List.drop_zero, List.length_append, BlockHeader.length_serialize,
      LittleEndian.length_toLE] at hlen hturns
    exact (Nat.le_div_iff_mul_le (by decide)).mpr (by omega)
  next => exact Nat.zero_le _

/-- The bytes of the keys, labels and signatures of a block. -/
def contentLength (block : Block) : Nat :=
  (block.transactions.map fun tx =>
    tx.fromPubPem.length + tx.toLabel.length + tx.signature.length).sum

theorem length_slices (ws : List WireTransaction) :
    42 * ws.length + ((ws.map WireTransaction.transaction).map fun tx =>
      tx.fromPubPem.length + tx.toLabel.length + tx.signature.length).sum ≤
        (WireBlock.slices ws).length := by
  induction ws with
  | nil => exact Nat.zero_le _
  | cons w ws ih =>
    simp only [WireBlock.slices, List.flatMap_cons, List.length_append, List.map_cons,
      List.sum_cons, List.length_cons, ByteWriter.length_lengthPrefixed, w.length_bytes] at ih ⊢
    simp only [WireTransaction.transaction] at ih ⊢
    omega

theorem length_payload (h : decodePayload allocTransactions payload = .ok block) :
    88 + 42 * block.transactions.length + contentLength block ≤ payload.length := by
  obtain ⟨w, -, -, rfl, rfl⟩ := decodePayload_iff_wire.mp h
  have hslices := length_slices w.transactions
  simp only [WireBlock.block, contentLength, WireBlock.bytes, WireBlock.fields,
    List.length_append, List.length_map, BlockHeader.length_serialize,
    LittleEndian.length_toLE] at hslices ⊢
  omega

end BlockStore

/-- Every call, whatever was called before and however it ended, finds the
position inside the buffer and reads nothing past its end; and the length of a
payload bounds the turns of the transaction loop and what they can yield. -/
theorem decoder_bounded :
    (∀ (src : Bytes) (calls : List ReaderCall),
      let r := ReaderCall.performAll ⟨src, 0⟩ calls
      r.src = src ∧ r.pos ≤ src.length ∧ remainingBytes r = src.length - r.pos ∧
        ∀ call : ReaderCall, (call.perform.run r).1 ≠ .error .outOfBounds) ∧
    ∀ (allocTransactions : Nat → Bool) (payload : Bytes),
      BlockStore.decodePayload allocTransactions payload ≠ .error .outOfBounds ∧
      BlockStore.loopTurns allocTransactions payload ≤ (payload.length - 88) / 42 ∧
      ∀ block, BlockStore.decodePayload allocTransactions payload = .ok block →
        BlockStore.loopTurns allocTransactions payload = block.transactions.length ∧
        88 + 42 * block.transactions.length ≤ payload.length ∧
        BlockStore.contentLength block ≤ payload.length - 88 - 42 * block.transactions.length := by
  constructor
  · intro src calls r
    obtain ⟨hsrc, hrange⟩ := ReaderCall.performAll_inRange (r := ⟨src, 0⟩) (Nat.zero_le _) calls
    refine ⟨hsrc, ?_, ?_, fun call => call.perform_advances.safe r hrange⟩
    · rw [← show r.src = src from hsrc]
      exact hrange
    · rw [remainingBytes_eq hrange, show r.src = src from hsrc]
  · intro allocTransactions payload
    refine ⟨BlockStore.decodePayload_ne_outOfBounds _ _, BlockStore.loopTurns_le _ _, ?_⟩
    intro block h
    have hlength := BlockStore.length_payload h
    exact ⟨BlockStore.loopTurns_of_ok h, by omega, by omega⟩

/-- Two transactions in 176 bytes, and a count of 2^32 - 1 in front of none. -/
theorem decoder_bounded_sample :
    let payload := (sampleChild [sampleTx 1, sampleTx 2]).serialize
    let declared := sampleGenesis.header.serialize ++ [255, 255, 255, 255]
    (88 + 42 * 2 ≤ payload.length ∧
      BlockStore.contentLength (sampleChild [sampleTx 1, sampleTx 2]) ≤
        payload.length - 88 - 42 * 2) ∧
    BlockStore.loopTurns (fun _ => true) declared ≤ (declared.length - 88) / 42 := by
  intro payload declared
  obtain ⟨-, hpayloads⟩ := decoder_bounded
  exact ⟨((hpayloads (fun _ => true) payload).2.2 (sampleChild [sampleTx 1, sampleTx 2])
    (BlockStore.decodePayload_serialize (by decide +kernel) rfl)).2,
    (hpayloads (fun _ => true) declared).2.1⟩

end Astro
