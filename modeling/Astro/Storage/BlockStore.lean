import Astro.Library.FileStream
import Astro.Core.Block

/-!
# block_store.cpp

A `BlockStore` is the state of `chain.log`. `append_block` writes one record
through a buffered stream: a header of 22 bytes, the serialized block, and the
SHA-256 of it. `load_all_blocks` reads records until one is missing or wrong.
Numbers are written from and read into memory, which is little-endian.

What the system does to the stream of an append is its input `AppendTransfers`;
fsync makes durable what is in the file and has no other effect.
-/

namespace Astro

open FileStream
open ByteReader
open LittleEndian (toLE ofLE)
open Cursor (Reader)

def MAGIC : UInt32 := 0x41535452
def VER : UInt64 := 1
def KIND_BLOCK : UInt16 := 1

structure RecordHeader where
  magic : UInt32
  version : UInt64
  kind : UInt16
  length : UInt64

structure BlockStore where
  /-- What `chain.log` contains, if it exists. -/
  log : Option Bytes := some []
  /-- Whether the log opens for reading, and for appending. -/
  canRead : Bool := true
  canWrite : Bool := true

-- ---------------------------------------------------------------------------
-- Appending
-- ---------------------------------------------------------------------------

/-- The transfers after each of the six writes, at the flush, and at the close
in the destructor. -/
structure AppendTransfers where
  magic : Transfer
  version : Transfer
  kind : Transfer
  length : Transfer
  payload : Transfer
  check : Transfer
  flush : Option Nat
  close : Option Nat

namespace BlockStore

def appendBlock (E : Env) (io : AppendTransfers) (block : Block) (store : BlockStore) :
    Except Exn Unit × BlockStore :=
  let payload := block.serialize
  let check := E.sha256 payload
  let header : RecordHeader := ⟨MAGIC, VER, KIND_BLOCK, UInt64.ofNat payload.length⟩
  if !store.canWrite then (.error (.runtimeError "BlockStore: open append failed"), store)
  else
    let out := ({ file := store.log.getD [] } : OFStream UInt8)
      |>.write (toLE 4 header.magic.toNat) io.magic
      |>.write (toLE 8 header.version.toNat) io.version
      |>.write (toLE 2 header.kind.toNat) io.kind
      |>.write (toLE 8 header.length.toNat) io.length
      |>.write payload io.payload
      |>.write check.bytes io.check
    if out.bad then
      (.error (.runtimeError "BlockStore: write failed"),
        { store with log := some (out.close io.close).file })
    else
      let out := out.flush io.flush
      (.ok (), { store with log := some (out.close io.close).file })

-- ---------------------------------------------------------------------------
-- Decoding a payload
-- ---------------------------------------------------------------------------

def readTransaction : Decode Transaction := do
  let _ ← readU8 -- 0xA1
  let _ ← readU8 -- 0x01
  let _ ← readU32 -- reserved/schema
  let version ← readU32
  let nonce ← readU64
  let amount ← readU64
  let fromPubPem ← readBytes
  let toLabel ← readString
  let signature ← readBytes
  return { version := version.toUInt16, nonce, amount, fromPubPem, toLabel, signature }

def parseTransaction (bytes : Bytes) : Except Exn Transaction := (readTransaction.run ⟨bytes, 0⟩).1

/-- One `read_u8` for every byte of an array. -/
def readU8s : (n : Nat) → Decode { bytes : Bytes // bytes.length = n }
  | 0 => pure ⟨[], rfl⟩
  | n + 1 => do
    let byte ← readU8
    let bytes ← readU8s n
    return ⟨byte :: bytes.val, by simp [bytes.property]⟩

def readHash : Decode Hash256 := do
  let bytes ← readU8s 32
  return ⟨bytes.val, bytes.property⟩

def readHeader : Decode BlockHeader := do
  let version ← readU32
  let prevHash ← readHash
  let merkleRoot ← readHash
  let timestamp ← readU64
  let nonce ← readU64
  return { version, prevHash, merkleRoot, timestamp, nonce }

/-- `vector<Transaction>::reserve`. -/
def reserve (allocTransactions : Nat → Bool) (n : Nat) : Except Exn Unit :=
  if allocTransactions n then .ok () else .error .badAlloc

def readTransactions : Nat → Decode (List Transaction)
  | 0 => pure []
  | n + 1 => do
    let txBytes ← readBytes
    let tx ← Reader.lift (parseTransaction txBytes)
    let txs ← readTransactions n
    return tx :: txs

def readBlock (allocTransactions : Nat → Bool) : Decode Block := do
  let header ← readHeader
  let numTxs ← readU32
  Reader.lift (reserve allocTransactions numTxs.toNat)
  let transactions ← readTransactions numTxs.toNat
  return { header, transactions }

def decodePayload (allocTransactions : Nat → Bool) (payload : Bytes) : Except Exn Block :=
  ((readBlock allocTransactions).run ⟨payload, 0⟩).1

-- ---------------------------------------------------------------------------
-- Loading
-- ---------------------------------------------------------------------------

def uninitBytes (E : Env) (size : Nat) : Bytes := (List.range size).map E.uninit

/-- A read into an uninitialised local: past the end it keeps what was there. -/
def readMemory (E : Env) (size : Nat) (s : IFStream UInt8) : Nat × IFStream UInt8 :=
  let (buffer, s) := s.read (uninitBytes E size)
  (ofLE buffer, s)

/-- The fields of a record header; `none` is a `break` on the stream state. -/
def readFields (E : Env) (s : IFStream UInt8) : Option (RecordHeader × IFStream UInt8) :=
  let (magic, s) := readMemory E 4 s
  if s.failed then none
  else
    let (version, s) := readMemory E 8 s
    let (kind, s) := readMemory E 2 s
    let (length, s) := readMemory E 8 s
    if s.failed then none
    else some (⟨UInt32.ofNat magic, UInt64.ofNat version, UInt16.ofNat kind, UInt64.ofNat length⟩, s)

/-- `vector<uint8_t>::resize` of an empty vector. -/
def resize (E : Env) (length : Nat) : Except Exn Bytes :=
  if maxSize < length then .error .lengthError
  else if E.allocBytes length then .ok (List.replicate length 0)
  else .error .badAlloc

/-- What follows the header of a block record, read into a payload of the
length that the header gives; `none` is a `break`. -/
def readBody (E : Env) (zeros : Bytes) (s : IFStream UInt8) :
    Except Exn (Option (Block × IFStream UInt8)) :=
  let (payload, s) := s.read zeros
  if s.failed then .ok none
  else
    let (check, s) := s.read Hash256.zero.bytes
    if s.failed then .ok none
    else if (E.sha256 payload).bytes ≠ check then .ok none
    else match decodePayload E.allocTransactions payload with
      | .error e => .error e
      | .ok block => .ok (some (block, s))

/-- One turn of the loop of `load_all_blocks`; `none` is a `break`. -/
def readRecord (E : Env) (s : IFStream UInt8) : Except Exn (Option (Block × IFStream UInt8)) :=
  match readFields E s with
  | none => .ok none
  | some (header, s) =>
    if header.magic ≠ MAGIC ∨ header.version ≠ VER ∨ header.kind ≠ KIND_BLOCK then .ok none
    else match resize E header.length.toNat with
      | .error e => .error e
      | .ok zeros => readBody E zeros s

theorem readFields_le (h : readFields E s = some (header, s')) :
    s'.rest.length ≤ s.rest.length := by
  unfold readFields at h
  dsimp only at h
  split at h
  · cases h
  · split at h
    · cases h
    · cases h
      have hread (size : Nat) (s : IFStream UInt8) :
          (readMemory E size s).2.rest.length ≤ s.rest.length := s.length_rest_read _
      exact (hread _ _).trans ((hread _ _).trans ((hread _ _).trans (hread _ _)))

theorem readBody_lt (h : readBody E zeros s = .ok (some (block, s'))) :
    s'.rest.length < s.rest.length := by
  unfold readBody at h
  dsimp only at h
  split at h
  · cases h
  · split at h
    · cases h
    next hcheck =>
      have hpayload := s.length_rest_read zeros
      have hread := IFStream.length_rest_of_read (Bool.not_eq_true _ ▸ hcheck)
      have hzero : Hash256.zero.bytes.length = 32 := Hash256.zero.size_eq
      split at h
      · cases h
      · split at h
        · cases h
        · cases h
          omega

/-- Every turn that goes on takes something from the log. -/
theorem readRecord_lt (h : readRecord E s = .ok (some (block, s'))) :
    s'.rest.length < s.rest.length := by
  unfold readRecord at h
  split at h
  · cases h
  next hfields =>
    split at h
    · cases h
    · split at h
      · cases h
      · exact Nat.lt_of_lt_of_le (readBody_lt h) (readFields_le hfields)

def loadLoop (E : Env) (s : IFStream UInt8) (out : List Block) : Except Exn (List Block) :=
  if s.peekEof then .ok out
  else match _h : readRecord E s with
    | .error e => .error e
    | .ok none => .ok out
    | .ok (some (block, s')) => loadLoop E s' (out ++ [block])
termination_by s.rest.length
decreasing_by exact readRecord_lt _h

def loadAllBlocks (E : Env) (store : BlockStore) : Except Exn (List Block) :=
  match store.log with
  | none => .ok []
  | some log =>
    if !store.canRead then .error (.runtimeError "BlockStore: open read failed")
    else loadLoop E { rest := log } []

end BlockStore

end Astro
