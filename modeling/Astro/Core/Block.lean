import Astro.Core.Merkle
import Astro.Core.Transaction

/-!
# block.cpp
-/

namespace Astro

structure BlockHeader where
  version : UInt32 := 1
  prevHash : Hash256 := Hash256.zero
  merkleRoot : Hash256 := Hash256.zero
  timestamp : UInt64 := 0
  nonce : UInt64 := 0
  deriving DecidableEq

namespace BlockHeader

def serialize (header : BlockHeader) : Bytes :=
  ({} : ByteWriter)
    |>.writeU32 header.version
    |>.writeRaw header.prevHash.bytes
    |>.writeRaw header.merkleRoot.bytes
    |>.writeU64 header.timestamp
    |>.writeU64 header.nonce
    |>.take

def hash (sha256 : Bytes → Hash256) (header : BlockHeader) : Hash256 := sha256 header.serialize

end BlockHeader

structure Block where
  header : BlockHeader := {}
  transactions : List Transaction := []
  deriving DecidableEq

/-- The loop of `Block::serialize` over the transactions. -/
def writeTransactions (writer : ByteWriter) : List Transaction → ByteWriter
  | [] => writer
  | tx :: txs =>
    let txBytes := tx.serialize false
    writeTransactions ((writer.writeU32 (UInt32.ofNat txBytes.length)).writeRaw txBytes) txs

def Block.serialize (block : Block) : Bytes :=
  let writer := ({} : ByteWriter)
    |>.writeRaw block.header.serialize
    |>.writeU32 (UInt32.ofNat block.transactions.length)
  (writeTransactions writer block.transactions).take

def computeMerkleRoot (sha256 : Bytes → Hash256) (transactions : List Transaction) : Hash256 :=
  root sha256 (transactions.map (·.txHash sha256))

def makeGenesisBlock (sha256 : Bytes → Hash256) (genesisNote : Bytes) (unixTime : UInt64) : Block :=
  let coinbase : Transaction :=
    { version := 1, nonce := 0, amount := 0, fromPubPem := [], toLabel := genesisNote,
      signature := [] }
  let transactions := [coinbase]
  { header :=
      { version := 1, prevHash := Hash256.zero,
        merkleRoot := computeMerkleRoot sha256 transactions, timestamp := unixTime, nonce := 0 }
    transactions }

/-- block.cpp and chain.cpp each have one of these. -/
def Block.isZeroHash (hash : Hash256) : Bool := hash.bytes.all (· == 0)

def basicBlockSanity (sha256 : Bytes → Hash256) (block : Block) (isGenesis : Bool) : Bool :=
  if block.header.merkleRoot ≠ computeMerkleRoot sha256 block.transactions then false
  else if isGenesis && !Block.isZeroHash block.header.prevHash then false
  else true

-- ---------------------------------------------------------------------------
-- Sample blocks
-- ---------------------------------------------------------------------------

def sampleTx (nonce : UInt64) : Transaction :=
  { nonce, fromPubPem := [1], signature := [1] }

def sampleGenesis : Block := { header := { merkleRoot := sampleSha256 [] } }

def sampleChild (transactions : List Transaction) : Block where
  header := {
    prevHash := sampleGenesis.header.hash sampleSha256
    merkleRoot := computeMerkleRoot sampleSha256 transactions }
  transactions := transactions

end Astro
