import Astro.Core.Pow
import Astro.Storage.BlockStore

/-!
# chain.cpp

Operations that may throw return what they threw or returned, next to the
chain (and the store) that they leave behind.
-/

namespace Astro

inductive ValidationError
  | none
  | emptyChainButNotGenesis
  | nonZeroPrevHashForGenesis
  | badPrevLink
  | nonMonotonicTimestamp
  | badMerkleRoot
  | badTransactionSignature
  | coinBaseMisplaced
  | coinbaseInNonGenesisBlock
  | insufficientPOW
  deriving DecidableEq, Repr

/-- `~0ull`. -/
def noIndex : Nat := 2 ^ 64 - 1

structure ValidationResult where
  isValid : Bool
  error : ValidationError
  transactionIndex : Nat := noIndex
  deriving DecidableEq, Repr

structure ChainConfig where
  difficultyBits : UInt32 := 0
  enforceGenesisPow : Bool := false
  deriving DecidableEq

structure Chain where
  config : ChainConfig := {}
  blocks : List Block := []

namespace Chain

def setDifficultyBits (c : Chain) (bits : UInt32) : Chain :=
  { c with config := { c.config with difficultyBits := bits } }

def height (c : Chain) : Nat := c.blocks.length

def tip (c : Chain) : Option Block := c.blocks.getLast?

def tipHash (sha256 : Bytes → Hash256) (c : Chain) : Option Hash256 :=
  c.tip.map (·.header.hash sha256)

def isZeroHash (hash : Hash256) : Bool := hash.bytes.all (· == 0)

-- ---------------------------------------------------------------------------
-- Validation
-- ---------------------------------------------------------------------------

/-- The checks of a block for an empty chain; `none` when all pass. -/
def checkGenesis (block : Block) : Option ValidationResult :=
  if !isZeroHash block.header.prevHash then some ⟨false, .nonZeroPrevHashForGenesis, noIndex⟩
  else match block.transactions with
    | [] => none
    | front :: others =>
      if !front.fromPubPem.isEmpty then some ⟨false, .coinBaseMisplaced, 0⟩
      else (others.findIdx? (·.fromPubPem.isEmpty)).map fun i => ⟨false, .coinBaseMisplaced, i + 1⟩

def checkLink (sha256 : Bytes → Hash256) (parent block : Block) : Option ValidationResult :=
  if block.header.prevHash ≠ parent.header.hash sha256 then some ⟨false, .badPrevLink, noIndex⟩
  else if block.header.timestamp < parent.header.timestamp then
    some ⟨false, .nonMonotonicTimestamp, noIndex⟩
  else (block.transactions.findIdx? (·.fromPubPem.isEmpty)).map
    fun i => ⟨false, .coinbaseInNonGenesisBlock, i⟩

def checkPlacement (sha256 : Bytes → Hash256) (c : Chain) (block : Block) :
    Option ValidationResult :=
  match c.tip with
  | none => checkGenesis block
  | some parent => checkLink sha256 parent block

/-- The signature loop, at the transaction of index `i`. A coinbase at the
head of a genesis block is skipped. -/
def checkSignatures (E : Env) (isGenesisCandidate : Bool) (i : Nat) :
    List Transaction → Except Exn (Option ValidationResult)
  | [] => .ok none
  | tx :: txs =>
    if isGenesisCandidate && i == 0 && tx.fromPubPem.isEmpty then
      checkSignatures E isGenesisCandidate (i + 1) txs
    else match tx.verify E with
      | .error e => .error e
      | .ok false => .ok (some ⟨false, .badTransactionSignature, i⟩)
      | .ok true => checkSignatures E isGenesisCandidate (i + 1) txs

def checkPow (E : Env) (config : ChainConfig) (isGenesisCandidate : Bool) (header : BlockHeader) :
    Option ValidationResult :=
  if 0 < config.difficultyBits then
    if isGenesisCandidate && !config.enforceGenesisPow then none
    else if !meetsDifficulty config.difficultyBits (header.hash E.sha256) then
      some ⟨false, .insufficientPOW, noIndex⟩
    else none
  else none

def validateBlock (E : Env) (c : Chain) (block : Block) : Except Exn ValidationResult :=
  let isGenesisCandidate := c.blocks.isEmpty
  match c.checkPlacement E.sha256 block with
  | some failure => .ok failure
  | none =>
    let computedMerkleRoot := computeMerkleRoot E.sha256 block.transactions
    if computedMerkleRoot ≠ block.header.merkleRoot then .ok ⟨false, .badMerkleRoot, noIndex⟩
    else match checkSignatures E isGenesisCandidate 0 block.transactions with
      | .error e => .error e
      | .ok (some failure) => .ok failure
      | .ok none =>
        match checkPow E c.config isGenesisCandidate block.header with
        | some failure => .ok failure
        | none => .ok ⟨true, .none, noIndex⟩

-- ---------------------------------------------------------------------------
-- Operations
-- ---------------------------------------------------------------------------

def push (c : Chain) (block : Block) : Chain := { c with blocks := c.blocks ++ [block] }

def appendBlock (E : Env) (c : Chain) (block : Block) : Except Exn ValidationResult × Chain :=
  match c.validateBlock E block with
  | .error e => (.error e, c)
  | .ok result => if !result.isValid then (.ok result, c) else (.ok result, c.push block)

/-- The loop of `restore_from_store`. -/
def restoreLoop (E : Env) (c : Chain) : List Block → Except Exn Unit × Chain
  | [] => (.ok (), c)
  | block :: blocks =>
    match c.appendBlock E block with
    | (.error e, c) => (.error e, c)
    | (.ok result, c) => if !result.isValid then (.ok (), c) else restoreLoop E c blocks

def restoreFromStore (E : Env) (c : Chain) (store : BlockStore) : Except Exn Unit × Chain :=
  match store.loadAllBlocks E with
  | .error e => (.error e, c)
  | .ok storedBlocks => c.restoreLoop E storedBlocks

def appendAndStore (E : Env) (c : Chain) (block : Block) (io : AppendTransfers)
    (store : BlockStore) : Except Exn ValidationResult × Chain × BlockStore :=
  match c.validateBlock E block with
  | .error e => (.error e, c, store)
  | .ok result =>
    if !result.isValid then (.ok result, c, store)
    else match store.appendBlock E io block with
      | (.error _, store) => (.ok ⟨false, .none, noIndex⟩, c, store)
      | (.ok (), store) => (.ok result, c.push block, store)

/-- A header without a parent keeps the zero hash that it starts with. -/
def buildBlockFromTransactions (sha256 : Bytes → Hash256) (c : Chain)
    (transactions : List Transaction) (timestamp : UInt64) : Block :=
  { header :=
      { version := 1
        prevHash := (c.tipHash sha256).getD Hash256.zero
        merkleRoot := computeMerkleRoot sha256 transactions
        timestamp
        nonce := 0 }
    transactions }

end Chain

end Astro
