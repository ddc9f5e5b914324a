import Astro.Core.Building
import Astro.Core.Signing
import Astro.Core.Verdict
import Astro.Tui.Threads

/-!
# What is asked of OpenSSL

A program that makes a key pair, signs a transaction with it and builds a block
relies on two things: that keys and signatures are short enough to be stored,
and that they match. A block of such a transaction can be stored, and lacks
nothing but work and a timestamp that is late enough.
-/

namespace Astro

open BlockStore (Storable)

-- ---------------------------------------------------------------------------
-- Short keys
-- ---------------------------------------------------------------------------

/-- Keys and signatures are far shorter than what a prefix of 32 bits counts. -/
def Signer.Short (signer : Signer) : Prop :=
  ∀ keyPair, signer.keyPair = .ok keyPair → keyPair.pubkeyPem.length < 2 ^ 30 ∧
    ∀ message signature, signer.signMessage keyPair.privkeyPem message = .ok signature →
      signature.length < 2 ^ 30

/-- At most one transaction, which fits its length prefix. -/
def Slim (transactions : List Transaction) : Prop :=
  transactions.length ≤ 1 ∧ ∀ tx ∈ transactions, (tx.serialize false).length < 2 ^ 32

theorem Transaction.length_serialize (tx : Transaction) : (tx.serialize false).length =
    38 + (tx.fromPubPem.length + tx.toLabel.length + tx.signature.length) := by
  rw [← Transaction.bytes_wire, WireTransaction.length_bytes]
  simp [Transaction.wire]

theorem storable_of_slim {block : Block} (h : Slim block.transactions) : Storable block := by
  obtain ⟨hcount, hsizes⟩ := h
  refine ⟨⟨by omega, fun tx htx => ?_, hsizes⟩, ?_⟩
  · have hsize := hsizes tx htx
    rw [Transaction.length_serialize] at hsize
    exact ⟨by omega, by omega, by omega⟩
  · have hbytes : (Block.transactionBytes block.transactions).length < 2 ^ 32 + 4 := by
      match htransactions : block.transactions with
      | [] => simp [Block.transactionBytes]
      | [tx] =>
        have hsize := hsizes tx (by simp [htransactions])
        simp only [Block.transactionBytes, List.flatMap_singleton,
          ByteWriter.length_lengthPrefixed]
        omega
      | _ :: _ :: _ => simp [htransactions] at hcount
    rw [Block.serialize_eq]
    simp only [List.length_append, BlockHeader.length_serialize, LittleEndian.length_toLE, maxSize]
    omega

theorem slim_makeGenesisBlock (h : note.length < 2 ^ 31) :
    Slim (makeGenesisBlock sha256 note unixTime).transactions := by
  refine ⟨Nat.le_refl 1, fun tx htx => ?_⟩
  obtain rfl := List.mem_singleton.mp htx
  rw [Transaction.length_serialize]
  simp only [List.length_nil]
  omega

theorem Signer.signed_ok {signer : Signer} (h : signer.signed tx = .ok tx') :
    ∃ keyPair signature, signer.keyPair = .ok keyPair ∧
      signer.signMessage keyPair.privkeyPem
        (({ tx with fromPubPem := keyPair.pubkeyPem } : Transaction).serialize true) =
          .ok signature ∧
      tx' = { tx with fromPubPem := keyPair.pubkeyPem, signature } := by
  unfold signed at h
  split at h
  · cases h
  next keyPair hpair =>
    obtain ⟨signature, hsignature, rfl⟩ := Transaction.sign_ok h
    exact ⟨keyPair, signature, hpair, hsignature, rfl⟩

theorem Signer.Short.slim {signer : Signer} (h : signer.Short)
    (hlabel : tx.toLabel.length < 2 ^ 30) (hsigned : signer.signed tx = .ok tx') : Slim [tx'] := by
  obtain ⟨keyPair, signature, hpair, hsignature, rfl⟩ := signer.signed_ok hsigned
  obtain ⟨hkey, hsignatures⟩ := h keyPair hpair
  have hsize := hsignatures _ _ hsignature
  refine ⟨Nat.le_refl 1, fun tx htx => ?_⟩
  obtain rfl := List.mem_singleton.mp htx
  rw [Transaction.length_serialize]
  dsimp only
  omega

-- ---------------------------------------------------------------------------
-- Keys that match
-- ---------------------------------------------------------------------------

/-- A key pair is made, and it signs what it verifies. -/
def Signer.Matching (E : Env) (signer : Signer) : Prop :=
  ∃ keyPair, signer.keyPair = .ok keyPair ∧
    MatchingPair E signer.signMessage keyPair.privkeyPem keyPair.pubkeyPem

/-- Every transaction has a sender, whose signature verifies. -/
def Verifying (E : Env) (transactions : List Transaction) : Prop :=
  ∀ tx ∈ transactions, tx.fromPubPem ≠ [] ∧ tx.verify E = .ok true

theorem Signer.Matching.signed {signer : Signer} (h : signer.Matching E) (tx : Transaction) :
    ∃ tx', signer.signed tx = .ok tx' ∧ Verifying E [tx'] := by
  obtain ⟨keyPair, hpair, hmatching⟩ := h
  obtain ⟨signature, hsignature, hverify⟩ :=
    hmatching (({ tx with fromPubPem := keyPair.pubkeyPem } : Transaction).serialize true)
  refine ⟨{ tx with fromPubPem := keyPair.pubkeyPem, signature }, ?_, fun tx' htx' => ?_⟩
  · simp [Signer.signed, hpair, Transaction.sign, hsignature]
  · obtain rfl := List.mem_singleton.mp htx'
    exact ⟨keyPair.exported, hverify⟩

theorem Verifying.keysParse {c : Chain} {block : Block} (h : Verifying E block.transactions) :
    KeysParse E c block := by
  intro i tx e htx hthrow
  simp [(h tx (List.mem_of_getElem? htx)).2] at hthrow

/-- A block without work that is built for this chain. -/
theorem Chain.validBlock_build_iff {c : Chain} {tip : Block} (htip : c.tip = some tip)
    (hverifying : Verifying E txs) :
    ValidBlock E c.config c.blocks (c.buildBlockFromTransactions E.sha256 txs timestamp) ↔
      tip.header.timestamp ≤ timestamp ∧ meetsDifficulty c.config.difficultyBits
        ((c.buildBlockFromTransactions E.sha256 txs timestamp).header.hash E.sha256) = true := by
  have hbuildable : c.Buildable E txs timestamp ↔ tip.header.timestamp ≤ timestamp := by
    unfold Buildable
    rw [htip]
    exact and_iff_left hverifying
  rw [validBlock_filled_iff rfl rfl, requiredWork_iff (blocks_ne_nil htip), ← hbuildable]
  rfl

-- ---------------------------------------------------------------------------
-- The sample signer
-- ---------------------------------------------------------------------------

theorem sampleSigner_short : sampleSigner.Short := by
  intro keyPair hpair
  cases hpair
  refine ⟨by decide, fun message signature hsignature => ?_⟩
  cases hsignature
  decide

theorem sampleSigner_matching : sampleSigner.Matching sampleEnv :=
  ⟨_, rfl, fun _ => ⟨[1], rfl, rfl⟩⟩

end Astro
