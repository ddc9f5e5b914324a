import Astro.Core.BlockLaws

/-!
# What a signature covers

The message that is signed and verified determines every field of the
transaction but the signature, whatever follows it, and signing leaves it as
it is.
-/

namespace Astro

namespace Transaction

theorem serialize_signing_signature (tx : Transaction) (signature : Bytes) :
    ({ tx with signature } : Transaction).serialize true = tx.serialize true := by
  simp [serialize_eq]

theorem sign_ok {tx : Transaction} (h : tx.sign signMessage privkeyPem = .ok signed) :
    ∃ signature, signMessage privkeyPem (tx.serialize true) = .ok signature ∧
      signed = { tx with signature } := by
  unfold sign at h
  split at h
  · cases h
  next signature hs =>
    cases h
    exact ⟨signature, hs, rfl⟩

end Transaction

/-- What `sign_message` makes with the private key, `verify_message` accepts
under the public key. -/
def MatchingPair (E : Env) (signMessage : Bytes → Bytes → Except Exn Bytes)
    (privkeyPem pubkeyPem : Bytes) : Prop :=
  ∀ message, ∃ signature, signMessage privkeyPem message = .ok signature ∧
    E.verifyMessage pubkeyPem message signature = .ok true

/-- The signing serialization is injective and prefix-free, and `verify` looks
at the message that `sign` signed. -/
theorem signedMessage_determines (E : Env) (signMessage : Bytes → Bytes → Except Exn Bytes) :
    (∀ (tx tx' : Transaction) (s s' : Bytes),
      tx.fromPubPem.length < 2 ^ 32 → tx.toLabel.length < 2 ^ 32 →
      tx'.fromPubPem.length < 2 ^ 32 → tx'.toLabel.length < 2 ^ 32 →
      tx.serialize true ++ s = tx'.serialize true ++ s' →
      tx.version = tx'.version ∧ tx.nonce = tx'.nonce ∧ tx.amount = tx'.amount ∧
        tx.fromPubPem = tx'.fromPubPem ∧ tx.toLabel = tx'.toLabel ∧ s = s') ∧
    (∀ (tx signed : Transaction) (privkeyPem : Bytes),
      tx.sign signMessage privkeyPem = .ok signed →
      signMessage privkeyPem (tx.serialize true) = .ok signed.signature ∧
        signed.verify E =
          E.verifyMessage tx.fromPubPem (tx.serialize true) signed.signature) ∧
    (∀ (tx : Transaction) (privkeyPem : Bytes),
      MatchingPair E signMessage privkeyPem tx.fromPubPem →
      ∃ signed, tx.sign signMessage privkeyPem = .ok signed ∧ signed.verify E = .ok true) := by
  refine ⟨?_, ?_, ?_⟩
  · intro tx tx' s s' hpem hlabel hpem' hlabel' h
    obtain ⟨hfields, hs⟩ := Transaction.serialize_signing_append_inj hpem hlabel hpem' hlabel' h
    simp only [Transaction.unsigned, Transaction.mk.injEq, and_true] at hfields
    obtain ⟨hversion, hnonce, hamount, hfrom, hto⟩ := hfields
    exact ⟨hversion, hnonce, hamount, hfrom, hto, hs⟩
  · intro tx signed privkeyPem h
    obtain ⟨signature, hsignature, rfl⟩ := Transaction.sign_ok h
    exact ⟨hsignature, by rw [Transaction.verify, Transaction.serialize_signing_signature]⟩
  · intro tx privkeyPem hpair
    obtain ⟨signature, hsignature, hverify⟩ := hpair (tx.serialize true)
    refine ⟨{ tx with signature }, by simp [Transaction.sign, hsignature], ?_⟩
    rwa [Transaction.verify, Transaction.serialize_signing_signature]

/-- One message, two signatures, and the key of `sampleEnv` repeated as the
signature. -/
theorem signedMessage_determines_sample :
    let tx := sampleTx 1
    let tx' := { tx with signature := [2, 3] }
    (tx.version = tx'.version ∧ tx.nonce = tx'.nonce ∧ tx.amount = tx'.amount ∧
      tx.fromPubPem = tx'.fromPubPem ∧ tx.toLabel = tx'.toLabel ∧ ([7] : Bytes) = [7]) ∧
    ∃ signed, tx'.sign (fun privkeyPem _ => .ok privkeyPem) [1] = .ok signed ∧
      signed.verify sampleEnv = .ok true := by
  intro tx tx'
  obtain ⟨hinj, -, hsign⟩ := signedMessage_determines sampleEnv fun privkeyPem _ => .ok privkeyPem
  have hmessage : tx'.serialize true = tx.serialize true :=
    Transaction.serialize_signing_signature tx [2, 3]
  exact ⟨hinj tx tx' [7] [7] (by decide) (by decide) (by decide) (by decide) (by rw [hmessage]),
    hsign tx' [1] fun _ => ⟨[1], rfl, rfl⟩⟩

end Astro
