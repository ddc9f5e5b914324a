import Astro.Core.Validity

/-!
# What `validate_block` reports

A result is exact when it is valid for the valid blocks only and otherwise
names a rule that the block breaks, with the first transaction that breaks it.
`validate_block` returns an exact result unless it asks for a signature under
a key that does not parse: then the exception of OpenSSL leaves it
(`validateBlock_exact_iff`).
-/

namespace Astro

/-- The first transaction with a property that may depend on its index. -/
def FirstAt (P : Nat → Transaction → Prop) (txs : List Transaction) (i : Nat) : Prop :=
  (∃ tx, txs[i]? = some tx ∧ P i tx) ∧ ∀ j < i, ∀ tx, txs[j]? = some tx → ¬P j tx

/-- A transaction that needs no signature, or has a good one. -/
def SignedAt (E : Env) (genesis : Bool) (i : Nat) (tx : Transaction) : Prop :=
  (genesis = true ∧ i = 0 ∧ tx.fromPubPem = []) ∨ tx.verify E = .ok true

/-- The rule that the error of a result names, and that the block breaks. -/
def Breaks (E : Env) (c : Chain) (block : Block) (r : ValidationResult) : Prop :=
  match r.error with
  | .none => False
  | .emptyChainButNotGenesis => False
  | .nonZeroPrevHashForGenesis => c.tip = none ∧ block.header.prevHash ≠ Hash256.zero
  | .badPrevLink =>
    ∃ parent, c.tip = some parent ∧ block.header.prevHash ≠ parent.header.hash E.sha256
  | .nonMonotonicTimestamp =>
    ∃ parent, c.tip = some parent ∧ block.header.timestamp < parent.header.timestamp
  | .badMerkleRoot =>
    block.header.merkleRoot ≠ computeMerkleRoot E.sha256 block.transactions
  | .badTransactionSignature =>
    FirstAt (fun i tx => ¬SignedAt E c.blocks.isEmpty i tx) block.transactions r.transactionIndex
  | .coinBaseMisplaced => c.tip = none ∧
    FirstAt (fun i tx => ¬(tx.fromPubPem = [] ↔ i = 0)) block.transactions r.transactionIndex
  | .coinbaseInNonGenesisBlock => c.tip ≠ none ∧
    FirstAt (fun _ tx => tx.fromPubPem = []) block.transactions r.transactionIndex
  | .insufficientPOW => ¬Worked E c.config c.blocks.isEmpty block.header

structure Exact (E : Env) (c : Chain) (block : Block) (r : ValidationResult) : Prop where
  valid_iff : r.isValid = true ↔ ValidBlock E c.config c.blocks block
  breaks : r.isValid = false → Breaks E c block r

def ExactVerdict (E : Env) (c : Chain) (block : Block) : Except Exn ValidationResult → Prop
  | .ok r => Exact E c block r
  | .error _ => False

/-- A key that does not parse is never reached: the block is rejected for its
place or its Merkle root, the transaction is the coinbase of a genesis block,
or one before it has a signature that is bad. -/
def KeysParse (E : Env) (c : Chain) (block : Block) : Prop :=
  ∀ (i : Nat) tx e, block.transactions[i]? = some tx → tx.verify E = .error e →
    ¬Placed E.sha256 c.blocks.getLast? block ∨
    block.header.merkleRoot ≠ computeMerkleRoot E.sha256 block.transactions ∨
    (c.blocks.isEmpty = true ∧ i = 0 ∧ tx.fromPubPem = []) ∨
    ∃ j < i, ∃ tx', block.transactions[j]? = some tx' ∧ tx'.verify E = .ok false ∧
      ¬(c.blocks.isEmpty = true ∧ j = 0 ∧ tx'.fromPubPem = [])

-- ---------------------------------------------------------------------------
-- First transactions
-- ---------------------------------------------------------------------------

theorem firstAt_zero {P : Nat → Transaction → Prop} (h : P 0 tx) : FirstAt P (tx :: txs) 0 :=
  ⟨⟨tx, rfl, h⟩, fun _ hj => absurd hj (Nat.not_lt_zero _)⟩

theorem FirstAt.cons {P : Nat → Transaction → Prop} (h : FirstAt (fun i => P (i + 1)) txs i)
    (h0 : ¬P 0 tx) : FirstAt P (tx :: txs) (i + 1) := by
  refine ⟨h.1, fun j hj tx' htx' => ?_⟩
  cases j with
  | zero => cases htx'; exact h0
  | succ j => exact h.2 j (Nat.lt_of_succ_lt_succ hj) tx' htx'

theorem firstAt_of_findIdx? {p : Transaction → Bool} (h : txs.findIdx? p = some i) :
    FirstAt (fun _ tx => p tx = true) txs i := by
  obtain ⟨hi, hp, hfirst⟩ := List.findIdx?_eq_some_iff_getElem.mp h
  refine ⟨⟨_, List.getElem?_eq_getElem hi, hp⟩, fun j hj tx htx => ?_⟩
  obtain ⟨_, rfl⟩ := List.getElem?_eq_some_iff.mp htx
  exact hfirst j hj

namespace Chain

-- ---------------------------------------------------------------------------
-- Check by check
-- ---------------------------------------------------------------------------

theorem checkGenesis_breaks {c : Chain} (ht : c.tip = none) (h : checkGenesis block = some r) :
    Breaks E c block r := by
  unfold checkGenesis at h
  split at h
  next hzero =>
    cases h
    refine ⟨ht, fun hprev => ?_⟩
    rw [isZeroHash_iff.mpr hprev] at hzero
    simp at hzero
  next =>
    split at h
    · cases h
    next front others htxs =>
      split at h
      next hfront =>
        cases h
        refine ⟨ht, ?_⟩
        rw [htxs]
        exact firstAt_zero (by simpa using hfront)
      next hfront =>
        obtain ⟨i, hi, rfl⟩ := Option.map_eq_some_iff.mp h
        refine ⟨ht, ?_⟩
        rw [htxs]
        refine FirstAt.cons ?_ (by simpa using hfront)
        simpa using firstAt_of_findIdx? hi

theorem checkLink_breaks {c : Chain} (ht : c.tip = some parent)
    (h : checkLink E.sha256 parent block = some r) : Breaks E c block r := by
  unfold checkLink at h
  split at h
  next hprev => cases h; exact ⟨parent, ht, hprev⟩
  next =>
    split at h
    next htime => cases h; exact ⟨parent, ht, htime⟩
    next =>
      obtain ⟨i, hi, rfl⟩ := Option.map_eq_some_iff.mp h
      refine ⟨by simp [ht], ?_⟩
      simpa using firstAt_of_findIdx? hi

theorem checkPlacement_breaks {c : Chain} (h : c.checkPlacement E.sha256 block = some r) :
    Breaks E c block r := by
  unfold checkPlacement at h
  split at h
  next ht => exact checkGenesis_breaks ht h
  next ht => exact checkLink_breaks ht h

theorem checkSignatures_signed (h : SignedAt E genesis k tx) :
    checkSignatures E genesis k (tx :: txs) = checkSignatures E genesis (k + 1) txs := by
  rw [checkSignatures]
  rcases h with ⟨rfl, rfl, hp⟩ | hok
  · simp [hp]
  · simp [hok]

theorem checkSignatures_unsigned (h : ¬SignedAt E genesis k tx) :
    checkSignatures E genesis k (tx :: txs) =
      (tx.verify E).map fun _ => some ⟨false, .badTransactionSignature, k⟩ := by
  obtain ⟨hno, hverify⟩ := not_or.mp h
  have hcond : (genesis && k == 0 && tx.fromPubPem.isEmpty) = false := by
    simpa [Bool.and_assoc, List.isEmpty_iff] using hno
  rw [checkSignatures, hcond]
  rcases hv : tx.verify E with e | _ | _
  · rfl
  · rfl
  · exact absurd hv hverify

/-- The signature loop passes every transaction, or stops at the first one
that is not signed: with its index, or with what `verify_message` threw. -/
theorem checkSignatures_cases (E : Env) (genesis : Bool) (k : Nat) (txs : List Transaction) :
    (checkSignatures E genesis k txs = .ok none ∧
      ∀ (i : Nat) tx, txs[i]? = some tx → SignedAt E genesis (k + i) tx) ∨
    ∃ i tx, txs[i]? = some tx ∧ FirstAt (fun i tx => ¬SignedAt E genesis (k + i) tx) txs i ∧
      checkSignatures E genesis k txs =
        (tx.verify E).map fun _ => some ⟨false, .badTransactionSignature, k + i⟩ := by
  induction txs generalizing k with
  | nil => exact .inl ⟨rfl, by simp⟩
  | cons tx txs ih =>
    by_cases hsigned : SignedAt E genesis k tx
    · rw [checkSignatures_signed hsigned]
      have hshift (i : Nat) : k + 1 + i = k + (i + 1) := by omega
      rcases ih (k + 1) with ⟨hnone, hall⟩ | ⟨i, tx', htx', hfirst, hstop⟩
      · refine .inl ⟨hnone, forall_getElem?_cons.mpr ⟨hsigned, fun i tx' htx' => ?_⟩⟩
        exact hshift i ▸ hall i tx' htx'
      · simp only [hshift] at hfirst hstop
        exact .inr ⟨i + 1, tx', htx', hfirst.cons (not_not_intro hsigned), hstop⟩
    · exact .inr ⟨0, tx, rfl, firstAt_zero hsigned, checkSignatures_unsigned hsigned⟩

theorem checkPow_breaks {c : Chain}
    (h : checkPow E c.config c.blocks.isEmpty block.header = some r) : Breaks E c block r := by
  have hno : ¬Worked E c.config c.blocks.isEmpty block.header := by
    rw [← checkPow_none, h]
    simp
  unfold checkPow at h
  split at h
  · split at h
    · cases h
    · split at h
      · cases h
        exact hno
      · cases h
  · cases h

-- ---------------------------------------------------------------------------
-- The verdict
-- ---------------------------------------------------------------------------

theorem validateBlock_of_placed {c : Chain} (hplaced : Placed E.sha256 c.blocks.getLast? block)
    (hmerkle : block.header.merkleRoot = computeMerkleRoot E.sha256 block.transactions) :
    c.validateBlock E block = match checkSignatures E c.blocks.isEmpty 0 block.transactions with
      | .error e => .error e
      | .ok (some failure) => .ok failure
      | .ok none =>
        match checkPow E c.config c.blocks.isEmpty block.header with
        | some failure => .ok failure
        | none => .ok ⟨true, .none, noIndex⟩ := by
  rw [validateBlock, checkPlacement_none.mpr hplaced]
  exact if_neg (not_not.mpr hmerkle.symm)

theorem validateBlock_breaks {c : Chain} (h : c.validateBlock E block = .ok r)
    (hr : r.isValid = false) : Breaks E c block r := by
  unfold validateBlock at h
  dsimp only at h
  split at h
  next hplaced => cases h; exact checkPlacement_breaks hplaced
  next =>
    split at h
    next hmerkle => cases h; exact fun heq => hmerkle heq.symm
    next =>
      rcases checkSignatures_cases E c.blocks.isEmpty 0 block.transactions with
        ⟨hnone, -⟩ | ⟨i, tx, -, hfirst, hstop⟩
      · rw [hnone] at h
        dsimp only at h
        split at h
        next hworked => cases h; exact checkPow_breaks hworked
        next => cases h; simp at hr
      · rw [hstop] at h
        rcases hv : tx.verify E with e | b <;> rw [hv] at h
        · cases h
        · cases h
          simpa [Breaks] using hfirst

theorem exact_of_ok {c : Chain} (h : c.validateBlock E block = .ok r) : Exact E c block r := by
  refine ⟨⟨of_validateBlock h, fun hv => ?_⟩, validateBlock_breaks h⟩
  rw [validateBlock_ok hv] at h
  cases h
  rfl

/-- What leaves `validate_block` is what `verify_message` threw for the first
transaction without a signature, if the block is in its place and its Merkle
root is right. -/
theorem validateBlock_error {c : Chain} (h : c.validateBlock E block = .error e) :
    Placed E.sha256 c.blocks.getLast? block ∧
    block.header.merkleRoot = computeMerkleRoot E.sha256 block.transactions ∧
    ∃ i tx, block.transactions[i]? = some tx ∧ tx.verify E = .error e ∧
      FirstAt (fun i tx => ¬SignedAt E c.blocks.isEmpty i tx) block.transactions i := by
  have hplaced : Placed E.sha256 c.blocks.getLast? block := by
    refine checkPlacement_none.mp ?_
    cases hp : c.checkPlacement E.sha256 block with
    | none => rfl
    | some failure => simp [validateBlock, hp] at h
  have hmerkle : block.header.merkleRoot = computeMerkleRoot E.sha256 block.transactions := by
    refine Decidable.byContradiction fun hne => ?_
    simp [validateBlock, checkPlacement_none.mpr hplaced, Ne.symm hne] at h
  refine ⟨hplaced, hmerkle, ?_⟩
  rw [validateBlock_of_placed hplaced hmerkle] at h
  rcases checkSignatures_cases E c.blocks.isEmpty 0 block.transactions with
    ⟨hnone, -⟩ | ⟨i, tx, htx, hfirst, hstop⟩
  · rw [hnone] at h
    dsimp only at h
    split at h <;> cases h
  · refine ⟨i, tx, htx, ?_, by simpa using hfirst⟩
    rw [hstop] at h
    rcases hv : tx.verify E with e' | b <;> rw [hv] at h
    · cases h; rfl
    · cases h

theorem skipped_of_throws (h : SignedAt E genesis i tx) (hthrow : tx.verify E = .error e) :
    genesis = true ∧ i = 0 ∧ tx.fromPubPem = [] := by
  rcases h with hskip | hok
  · exact hskip
  · simp [hthrow] at hok

/-- The loop returns only if it skips a transaction whose key does not parse,
or has stopped before it. -/
theorem checkSignatures_returns (h : checkSignatures E genesis 0 txs = .ok r)
    (htx : txs[i]? = some tx) (hthrow : tx.verify E = .error e) :
    (genesis = true ∧ i = 0 ∧ tx.fromPubPem = []) ∨
    ∃ j < i, ∃ tx', txs[j]? = some tx' ∧ tx'.verify E = .ok false ∧
      ¬(genesis = true ∧ j = 0 ∧ tx'.fromPubPem = []) := by
  rcases checkSignatures_cases E genesis 0 txs with ⟨-, hall⟩ | ⟨j, tx', htx', hfirst, hstop⟩
  · have hsigned : SignedAt E genesis i tx := by simpa using hall i tx htx
    exact .inl (skipped_of_throws hsigned hthrow)
  · simp only [Nat.zero_add] at hfirst
    obtain ⟨tx'', htx'', hunsigned⟩ := hfirst.1
    cases htx'.symm.trans htx''
    rw [hstop] at h
    rcases hv : tx'.verify E with e' | b
    · rw [hv] at h
      cases h
    · obtain ⟨hno, hfalse⟩ := not_or.mp hunsigned
      have hb : b = false := by simpa [hv] using hfalse
      rcases Nat.lt_trichotomy j i with hlt | rfl | hgt
      · exact .inr ⟨j, hlt, tx', htx', hb ▸ hv, hno⟩
      · cases htx.symm.trans htx'
        simp [hthrow] at hv
      · have hsigned : SignedAt E genesis i tx := not_not.mp (hfirst.2 i hgt tx htx)
        exact .inl (skipped_of_throws hsigned hthrow)

theorem keysParse_of_ok {c : Chain} (h : c.validateBlock E block = .ok r) :
    KeysParse E c block := by
  intro i tx e htx hthrow
  by_cases hplaced : Placed E.sha256 c.blocks.getLast? block
  · by_cases hmerkle : block.header.merkleRoot = computeMerkleRoot E.sha256 block.transactions
    · refine .inr (.inr ?_)
      rw [validateBlock_of_placed hplaced hmerkle] at h
      cases hs : checkSignatures E c.blocks.isEmpty 0 block.transactions with
      | error e' =>
        rw [hs] at h
        cases h
      | ok => exact checkSignatures_returns hs htx hthrow
    · exact .inr (.inl hmerkle)
  · exact .inl hplaced

theorem validateBlock_ne_error {c : Chain} (h : KeysParse E c block) :
    c.validateBlock E block ≠ .error e := by
  intro hv
  obtain ⟨hplaced, hmerkle, i, tx, htx, hthrow, hfirst⟩ := validateBlock_error hv
  obtain ⟨tx', htx', hunsigned⟩ := hfirst.1
  cases htx.symm.trans htx'
  rcases h i tx e htx hthrow with hno | hno | hskip | ⟨j, hj, tx', htx', hfalse, hno⟩
  · exact hno hplaced
  · exact hno hmerkle
  · exact hunsigned (.inl hskip)
  · rcases not_not.mp (hfirst.2 j hj tx' htx') with hskip | hok
    · exact hno hskip
    · simp [hfalse] at hok

/-- `validate_block` returns, and returns an exact result, for the blocks of
which it meets no key that does not parse. -/
theorem validateBlock_exact_iff (E : Env) (c : Chain) (block : Block) :
    ExactVerdict E c block (c.validateBlock E block) ↔ KeysParse E c block := by
  cases hv : c.validateBlock E block with
  | ok r => exact ⟨fun _ => keysParse_of_ok hv, fun _ => exact_of_ok hv⟩
  | error e => exact ⟨False.elim, fun h => validateBlock_ne_error h hv⟩

/-- A block with a right place and Merkle root, and a key that does not parse. -/
theorem validateBlock_throws :
    let E := { sampleEnv with
      verifyMessage := fun _ _ _ => .error (.runtimeError "PEM_read_bio_PUBKEY: no start line") }
    let c : Chain := { blocks := [sampleGenesis] }
    let block := sampleChild [sampleTx 1]
    c.validateBlock E block = .error (.runtimeError "PEM_read_bio_PUBKEY: no start line") ∧
      ¬ExactVerdict E c block (c.validateBlock E block) := by
  intro E c block
  have hthrow : c.validateBlock E block =
      .error (.runtimeError "PEM_read_bio_PUBKEY: no start line") := by decide +kernel
  exact ⟨hthrow, by rw [hthrow]; exact id⟩

end Chain

end Astro
