import Astro.Core.Chain

/-!
# What `validate_block` accepts

`ValidBlock` states the rules for a block after a list of blocks, and
`validateBlock_iff` says that `validate_block` accepts exactly the blocks that
keep them.
-/

namespace Astro

/-- Exactly the first transaction, if there is one, has no sender. -/
def CoinbaseFirst (transactions : List Transaction) : Prop :=
  ∀ (i : Nat) tx, transactions[i]? = some tx → (tx.fromPubPem = [] ↔ i = 0)

/-- The place of a block in the chain: first of all, or after its parent. -/
def Placed (sha256 : Bytes → Hash256) (parent : Option Block) (block : Block) : Prop :=
  match parent with
  | none => block.header.prevHash = Hash256.zero ∧ CoinbaseFirst block.transactions
  | some parent => block.header.prevHash = parent.header.hash sha256 ∧
      parent.header.timestamp ≤ block.header.timestamp ∧
      ∀ tx ∈ block.transactions, tx.fromPubPem ≠ []

/-- Every transaction verifies, but for a coinbase at the head of a genesis
block. -/
def Signed (E : Env) (genesis : Bool) (transactions : List Transaction) : Prop :=
  ∀ (i : Nat) tx, transactions[i]? = some tx →
    (genesis = true ∧ i = 0 ∧ tx.fromPubPem = []) ∨ tx.verify E = .ok true

/-- A genesis block is exempt unless the configuration enforces its work. -/
def Worked (E : Env) (config : ChainConfig) (genesis : Bool) (header : BlockHeader) : Prop :=
  (genesis = true ∧ config.enforceGenesisPow = false) ∨
    meetsDifficulty config.difficultyBits (header.hash E.sha256) = true

structure ValidBlock (E : Env) (config : ChainConfig) (blocks : List Block) (block : Block) :
    Prop where
  placed : Placed E.sha256 blocks.getLast? block
  merkle : block.header.merkleRoot = computeMerkleRoot E.sha256 block.transactions
  signed : Signed E blocks.isEmpty block.transactions
  worked : Worked E config blocks.isEmpty block.header

/-- A configuration that asks for no more work than another one did, of a
block and of a genesis block. -/
def ChainConfig.NoHarder (config config' : ChainConfig) (genesis : Bool) : Prop :=
  config.difficultyBits ≤ config'.difficultyBits ∧
    (genesis = true → config.enforceGenesisPow = true →
      config.difficultyBits = 0 ∨ config'.enforceGenesisPow = true)

theorem ValidBlock.mono (h : ValidBlock E config' blocks block)
    (hc : config.NoHarder config' blocks.isEmpty) : ValidBlock E config blocks block := by
  refine { h with worked := ?_ }
  rcases h.worked with ⟨hg, he'⟩ | hm
  · cases he : config.enforceGenesisPow with
    | false => exact .inl ⟨hg, he⟩
    | true =>
      have hzero : config.difficultyBits = 0 := by simpa [he'] using hc.2 hg he
      exact .inr (hzero ▸ meetsDifficulty_zero _)
  · exact .inr (meetsDifficulty_mono hm hc.1)

/-- A block that was accepted at some difficulty is valid without one. -/
theorem validBlock_default (h : ValidBlock E config blocks block) :
    ValidBlock E {} blocks block := by
  refine h.mono ⟨UInt32.zero_le, fun _ henforced => ?_⟩
  cases henforced

namespace Chain

-- ---------------------------------------------------------------------------
-- Check by check
-- ---------------------------------------------------------------------------

theorem isZeroHash_iff {hash : Hash256} : isZeroHash hash = true ↔ hash = Hash256.zero := by
  simp only [isZeroHash, List.all_eq_true, beq_iff_eq]
  constructor
  · intro h
    apply Hash256.ext_bytes
    exact List.eq_replicate_iff.mpr ⟨hash.size_eq, h⟩
  · rintro rfl b hb
    exact List.eq_of_mem_replicate hb

theorem checkGenesis_none : checkGenesis block = none ↔ Placed sha256 none block := by
  unfold checkGenesis Placed CoinbaseFirst
  by_cases hzero : block.header.prevHash = Hash256.zero
  · have hz : isZeroHash Hash256.zero = true := isZeroHash_iff.mpr rfl
    cases ht : block.transactions with
    | nil => simp [hz, hzero]
    | cons front others =>
      by_cases hf : front.fromPubPem = []
      · simp only [hz, hf, hzero, List.isEmpty_nil, Bool.not_true, Bool.false_eq_true, if_false,
          Option.map_eq_none_iff, List.findIdx?_eq_none_iff, true_and]
        constructor
        · intro h i tx hi
          cases i with
          | zero => simp_all
          | succ i => simpa using h tx (List.mem_of_getElem? hi)
        · intro h tx htx
          obtain ⟨i, hi⟩ := List.getElem?_of_mem htx
          simpa using h (i + 1) tx (by simpa using hi)
      · have hne : ¬∀ (i : Nat) tx, (front :: others)[i]? = some tx →
            (tx.fromPubPem = [] ↔ i = 0) := fun h => hf ((h 0 front (by simp)).mpr rfl)
        simp [hz, hf, hzero, hne]
  · have hz : isZeroHash block.header.prevHash ≠ true := fun h => hzero (isZeroHash_iff.mp h)
    simp [hz, hzero]

theorem checkLink_none :
    checkLink sha256 parent block = none ↔ Placed sha256 (some parent) block := by
  unfold checkLink Placed
  by_cases hp : block.header.prevHash = parent.header.hash sha256
  · by_cases ht : block.header.timestamp < parent.header.timestamp
    · have hle : ¬parent.header.timestamp ≤ block.header.timestamp := UInt64.not_le.mpr ht
      simp [hp, ht, hle]
    · have hle := UInt64.not_lt.mp ht
      simp [hp, ht, hle]
  · simp [hp]

theorem forall_getElem?_cons {P : Nat → α → Prop} :
    (∀ (i : Nat) a, (x :: xs)[i]? = some a → P i a) ↔
      P 0 x ∧ ∀ (i : Nat) a, xs[i]? = some a → P (i + 1) a := by
  constructor
  · intro h
    exact ⟨h 0 x rfl, fun i a hi => h (i + 1) a hi⟩
  · rintro ⟨h0, hs⟩ i a hi
    cases i with
    | zero => cases hi; exact h0
    | succ i => exact hs i a hi

theorem checkSignatures_none :
    checkSignatures E genesis k txs = .ok none ↔ ∀ (i : Nat) tx, txs[i]? = some tx →
      (genesis = true ∧ k + i = 0 ∧ tx.fromPubPem = []) ∨ tx.verify E = .ok true := by
  induction txs generalizing k with
  | nil => simp [checkSignatures]
  | cons tx txs ih =>
    have htail := ih (k := k + 1)
    simp only [Nat.add_assoc, Nat.add_comm 1] at htail
    rw [forall_getElem?_cons, checkSignatures, ← htail, Nat.add_zero]
    by_cases hskip : genesis = true ∧ k = 0 ∧ tx.fromPubPem = []
    · obtain ⟨rfl, rfl, hp⟩ := hskip
      simp [hp]
    · have hcond : (genesis && k == 0 && tx.fromPubPem.isEmpty) = false := by
        simpa [Bool.and_assoc, List.isEmpty_iff] using hskip
      rw [hcond]
      rcases tx.verify E with e | _ | _ <;> simp [hskip]

theorem checkPow_none {config : ChainConfig} :
    checkPow E config genesis header = none ↔ Worked E config genesis header := by
  unfold checkPow Worked
  by_cases hd : 0 < config.difficultyBits
  · cases hg : genesis <;> cases he : config.enforceGenesisPow <;>
      cases hm : meetsDifficulty config.difficultyBits (header.hash E.sha256) <;> simp [hd]
  · have hzero : config.difficultyBits = 0 := by simpa using hd
    simp [hzero, meetsDifficulty_zero]

-- ---------------------------------------------------------------------------
-- The verdict
-- ---------------------------------------------------------------------------

theorem checkGenesis_invalid (h : checkGenesis block = some r) : r.isValid = false := by
  unfold checkGenesis at h
  split at h
  · cases h; rfl
  · split at h
    · cases h
    · split at h
      · cases h; rfl
      · obtain ⟨_, -, rfl⟩ := Option.map_eq_some_iff.mp h; rfl

theorem checkLink_invalid (h : checkLink sha256 parent block = some r) : r.isValid = false := by
  unfold checkLink at h
  split at h
  · cases h; rfl
  · split at h
    · cases h; rfl
    · obtain ⟨_, -, rfl⟩ := Option.map_eq_some_iff.mp h; rfl

theorem checkSignatures_invalid (h : checkSignatures E genesis k txs = .ok (some r)) :
    r.isValid = false := by
  induction txs generalizing k with
  | nil => cases h
  | cons tx txs ih =>
    rw [checkSignatures] at h
    split at h
    · exact ih h
    · split at h
      · cases h
      · cases h; rfl
      · exact ih h

theorem checkPow_invalid {config : ChainConfig} (h : checkPow E config genesis header = some r) :
    r.isValid = false := by
  unfold checkPow at h
  split at h
  · split at h
    · cases h
    · split at h
      · cases h; rfl
      · cases h
  · cases h

theorem checkPlacement_none {c : Chain} :
    c.checkPlacement sha256 block = none ↔ Placed sha256 c.blocks.getLast? block := by
  rw [checkPlacement, tip]
  split
  next h => rw [h]; exact checkGenesis_none
  next h => rw [h]; exact checkLink_none

theorem checkPlacement_invalid {c : Chain} (h : c.checkPlacement sha256 block = some r) :
    r.isValid = false := by
  unfold checkPlacement at h
  split at h
  · exact checkGenesis_invalid h
  · exact checkLink_invalid h

theorem validateBlock_ok {c : Chain} (h : ValidBlock E c.config c.blocks block) :
    c.validateBlock E block = .ok ⟨true, .none, noIndex⟩ := by
  have hsigned : checkSignatures E c.blocks.isEmpty 0 block.transactions = .ok none :=
    checkSignatures_none.mpr (by simpa [Signed] using h.signed)
  simp only [validateBlock, checkPlacement_none.mpr h.placed, h.merkle, hsigned,
    checkPow_none.mpr h.worked, ne_eq, not_true_eq_false, if_false]

theorem of_validateBlock {c : Chain} (h : c.validateBlock E block = .ok r)
    (hr : r.isValid = true) : ValidBlock E c.config c.blocks block := by
  unfold validateBlock at h
  dsimp only at h
  split at h
  next hplaced => cases h; simp [checkPlacement_invalid hplaced] at hr
  next hplaced =>
    split at h
    · cases h; simp at hr
    next hmerkle =>
      split at h
      · cases h
      next hsigned => cases h; simp [checkSignatures_invalid hsigned] at hr
      next hsigned =>
        split at h
        next hworked => cases h; simp [checkPow_invalid hworked] at hr
        next hworked =>
          refine ⟨checkPlacement_none.mp hplaced, ?_, ?_, checkPow_none.mp hworked⟩
          · exact (Decidable.not_not.mp hmerkle).symm
          · simpa [Signed] using checkSignatures_none.mp hsigned

/-- `validate_block` accepts exactly the valid blocks. -/
theorem validateBlock_iff {c : Chain} :
    (∃ r, c.validateBlock E block = .ok r ∧ r.isValid = true) ↔
      ValidBlock E c.config c.blocks block :=
  ⟨fun ⟨_, h, hr⟩ => of_validateBlock h hr, fun h => ⟨_, validateBlock_ok h, rfl⟩⟩

end Chain

end Astro
