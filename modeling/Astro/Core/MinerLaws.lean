import Astro.Core.Building
import Astro.Core.Miner

/-!
# What `mine_block` returns

The block that a turn hashes follows from the clock alone (`candidate`), and
`mine_block` returns the candidate of the first turn whose header meets the
difficulty, provided that it was not cancelled up to there. Nothing in the
candidates but the nonce and the timestamp depends on the turn, and nothing
keeps the timestamp at or after that of the tip.
-/

namespace Astro

/-- How often the loop has read the clock before turn `n`. -/
def loopReadings : Nat → Nat
  | 0 => 0
  | n + 1 => if UInt64.ofNat n % 1000000 = 0 then loopReadings n + 1 else loopReadings n

/-- The largest of the loop's first `k` readings. -/
def newest (clock : Nat → UInt64) : Nat → UInt64
  | 0 => 0
  | k + 1 => if clock (k + 1) > newest clock k then clock (k + 1) else newest clock k

/-- The timestamp that turn `n` finds in the header. -/
def inForce (clock : Nat → UInt64) (n : Nat) : UInt64 :=
  if newest clock (loopReadings n) = 0 then clock 0 else newest clock (loopReadings n)

/-- The block that turn `n` hashes. -/
def candidate (sha256 : Bytes → Hash256) (chain : Chain) (transactions : List Transaction)
    (clock : Nat → UInt64) (n : Nat) : Block :=
  { chain.buildBlockFromTransactions sha256 transactions (inForce clock n) with
    header.nonce := UInt64.ofNat n }

def Mined (E : Env) (chain : Chain) (transactions : List Transaction) (difficultyBits : UInt32)
    (clock : Nat → UInt64) (n : Nat) : Prop :=
  difficultyBits ≤
    leadingZeroBits ((candidate E.sha256 chain transactions clock n).header.hash E.sha256)

/-- Of the turns from `i` on, turn `n` is the first with a hit, and the flag
is not set up to there. -/
structure FirstHit (Hit : Nat → Prop) (cancelFlag : Nat → Bool) (i n : Nat) : Prop where
  le : i ≤ n
  hit : Hit n
  first : ∀ j, i ≤ j → j < n → ¬Hit j
  uncancelled : ∀ j, i ≤ j → j ≤ n → cancelFlag j = false

-- ---------------------------------------------------------------------------
-- The first hit
-- ---------------------------------------------------------------------------

section
variable {Hit : Nat → Prop} {cancelFlag : Nat → Bool} {i n : Nat}

theorem not_firstHit (hc : cancelFlag i = true) : ¬FirstHit Hit cancelFlag i n := by
  intro h
  have := h.uncancelled i le_rfl h.le
  simp [hc] at this

theorem firstHit_self (hc : cancelFlag i = false) (hi : Hit i) :
    FirstHit Hit cancelFlag i n ↔ n = i := by
  constructor
  · intro h
    by_contra hne
    exact h.first i le_rfl (lt_of_le_of_ne h.le (Ne.symm hne)) hi
  · rintro rfl
    exact ⟨le_rfl, hi, fun j hij hj => absurd hij (by omega),
      fun j hij hj => (show j = n by omega) ▸ hc⟩

theorem firstHit_succ (hc : cancelFlag i = false) (hi : ¬Hit i) :
    FirstHit Hit cancelFlag i n ↔ FirstHit Hit cancelFlag (i + 1) n := by
  constructor
  · intro h
    have hne : i ≠ n := fun e => hi (e ▸ h.hit)
    exact ⟨lt_of_le_of_ne h.le hne, h.hit, fun j hj => h.first j (by omega),
      fun j hj => h.uncancelled j (by omega)⟩
  · intro h
    refine ⟨by have := h.le; omega, h.hit, fun j hij hj => ?_, fun j hij hj => ?_⟩
    · rcases Nat.eq_or_lt_of_le hij with rfl | hlt
      · exact hi
      · exact h.first j hlt hj
    · rcases Nat.eq_or_lt_of_le hij with rfl | hlt
      · exact hc
      · exact h.uncancelled j hlt hj

end

-- ---------------------------------------------------------------------------
-- Turn by turn
-- ---------------------------------------------------------------------------

section
variable {E : Env} {chain : Chain} {transactions : List Transaction} {difficultyBits : UInt32}
  {clock : Nat → UInt64} {cancelFlag : Nat → Bool} {n : Nat}

/-- What the loop holds at the start of turn `n`. -/
structure Miner.At (sha256 : Bytes → Hash256) (chain : Chain) (transactions : List Transaction)
    (clock : Nat → UInt64) (n : Nat) (miner : Miner) : Prop where
  block : miner.setNonce.block = candidate sha256 chain transactions clock n
  nonce : miner.nonce = UInt64.ofNat n
  bump : miner.lastTransactionBump = newest clock (loopReadings n)
  readings : miner.clockReadings = loopReadings n + 1

theorem candidate_succ : candidate E.sha256 chain transactions clock (n + 1) =
    { candidate E.sha256 chain transactions clock n with
      header.timestamp := inForce clock (n + 1)
      header.nonce := UInt64.ofNat (n + 1) } := rfl

namespace Miner

theorem start_at : At E.sha256 chain transactions clock 0
    (start E.sha256 chain transactions clock) :=
  ⟨rfl, rfl, rfl, rfl⟩

/-- The clock is not read, or gives nothing new, or a timestamp to take over. -/
theorem bumpTimestamp_at (h : At E.sha256 chain transactions clock n miner) :
    (miner.setNonce.bumpTimestamp clock).block =
        { candidate E.sha256 chain transactions clock n with
          header.timestamp := inForce clock (n + 1) } ∧
      (miner.setNonce.bumpTimestamp clock).nonce = UInt64.ofNat n ∧
      (miner.setNonce.bumpTimestamp clock).lastTransactionBump =
        newest clock (loopReadings (n + 1)) ∧
      (miner.setNonce.bumpTimestamp clock).clockReadings = loopReadings (n + 1) + 1 := by
  have hblock := h.block
  have hnonce : miner.setNonce.nonce = UInt64.ofNat n := h.nonce
  have hbump : miner.setNonce.lastTransactionBump = newest clock (loopReadings n) := h.bump
  have hreadings : miner.setNonce.clockReadings = loopReadings n + 1 := h.readings
  have hforce : (candidate E.sha256 chain transactions clock n).header.timestamp =
      inForce clock n := rfl
  unfold bumpTimestamp
  rw [hnonce, hbump, hreadings]
  by_cases hread : UInt64.ofNat n % 1000000 = 0
  · have hloop : loopReadings (n + 1) = loopReadings n + 1 := by simp [loopReadings, hread]
    by_cases hnew : clock (loopReadings n + 1) > newest clock (loopReadings n)
    · have hnewest : newest clock (loopReadings n + 1) = clock (loopReadings n + 1) := by
        simp [newest, hnew]
      have hpos : clock (loopReadings n + 1) ≠ 0 := by
        intro hzero
        simp [hzero] at hnew
      simp [hread, hnew, hloop, hnewest, hblock, inForce, hpos]
    · have hnewest : newest clock (loopReadings n + 1) = newest clock (loopReadings n) := by
        simp [newest, hnew]
      have hsame : inForce clock (n + 1) = inForce clock n := by simp [inForce, hloop, hnewest]
      simp [hread, hnew, hloop, hnewest, hblock, hsame, ← hforce]
  · have hloop : loopReadings (n + 1) = loopReadings n := by simp [loopReadings, hread]
    have hsame : inForce clock (n + 1) = inForce clock n := by simp [inForce, hloop]
    simp [hread, hloop, hblock, hnonce, hbump, hreadings, hsame, ← hforce]

theorem turn_found (h : At E.sha256 chain transactions clock n miner)
    (hit : Mined E chain transactions difficultyBits clock n) :
    miner.turn E difficultyBits clock false = .found miner.setNonce := by
  have hash := hit
  rw [Mined, ← h.block] at hash
  simp [turn, hash]

theorem turn_next (h : At E.sha256 chain transactions clock n miner)
    (hit : ¬Mined E chain transactions difficultyBits clock n) :
    ∃ miner', miner.turn E difficultyBits clock false = .next miner' ∧
      At E.sha256 chain transactions clock (n + 1) miner' := by
  have hash := hit
  rw [Mined, ← h.block] at hash
  obtain ⟨hblock, hnonce, hbump, hreadings⟩ := bumpTimestamp_at h
  refine ⟨{ miner.setNonce.bumpTimestamp clock with
    nonce := (miner.setNonce.bumpTimestamp clock).nonce + 1 }, by simp [turn, hash], ?_⟩
  have hsucc : (miner.setNonce.bumpTimestamp clock).nonce + 1 = UInt64.ofNat (n + 1) := by
    rw [hnonce, UInt64.ofNat_add]
    rfl
  refine ⟨?_, hsucc, hbump, hreadings⟩
  rw [candidate_succ, setNonce, hblock, hsucc]

theorem of_turn_found {cancelled : Bool} (h : At E.sha256 chain transactions clock n miner)
    (hturn : miner.turn E difficultyBits clock cancelled = .found found) :
    Mined E chain transactions difficultyBits clock n ∧ found = miner.setNonce := by
  cases cancelled with
  | true => simp [turn] at hturn
  | false =>
    by_cases hit : Mined E chain transactions difficultyBits clock n
    · rw [turn_found h hit] at hturn
      cases hturn
      exact ⟨hit, rfl⟩
    · obtain ⟨miner', hnext, -⟩ := turn_next h hit
      simp [hnext] at hturn

theorem of_turn_next {cancelled : Bool} (h : At E.sha256 chain transactions clock n miner)
    (hturn : miner.turn E difficultyBits clock cancelled = .next next) :
    ¬Mined E chain transactions difficultyBits clock n ∧
      At E.sha256 chain transactions clock (n + 1) next := by
  cases cancelled with
  | true => simp [turn] at hturn
  | false =>
    by_cases hit : Mined E chain transactions difficultyBits clock n
    · simp [turn_found h hit] at hturn
    · obtain ⟨miner', hnext, hat⟩ := turn_next h hit
      rw [hnext] at hturn
      cases hturn
      exact ⟨hit, hat⟩

end Miner

/-- The loop returns exactly the candidate of the first hit. -/
theorem mineLoop_ok_iff {miner : Miner} (h : miner.At E.sha256 chain transactions clock i) :
    mineLoop E difficultyBits clock cancelFlag i miner fuel = some (.ok (block, readings)) ↔
      ∃ n < i + fuel, FirstHit (Mined E chain transactions difficultyBits clock) cancelFlag i n ∧
        block = candidate E.sha256 chain transactions clock n ∧
        readings = loopReadings n + 1 := by
  induction fuel generalizing i miner with
  | zero =>
    simp only [mineLoop, reduceCtorEq, Nat.add_zero, false_iff]
    rintro ⟨n, hn, hfirst, -⟩
    exact absurd hfirst.le (by omega)
  | succ fuel ih =>
    unfold mineLoop
    cases hc : cancelFlag i with
    | true =>
      simp [Miner.turn, not_firstHit hc]
    | false =>
      by_cases hit : Mined E chain transactions difficultyBits clock i
      · rw [Miner.turn_found h hit]
        simp only [firstHit_self hc hit, Option.some.injEq, Except.ok.injEq, Prod.mk.injEq]
        constructor
        · rintro ⟨rfl, rfl⟩
          exact ⟨i, by omega, rfl, h.block, h.readings⟩
        · rintro ⟨n, -, rfl, rfl, rfl⟩
          exact ⟨h.block, h.readings⟩
      · obtain ⟨miner', hturn, hat⟩ := Miner.turn_next h hit
        rw [hturn]
        simp only [ih hat, firstHit_succ hc hit]
        rw [show i + 1 + fuel = i + (fuel + 1) by omega]

theorem mineBlock_ok_iff :
    mineBlock E chain transactions difficultyBits clock cancelFlag fuel =
        some (.ok (block, readings)) ↔
      ∃ n < fuel, FirstHit (Mined E chain transactions difficultyBits clock) cancelFlag 0 n ∧
        block = candidate E.sha256 chain transactions clock n ∧
        readings = loopReadings n + 1 := by
  rw [mineBlock, mineLoop_ok_iff Miner.start_at, Nat.zero_add]

end

-- ---------------------------------------------------------------------------
-- What is returned
-- ---------------------------------------------------------------------------

theorem newest_eq (clock : Nat → UInt64) (k : Nat) :
    newest clock k = 0 ∨ ∃ i ≤ k, newest clock k = clock i := by
  induction k with
  | zero => exact .inl rfl
  | succ k ih =>
    by_cases hnew : clock (k + 1) > newest clock k
    · exact .inr ⟨k + 1, le_rfl, by simp [newest, hnew]⟩
    · rcases ih with h | ⟨i, hi, h⟩
      · exact .inl (by simpa [newest, hnew] using h)
      · exact .inr ⟨i, by omega, by simpa [newest, hnew] using h⟩

theorem inForce_eq (clock : Nat → UInt64) (n : Nat) :
    ∃ i < loopReadings n + 1, inForce clock n = clock i := by
  unfold inForce
  split
  · exact ⟨0, by omega, rfl⟩
  next hnonzero =>
    rcases newest_eq clock (loopReadings n) with h | ⟨i, hi, h⟩
    · exact absurd h hnonzero
    · exact ⟨i, by omega, h⟩

/-- The work in the returned header, what is kept of the built block, and
where the timestamp comes from. -/
theorem mineBlock_sealed (E : Env) (chain : Chain) (transactions : List Transaction)
    (difficultyBits : UInt32) (clock : Nat → UInt64) (cancelFlag : Nat → Bool) (fuel : Nat)
    (block : Block) (readings : Nat)
    (h : mineBlock E chain transactions difficultyBits clock cancelFlag fuel =
      some (.ok (block, readings))) :
    let built := chain.buildBlockFromTransactions E.sha256 transactions (clock 0)
    difficultyBits ≤ leadingZeroBits (block.header.hash E.sha256) ∧
    (block.transactions = built.transactions ∧ block.header.version = built.header.version ∧
      block.header.prevHash = built.header.prevHash ∧
      block.header.merkleRoot = built.header.merkleRoot) ∧
    ∃ i < readings, block.header.timestamp = clock i := by
  intro built
  obtain ⟨n, -, hfirst, rfl, rfl⟩ := mineBlock_ok_iff.mp h
  exact ⟨hfirst.hit, ⟨rfl, rfl, rfl, rfl⟩, inForce_eq clock n⟩

/-- The seventh nonce, with the timestamp that the first turn has taken over. -/
theorem mineBlock_sealed_sample :
    let E := { sampleEnv with sha256 := fun bytes => sampleSha256 (bytes ++ bytes) }
    let c : Chain := { blocks := [sampleGenesis] }
    let clock := fun k => UInt64.ofNat k + 5
    let block := candidate E.sha256 c [sampleTx 1] clock 6
    mineBlock E c [sampleTx 1] 4 clock (fun _ => false) 7 = some (.ok (block, 2)) ∧
      4 ≤ leadingZeroBits (block.header.hash E.sha256) ∧
      ∃ i < 2, block.header.timestamp = clock i := by
  intro E c clock block
  have hmined : mineBlock E c [sampleTx 1] 4 clock (fun _ => false) 7 = some (.ok (block, 2)) := by
    decide +kernel
  obtain ⟨hwork, -, hclock⟩ := mineBlock_sealed E c [sampleTx 1] 4 clock _ 7 block 2 hmined
  exact ⟨hmined, hwork, hclock⟩

-- ---------------------------------------------------------------------------
-- Whether the chain accepts it
-- ---------------------------------------------------------------------------

theorem validBlock_candidate_iff {c : Chain} (ht : c.tip = some tip)
    (hsigned : ∀ tx ∈ transactions, tx.fromPubPem ≠ [] ∧ tx.verify E = .ok true) :
    ValidBlock E c.config c.blocks (candidate E.sha256 c transactions clock n) ↔
      tip.header.timestamp ≤ inForce clock n ∧ meetsDifficulty c.config.difficultyBits
        ((candidate E.sha256 c transactions clock n).header.hash E.sha256) = true := by
  rw [Chain.validBlock_filled_iff rfl rfl, Chain.requiredWork_iff (Chain.blocks_ne_nil ht)]
  refine and_congr_left fun _ => ?_
  simp only [Chain.Buildable, ht]
  exact and_iff_left hsigned

theorem Mined.meets (hit : Mined E chain transactions difficultyBits clock n)
    (hbits : bits ≤ difficultyBits) :
    meetsDifficulty bits
      ((candidate E.sha256 chain transactions clock n).header.hash E.sha256) = true := by
  have hmeets : meetsDifficulty difficultyBits
      ((candidate E.sha256 chain transactions clock n).header.hash E.sha256) = true := by
    simpa [meetsDifficulty, Mined] using hit
  exact meetsDifficulty_mono hmeets hbits

/-- Every block that is returned is valid on the chain it was built for
exactly when no first hit finds a timestamp before that of the tip. -/
theorem mineBlock_valid_iff (E : Env) (chain : Chain) (transactions : List Transaction)
    (difficultyBits : UInt32) (clock : Nat → UInt64) (cancelFlag : Nat → Bool) (tip : Block)
    (ht : chain.tip = some tip)
    (hsigned : ∀ tx ∈ transactions, tx.fromPubPem ≠ [] ∧ tx.verify E = .ok true)
    (hbits : chain.config.difficultyBits ≤ difficultyBits) :
    (∀ fuel block readings,
      mineBlock E chain transactions difficultyBits clock cancelFlag fuel =
        some (.ok (block, readings)) → Acknowledged (chain.validateBlock E block)) ↔
    ∀ n, FirstHit (Mined E chain transactions difficultyBits clock) cancelFlag 0 n →
      tip.header.timestamp ≤ inForce clock n := by
  constructor
  · intro h n hfirst
    have hmined := mineBlock_ok_iff.mpr ⟨n, Nat.lt_succ_self n, hfirst, rfl, rfl⟩
    have hvalid := Chain.acknowledged_validateBlock.mp (h _ _ _ hmined)
    exact ((validBlock_candidate_iff ht hsigned).mp hvalid).1
  · intro h fuel block readings hmined
    obtain ⟨n, -, hfirst, rfl, -⟩ := mineBlock_ok_iff.mp hmined
    exact Chain.acknowledged_validateBlock.mpr
      ((validBlock_candidate_iff ht hsigned).mpr ⟨h n hfirst, hfirst.hit.meets hbits⟩)

theorem reachable_appendBlock (E : Env) (config : ChainConfig) (block : Block) :
    Chain.Reachable E (({ config } : Chain).appendBlock E block).2 :=
  ⟨config, [.appendBlock block], rfl⟩

/-- A clock that has been set back since the genesis block. -/
theorem mineBlock_before_tip :
    let genesis := makeGenesisBlock sampleEnv.sha256 [7] 9
    let c := (({} : Chain).appendBlock sampleEnv genesis).2
    c.Reachable sampleEnv ∧ c.tip = some genesis ∧
    (∀ tx ∈ [sampleTx 1], tx.fromPubPem ≠ [] ∧ tx.verify sampleEnv = .ok true) ∧
    ∃ block, mineBlock sampleEnv c [sampleTx 1] c.config.difficultyBits (fun _ => 5)
        (fun _ => false) 1 = some (.ok (block, 1)) ∧
      c.validateBlock sampleEnv block = .ok ⟨false, .nonMonotonicTimestamp, noIndex⟩ := by
  intro genesis c
  refine ⟨reachable_appendBlock sampleEnv {} genesis, by decide +kernel, by decide, ?_⟩
  exact ⟨candidate sampleEnv.sha256 c [sampleTx 1] (fun _ => 5) 0, by decide +kernel,
    by decide +kernel⟩

theorem mineBlock_valid_iff_sample :
    let c : Chain := { blocks := [sampleGenesis] }
    (∀ fuel block readings,
      mineBlock sampleEnv c [sampleTx 1] 3 (fun _ => 5) (fun _ => false) fuel =
        some (.ok (block, readings)) → Acknowledged (c.validateBlock sampleEnv block)) ↔
    ∀ n, FirstHit (Mined sampleEnv c [sampleTx 1] 3 (fun _ => 5)) (fun _ => false) 0 n →
      sampleGenesis.header.timestamp ≤ inForce (fun _ => 5) n := by
  intro c
  exact mineBlock_valid_iff sampleEnv c [sampleTx 1] 3 (fun _ => 5) (fun _ => false) sampleGenesis
    (by decide) (by decide) (by decide)

end Astro
