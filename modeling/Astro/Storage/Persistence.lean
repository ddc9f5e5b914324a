import Astro.Core.ChainRuns
import Astro.Storage.TornLog

/-!
# What `append_and_store` acknowledges

An append that reports success should have put the whole record into the log,
and one that reports a failure should have changed nothing that is ever read.
That is so for some of the things that can happen to the stream and not for
others: the last check of the stream comes before the flush.
-/

namespace Astro

open FileStream
open FramedLog
open BlockStore (record recordBytes StoredRecord)

/-- What happens to the stream agrees with what is reported about it: a write
before the checksum fails; or the last write fails, and so does the close in
the destructor; or no write fails, and nothing is pending after the last one,
or the flush succeeds, or the close does. -/
def AppendTransfers.Faithful (io : AppendTransfers) : Prop :=
  io.EarlyFailure ∨ (io.check.Fails ∧ io.close ≠ none) ∨
    (¬io.check.Fails ∧ (io.check = .keeps 0 ∨ io.flush = none ∨ io.close = none))

theorem AppendTransfers.faithful_iff {io : AppendTransfers} :
    io.Faithful ↔ (io.Reports ↔ io.Completes) := by
  have hkeeps : io.check.Fails → io.check ≠ .keeps 0 := by
    intro h hk
    rw [hk] at h
    exact h
  unfold Faithful Reports Completes
  by_cases hearly : io.EarlyFailure
  · simp [hearly]
  · by_cases hcheck : io.check.Fails
    · simp [hearly, hcheck, hkeeps hcheck]
    · simp [hearly, hcheck]

/-- A result of `append_and_store` that is all or nothing. -/
def Atomic (E : Env) (c : Chain) (block : Block) (store : BlockStore)
    (result : Except Exn ValidationResult × Chain × BlockStore) : Prop :=
  (Acknowledged result.1 → result.2.2.log = some (store.log.getD [] ++ record E.sha256 block) ∧
    result.2.1.tip = some block) ∧
  (¬Acknowledged result.1 → result.2.1.blocks = c.blocks ∧
    result.2.2.loadAllBlocks E = store.loadAllBlocks E)

theorem Chain.tip_push {c : Chain} : (c.push block).tip = some block := by simp [tip, push]

theorem atomic_of_unwritable {c : Chain} (hv : Acknowledged (c.validateBlock E block))
    (hw : store.canWrite = false) :
    Atomic E c block store (c.appendAndStore E block io store) := by
  have hstore : store.appendBlock E io block =
      (.error (.runtimeError "BlockStore: open append failed"), store) := by
    simp [BlockStore.appendBlock, hw]
  have hvalid := Chain.validateBlock_ok (Chain.valid_of_acknowledged hv)
  simp [Atomic, Chain.appendAndStore, hvalid, hstore, Acknowledged]

/-- `append_and_store` of a valid block is all or nothing exactly when the log
does not open or what happens to the stream agrees with what is reported. -/
theorem appendAndStore_atomic_iff (E : Env) (c : Chain) (block : Block) (io : AppendTransfers)
    (store : BlockStore) (log : Bytes) (stored : List Block) (hE : E.Roomy)
    (hv : Acknowledged (c.validateBlock E block)) (hsize : block.serialize.length ≤ maxSize)
    (hstore : store.log = some log) (hlog : Frames (StoredRecord E.sha256) log stored)
    (hread : store.canRead = true) :
    Atomic E c block store (c.appendAndStore E block io store) ↔
      (store.canWrite = true → io.Faithful) := by
  cases hw : store.canWrite with
  | false => simp [atomic_of_unwritable hv hw]
  | true =>
    obtain ⟨p, hprefix, hafter, hok, hwhole⟩ := BlockStore.appendBlock_spec E io block hw
    have hload := BlockStore.loadAllBlocks_complete hE hlog hstore hread
    rw [AppendTransfers.faithful_iff, ← hok, ← hwhole]
    simp only [true_imp_iff]
    rcases Chain.appendAndStore_cases E c block io store with
      ⟨-, hreports, hresult⟩ | ⟨-, ⟨e, hfails⟩, hresult⟩ | ⟨hno, -⟩
    · rw [hresult, hafter, hreports]
      simp [Atomic, Acknowledged, Chain.tip_push, record, hstore]
    · have hback : BlockStore.loadAllBlocks E { store with log := some (log ++ p) } = .ok stored ↔
          p ≠ recordBytes E.sha256 block.serialize := by
        constructor
        · rintro h rfl
          exact absurd h (BlockStore.loadAllBlocks_ne hE hlog hsize rfl (by exact hread))
        · exact fun h => BlockStore.loadAllBlocks_torn hE hlog hsize hprefix h rfl (by exact hread)
      rw [hstore, Option.getD_some] at hafter
      rw [hresult, hafter, hfails]
      simp [Atomic, Acknowledged, hload, hback]
    · exact (hno (Chain.valid_of_acknowledged hv)).elim

/-- A flush that fails is acknowledged and nothing is stored; a last write
that fails is reported, and the close stores the block after all. -/
theorem appendAndStore_not_atomic :
    let chain : Chain := {}
    let unflushed := chain.appendAndStore sampleEnv sampleGenesis (.buffered (some 1000) (some 1000)) {}
    let unchecked := chain.appendAndStore sampleEnv sampleGenesis
      { AppendTransfers.buffered none none with check := .fails 32 } {}
    Acknowledged (chain.validateBlock sampleEnv sampleGenesis) ∧
      (Acknowledged unflushed.1 ∧ unflushed.2.2.log = some []) ∧
      (¬Acknowledged unchecked.1 ∧
        unchecked.2.2.log = some (record sampleSha256 sampleGenesis)) ∧
      ¬Atomic sampleEnv chain sampleGenesis {} unflushed := by
  have hlog : (({} : Chain).appendAndStore sampleEnv sampleGenesis
      (.buffered (some 1000) (some 1000)) {}).2.2.log = some [] := by decide +kernel
  refine ⟨by decide +kernel, ⟨by decide +kernel, hlog⟩, by decide +kernel, fun h => ?_⟩
  have hstored := (h.1 (by decide +kernel)).1
  rw [hlog] at hstored
  revert hstored
  decide +kernel

theorem appendAndStore_atomic_second :
    Atomic sampleEnv { blocks := [sampleGenesis] } (sampleChild [sampleTx 1])
      { log := some (record sampleSha256 sampleGenesis) }
      (Chain.appendAndStore sampleEnv { blocks := [sampleGenesis] } (sampleChild [sampleTx 1])
        (.buffered none none) { log := some (record sampleSha256 sampleGenesis) }) := by
  refine (appendAndStore_atomic_iff sampleEnv { blocks := [sampleGenesis] }
    (sampleChild [sampleTx 1]) (.buffered none none)
    { log := some (record sampleSha256 sampleGenesis) } (record sampleSha256 sampleGenesis)
    [sampleGenesis] sampleEnv_roomy (by decide +kernel) (by decide +kernel) rfl ?_ rfl).mpr
    fun _ => .inr (.inr ⟨by decide, .inr (.inl rfl)⟩)
  exact .single (BlockStore.storedRecord_record BlockStore.storable_sampleGenesis)

end Astro
