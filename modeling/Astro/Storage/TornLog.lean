import Astro.Storage.Append

/-!
# Logs that were written

What `append_block` wrote is loaded again, and a last record that is torn is
as good as none: nothing of it is taken for a record, and nothing of it makes
the scan throw, as long as memory can be had.
-/

namespace Astro.BlockStore

open FramedLog

variable {E : Env} {sha256 : Bytes → Hash256} {log rest : Bytes}

/-- A complete record, with a payload that fits a vector. -/
def StoredRecord (sha256 : Bytes → Hash256) (s : Bytes) (block : Block) : Prop :=
  Record sha256 s block ∧ s.length ≤ 22 + maxSize + 32

/-- A block that `append_block` can write: its lengths fit, and it fits a
vector. -/
structure Storable (block : Block) : Prop where
  fits : block.Fits
  size : block.serialize.length ≤ maxSize

def record (sha256 : Bytes → Hash256) (block : Block) : Bytes := recordBytes sha256 block.serialize

theorem lt_of_le_maxSize (h : n ≤ maxSize) : n < 2 ^ 64 := by
  unfold maxSize at h
  omega

theorem storedRecord_record {block : Block} (h : Storable block) :
    StoredRecord sha256 (record sha256 block) block := by
  refine ⟨⟨_, lt_of_le_maxSize h.size, decodePayload_serialize h.fits rfl, rfl⟩, ?_⟩
  have hsize := h.size
  rw [record, length_recordBytes]
  omega

theorem storable_sampleGenesis : Storable sampleGenesis := ⟨by decide +kernel, by decide +kernel⟩

theorem storable_sampleChild : Storable (sampleChild [sampleTx 1]) :=
  ⟨by decide +kernel, by decide +kernel⟩

-- ---------------------------------------------------------------------------
-- Reading on
-- ---------------------------------------------------------------------------

/-- Bytes that agree with a record as far as they go do not raise, unless they
hold all of it and it does not decode. -/
theorem not_raises_of_prefix (hE : E.Roomy) (hp : payload.length ≤ maxSize)
    (hs : s <+: recordBytes E.sha256 payload ++ rest)
    (hd : ∀ tail, s = recordBytes E.sha256 payload ++ tail →
      ∃ block, decodePayload (fun _ => true) payload = .ok block) : ¬Raises E s := by
  obtain ⟨u, hu⟩ := hs
  have hlt := lt_of_le_maxSize hp
  intro h
  cases h with
  | @length n tail hbad =>
    rw [List.append_assoc] at hu
    obtain ⟨m, hm, hlen, -⟩ := header_eq_recordBytes hlt hu
    rw [← RecordHeader.ofLength_inj hm] at hlen
    rw [← hlen, hE.bytes _ hp] at hbad
    rcases hbad with hbad | hbad
    · omega
    · cases hbad
  | @payload payload' tail hp' hbad =>
    rw [List.append_assoc] at hu
    obtain ⟨rfl, -⟩ := recordBytes_append_inj hp' hlt hu
    obtain ⟨block, hblock⟩ := hd tail rfl
    exact hbad block ((decodePayload_roomy hE).mpr hblock)

theorem not_raises_stored (hE : E.Roomy) (hr : StoredRecord E.sha256 r block) :
    ¬Raises E (r ++ rest) := by
  obtain ⟨⟨payload, hlt, hd, rfl⟩, hsize⟩ := hr
  rw [length_recordBytes] at hsize
  exact not_raises_of_prefix hE (by omega) List.prefix_rfl fun _ _ => ⟨block, hd⟩

theorem not_raises_torn (hE : E.Roomy) (hp : payload.length ≤ maxSize)
    (hs : s <+: recordBytes E.sha256 payload) (hne : s ≠ recordBytes E.sha256 payload) :
    ¬Raises E s := by
  refine not_raises_of_prefix hE hp (hs.trans (List.prefix_append _ [])) ?_
  rintro tail rfl
  have hle := hs.length_le
  rw [List.length_append] at hle
  have htail : tail = [] := List.length_eq_zero_iff.mp (by omega)
  simp [htail] at hne

theorem stuck_torn (hp : payload.length < 2 ^ 64) (hs : s <+: recordBytes sha256 payload)
    (hne : s ≠ recordBytes sha256 payload) : Stuck (Record sha256) s := by
  obtain ⟨u, hu⟩ := hs
  rintro r block t ⟨payload', hp', -, rfl⟩ rfl
  have heq : recordBytes sha256 payload' ++ (t ++ u) = recordBytes sha256 payload ++ [] := by
    simpa using hu
  obtain ⟨rfl, htu⟩ := recordBytes_append_inj hp' hp heq
  simp [(List.append_eq_nil_iff.mp htu).1] at hne

theorem readable_stored (hE : E.Roomy) (hlog : Frames (StoredRecord E.sha256) log blocks) :
    Readable E (log ++ rest) ↔ Readable E rest := by
  induction hlog with
  | nil => rfl
  | cons hr _ ih =>
    rw [List.append_assoc, readable_append hr.1, ih]
    exact ⟨fun h => h.2, fun h => ⟨not_raises_stored hE hr, h⟩⟩

/-- Complete records are loaded, up to something that neither begins with a
record nor raises. -/
theorem loadAllBlocks_stored {store : BlockStore} (hE : E.Roomy)
    (hlog : Frames (StoredRecord E.sha256) log blocks) (hs : Stuck (Record E.sha256) rest)
    (hr : ¬Raises E rest) (hstore : store.log = some (log ++ rest))
    (hread : store.canRead = true) : store.loadAllBlocks E = .ok blocks := by
  have hload : store.loadAllBlocks E = loadLoop E { rest := log ++ rest } [] := by
    simp [loadAllBlocks, hstore, hread]
  rw [hload, loadLoop_ok (hlog.mono fun _ _ h => h.1) hs
    ((readable_stored hE hlog).mpr ((readable_of_stuck hs).mpr hr)), List.nil_append]

theorem loadAllBlocks_complete {store : BlockStore} (hE : E.Roomy)
    (hlog : Frames (StoredRecord E.sha256) log blocks) (hstore : store.log = some log)
    (hread : store.canRead = true) : store.loadAllBlocks E = .ok blocks :=
  loadAllBlocks_stored hE hlog (record_delimited E.sha256).stuck_nil (not_raises_of_short (by simp))
    (by simpa using hstore) hread

theorem loadAllBlocks_torn {store : BlockStore} (hE : E.Roomy)
    (hlog : Frames (StoredRecord E.sha256) log blocks) (hp : payload.length ≤ maxSize)
    (hs : s <+: recordBytes E.sha256 payload) (hne : s ≠ recordBytes E.sha256 payload)
    (hstore : store.log = some (log ++ s)) (hread : store.canRead = true) :
    store.loadAllBlocks E = .ok blocks :=
  loadAllBlocks_stored hE hlog (stuck_torn (lt_of_le_maxSize hp) hs hne)
    (not_raises_torn hE hp hs hne) hstore hread

/-- A payload behind complete records is loaded if it decodes, as whatever it
decodes to, and otherwise makes the load throw. -/
theorem loadAllBlocks_recordBytes {store : BlockStore} (hE : E.Roomy)
    (hlog : Frames (StoredRecord E.sha256) log blocks) (hp : payload.length ≤ maxSize)
    (hstore : store.log = some (log ++ recordBytes E.sha256 payload))
    (hread : store.canRead = true) :
    store.loadAllBlocks E = .ok blocks' ↔
      ∃ block, decodePayload (fun _ => true) payload = .ok block ∧ blocks' = blocks ++ [block] := by
  have hlt := lt_of_le_maxSize hp
  cases hd : decodePayload (fun _ => true) payload with
  | ok block =>
    have hrecord : StoredRecord E.sha256 (recordBytes E.sha256 payload) block :=
      ⟨⟨payload, hlt, hd, rfl⟩, by rw [length_recordBytes]; omega⟩
    rw [loadAllBlocks_complete hE (hlog.snoc hrecord) hstore hread]
    simp [eq_comm]
  | error e =>
    have hno (block : Block) : decodePayload E.allocTransactions payload ≠ .ok block := by
      simp [decodePayload_roomy hE, hd]
    have hraises := Raises.payload (E := E) [] hlt hno
    rw [List.append_nil] at hraises
    obtain ⟨e', he⟩ :
        ∃ e, loadLoop E { rest := log ++ recordBytes E.sha256 payload } [] = .error e :=
      loadLoop_error (hlog.mono fun _ _ h => h.1) hraises
    have hload : store.loadAllBlocks E = .error e' := by
      simpa [loadAllBlocks, hstore, hread] using he
    simp [hload]

theorem loadAllBlocks_ne {store : BlockStore} (hE : E.Roomy)
    (hlog : Frames (StoredRecord E.sha256) log blocks) (hp : payload.length ≤ maxSize)
    (hstore : store.log = some (log ++ recordBytes E.sha256 payload))
    (hread : store.canRead = true) : store.loadAllBlocks E ≠ .ok blocks := by
  rw [ne_eq, loadAllBlocks_recordBytes hE hlog hp hstore hread]
  rintro ⟨block, -, h⟩
  simp at h

-- ---------------------------------------------------------------------------
-- One append after another
-- ---------------------------------------------------------------------------

theorem appendBlock_clean (E : Env) (block : Block) {store : BlockStore} (hio : io.Clean)
    (hw : store.canWrite = true) :
    appendBlock E io block store =
      (.ok (), { store with log := some (store.log.getD [] ++ record E.sha256 block) }) := by
  obtain ⟨p, -, hstore, hok, hwhole⟩ := appendBlock_spec E io block hw
  rw [hwhole.mpr hio.completes] at hstore
  exact Prod.ext (hok.mpr hio.reports) hstore

theorem appendBlock_ok {store : BlockStore} (hio : io.Clean) (hwrite : store.canWrite = true) :
    (store.appendBlock E io block).1 = .ok () := by
  rw [appendBlock_clean E block hio hwrite]

def appendAll (E : Env) (store : BlockStore) (writes : List (AppendTransfers × Block)) : BlockStore :=
  writes.foldl (fun store w => (store.appendBlock E w.1 w.2).2) store

theorem appendAll_clean {store : BlockStore} (hio : ∀ w ∈ writes, w.1.Clean)
    (hw : store.canWrite = true) (hlog : store.log = some log) :
    appendAll E store writes =
      { store with log := some (log ++ (writes.map Prod.snd).flatMap (record E.sha256)) } := by
  induction writes generalizing store log with
  | nil => simp [appendAll, ← hlog]
  | cons w writes ih =>
    simp only [List.forall_mem_cons] at hio
    rw [appendAll, List.foldl_cons, appendBlock_clean E _ hio.1 hw, ← appendAll,
      ih hio.2 (by simpa using hw) rfl]
    simp [hlog]

/-- However a log is cut, the complete records before the cut are loaded. -/
theorem loadAllBlocks_cut (E : Env) (writes : List (AppendTransfers × Block)) (k : Nat) (hE : E.Roomy)
    (hio : ∀ w ∈ writes, w.1.Clean) (hblocks : ∀ w ∈ writes, Storable w.2) :
    (appendAll E {} writes).log = some ((writes.map Prod.snd).flatMap (record E.sha256)) ∧
    (∃ m, loadAllBlocks E
        { log := some (((writes.map Prod.snd).flatMap (record E.sha256)).take k) } =
          .ok ((writes.map Prod.snd).take m) ∧
      ∀ i < writes.length, i < m ↔
        (((writes.map Prod.snd).take (i + 1)).flatMap (record E.sha256)).length ≤ k) ∧
    loadAllBlocks E (appendAll E {} writes) = .ok (writes.map Prod.snd) := by
  have hlog : appendAll E {} writes =
      { log := some ([] ++ (writes.map Prod.snd).flatMap (record E.sha256)) } :=
    appendAll_clean hio rfl rfl
  have hstored : ∀ block ∈ writes.map Prod.snd,
      StoredRecord E.sha256 (record E.sha256 block) block := by
    intro block hblock
    obtain ⟨w, hw, rfl⟩ := List.mem_map.mp hblock
    exact storedRecord_record (hblocks w hw)
  rw [hlog, List.nil_append]
  refine ⟨rfl, ?_, loadAllBlocks_complete hE (frames_flatMap hstored) rfl rfl⟩
  obtain ⟨m, p, hcut, hp, hm⟩ := exists_cut (record E.sha256) (writes.map Prod.snd) k
  refine ⟨m, ?_, by simpa using hm⟩
  rw [hcut]
  have hframes : Frames (StoredRecord E.sha256) _ ((writes.map Prod.snd).take m) :=
    frames_flatMap fun block hblock => hstored block (List.mem_of_mem_take hblock)
  rcases hp with rfl | ⟨block, hblock, hprefix, hne⟩
  · exact loadAllBlocks_complete hE hframes (by simp) rfl
  · obtain ⟨w, hw, rfl⟩ := List.mem_map.mp hblock
    exact loadAllBlocks_torn hE hframes (hblocks w hw).size hprefix hne rfl rfl

theorem loadAllBlocks_cut_two :
    let blocks := [sampleGenesis, sampleChild [sampleTx 1]]
    ∃ m, loadAllBlocks sampleEnv { log := some ((blocks.flatMap (record sampleSha256)).take 200) } =
        .ok (blocks.take m) ∧
      ∀ i < 2, i < m ↔ ((blocks.take (i + 1)).flatMap (record sampleSha256)).length ≤ 200 :=
  (loadAllBlocks_cut sampleEnv
    [(.buffered none none, sampleGenesis), (.buffered none none, sampleChild [sampleTx 1])] 200
    sampleEnv_roomy (by decide) (by
      simp only [List.forall_mem_cons, List.not_mem_nil, false_imp_iff, implies_true, and_true]
      exact ⟨storable_sampleGenesis, storable_sampleChild⟩)).2.1

end Astro.BlockStore
