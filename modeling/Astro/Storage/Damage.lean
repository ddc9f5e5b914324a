import Astro.Core.Commitment
import Astro.Storage.Sessions

/-!
# Damaged logs

Whatever happens to the bytes of a log, nothing but its own blocks can come
back, as long as no record was forged, and these only in their old places: a
block names the hash of its parent. A restore gives the blocks before the first
record that was damaged, or it throws.
-/

namespace Astro

open GrownList
open FramedLog
open BlockStore (Record record recordBytes StoredRecord Storable Readable storable_sampleGenesis
  storable_sampleChild)

-- ---------------------------------------------------------------------------
-- Blocks in their places
-- ---------------------------------------------------------------------------

theorem ValidUnder.linked (h : ValidUnder E config blocks) :
    Linked (BlockHeader.hash E.sha256) BlockHeader.prevHash Hash256.zero
      (blocks.map Block.header) :=
  Grown.map _ h fun _ _ hv => hv.prevHash_eq

/-- The hashes of these blocks identify them. -/
structure Identified (E : Env) (blocks : List Block) : Prop where
  free : CollisionFree E.sha256 ((blocks.map Block.header).map BlockHeader.serialize)
  ne_zero : ∀ header ∈ blocks.map Block.header, header.hash E.sha256 ≠ Hash256.zero

/-- A block of a chain fits no other place of it. -/
theorem head?_of_placed {block : Block} (hid : Identified E (done ++ rest))
    (hvalid : ValidUnder E config (done ++ rest)) (hmem : block ∈ done ++ rest)
    (hplaced : Placed E.sha256 done.getLast? block) : rest.head? = some block := by
  obtain ⟨i, hi⟩ := List.getElem?_of_mem hmem
  have hmap {xs : List Block} (hxs : xs <+: done ++ rest) :
      ∀ header ∈ xs.map Block.header, header ∈ (done ++ rest).map Block.header :=
    fun header h => List.map_subset _ hxs.subset h
  have hfront := List.take_prefix i (done ++ rest)
  have hdone := List.prefix_append done rest
  have hlink : linkAfter (BlockHeader.hash E.sha256) Hash256.zero (done.map Block.header) =
      linkAfter (BlockHeader.hash E.sha256) Hash256.zero
        (((done ++ rest).take i).map Block.header) := by
    rw [← (Grown.admitted hvalid hi).prevHash_eq]
    simp only [linkAfter, List.getLast?_map, Option.map_map]
    cases hl : done.getLast? with
    | none => rw [hl] at hplaced; exact hplaced.1.symm
    | some parent => rw [hl] at hplaced; exact hplaced.1.symm
  have hlast := linkAfter_inj (fun x hx => hid.ne_zero x (hmap hdone x hx))
    (fun x hx => hid.ne_zero x (hmap hfront x hx)) hlink
  have heq := Linked.eq_of_last (ValidUnder.linked hvalid.of_append)
    (ValidUnder.linked (hvalid.take i))
    (fun x hx y hy => BlockHeader.hash_inj hid.free (hmap hdone x hx) (hmap hfront y hy))
    (fun x hx => hid.ne_zero x (hmap hdone x hx)) (fun x hx => hid.ne_zero x (hmap hfront x hx))
    hlast
  have hlen := congrArg List.length heq
  obtain ⟨hlt, -⟩ := List.getElem?_eq_some_iff.mp hi
  rw [List.length_map, List.length_map, List.length_take, Nat.min_eq_left (by omega)] at hlen
  rw [List.getElem?_append_right (by omega), ← hlen, Nat.sub_self] at hi
  rw [List.head?_eq_getElem?, hi]

/-- What a restore of these blocks has in common with what was there. -/
theorem restoreLoop_common {loaded : List Block} (done rest : List Block)
    (hid : Identified E (done ++ rest)) (hvalid : ValidUnder E config (done ++ rest))
    (hloaded : loaded ⊆ done ++ rest) :
    ∃ m, Chain.restoreLoop E { config, blocks := done } loaded =
        (.ok (), { config, blocks := done ++ rest.take m }) ∧
      ∀ k ≤ rest.length, k ≤ m ↔ rest.take k <+: loaded := by
  induction loaded generalizing done rest with
  | nil =>
    refine ⟨0, by simp [Chain.restoreLoop], fun k hk => ?_⟩
    rw [List.prefix_nil, List.take_eq_nil_iff]
    constructor
    · exact fun h => .inl (Nat.le_zero.mp h)
    · rintro (rfl | rfl)
      · exact Nat.le_refl 0
      · exact hk
  | cons block loaded ih =>
    obtain ⟨hmem, hloaded⟩ := List.cons_subset.mp hloaded
    by_cases hhead : rest.head? = some block
    · obtain ⟨rest, rfl⟩ : ∃ rest', rest = block :: rest' := List.head?_eq_some_iff.mp hhead
      have hassoc : done ++ block :: rest = (done ++ [block]) ++ rest := by simp
      obtain ⟨m, hm, hfront⟩ := ih (done ++ [block]) rest (hassoc ▸ hid)
        (hassoc ▸ hvalid) (hassoc ▸ hloaded)
      refine ⟨m + 1, ?_, fun k hk => ?_⟩
      · rw [Chain.restoreLoop_accept (c := { config, blocks := done }) hvalid.of_split]
        simpa [Chain.push] using hm
      · cases k with
        | zero => simp
        | succ k =>
          rw [List.take_succ_cons, List.cons_prefix_cons, Nat.succ_le_succ_iff,
            hfront k (by simpa using hk)]
          simp
    · refine ⟨0, ?_, fun k hk => ?_⟩
      · cases hplace : Chain.checkPlacement E.sha256 { config, blocks := done } block with
        | none =>
          have hplaced : Placed E.sha256 done.getLast? block := Chain.checkPlacement_none.mp hplace
          exact absurd (head?_of_placed hid hvalid hmem hplaced) hhead
        | some failure =>
          have hinvalid := Chain.checkPlacement_invalid hplace
          simp [Chain.restoreLoop, Chain.appendBlock, Chain.validateBlock, hplace, hinvalid]
      · cases k with
        | zero => simp
        | succ k =>
          cases rest with
          | nil => simp at hk
          | cons first rest =>
            have hne : first ≠ block := fun h => hhead (by simp [h])
            simp [hne]

-- ---------------------------------------------------------------------------
-- Loading
-- ---------------------------------------------------------------------------

/-- Every record of the file, wherever it stands, was written for one of the
blocks. -/
def Genuine (sha256 : Bytes → Hash256) (file : Bytes) (blocks : List Block) : Prop :=
  ∀ payload, recordBytes sha256 payload <:+: file → ∃ block ∈ blocks, payload = block.serialize

theorem frames_genuine {file log : Bytes} (hgenuine : Genuine sha256 file blocks)
    (hfits : ∀ block ∈ blocks, block.Fits) (hlog : Frames (Record sha256) log loaded)
    (hfile : log <:+: file) : log = loaded.flatMap (record sha256) ∧ loaded ⊆ blocks := by
  induction hlog with
  | nil => exact ⟨rfl, List.nil_subset _⟩
  | @cons r block log loaded hr _ ih =>
    obtain ⟨payload, -, hdecode, rfl⟩ := hr
    obtain ⟨written, hmem, rfl⟩ := hgenuine payload ((List.prefix_append _ log).isInfix.trans hfile)
    rw [BlockStore.decodePayload_serialize (hfits written hmem) rfl] at hdecode
    cases hdecode
    obtain ⟨rfl, hsub⟩ := ih ((List.suffix_append _ log).isInfix.trans hfile)
    exact ⟨rfl, List.cons_subset.mpr ⟨hmem, hsub⟩⟩

/-- The scan takes a readable file as far as its records go, and throws at any
other. -/
theorem loadAllBlocks_cases {store : BlockStore} (hstore : store.log = some file)
    (hread : store.canRead = true) :
    (¬Readable E file ∧ ∃ e, store.loadAllBlocks E = .error e) ∨
    (Readable E file ∧ ∃ log loaded rest, file = log ++ rest ∧
      Frames (Record E.sha256) log loaded ∧ Stuck (Record E.sha256) rest ∧
      store.loadAllBlocks E = .ok loaded) := by
  have hload : store.loadAllBlocks E = BlockStore.loadLoop E { rest := file } [] := by
    simp [BlockStore.loadAllBlocks, hstore, hread]
  rw [hload]
  by_cases hreadable : Readable E file
  · obtain ⟨log, loaded, rest, rfl, hlog, hstuck⟩ :=
      (BlockStore.record_delimited E.sha256).exists_stuck file
    exact .inr ⟨hreadable, log, loaded, rest, rfl, hlog, hstuck,
      BlockStore.loadLoop_ok hlog hstuck hreadable⟩
  · refine .inl ⟨hreadable, ?_⟩
    simp only [Readable, not_forall, not_not] at hreadable
    obtain ⟨log, loaded, rest, hlog, rfl, hraises⟩ := hreadable
    exact BlockStore.loadLoop_error hlog hraises

/-- A log of these blocks was written, and then anything was done to its
bytes, short of forging a record. If the scan can read what is left, a restore
gives exactly the blocks whose records stand undamaged at its front: none of
them is lost, and nothing else appears, moves or comes back. Otherwise the
restore throws and leaves the chain empty. -/
theorem restoreFromStore_damaged (E : Env) (config : ChainConfig) (blocks : List Block)
    (file : Bytes) (store : BlockStore) (hvalid : ValidUnder E config blocks)
    (hstorable : ∀ block ∈ blocks, Storable block) (hid : Identified E blocks)
    (hgenuine : Genuine E.sha256 file blocks) (hstore : store.log = some file)
    (hread : store.canRead = true) :
    (Readable E file → ∃ m,
      ({ config } : Chain).restoreFromStore E store = (.ok (), { config, blocks := blocks.take m }) ∧
      ∀ k ≤ blocks.length, k ≤ m ↔ (blocks.take k).flatMap (record E.sha256) <+: file) ∧
    (¬Readable E file →
      ∃ e, ({ config } : Chain).restoreFromStore E store = (.error e, { config })) := by
  rcases loadAllBlocks_cases (E := E) hstore hread with
    ⟨hno, e, hload⟩ | ⟨hyes, log, loaded, rest, rfl, hlog, hstuck, hload⟩
  · exact ⟨fun h => absurd h hno, fun _ => ⟨e, by rw [Chain.restoreFromStore, hload]⟩⟩
  · refine ⟨fun _ => ?_, fun h => absurd hyes h⟩
    obtain ⟨rfl, hsub⟩ := frames_genuine hgenuine (fun block hmem => (hstorable block hmem).fits)
      hlog (List.prefix_append log rest).isInfix
    obtain ⟨m, hm, hfront⟩ := restoreLoop_common [] blocks hid hvalid hsub
    refine ⟨m, by rw [Chain.restoreFromStore, hload]; exact hm, fun k hk => ?_⟩
    rw [hfront k hk]
    constructor
    · rintro ⟨later, rfl⟩
      rw [List.flatMap_append, List.append_assoc]
      exact List.prefix_append _ _
    · rintro ⟨after, hafter⟩
      have hframes : Frames (Record E.sha256) ((blocks.take k).flatMap (record E.sha256))
          (blocks.take k) := frames_flatMap fun block hmem =>
        (BlockStore.storedRecord_record (hstorable block (List.mem_of_mem_take hmem))).1
      obtain ⟨u, us, -, hus⟩ := hlog.prefix_of_stuck (BlockStore.record_delimited E.sha256) hframes
        hstuck hafter.symm
      exact ⟨us, hus.symm⟩

/-- The log of two blocks, with another magic in front of the second one. -/
def sampleDamaged : Bytes :=
  let payload := (sampleChild [sampleTx 1]).serialize
  record sampleSha256 sampleGenesis ++
    ((⟨0, VER, KIND_BLOCK, UInt64.ofNat payload.length⟩ : RecordHeader).bytes ++
      (payload ++ (sampleSha256 payload).bytes))

theorem genuine_sampleDamaged :
    Genuine sampleSha256 sampleDamaged [sampleGenesis, sampleChild [sampleTx 1]] := by
  -- There is only one place with the magic, the version and the kind of a record.
  have hplaces : ∀ i < sampleDamaged.length,
      (sampleDamaged.drop i).take 14 = (RecordHeader.ofLength 0).bytes.take 14 → i = 0 := by
    decide +kernel
  rintro payload ⟨before, after, hfile⟩
  have hlen := congrArg List.length hfile
  rw [List.length_append, List.length_append, BlockStore.length_recordBytes] at hlen
  have hbefore : before.length = 0 := by
    refine hplaces before.length (by omega) ?_
    rw [← hfile, List.append_assoc, List.drop_left]
    rfl
  obtain rfl := List.length_eq_zero_iff.mp hbefore
  have hsize : sampleDamaged.length < 2 ^ 64 := by decide +kernel
  exact ⟨sampleGenesis, List.mem_cons_self,
    (BlockStore.recordBytes_append_inj (by omega) (by decide +kernel) hfile).1⟩

theorem readable_sampleDamaged : Readable sampleEnv sampleDamaged := by
  have hheader (n : UInt64) : (⟨0, VER, KIND_BLOCK,
      UInt64.ofNat (sampleChild [sampleTx 1]).serialize.length⟩ : RecordHeader) ≠ .ofLength n :=
    fun h => absurd (RecordHeader.mk.inj h).1 (by decide)
  have hgenesis : StoredRecord sampleSha256 (record sampleSha256 sampleGenesis) sampleGenesis :=
    BlockStore.storedRecord_record storable_sampleGenesis
  refine (BlockStore.readable_stored sampleEnv_roomy (.single hgenesis)).mpr ?_
  rw [BlockStore.readable_of_stuck (BlockStore.stuck_of_header fun n _ _ h => absurd h (hheader n))]
  exact BlockStore.not_raises_of_header (fun n h => absurd h (hheader n))
    fun n _ _ h => absurd h (hheader n)

/-- The block before the damage is restored. -/
theorem restoreFromStore_damaged_sample :
    ({} : Chain).restoreFromStore sampleEnv { log := some sampleDamaged } =
      (.ok (), { blocks := [sampleGenesis] }) := by
  have hgenesis : ValidBlock sampleEnv {} [] sampleGenesis :=
    Chain.acknowledged_validateBlock (c := {}).mp (by decide +kernel)
  have hchild : ValidBlock sampleEnv {} [sampleGenesis] (sampleChild [sampleTx 1]) :=
    Chain.acknowledged_validateBlock (c := { blocks := [sampleGenesis] }).mp (by decide +kernel)
  have hvalid : ValidUnder sampleEnv {} ([] ++ [sampleGenesis] ++ [sampleChild [sampleTx 1]]) :=
    (Grown.nil.snoc hgenesis).snoc hchild
  have hstorable : ∀ block ∈ [sampleGenesis, sampleChild [sampleTx 1]], Storable block := by
    simp only [List.forall_mem_cons, List.not_mem_nil, false_imp_iff, implies_true, and_true]
    exact ⟨storable_sampleGenesis, storable_sampleChild⟩
  have hid : Identified sampleEnv [sampleGenesis, sampleChild [sampleTx 1]] :=
    ⟨by decide +kernel, by decide +kernel⟩
  obtain ⟨m, hrestore, hm⟩ := (restoreFromStore_damaged sampleEnv {}
    [sampleGenesis, sampleChild [sampleTx 1]] sampleDamaged { log := some sampleDamaged } hvalid
    hstorable hid genuine_sampleDamaged rfl rfl).1 readable_sampleDamaged
  have hone := (hm 1 (by decide)).mpr (by decide +kernel)
  have htwo : ¬2 ≤ m := fun h => absurd ((hm 2 (by decide)).mp h) (by decide +kernel)
  obtain rfl : m = 1 := by omega
  exact hrestore

end Astro
