import Astro.Storage.Persistence

/-!
# Sessions over one log

A session makes a chain of its own from the log and then appends to both. As
long as nothing fails, chain and log hold the same blocks after every
operation, over any number of sessions (`sessions_synced`). A crash that cuts
an append leaves a torn record. No block that was acknowledged is lost by
that, unless something is written behind the torn record
(`crashes_keep_acknowledged`): the scan never gets past it.
-/

namespace Astro

open GrownList
open FramedLog
open BlockStore (Record record recordBytes StoredRecord Storable storable_sampleGenesis
  storable_sampleChild)

-- ---------------------------------------------------------------------------
-- A log and its blocks
-- ---------------------------------------------------------------------------

/-- A part of a record, possibly none, but not all of it. -/
def Torn (sha256 : Bytes → Hash256) (tail : Bytes) : Prop :=
  ∃ payload, payload.length ≤ maxSize ∧ tail <+: recordBytes sha256 payload ∧
    tail ≠ recordBytes sha256 payload

theorem torn_nil : Torn sha256 [] := by
  refine ⟨[], by decide, List.nil_prefix, fun h => ?_⟩
  have hlen := congrArg List.length h
  simp [BlockStore.length_recordBytes] at hlen

/-- A log that opens, with the complete records of `blocks` and a torn one. -/
structure Persisted (E : Env) (store : BlockStore) (blocks : List Block) (tail : Bytes) : Prop where
  canRead : store.canRead = true
  canWrite : store.canWrite = true
  log : ∃ log, store.log = some (log ++ tail) ∧ Frames (StoredRecord E.sha256) log blocks
  torn : Torn E.sha256 tail

def ValidUnder (E : Env) (config : ChainConfig) : List Block → Prop := Grown (ValidBlock E config)

theorem restoreLoop_ok {c : Chain} {blocks : List Block}
    (h : ValidUnder E c.config (c.blocks ++ blocks)) :
    c.restoreLoop E blocks = (.ok (), { c with blocks := c.blocks ++ blocks }) := by
  induction blocks generalizing c with
  | nil => simp [Chain.restoreLoop]
  | cons block blocks ih =>
    have hrest := ih (c := c.push block) (by simpa [Chain.push] using h)
    rw [Chain.restoreLoop_accept h.of_split]
    simpa [Chain.push] using hrest

namespace Persisted

theorem load (h : Persisted E store blocks tail) (hE : E.Roomy) :
    store.loadAllBlocks E = .ok blocks := by
  obtain ⟨log, hstore, hlog⟩ := h.log
  obtain ⟨payload, hp, hprefix, hne⟩ := h.torn
  exact BlockStore.loadAllBlocks_torn hE hlog hp hprefix hne hstore h.canRead

theorem restore {config : ChainConfig} (h : Persisted E store blocks tail) (hE : E.Roomy)
    (hv : ValidUnder E config blocks) :
    ({ config } : Chain).restoreFromStore E store = (.ok (), { config, blocks }) := by
  have hloop : ({ config } : Chain).restoreLoop E blocks = (.ok (), { config, blocks }) :=
    restoreLoop_ok hv
  rw [Chain.restoreFromStore, h.load hE]
  exact hloop

theorem tail_eq_nil (h : Persisted E store blocks tail)
    (hwhole : Frames (StoredRecord E.sha256) (store.log.getD []) blocks') : tail = [] := by
  obtain ⟨log, hstore, hlog⟩ := h.log
  obtain ⟨payload, hp, hprefix, hne⟩ := h.torn
  have hstuck : Stuck (Record E.sha256) tail :=
    BlockStore.stuck_torn (BlockStore.lt_of_le_maxSize hp) hprefix hne
  rw [hstore, Option.getD_some] at hwhole
  obtain ⟨u, -, hu, -⟩ := (hlog.mono fun _ _ h => h.1).prefix_of_stuck
    (BlockStore.record_delimited E.sha256) (hwhole.mono fun _ _ h => h.1) hstuck
    (List.append_nil _).symm
  have hlen := congrArg List.length hu
  simp only [List.length_append] at hlen
  exact List.length_eq_zero_iff.mp (by omega)

theorem append {block : Block} (h : Persisted E store blocks []) (hblock : Storable block) :
    Persisted E { store with log := some (store.log.getD [] ++ record E.sha256 block) }
      (blocks ++ [block]) [] := by
  obtain ⟨log, hstore, hlog⟩ := h.log
  refine ⟨h.canRead, h.canWrite, ⟨log ++ record E.sha256 block, by simp [hstore], ?_⟩, torn_nil⟩
  exact hlog.snoc (BlockStore.storedRecord_record hblock)

/-- Behind complete records, the first bytes of a record tear it, and all of
them add its block. -/
theorem cut {block : Block} (h : Persisted E store blocks []) (hblock : Storable block) (k : Nat) :
    ∃ tail, Persisted E
      { store with log := some (store.log.getD [] ++ (record E.sha256 block).take k) }
      (blocks ++ if (record E.sha256 block).length ≤ k then [block] else []) tail := by
  obtain ⟨log, hstore, hlog⟩ := h.log
  by_cases hk : (record E.sha256 block).length ≤ k
  · refine ⟨[], ?_⟩
    rw [List.take_of_length_le hk, if_pos hk]
    exact h.append hblock
  · refine ⟨(record E.sha256 block).take k, h.canRead, h.canWrite, ⟨log, by simp [hstore], ?_⟩,
      block.serialize, hblock.size, List.take_prefix _ _, fun heq => ?_⟩
    · rwa [if_neg hk, List.append_nil]
    · have hlen := congrArg List.length heq
      rw [List.length_take, ← record] at hlen
      omega

end Persisted

-- ---------------------------------------------------------------------------
-- Sessions
-- ---------------------------------------------------------------------------

structure Session where
  chain : Chain
  store : BlockStore
  /-- What `append_and_store` has acknowledged, since the log was cleared. -/
  accepted : List Accepted := []

inductive SessionOp
  | restart (config : ChainConfig)
  | append (block : Block) (io : AppendTransfers)
  /-- A crash when `k` bytes of the record have reached the log, and another
  session. -/
  | crash (block : Block) (k : Nat) (config : ChainConfig)
  | setDifficultyBits (bits : UInt32)
  | clear

def openSession (E : Env) (config : ChainConfig) (store : BlockStore) : Chain :=
  (({ config } : Chain).restoreFromStore E store).2

/-- The part of `append_and_store` that was done before a crash: a block that
does not validate is never written. -/
def cutAppend (E : Env) (c : Chain) (block : Block) (k : Nat) (store : BlockStore) : BlockStore :=
  if Acknowledged (c.validateBlock E block) then
    { store with log := some (store.log.getD [] ++ (record E.sha256 block).take k) }
  else store

/-- The two effects of `do_clear_store`: the log is truncated, and the chain
is reset and keeps its configuration. -/
def doClearStore (c : Chain) (store : BlockStore) : Chain × BlockStore :=
  ({ config := c.config }, { store with log := some [] })

namespace Session

def start (E : Env) (config : ChainConfig) : Session :=
  { chain := openSession E config {}, store := {} }

def step (E : Env) (s : Session) : SessionOp → Session
  | .restart config => { s with chain := openSession E config s.store }
  | .append block io =>
    let (outcome, chain, store) := s.chain.appendAndStore E block io s.store
    let accepted :=
      if Acknowledged outcome then s.accepted ++ [⟨block, s.chain.config⟩] else s.accepted
    { chain, store, accepted }
  | .crash block k config =>
    let store := cutAppend E s.chain block k s.store
    { s with chain := openSession E config store, store }
  | .setDifficultyBits bits => { s with chain := s.chain.setDifficultyBits bits }
  | .clear =>
    let (chain, store) := doClearStore s.chain s.store
    { chain, store }

/-- A session that a run of allowed operations reaches from an empty log. -/
inductive Run (E : Env) (config : ChainConfig) (Allowed : Session → SessionOp → Prop) :
    Session → Prop
  | start : Run E config Allowed (start E config)
  | step : Run E config Allowed s → Allowed s op → Run E config Allowed (s.step E op)

-- ---------------------------------------------------------------------------
-- Without crashes
-- ---------------------------------------------------------------------------

/-- No crash and no failure, and no session that asks for more work than was
asked for when the blocks of the log were accepted. -/
def Clean (s : Session) : SessionOp → Prop
  | .restart config =>
    (∀ a ∈ s.accepted, config.difficultyBits ≤ a.config.difficultyBits) ∧
      ∀ a, s.accepted.head? = some a → config.enforceGenesisPow = true →
        config.difficultyBits = 0 ∨ a.config.enforceGenesisPow = true
  | .append block io => Storable block ∧ io.Clean
  | .crash .. => False
  | .setDifficultyBits _ => True
  | .clear => True

structure Synced (E : Env) (s : Session) : Prop where
  recorded : s.accepted.map Accepted.block = s.chain.blocks
  valid : ValidChain E s.accepted
  persisted : Persisted E s.store s.chain.blocks []

theorem Synced.validUnder (h : Synced E s) (hc : s.Clean (.restart config)) :
    ValidUnder E config s.chain.blocks := by
  obtain ⟨hbits, hgenesis⟩ := hc
  refine grown_iff.mpr fun before block after hsplit => ?_
  rw [← h.recorded, List.map_eq_append_iff] at hsplit
  obtain ⟨history, later, heq, rfl, hlater⟩ := hsplit
  obtain ⟨a, later, rfl, rfl, -⟩ := List.map_eq_cons_iff.mp hlater
  have hvalid := h.valid
  rw [heq] at hvalid hbits hgenesis
  refine (Grown.of_split hvalid).mono ⟨hbits a (by simp), fun hempty => hgenesis a ?_⟩
  have hnil : history = [] := by simpa using hempty
  simp [hnil]

theorem Synced.restart (hE : E.Roomy) (h : Synced E s) (hc : s.Clean (.restart config)) :
    ({ config } : Chain).restoreFromStore E s.store =
      (.ok (), { config, blocks := s.chain.blocks }) :=
  h.persisted.restore hE (h.validUnder hc)

theorem append_cases (E : Env) (s : Session) {block : Block} {io : AppendTransfers} (hio : io.Clean)
    (hw : s.store.canWrite = true) :
    (ValidBlock E s.chain.config s.chain.blocks block ∧ s.step E (.append block io) =
      { chain := s.chain.push block
        store := { s.store with log := some (s.store.log.getD [] ++ record E.sha256 block) }
        accepted := s.accepted ++ [⟨block, s.chain.config⟩] }) ∨
    (¬ValidBlock E s.chain.config s.chain.blocks block ∧ s.step E (.append block io) = s) := by
  have hclean := BlockStore.appendBlock_clean E block hio hw
  rcases Chain.appendAndStore_cases E s.chain block io s.store with
    ⟨hv, -, h⟩ | ⟨-, ⟨e, he⟩, -⟩ | ⟨hv, outcome, hno, h⟩
  · exact .inl ⟨hv, by simp [step, h, hclean, Acknowledged]⟩
  · simp [hclean] at he
  · exact .inr ⟨hv, by simp [step, h, hno]⟩

theorem persisted_empty (E : Env) : Persisted E {} [] [] :=
  ⟨rfl, rfl, ⟨[], rfl, .nil⟩, torn_nil⟩

theorem start_eq (hE : E.Roomy) (config : ChainConfig) :
    start E config = { chain := { config }, store := {} } := by
  rw [start, openSession, (persisted_empty E).restore hE .nil]

theorem step_synced (hE : E.Roomy) (h : Synced E s) (hop : s.Clean op) :
    Synced E (s.step E op) := by
  cases op with
  | restart config =>
    have hchain : openSession E config s.store = { config, blocks := s.chain.blocks } := by
      rw [openSession, h.restart hE hop]
    simp only [step, hchain]
    exact ⟨h.recorded, h.valid, h.persisted⟩
  | append block io =>
    obtain ⟨hblock, hio⟩ := hop
    rcases append_cases E s hio h.persisted.canWrite with ⟨hv, hstep⟩ | ⟨-, hstep⟩ <;> rw [hstep]
    · refine ⟨by simp [h.recorded, Chain.push], h.valid.snoc ?_, h.persisted.append hblock⟩
      rwa [h.recorded]
    · exact h
  | crash block k config => exact hop.elim
  | setDifficultyBits bits => exact ⟨h.recorded, h.valid, h.persisted⟩
  | clear =>
    exact ⟨rfl, .nil, ⟨h.persisted.canRead, h.persisted.canWrite, ⟨[], rfl, .nil⟩, torn_nil⟩⟩

theorem run_synced (hE : E.Roomy) (h : Run E config Clean s) : Synced E s := by
  induction h with
  | start =>
    rw [start_eq hE]
    exact ⟨rfl, .nil, persisted_empty E⟩
  | step _ hop ih => exact step_synced hE ih hop

end Session

/-- Without a failure, the log and the chain hold the same blocks after every
operation of any sessions, and the next session restores all of them. -/
theorem sessions_synced (E : Env) (config : ChainConfig) (s : Session) (hE : E.Roomy)
    (h : Session.Run E config Session.Clean s) :
    s.store.loadAllBlocks E = .ok s.chain.blocks ∧
      ∀ config', s.Clean (.restart config') →
        ({ config := config' } : Chain).restoreFromStore E s.store =
          (.ok (), { config := config', blocks := s.chain.blocks }) := by
  have hsynced := Session.run_synced hE h
  exact ⟨hsynced.persisted.load hE, fun _ hc => hsynced.restart hE hc⟩

theorem sessions_synced_two :
    let first := (Session.start sampleEnv {}).step sampleEnv
      (.append sampleGenesis (.buffered none none))
    let second := (first.step sampleEnv (.restart {})).step sampleEnv
      (.append (sampleChild [sampleTx 1]) (.buffered none none))
    second.store.loadAllBlocks sampleEnv = .ok second.chain.blocks := by
  intro first second
  have hfirst : Session.Run sampleEnv {} Session.Clean first :=
    .step .start ⟨storable_sampleGenesis, by decide⟩
  have hrestart : first.Clean (.restart {}) :=
    ⟨fun a _ => UInt32.zero_le, fun _ _ h => by cases h⟩
  exact (sessions_synced sampleEnv {} second sampleEnv_roomy
    (.step (.step hfirst hrestart) ⟨storable_sampleChild, by decide⟩)).1

-- ---------------------------------------------------------------------------
-- With crashes
-- ---------------------------------------------------------------------------

namespace Session

/-- Appends that may be cut by a crash, in sessions with one configuration. -/
def Crashing (config : ChainConfig) (_ : Session) : SessionOp → Prop
  | .restart config' => config' = config
  | .append block io => Storable block ∧ io.Clean
  | .crash block _ config' => Storable block ∧ config' = config
  | .setDifficultyBits _ => False
  | .clear => False

def Whole (E : Env) (s : Session) : Prop :=
  ∃ blocks, Frames (StoredRecord E.sha256) (s.store.log.getD []) blocks

/-- Whatever is written is written behind complete records. -/
def WritesBehindRecords (E : Env) (s : Session) : SessionOp → Prop
  | .append block _ => ValidBlock E s.chain.config s.chain.blocks block → s.Whole E
  | .crash block k _ => ValidBlock E s.chain.config s.chain.blocks block → 0 < k → s.Whole E
  | _ => True

/-- The chain is what the log holds, up to a torn record, and holds what was
acknowledged. -/
structure Kept (E : Env) (config : ChainConfig) (s : Session) : Prop where
  config_eq : s.chain.config = config
  valid : ValidUnder E config s.chain.blocks
  persisted : ∃ tail, Persisted E s.store s.chain.blocks tail
  acknowledged : ∀ a ∈ s.accepted, a.block ∈ s.chain.blocks

theorem crash_persisted (h : Kept E config s) {block : Block} (hblock : Storable block)
    (hw : ValidBlock E s.chain.config s.chain.blocks block → 0 < k → s.Whole E) :
    ∃ new tail, ValidUnder E config (s.chain.blocks ++ new) ∧
      Persisted E (cutAppend E s.chain block k s.store) (s.chain.blocks ++ new) tail := by
  obtain ⟨tail, hp⟩ := h.persisted
  by_cases hack : Acknowledged (s.chain.validateBlock E block)
  · have hv := Chain.valid_of_acknowledged hack
    rw [cutAppend, if_pos hack]
    rcases Nat.eq_zero_or_pos k with rfl | hk
    · obtain ⟨log, hstore, hlog⟩ := hp.log
      exact ⟨[], tail, by simpa using h.valid, hp.canRead, hp.canWrite,
        ⟨log, by simp [hstore], by simpa using hlog⟩, hp.torn⟩
    · obtain ⟨blocks', hwhole⟩ := hw hv hk
      obtain rfl := hp.tail_eq_nil hwhole
      obtain ⟨tail', hcut⟩ := hp.cut hblock k
      refine ⟨_, tail', ?_, hcut⟩
      split
      · exact h.valid.snoc (h.config_eq ▸ hv)
      · simpa using h.valid
  · rw [cutAppend, if_neg hack]
    exact ⟨[], tail, by simpa using h.valid, by simpa using hp⟩

theorem step_kept (hE : E.Roomy) (h : Kept E config s) (hop : s.Crashing config op)
    (hw : s.WritesBehindRecords E op) : Kept E config (s.step E op) := by
  cases op with
  | restart config' =>
    obtain ⟨tail, hp⟩ := h.persisted
    have hchain : openSession E config s.store = { config, blocks := s.chain.blocks } := by
      rw [openSession, hp.restore hE h.valid]
    cases hop
    simp only [step, hchain]
    exact ⟨rfl, h.valid, ⟨tail, hp⟩, h.acknowledged⟩
  | append block io =>
    obtain ⟨hblock, hio⟩ := hop
    obtain ⟨tail, hp⟩ := h.persisted
    rcases append_cases E s hio hp.canWrite with ⟨hv, hstep⟩ | ⟨-, hstep⟩ <;> rw [hstep]
    · obtain ⟨blocks', hwhole⟩ := hw hv
      obtain rfl := hp.tail_eq_nil hwhole
      refine ⟨h.config_eq, h.valid.snoc (h.config_eq ▸ hv), ⟨[], hp.append hblock⟩, fun a ha => ?_⟩
      rcases List.mem_append.mp ha with ha | ha
      · exact List.mem_append_left _ (h.acknowledged a ha)
      · obtain rfl := List.mem_singleton.mp ha
        exact List.mem_append_right _ (List.mem_singleton.mpr rfl)
    · exact h
  | crash block k config' =>
    obtain ⟨hblock, rfl⟩ := hop
    obtain ⟨new, tail, hvalid, hp⟩ := crash_persisted h hblock hw
    have hchain : openSession E config' (cutAppend E s.chain block k s.store) =
        { config := config', blocks := s.chain.blocks ++ new } := by
      rw [openSession, hp.restore hE hvalid]
    simp only [step, hchain]
    exact ⟨rfl, hvalid, ⟨tail, hp⟩, fun a ha => List.mem_append_left _ (h.acknowledged a ha)⟩
  | setDifficultyBits bits => exact hop.elim
  | clear => exact hop.elim

end Session

/-- In a run that writes behind complete records only, every acknowledged
block stays in the chain, through any crashes and sessions. -/
theorem crashes_keep_acknowledged (E : Env) (config : ChainConfig) (s : Session) (hE : E.Roomy)
    (h : Session.Run E config
      (fun s op => s.Crashing config op ∧ s.WritesBehindRecords E op) s) :
    ∀ a ∈ s.accepted, a.block ∈ s.chain.blocks := by
  have hkept : Session.Kept E config s := by
    induction h with
    | start =>
      rw [Session.start_eq hE]
      exact ⟨rfl, .nil, ⟨[], Session.persisted_empty E⟩, by simp⟩
    | step _ hop ih => exact Session.step_kept hE ih hop.1 hop.2
  exact hkept.acknowledged

/-- The first byte of a torn record is enough: the block appended behind it is
acknowledged and never loaded. -/
theorem crash_loses_acknowledged :
    let s := (((Session.start sampleEnv {}).step sampleEnv (.crash sampleGenesis 1 {})).step sampleEnv
      (.append sampleGenesis (.buffered none none))).step sampleEnv (.restart {})
    Session.Run sampleEnv {} (Session.Crashing {}) s ∧
      s.accepted.map Accepted.block = [sampleGenesis] ∧ s.chain.blocks = [] :=
  ⟨.step (.step (.step .start ⟨storable_sampleGenesis, rfl⟩)
      ⟨storable_sampleGenesis, by decide⟩) rfl,
    by decide +kernel, by decide +kernel⟩

theorem crashes_keep_acknowledged_one :
    let first := (Session.start sampleEnv {}).step sampleEnv
      (.append sampleGenesis (.buffered none none))
    let second := first.step sampleEnv (.crash (sampleChild [sampleTx 1]) 40 {})
    ∀ a ∈ second.accepted, a.block ∈ second.chain.blocks := by
  intro first second
  have hwhole : first.Whole sampleEnv := by
    refine ⟨[sampleGenesis], ?_⟩
    have hlog : first.store.log.getD [] = record sampleSha256 sampleGenesis := by decide +kernel
    rw [hlog]
    exact .single (BlockStore.storedRecord_record storable_sampleGenesis)
  refine crashes_keep_acknowledged sampleEnv {} second sampleEnv_roomy
    (.step (.step .start ⟨⟨storable_sampleGenesis, by decide⟩, fun _ => ⟨[], ?_⟩⟩)
      ⟨⟨storable_sampleChild, rfl⟩, fun _ _ => hwhole⟩)
  exact .nil

end Astro
