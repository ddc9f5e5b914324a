import Astro.Tui.Faults

/-!
# What G and B come to

In a program that works, G always makes the first block. B appends its block
unless the clock has gone back behind the tip, or the difficulty in force asks
for work that B does not do. That difficulty is 0 until a mined block is
handed over, and the one shown at the last handover since.
-/

namespace Astro

theorem Chain.appendAndStore_config {c : Chain} :
    (c.appendAndStore E block io store).2.1.config = c.config := by
  rcases appendAndStore_cases E c block io store with ⟨-, -, h⟩ | ⟨-, -, h⟩ | ⟨-, _, -, h⟩ <;>
    rw [h]
  rfl

namespace Tui

-- ---------------------------------------------------------------------------
-- The difficulty in force
-- ---------------------------------------------------------------------------

/-- The genesis block is exempt, and so is every block until one is handed over. -/
structure Eased (t : Tui) : Prop where
  exempt : t.app.chain.config.enforceGenesisPow = false
  untouched : t.history.handed = [] → t.app.chain.config.difficultyBits = 0

theorem Eased.mono {t t' : Tui} (h : Eased t) (hconfig : t'.app.chain.config = t.app.chain.config)
    (hhanded : t'.history.handed = [] → t.history.handed = []) : Eased t' :=
  ⟨hconfig ▸ h.exempt, fun hnil => hconfig ▸ h.untouched (hhanded hnil)⟩

theorem step_handed {t t' : Tui} (hs : t.step E label = some t')
    (h : t'.history.handed = []) : t.history.handed = [] := by
  cases move_of_step hs with
  | idle _ _ hhistory _ => exact hhistory ▸ h
  | handsOver _ _ hhistory _ => simp [hhistory] at h
  | starts _ _ _ _ _ _ hhistory _ => simpa [hhistory] using h
  | startFails _ _ _ _ _ hhistory _ => simpa [hhistory] using h
  | _ => exact h

theorem step_loopHead {t t' : Tui} (h : t.step E (.loopHead io) = some t') :
    t' = t.loopHead E io := by
  unfold step at h
  split at h <;> simp_all

theorem loopHead_handed {t : Tui} (hrunning : t.running = true)
    (hdone : t.app.mining.done = true) : (t.loopHead E io).history.handed ≠ [] := by
  simp [loopHead, hrunning, hdone]

theorem step_eased {t t' : Tui} (h : Eased t) (hs : t.step E label = some t') : Eased t' := by
  have hhanded := step_handed hs
  cases effect_of_step hs with
  | keeps hchain _ _ => exact h.mono (by rw [hchain]) hhanded
  | submits c block io hsubmits hresult _ =>
    have hchain := congrArg (fun result => result.1.config) hresult
    simp only [Chain.appendAndStore_config] at hchain
    cases hsubmits with
    | genesis _ => exact h.mono hchain hhanded
    | append _ _ => exact h.mono hchain hhanded
    | mined hrunning hdone =>
      refine ⟨hchain ▸ h.exempt, fun hnil => ?_⟩
      rw [step_loopHead hs] at hnil
      exact absurd hnil (loopHead_handed hrunning hdone)
  | clears _ hchain _ _ => exact h.mono (by rw [hchain]) hhanded

theorem Prospers.eased (h : Prospers E store t) (hE : E.Roomy)
    (hstore : Persisted E store blocks []) (hvalid : ValidUnder E {} blocks) : Eased t := by
  have hstart {store blocks} (hstore : Persisted E store blocks [])
      (hvalid : ValidUnder E {} blocks) : Eased (start E store) := by
    rw [start_restored hE hstore hvalid]
    exact ⟨rfl, fun _ => rfl⟩
  induction h with
  | refl => exact hstart hstore hvalid
  | @step t _ label hrun hworks hs ih =>
    cases label with
    | none =>
      have hledgered := (Prospers.faultless hrun hE hstore hvalid).ledgered
      cases hs
      exact hstart hledgered.persisted hledgered.valid
    | some label => exact step_eased ih hs

-- ---------------------------------------------------------------------------
-- The keys
-- ---------------------------------------------------------------------------

/-- A block that is submitted to a served log. -/
theorem submit_of_clean (E : Env) (block : Block) {app : App} (hio : io.Clean)
    (hwrite : app.store.canWrite = true) :
    (ValidBlock E app.chain.config app.chain.blocks block →
      uncaught (app.submit E block io).1 = none ∧
        (app.submit E block io).2.chain = app.chain.push block) ∧
    (¬ValidBlock E app.chain.config app.chain.blocks block →
      (app.submit E block io).2 = app) := by
  have hstored := BlockStore.appendBlock_clean E block hio hwrite
  rcases Chain.appendAndStore_cases E app.chain block io app.store with
    ⟨hv, -, h⟩ | ⟨-, ⟨e, he⟩, -⟩ | ⟨hv, outcome, -, h⟩
  · exact ⟨fun _ => by simp [App.submit, h, uncaught], fun hno => absurd hv hno⟩
  · rw [hstored] at he
    cases he
  · exact ⟨fun hyes => absurd hyes hv, fun _ => by simp [App.submit, h]⟩

theorem genesis_key {t : Tui} (h : Faultless E t) (heased : Eased t) (hio : io.Clean)
    (hempty : t.app.chain.blocks = []) :
    (t.pressKey E (.genesis unixTime io)).pc = .keys ∧
      (t.pressKey E (.genesis unixTime io)).app.chain.blocks =
        [makeGenesisBlock E.sha256 (text "Astro: Born from bytes.") unixTime] := by
  have hheight : ¬t.app.chain.height > 0 := by simp [Chain.height, hempty]
  have hv : ValidBlock E t.app.chain.config t.app.chain.blocks
      (makeGenesisBlock E.sha256 (text "Astro: Born from bytes.") unixTime) := by
    rw [hempty]
    exact Chain.validBlock_makeGenesisBlock (.inr heased.exempt)
  obtain ⟨hreturns, hchain⟩ := (submit_of_clean E _ hio h.ledgered.persisted.canWrite).1 hv
  rw [pressKey, App.doGenesis, if_neg hheight, conclude_app]
  refine ⟨?_, by rw [hchain, Chain.push, hempty, List.nil_append]⟩
  dsimp only
  rw [hreturns]
  rfl

theorem append_key {t : Tui} (h : Faultless E t)
    (htip : t.app.chain.tip = some tip) (hio : io.Clean) (hmatching : signer.Matching E) :
    ∃ tx, signer.signed (App.nextTransfer tip) = .ok tx ∧
      let block := t.app.chain.buildBlockFromTransactions E.sha256 [tx] unixTime
      let t' := t.pressKey E (.append signer unixTime io)
      if tip.header.timestamp ≤ unixTime ∧ meetsDifficulty t.app.chain.config.difficultyBits
          (block.header.hash E.sha256) = true then
        t'.pc = .keys ∧ t'.app.chain = t.app.chain.push block
      else t'.app = t.app := by
  obtain ⟨tx, hsigned, hverifying⟩ := hmatching.signed (App.nextTransfer tip)
  refine ⟨tx, hsigned, ?_⟩
  have hsubmit := submit_of_clean E (t.app.chain.buildBlockFromTransactions E.sha256 [tx] unixTime)
    hio h.ledgered.persisted.canWrite
  rw [Chain.validBlock_build_iff htip hverifying] at hsubmit
  dsimp only [pressKey]
  rw [App.doAppendSignedBlock_ok htip hsigned, conclude_app]
  dsimp only
  split
  next hvalid =>
    obtain ⟨hreturns, hchain⟩ := hsubmit.1 hvalid
    rw [hreturns]
    exact ⟨rfl, hchain⟩
  next hno => exact hsubmit.2 hno

/-- Whatever has happened before, G makes the first block of an empty chain,
and B appends a block exactly when the clock and the difficulty in force let
it; nothing has been asked of blocks as long as none was handed over. -/
theorem keys_accepted (E : Env) (store : BlockStore) (blocks : List Block) (t : Tui)
    (hE : E.Roomy) (hstore : Persisted E store blocks []) (hvalid : ValidUnder E {} blocks)
    (h : Prospers E store t) (io : AppendTransfers) (hio : io.Clean) (unixTime : UInt64) :
    (t.app.chain.blocks = [] →
      (t.pressKey E (.genesis unixTime io)).pc = .keys ∧
        (t.pressKey E (.genesis unixTime io)).app.chain.blocks =
          [makeGenesisBlock E.sha256 (text "Astro: Born from bytes.") unixTime]) ∧
    (∀ signer tip, signer.Matching E → t.app.chain.tip = some tip →
      ∃ tx, signer.signed (App.nextTransfer tip) = .ok tx ∧
        let block := t.app.chain.buildBlockFromTransactions E.sha256 [tx] unixTime
        let t' := t.pressKey E (.append signer unixTime io)
        if tip.header.timestamp ≤ unixTime ∧ meetsDifficulty t.app.chain.config.difficultyBits
            (block.header.hash E.sha256) = true then
          t'.pc = .keys ∧ t'.app.chain = t.app.chain.push block
        else t'.app = t.app) ∧
    (t.history.handed = [] → t.app.chain.config.difficultyBits = 0) := by
  have hfaultless := h.faultless hE hstore hvalid
  have heased := h.eased hE hstore hvalid
  exact ⟨genesis_key hfaultless heased hio, fun signer tip hmatching htip =>
    append_key hfaultless htip hio hmatching, heased.untouched⟩

theorem keys_accepted_sample :
    ∃ t ∈ Machine.runLabels (lifetimes sampleEnv) (fun _ _ => True) (start sampleEnv {})
      (sampleKeys.map some),
    ∃ tx, (t.pressKey sampleEnv (.append sampleSigner 1 sampleIo)).app.chain =
      t.app.chain.push (t.app.chain.buildBlockFromTransactions sampleSha256 [tx] 1) := by
  have hrun : ∃ t ∈ Machine.runLabels (lifetimes sampleEnv) (fun _ _ => True)
      (start sampleEnv {}) (sampleKeys.map some),
      t.history.handed = [] ∧ ∃ tip ∈ t.app.chain.tip, tip.header.timestamp ≤ 1 := by
    decide +kernel
  obtain ⟨t, ht, hhanded, tip, htip, htime⟩ := hrun
  have hprospers : Prospers sampleEnv {} t := .of_labels (fun label hlabel t => by
    obtain ⟨l, hl, rfl⟩ := List.mem_map.mp hlabel
    exact works_sample (List.mem_append_left _ hl) t) ht
  obtain ⟨-, happend, hbits⟩ := keys_accepted sampleEnv {} [] t sampleEnv_roomy
    (Session.persisted_empty sampleEnv) .nil hprospers sampleIo (by decide) 1
  obtain ⟨tx, -, hpressed⟩ := happend sampleSigner tip sampleSigner_matching htip
  dsimp only at hpressed
  rw [hbits hhanded, if_pos ⟨htime, meetsDifficulty_zero _⟩] at hpressed
  exact ⟨t, ht, tx, hpressed.2⟩

end Tui

end Astro
