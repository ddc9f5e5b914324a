import Astro.Cli.Process

/-!
# store.cpp

One run of `main` restores the chain of ./data and tries to append one block
to it: a genesis block to an empty chain, and otherwise a block whose timestamp
is a constant and the height of the chain. The log itself is taken to open.
-/

namespace Astro.Cli.Store

open BlockStore (Storable record)

/-- The timestamp of the genesis block that `main` makes. -/
def epoch : UInt64 := 1700000000

def restoredLine (height : Nat) : Bytes := text "[💾] restored height: " ++ number height ++ text "\n"

/-- What is printed of the chain at the end of `main`. -/
def tipLine (sha256 : Bytes → Hash256) (chain : Chain) : Bytes :=
  match chain.tipHash sha256 with
  | none => []
  | some tipHash => text "tip: " ++ shortHex tipHash

/-- The transaction that `main` signs. -/
def demoTransfer (height : Nat) : Transaction :=
  { version := 1, nonce := UInt64.ofNat height, amount := 1, toLabel := text "demo" }

/-- `main` from `append_and_store` on. -/
def submit (E : Env) (chain : Chain) (block : Block) (io : AppendTransfers) (store : BlockStore)
    (good bad : Bytes) : Ended × BlockStore :=
  let restored := restoredLine chain.height
  match chain.appendAndStore E block io store with
  | (.error e, _, store) => ({ out := restored, status := .error (.exn e) }, store)
  | (.ok validationResult, chain, store) =>
    ({ out := restored ++ (if validationResult.isValid then good else bad) ++
        tipLine E.sha256 chain
       status := .ok 0 }, store)

def main (E : Env) (cryptoInit : Bool) (signer : Signer) (io : AppendTransfers)
    (store : BlockStore) : Ended × BlockStore :=
  if !cryptoInit then (initFailed, store)
  else match ({ config := { difficultyBits := 0 } } : Chain).restoreFromStore E store with
    | (.error e, _) => ({ status := .error (.exn e) }, store)
    | (.ok (), chain) =>
      if chain.height = 0 then
        let genesisBlock := makeGenesisBlock E.sha256 (text "Astro: Persisted.") epoch
        submit E chain genesisBlock io store (text "[+] wrote genesis\n")
          (text "[x] failed genesis\n")
      else
        match signer.signed (demoTransfer chain.height) with
        | .error e => ({ out := restoredLine chain.height, status := .error (.exn e) }, store)
        | .ok transaction =>
          let newBlock := chain.buildBlockFromTransactions E.sha256 [transaction]
            (epoch + UInt64.ofNat chain.height)
          submit E chain newBlock io store (text "[+] appended block\n")
            (text "[x] append failed\n")

/-- One run of the program after another. -/
def runs (E : Env) : List (Signer × AppendTransfers) → BlockStore → List Ended × BlockStore
  | [], store => ([], store)
  | (signer, io) :: inputs, store =>
    let (ended, store) := main E true signer io store
    let (later, store) := runs E inputs store
    (ended :: later, store)

-- ---------------------------------------------------------------------------
-- One run
-- ---------------------------------------------------------------------------

variable {E : Env} {store : BlockStore} {blocks : List Block} {signer : Signer}
  {io : AppendTransfers}

/-- The next block of the program would not be behind the tip. -/
def InStep (blocks : List Block) : Prop :=
  ∀ tip ∈ blocks.getLast?, tip.header.timestamp ≤ epoch + UInt64.ofNat blocks.length

/-- What a run prints that has appended the last of these blocks. -/
def appended (E : Env) (blocks : List Block) : Ended where
  out := restoredLine (blocks.length - 1) ++
    (if blocks.length = 1 then text "[+] wrote genesis\n" else text "[+] appended block\n") ++
    tipLine E.sha256 { blocks }
  status := .ok 0

/-- What a run prints that was refused on these blocks. -/
def refused (E : Env) (blocks : List Block) : Ended where
  out := restoredLine blocks.length ++ text "[x] append failed\n" ++ tipLine E.sha256 { blocks }
  status := .ok 0

theorem submit_valid {good bad : Bytes} (chain : Chain)
    (hv : ValidBlock E chain.config chain.blocks block) (hio : io.Clean)
    (hwrite : store.canWrite = true) :
    submit E chain block io store good bad =
      ({ out := restoredLine chain.height ++ good ++ tipLine E.sha256 (chain.push block)
         status := .ok 0 },
        { store with log := some (store.log.getD [] ++ record E.sha256 block) }) := by
  have hstored := BlockStore.appendBlock_clean E block hio hwrite
  rcases Chain.appendAndStore_cases E chain block io store with
    ⟨-, -, h⟩ | ⟨-, ⟨e, he⟩, -⟩ | ⟨hno, -⟩
  · simp [submit, h, hstored]
  · rw [hstored] at he
    cases he
  · exact absurd hv hno

theorem submit_invalid {good bad : Bytes} (chain : Chain)
    (hno : ¬ValidBlock E chain.config chain.blocks block)
    (hkeys : KeysParse E chain block) : submit E chain block io store good bad =
      ({ out := restoredLine chain.height ++ bad ++ tipLine E.sha256 chain, status := .ok 0 },
        store) := by
  rcases Chain.validateBlock_cases E chain block with ⟨hv, -⟩ | ⟨-, e, he⟩ | ⟨-, r, hr, hinvalid⟩
  · exact absurd hv hno
  · exact absurd he (Chain.validateBlock_ne_error hkeys)
  · simp [submit, Chain.appendAndStore, hr, hinvalid]

/-- What the program relies on besides a log. -/
structure Served (E : Env) (input : Signer × AppendTransfers) : Prop where
  matching : input.1.Matching E
  short : input.1.Short
  clean : input.2.Clean

theorem main_restored (hE : E.Roomy) (hstore : Persisted E store blocks [])
    (hvalid : ValidUnder E {} blocks) :
    ({ config := { difficultyBits := 0 } } : Chain).restoreFromStore E store =
      (.ok (), { blocks }) := hstore.restore hE hvalid

theorem main_empty (hE : E.Roomy) (hstore : Persisted E store [] []) (hio : io.Clean) :
    ∃ block, Storable block ∧ ValidBlock E {} [] block ∧ block.header.timestamp = epoch ∧
      main E true signer io store = (appended E [block],
        { store with log := some (store.log.getD [] ++ record E.sha256 block) }) := by
  have hv : ValidBlock E {} [] (makeGenesisBlock E.sha256 (text "Astro: Persisted.") epoch) :=
    Chain.validBlock_makeGenesisBlock (.inl rfl)
  refine ⟨_, storable_of_slim (slim_makeGenesisBlock (by decide)), hv, rfl, ?_⟩
  rw [main, if_neg (by decide), main_restored hE hstore .nil]
  exact submit_valid { blocks := [] } hv hio hstore.canWrite

/-- On a chain with a tip, the timestamp decides. -/
theorem main_tip {tip : Block} (hE : E.Roomy) (hstore : Persisted E store blocks [])
    (hvalid : ValidUnder E {} blocks) (hserved : Served E (signer, io))
    (htip : blocks.getLast? = some tip) :
    (InStep blocks → ∃ block, Storable block ∧ ValidBlock E {} blocks block ∧
      block.header.timestamp = epoch + UInt64.ofNat blocks.length ∧
      main E true signer io store = (appended E (blocks ++ [block]),
        { store with log := some (store.log.getD [] ++ record E.sha256 block) })) ∧
    (¬InStep blocks → main E true signer io store = (refused E blocks, store)) := by
  have hne : blocks.length ≠ 0 := by
    intro hzero
    simp [List.length_eq_zero_iff.mp hzero] at htip
  obtain ⟨tx, hsigned, hverifying⟩ := hserved.matching.signed (demoTransfer blocks.length)
  have hlabel : (text "demo").length < 2 ^ 30 := by decide
  have hslim : Slim [tx] := hserved.short.slim hlabel hsigned
  let c : Chain := { blocks }
  let block := c.buildBlockFromTransactions E.sha256 [tx] (epoch + UInt64.ofNat blocks.length)
  have hv : ValidBlock E {} blocks block ↔ InStep blocks := by
    have hbuilt : ValidBlock E {} blocks block ↔ _ :=
      Chain.validBlock_build_iff (c := c) htip hverifying
    rw [hbuilt, meetsDifficulty_zero, InStep, htip]
    simp
  have hmain : main E true signer io store = submit E c block io store
      (text "[+] appended block\n") (text "[x] append failed\n") := by
    rw [main, if_neg (by decide), main_restored hE hstore hvalid]
    simp only [Chain.height, hne, if_false, hsigned, c, block]
  rw [hmain]
  constructor
  · intro hin
    refine ⟨block, storable_of_slim hslim, hv.mpr hin, rfl, ?_⟩
    rw [submit_valid c (hv.mpr hin) hserved.clean hstore.canWrite]
    simp [appended, hne, Chain.height, Chain.push, c]
  · intro hout
    rw [submit_invalid c (mt hv.mp hout) hverifying.keysParse]
    rfl

-- ---------------------------------------------------------------------------
-- Many runs
-- ---------------------------------------------------------------------------

/-- The timestamps of the program grow with the height. -/
theorem inStep_snoc (hbound : 1700000000 + (blocks.length + 1) < 2 ^ 64)
    (htime : block.header.timestamp = epoch + UInt64.ofNat blocks.length) :
    InStep (blocks ++ [block]) := by
  have hnat (n : Nat) (hn : 1700000000 + n < 2 ^ 64) :
      (epoch + UInt64.ofNat n).toNat = 1700000000 + n := by
    rw [UInt64.toNat_add, UInt64.toNat_ofNat_of_lt' (by change n < 2 ^ 64; omega)]
    exact Nat.mod_eq_of_lt hn
  intro tip htip
  rw [List.getLast?_concat, Option.mem_some_iff] at htip
  rw [← htip, htime, UInt64.le_iff_toNat_le, hnat _ (by omega), List.length_append,
    List.length_singleton, hnat _ hbound]
  omega

theorem main_inStep (hE : E.Roomy) (hstore : Persisted E store blocks [])
    (hvalid : ValidUnder E {} blocks) (hserved : Served E (signer, io)) (hin : InStep blocks) :
    ∃ block, Storable block ∧ ValidBlock E {} blocks block ∧
      block.header.timestamp = epoch + UInt64.ofNat blocks.length ∧
      main E true signer io store = (appended E (blocks ++ [block]),
        { store with log := some (store.log.getD [] ++ record E.sha256 block) }) := by
  cases htip : blocks.getLast? with
  | none =>
    obtain rfl := List.getLast?_eq_none_iff.mp htip
    exact main_empty hE hstore hserved.clean
  | some tip => exact (main_tip hE hstore hvalid hserved htip).1 hin

theorem runs_inStep {inputs : List (Signer × AppendTransfers)} (hE : E.Roomy)
    (hstore : Persisted E store blocks []) (hvalid : ValidUnder E {} blocks)
    (hserved : ∀ input ∈ inputs, Served E input)
    (hbound : 1700000000 + (blocks.length + inputs.length) < 2 ^ 64) (hin : InStep blocks) :
    ∃ new, new.length = inputs.length ∧ Persisted E (runs E inputs store).2 (blocks ++ new) [] ∧
      (runs E inputs store).1 = (List.range inputs.length).map fun i =>
        appended E (blocks ++ new.take (i + 1)) := by
  induction inputs generalizing blocks store with
  | nil => exact ⟨[], rfl, by rwa [List.append_nil], rfl⟩
  | cons input inputs ih =>
    obtain ⟨signer, io⟩ := input
    obtain ⟨hfirst, hserved⟩ := List.forall_mem_cons.mp hserved
    rw [List.length_cons] at hbound
    obtain ⟨block, hstorable, hv, htime, hmain⟩ := main_inStep hE hstore hvalid hfirst hin
    obtain ⟨new, hlen, hpersisted, hends⟩ := ih (hstore.append hstorable) (hvalid.snoc hv) hserved
      (by rw [List.length_append, List.length_singleton]; omega)
      (inStep_snoc (by omega) htime)
    refine ⟨block :: new, by rw [List.length_cons, hlen, List.length_cons], ?_, ?_⟩
    · simpa [runs, hmain] using hpersisted
    · simp [runs, hmain, hends, List.range_succ_eq_map, Function.comp_def]

theorem runs_outOfStep {inputs : List (Signer × AppendTransfers)} (hE : E.Roomy)
    (hstore : Persisted E store blocks []) (hvalid : ValidUnder E {} blocks)
    (hserved : ∀ input ∈ inputs, Served E input) (hout : ¬InStep blocks) :
    runs E inputs store = (List.replicate inputs.length (refused E blocks), store) := by
  obtain ⟨tip, htip⟩ : ∃ tip, blocks.getLast? = some tip := by
    cases htip : blocks.getLast? with
    | none => exact absurd (fun tip h => by simp [htip] at h) hout
    | some tip => exact ⟨tip, rfl⟩
  induction inputs with
  | nil => rfl
  | cons input inputs ih =>
    obtain ⟨signer, io⟩ := input
    obtain ⟨hfirst, hserved⟩ := List.forall_mem_cons.mp hserved
    have hmain := (main_tip hE hstore hvalid hfirst htip).2 hout
    rw [runs, hmain]
    dsimp only
    rw [ih hserved]
    rfl

/-- The program never gets out of step with itself, and never gets back into
step. From an empty log, or behind a tip that is not later than the constant
plus the height, every run appends one block. Behind a later tip, such as one
that tui.cpp has made since 2023, every run is refused, however often it is
repeated: it changes nothing, and still exits with 0. -/
theorem runs_all_or_none (E : Env) (inputs : List (Signer × AppendTransfers)) (store : BlockStore)
    (blocks : List Block) (hE : E.Roomy) (hstore : Persisted E store blocks [])
    (hvalid : ValidUnder E {} blocks) (hserved : ∀ input ∈ inputs, Served E input)
    (hbound : 1700000000 + (blocks.length + inputs.length) < 2 ^ 64) :
    (InStep blocks → ∃ new, new.length = inputs.length ∧
      (runs E inputs store).2.loadAllBlocks E = .ok (blocks ++ new) ∧
      (runs E inputs store).1 = (List.range inputs.length).map fun i =>
        appended E (blocks ++ new.take (i + 1))) ∧
    (¬InStep blocks →
      runs E inputs store = (List.replicate inputs.length (refused E blocks), store)) := by
  refine ⟨fun hin => ?_, runs_outOfStep hE hstore hvalid hserved⟩
  obtain ⟨new, hlen, hpersisted, hends⟩ := runs_inStep hE hstore hvalid hserved hbound hin
  exact ⟨new, hlen, hpersisted.load hE, hends⟩

/-- Three runs on an empty log, and three behind a tip of 2027. -/
theorem runs_all_or_none_sample :
    let inputs := List.replicate 3 (sampleSigner, AppendTransfers.buffered none none)
    let tip := makeGenesisBlock sampleEnv.sha256 [] 1800000000
    let late : BlockStore := { log := some (record sampleEnv.sha256 tip) }
    (∃ new, new.length = 3 ∧ (runs sampleEnv inputs {}).2.loadAllBlocks sampleEnv = .ok new) ∧
      runs sampleEnv inputs late = (List.replicate 3 (refused sampleEnv [tip]), late) := by
  intro inputs tip late
  have hserved : ∀ input ∈ inputs, Served sampleEnv input := by
    intro input hinput
    obtain rfl := List.eq_of_mem_replicate hinput
    exact ⟨sampleSigner_matching, sampleSigner_short, by decide⟩
  have hempty := Session.persisted_empty sampleEnv
  have hslim : Slim tip.transactions := slim_makeGenesisBlock (by decide)
  have hlate : Persisted sampleEnv late [tip] [] := by
    have happended := hempty.append (storable_of_slim hslim)
    rw [Option.getD_some, List.nil_append, List.nil_append] at happended
    exact happended
  have hvalid : ValidUnder sampleEnv {} [tip] :=
    GrownList.Grown.nil.snoc (Chain.validBlock_makeGenesisBlock (.inl rfl))
  obtain ⟨new, hlen, hload, -⟩ := (runs_all_or_none sampleEnv inputs {} [] sampleEnv_roomy
    hempty .nil hserved (by decide)).1 (by simp [InStep])
  refine ⟨⟨new, hlen, hload⟩, ?_⟩
  refine (runs_all_or_none sampleEnv inputs late [tip] sampleEnv_roomy hlate hvalid hserved
    (by decide)).2 fun hin => ?_
  have hlater : ¬(1800000000 : UInt64) ≤ epoch + UInt64.ofNat 1 := by decide
  exact hlater (hin tip (by simp))

end Astro.Cli.Store
