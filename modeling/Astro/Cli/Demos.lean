import Astro.Cli.Node

/-!
# What the demonstrations do

Every list of arguments is a list of settings and a rest that says how it
ends. What was written on the command line is what the commands get; they then
report that what they have signed and proved verifies.
-/

namespace Astro.Cli.Node

open Options

variable {E : Env} {signers : Bytes → Signer} {signer : Signer} {now : UInt64}

-- ---------------------------------------------------------------------------
-- Arguments
-- ---------------------------------------------------------------------------

theorem distinct_options : Distinct 61 keysOptions ∧ Distinct 61 txOptions ∧
    Distinct 61 merkleOptions :=
  ⟨⟨by decide +kernel, by decide +kernel⟩, ⟨by decide +kernel, by decide +kernel⟩,
    ⟨by decide +kernel, by decide +kernel⟩⟩

/-- The arguments are settings, which are applied in their order up to one
that throws, and a rest that does not begin with a setting. Without a rest the
command is run; otherwise it is not. -/
def Reads (options : List (Opt UInt8 σ Uncaught)) (defaults : σ) : Prop :=
  ∀ (args : List Bytes) (command : σ → Ended),
    ∃ (settings : List (Setting UInt8 σ Uncaught)) (rest : List Bytes),
      (∀ x ∈ settings, x.option ∈ options) ∧
      args = settings.flatMap (Setting.args 61) ++ rest ∧ Rest 61 options rest ∧
      withOptions options defaults args command =
        match settings.foldlM Setting.apply defaults, rest with
        | .error e, _ => { status := .error e }
        | .ok s, [] => command s
        | .ok _, arg :: _ => if isHelp arg then printUsage else
          { out := usage, err := text "Unknown option: " ++ arg ++ text "\n", status := .ok 1 }

theorem reads_of_distinct {options : List (Opt UInt8 σ Uncaught)} (h : Distinct 61 options)
    (defaults : σ) : Reads options defaults := by
  intro args command
  obtain ⟨settings, rest, hsettings, hargs, hrest, hparse⟩ :=
    parse_decomposes h isHelp defaults args
  refine ⟨settings, rest, hsettings, hargs, hrest, ?_⟩
  rw [withOptions, hparse]
  cases settings.foldlM Setting.apply defaults with
  | error e => rfl
  | ok s =>
    cases rest with
    | nil => rfl
    | cons arg rest =>
      simp only [ends, stop]
      cases isHelp arg <;> rfl

/-- How each of the three commands reads its arguments. -/
theorem arguments_exact : Reads keysOptions {} ∧ Reads txOptions {} ∧ Reads merkleOptions {} :=
  ⟨reads_of_distinct distinct_options.1 {}, reads_of_distinct distinct_options.2.1 {},
    reads_of_distinct distinct_options.2.2 {}⟩

-- ---------------------------------------------------------------------------
-- Settings as they are written
-- ---------------------------------------------------------------------------

/-- Settings of which none throws, one after the other. -/
theorem withOptions_written {options : List (Opt UInt8 σ Uncaught)} {command : σ → Ended}
    {write : β → Setting UInt8 σ Uncaught} {set : σ → β → σ} (hd : Distinct 61 options)
    (hmem : ∀ x, (write x).option ∈ options) (hset : ∀ s x, (write x).apply s = .ok (set s x))
    (defaults : σ) (xs : List β) :
    withOptions options defaults (xs.flatMap fun x => (write x).args 61) command =
      command (xs.foldl set defaults) := by
  have hfold (s : σ) : (xs.map write).foldlM Setting.apply s = .ok (xs.foldl set s) := by
    induction xs generalizing s with
    | nil => rfl
    | cons x xs ih =>
      rw [List.map_cons, List.foldlM_cons, hset]
      exact ih _
  have hparse : parse 61 options isHelp defaults ((xs.map write).flatMap (Setting.args 61) ++ []) =
      _ := parse_settings hd (by simpa using fun x _ => hmem x) []
  rw [hfold, List.append_nil, List.flatMap_map] at hparse
  rw [withOptions, hparse]
  rfl

theorem stoull_toNat (n : UInt64) : stoull (Decimal.digits n.toNat) = .ok n := by
  have hlt := n.toNat_lt
  rw [stoull_digits, if_neg (by omega), UInt64.ofNat_toNat]

/-- A setting of demo-tx, and whether it is written as one argument. -/
inductive TxSetting
  | amount (n : UInt64) (inline : Bool)
  | nonce (n : UInt64) (inline : Bool)
  | toLabel (label : Bytes) (inline : Bool)

def TxSetting.write : TxSetting → Setting UInt8 TxOptions Uncaught
  | .amount n inline => ⟨amountOption, Decimal.digits n.toNat, inline⟩
  | .nonce n inline => ⟨nonceOption, Decimal.digits n.toNat, inline⟩
  | .toLabel label inline => ⟨toOption, label, inline⟩

def TxSetting.set (s : TxOptions) : TxSetting → TxOptions
  | .amount n _ => { s with amount := n }
  | .nonce n _ => { s with nonce := n }
  | .toLabel label _ => { s with toLabel := label }

/-- The arguments that write these settings. -/
def TxSetting.args (xs : List TxSetting) : List Bytes := xs.flatMap fun x => x.write.args 61

theorem withOptions_tx (xs : List TxSetting) (command : TxOptions → Ended) :
    withOptions txOptions {} (TxSetting.args xs) command = command (xs.foldl TxSetting.set {}) := by
  refine withOptions_written distinct_options.2.1 (fun x => ?_) (fun s x => ?_) {} xs
  · cases x <;> simp [TxSetting.write, txOptions]
  · cases x <;> simp [TxSetting.write, TxSetting.set, Setting.apply, amountOption, nonceOption,
      toOption, stoull_toNat, Except.map]

inductive MerkleSetting
  | leaves (csv : Bytes) (inline : Bool)
  | index (n : UInt64) (inline : Bool)

def MerkleSetting.write : MerkleSetting → Setting UInt8 MerkleOptions Uncaught
  | .leaves csv inline => ⟨leavesOption, csv, inline⟩
  | .index n inline => ⟨indexOption, Decimal.digits n.toNat, inline⟩

def MerkleSetting.set (s : MerkleOptions) : MerkleSetting → MerkleOptions
  | .leaves csv _ => { s with csv }
  | .index n _ => { s with index := n }

def MerkleSetting.args (xs : List MerkleSetting) : List Bytes :=
  xs.flatMap fun x => x.write.args 61

/-- The transaction that demo-tx signs. -/
def TxOptions.transaction (o : TxOptions) : Transaction :=
  { version := 1, nonce := o.nonce, amount := o.amount, toLabel := o.toLabel }

/-- The hash that is printed is taken before the transaction is signed, and is
that of the signed one too. -/
theorem demoTx_verified {o : TxOptions} (hsigned : signer.signed o.transaction = .ok tx)
    (hverify : tx.verify E = .ok true) : demoTx E signer o =
      { out := text "tx.hash: " ++ hexOf (tx.txHash E.sha256) ++ text "\nsignature.size: " ++
          number tx.signature.length ++ text " bytes\nverify: " ++ text "OK" ++
          text "\nserialized.len: " ++ number (tx.serialize false).length ++ text "\n"
        status := .ok 0 } := by
  obtain ⟨keyPair, signature, hpair, hsignature, rfl⟩ := Signer.signed_ok hsigned
  have hhash : ({ o.transaction with fromPubPem := keyPair.pubkeyPem, signature } :
      Transaction).txHash E.sha256 =
        ({ o.transaction with fromPubPem := keyPair.pubkeyPem } : Transaction).txHash E.sha256 :=
    congrArg E.sha256 (Transaction.serialize_signing_signature
      { o.transaction with fromPubPem := keyPair.pubkeyPem } signature)
  rw [hhash]
  simp only [TxOptions.transaction] at hsignature hverify ⊢
  simp only [demoTx, hpair, Transaction.sign, hsignature, hverify, if_true]

/-- demo-tx signs a transaction with the values that were written, and reports
that it verifies, its hash and the lengths. -/
theorem demoTx_exact (E : Env) (signers : Bytes → Signer)
    (hmatching : (signers (text "secp256k1")).Matching E) (now : UInt64) (xs : List TxSetting) :
    let o := xs.foldl TxSetting.set {}
    ∃ tx, (signers (text "secp256k1")).signed o.transaction = .ok tx ∧ tx.verify E = .ok true ∧
      tx.version = 1 ∧ tx.nonce = o.nonce ∧ tx.amount = o.amount ∧ tx.toLabel = o.toLabel ∧
      main E true signers now (text "demo-tx" :: TxSetting.args xs) =
        { out := text "tx.hash: " ++ hexOf (tx.txHash E.sha256) ++ text "\nsignature.size: " ++
            number tx.signature.length ++ text " bytes\nverify: " ++ text "OK" ++
            text "\nserialized.len: " ++ number (38 + (tx.fromPubPem.length +
              tx.toLabel.length + tx.signature.length)) ++ text "\n"
          status := .ok 0 } := by
  intro o
  obtain ⟨tx, hsigned, hverifying⟩ := hmatching.signed o.transaction
  obtain ⟨-, hverify⟩ := hverifying tx (List.mem_singleton_self tx)
  obtain ⟨hversion, hnonce, hamount, hlabel⟩ : tx.version = 1 ∧ tx.nonce = o.nonce ∧
      tx.amount = o.amount ∧ tx.toLabel = o.toLabel := by
    obtain ⟨keyPair, signature, -, -, rfl⟩ := Signer.signed_ok hsigned
    exact ⟨rfl, rfl, rfl, rfl⟩
  have hcommand : text "demo-tx" ≠ text "demo-keys" := by decide +kernel
  refine ⟨tx, hsigned, hverify, hversion, hnonce, hamount, hlabel, ?_⟩
  simp only [main, if_neg hcommand, if_true, withOptions_tx]
  rw [← Transaction.length_serialize]
  exact demoTx_verified hsigned hverify

/-- The label is given as one argument, and again as two, which count. -/
theorem demoTx_exact_sample :
    let args := [text "--to=alice", text "--amount", text "7", text "--to", text "bob"]
    ∃ tx, sampleSigner.signed { version := 1, nonce := 1, amount := 7, toLabel := text "bob" } =
        .ok tx ∧
      (main sampleEnv true (fun _ => sampleSigner) 0 (text "demo-tx" :: args)).status = .ok 0 := by
  have hargs : TxSetting.args [.toLabel (text "alice") true, .amount 7 false,
      .toLabel (text "bob") false] =
        [text "--to=alice", text "--amount", text "7", text "--to", text "bob"] := by
    decide +kernel
  obtain ⟨tx, hsigned, -, -, -, -, -, hmain⟩ := demoTx_exact sampleEnv
    (fun _ => sampleSigner) sampleSigner_matching 0
    [.toLabel (text "alice") true, .amount 7 false, .toLabel (text "bob") false]
  rw [hargs] at hmain
  exact ⟨tx, hsigned, by rw [hmain]⟩

-- ---------------------------------------------------------------------------
-- demo-merkle
-- ---------------------------------------------------------------------------

end Astro.Cli.Node
