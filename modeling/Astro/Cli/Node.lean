import Astro.Cli.Numbers
import Astro.Core.MerklePaths
import Astro.Core.MerkleShape
import Astro.Library.Options

/-!
# main.cpp

The node's demonstrations. Three of the commands read options, each in a loop
of its own over its own names; the loops are one definition here.
-/

namespace Astro.Cli.Node

open Options

def usage : Bytes := text "Astro Node CLI\n\n" ++
  text "Usage:\n" ++
  text "  astro-node demo-keys [--curve CURVE] [--message MESSAGE]\n" ++
  text "  astro-node demo-tx   [--amount N] [--nonce N] [--to LABEL]\n" ++
  text "  astro-node demo-genesis\n" ++
  text "  astro-node demo-merkle [--leaves CSV] [--index N]\n" ++
  text "  astro-node demo-chain\n\n" ++
  text "Options:\n" ++
  text "  --curve    EC curve name (default: secp256k1)\n" ++
  text "  --message  Message to sign (default: 'astro demo')\n" ++
  text "  --amount   Transaction amount (default: 123)\n" ++
  text "  --nonce    Transaction nonce (default: 1)\n" ++
  text "  --to       Recipient label (default: 'demo-recipient')\n" ++
  text "  --leaves   CSV of leaf strings (default: a,b,c,d,e)\n" ++
  text "  --index    Leaf index for proof (default: 0)\n"

def printUsage : Ended := { out := usage, status := .ok 0 }

def cryptoInitFailed : Ended := { err := text "crypto_init failed\n", status := .ok 1 }

-- ---------------------------------------------------------------------------
-- Options
-- ---------------------------------------------------------------------------

def isHelp (arg : Bytes) : Bool := arg = text "-h" || arg = text "--help"

/-- The loop over the arguments of a command, and then the command. -/
def withOptions (options : List (Opt UInt8 σ Uncaught)) (defaults : σ) (args : List Bytes)
    (command : σ → Ended) : Ended :=
  match parse 61 options isHelp defaults args with
  | .run s => command s
  | .help => printUsage
  | .unknown arg =>
    { out := usage, err := text "Unknown option: " ++ arg ++ text "\n", status := .ok 1 }
  | .throws e => { status := .error e }

structure KeysOptions where
  curve : Bytes := text "secp256k1"
  message : Bytes := text "astro demo"

def keysOptions : List (Opt UInt8 KeysOptions Uncaught) :=
  [⟨text "--curve", fun value s => .ok { s with curve := value }⟩,
   ⟨text "--message", fun value s => .ok { s with message := value }⟩]

structure TxOptions where
  amount : UInt64 := 123
  nonce : UInt64 := 1
  toLabel : Bytes := text "demo-recipient"

def amountOption : Opt UInt8 TxOptions Uncaught :=
  ⟨text "--amount", fun value s => (stoull value).map fun n => { s with amount := n }⟩

def nonceOption : Opt UInt8 TxOptions Uncaught :=
  ⟨text "--nonce", fun value s => (stoull value).map fun n => { s with nonce := n }⟩

def toOption : Opt UInt8 TxOptions Uncaught :=
  ⟨text "--to", fun value s => .ok { s with toLabel := value }⟩

def txOptions : List (Opt UInt8 TxOptions Uncaught) := [amountOption, nonceOption, toOption]

structure MerkleOptions where
  csv : Bytes := text "a,b,c,d,e"
  index : UInt64 := 0

def leavesOption : Opt UInt8 MerkleOptions Uncaught :=
  ⟨text "--leaves", fun value s => .ok { s with csv := value }⟩

def indexOption : Opt UInt8 MerkleOptions Uncaught :=
  ⟨text "--index", fun value s => (stoull value).map fun n => { s with index := n }⟩

def merkleOptions : List (Opt UInt8 MerkleOptions Uncaught) := [leavesOption, indexOption]

-- ---------------------------------------------------------------------------
-- Commands
-- ---------------------------------------------------------------------------

/-- `ex.what()`, for the exceptions that the commands catch. -/
def what : Exn → Bytes
  | .serializeError s => text s
  | .runtimeError s => text s
  | .lengthError => text "vector::_M_default_append"
  | .badAlloc => text "std::bad_alloc"
  | .outOfBounds => []

def caught (out : Bytes) (e : Exn) : Ended :=
  { out, err := text "Error: " ++ what e ++ text "\n", status := .ok 1 }

def demoKeys (E : Env) (signers : Bytes → Signer) (options : KeysOptions) : Ended :=
  let signer := signers options.curve
  match signer.keyPair with
  | .error e => caught [] e
  | .ok keyPair =>
    let out := text "Curve: " ++ options.curve ++ text "\nMessage: " ++ options.message ++
      text "\n\nPrivate Key (PEM):\n" ++ keyPair.privkeyPem ++ text "\nPublic Key (PEM):\n" ++
      keyPair.pubkeyPem ++ text "\n"
    match signer.signMessage keyPair.privkeyPem options.message with
    | .error e => caught out e
    | .ok signature =>
      let out := out ++ text "Signature (DER hex):\n" ++ toHex signature ++ text "\n"
      match E.verifyMessage keyPair.pubkeyPem options.message signature with
      | .error e => caught out e
      | .ok verified =>
        { out := out ++ text "Verification: " ++ (if verified then text "OK" else text "FAIL") ++
            text "\n"
          status := .ok 0 }

def demoTx (E : Env) (signer : Signer) (options : TxOptions) : Ended :=
  match signer.keyPair with
  | .error e => caught [] e
  | .ok keyPair =>
    let tx : Transaction :=
      { version := 1, nonce := options.nonce, amount := options.amount,
        fromPubPem := keyPair.pubkeyPem, toLabel := options.toLabel }
    let txHash := tx.txHash E.sha256
    match tx.sign signer.signMessage keyPair.privkeyPem with
    | .error e => caught [] e
    | .ok tx =>
      let out := text "tx.hash: " ++ hexOf txHash ++ text "\nsignature.size: " ++
        number tx.signature.length ++ text " bytes\nverify: "
      match tx.verify E with
      | .error e => caught out e
      | .ok verified =>
        { out := out ++ (if verified then text "OK" else text "FAIL") ++
            text "\nserialized.len: " ++ number (tx.serialize false).length ++ text "\n"
          status := .ok 0 }

def demoGenesis (E : Env) (now : UInt64) : Ended :=
  let genesisBlock := makeGenesisBlock E.sha256 (text "Astro: Born from bytes.") now
  { out := text "genesis.time: " ++ number genesisBlock.header.timestamp.toNat ++
      text "\ngenesis.hash: " ++ hexOf (genesisBlock.header.hash E.sha256) ++ text "\ntxs: " ++
      number genesisBlock.transactions.length ++ text "\n"
    status := .ok 0 }

/-- The loop over the characters of the CSV; `cur` is the part so far. -/
def splitLoop (cur : Bytes) : Bytes → List Bytes
  | [] => [cur]
  | c :: csv => if c = 44 then cur :: splitLoop [] csv else splitLoop (cur ++ [c]) csv

/-- As many A's as the part has characters, or B's when it begins with an A. -/
def tampered (first : UInt8) (part : Bytes) : Bytes :=
  List.replicate part.length (if first = 65 then 66 else 65)

def demoMerkle (E : Env) (options : MerkleOptions) : Ended :=
  let parts := splitLoop [] options.csv
  if parts.isEmpty then { err := text "No leaves provided\n", status := .ok 1 }
  else
    let leaves := parts.map E.sha256
    let index := if leaves.length ≤ options.index.toNat then leaves.length - 1
      else options.index.toNat
    let R := root E.sha256 leaves
    let out := text "leaves: " ++ number leaves.length ++ text "\nroot:   " ++ hexOf R ++ text "\n"
    -- Without a proof or a part, the program has read past the end of a vector.
    match buildProof E.sha256 leaves index, leaves[index]?, parts[index]? with
    | some proof, some leaf, some part =>
      let ok := verifyProof E.sha256 leaf.bytes proof R
      let out := out ++ text "proof.steps: " ++ number proof.steps.length ++ text "\nverify[" ++
        number index ++ text "]: " ++ (if ok then text "OK" else text "FAIL") ++ text "\n"
      match part with
      | [] => { out, status := .ok 0 }
      | first :: _ =>
        let bad := verifyProof E.sha256 (E.sha256 (tampered first part)).bytes proof R
        { out := out ++ text "verify tampered: " ++
            (if bad then text "UNEXPECTED_OK" else text "EXPECTED_FAIL") ++ text "\n"
          status := .ok 0 }
    | _, _, _ => { out, status := .error (.exn .outOfBounds) }

/-- The transaction of the second block. -/
def transfer : Transaction :=
  { version := 1, nonce := 1, amount := 42, toLabel := text "darth vader" }

def verdict (result : ValidationResult) : Bytes :=
  (if result.isValid then text "OK" else text "FAIL") ++ text "\n"

def demoChain (E : Env) (signer : Signer) (t0 : UInt64) : Ended :=
  let genesis := makeGenesisBlock E.sha256 (text "Astro begins") t0
  match ({} : Chain).appendBlock E genesis with
  | (.error e, _) => { status := .error (.exn e) }
  | (.ok res0, chain) =>
    let out := text "append genesis: " ++ verdict res0
    match signer.signed transfer with
    | .error e => { out, status := .error (.exn e) }
    | .ok tx =>
      let block1 := chain.buildBlockFromTransactions E.sha256 [tx] (t0 + 1)
      match chain.appendBlock E block1 with
      | (.error e, _) => { out, status := .error (.exn e) }
      | (.ok res1, chain) =>
        let out := out ++ text "append block #2: " ++ verdict res1 ++
          match chain.tipHash E.sha256 with
          | none => []
          | some th => text "tip: " ++ hexOf th ++ text "\nheight: " ++ number chain.height ++ text "\n"
        { out, status := .ok (if res1.isValid then 0 else 2) }

/-- `main` behind the name of the program. The commands that ask OpenSSL for a
key are given what it answers, for every name of a curve. -/
def main (E : Env) (cryptoInit : Bool) (signers : Bytes → Signer) (now : UInt64) :
    List Bytes → Ended
  | [] => printUsage
  | command :: args =>
    let signer := signers (text "secp256k1")
    if command = text "demo-keys" then
      withOptions keysOptions {} args fun options =>
        if !cryptoInit then cryptoInitFailed else demoKeys E signers options
    else if command = text "demo-tx" then
      withOptions txOptions {} args fun options =>
        if !cryptoInit then cryptoInitFailed else demoTx E signer options
    else if command = text "demo-genesis" then demoGenesis E now
    else if command = text "demo-merkle" then withOptions merkleOptions {} args (demoMerkle E)
    else if command = text "demo-chain" then
      if !cryptoInit then cryptoInitFailed else demoChain E signer now
    else printUsage

end Astro.Cli.Node
