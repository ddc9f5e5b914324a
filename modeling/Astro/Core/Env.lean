import Astro.Library.LittleEndian

/-!
# Bytes, hashes and what the program is given

`std::vector<uint8_t>`, `std::string` and `std::span<const uint8_t>` are all
byte strings here. `Env` collects what the program calls and does not define:
OpenSSL, the allocator, and the contents of uninitialised stack memory.
-/

namespace Astro

abbrev Bytes := List UInt8

/-- `std::array<uint8_t, 32>`. -/
structure Hash256 where
  bytes : Bytes
  size_eq : bytes.length = 32
  deriving DecidableEq

theorem Hash256.ext_bytes {a b : Hash256} (h : a.bytes = b.bytes) : a = b := by
  cases a; cases b; simpa using h

/-- `Hash256{}`. -/
def Hash256.zero : Hash256 := ⟨List.replicate 32 0, by simp⟩

/-- No two different strings of the list have the same hash. -/
def CollisionFree (sha256 : Bytes → Hash256) (strings : List Bytes) : Prop :=
  ∀ a ∈ strings, ∀ b ∈ strings, sha256 a = sha256 b → a = b

instance : Decidable (CollisionFree sha256 strings) := by
  unfold CollisionFree
  infer_instance

theorem CollisionFree.mono (h : CollisionFree sha256 strings) (hs : strings' ⊆ strings) :
    CollisionFree sha256 strings' :=
  fun a ha b hb => h a (hs ha) b (hs hb)

/-- What a call may throw. `outOfBounds` is not an exception of the source:
it stands for an access past the end of a buffer, whose behaviour is
undefined. -/
inductive Exn
  | serializeError (what : String)
  | runtimeError (what : String)
  | lengthError
  | badAlloc
  | outOfBounds
  deriving DecidableEq, Repr

structure Env where
  /-- `sha256` of hash.cpp. -/
  sha256 : Bytes → Hash256
  /-- `verify_message(pubkey_pem, message, signature)` of keys.cpp; it throws
  when the key does not parse. -/
  verifyMessage : Bytes → Bytes → Bytes → Except Exn Bool
  /-- Whether memory for a `vector<uint8_t>` of this size is granted. -/
  allocBytes : Nat → Bool
  /-- Whether memory for a `vector<Transaction>` of this capacity is granted. -/
  allocTransactions : Nat → Bool
  /-- What a local variable holds before it is written. -/
  uninit : Nat → UInt8

/-- `std::vector<uint8_t>::max_size()`. -/
def maxSize : Nat := 2 ^ 63 - 1

/-- Memory never runs out for a size a vector may have, or for as many
transactions as a `uint32_t` counts. -/
structure Env.Roomy (E : Env) : Prop where
  bytes : ∀ n ≤ maxSize, E.allocBytes n = true
  transactions : ∀ n < 2 ^ 32, E.allocTransactions n = true

-- ---------------------------------------------------------------------------
-- A sample environment
-- ---------------------------------------------------------------------------

/-- The string as a number modulo a prime: a hash that runs inside a proof. -/
def sampleSha256 (bytes : Bytes) : Hash256 :=
  ⟨LittleEndian.toLE 32 (LittleEndian.ofLE (bytes ++ [1]) % (2 ^ 255 - 19)), by simp⟩

/-- A signature is good when it repeats the key; memory never runs out. -/
def sampleEnv : Env where
  sha256 := sampleSha256
  verifyMessage := fun pubkeyPem _ signature => .ok (signature = pubkeyPem)
  allocBytes := fun _ => true
  allocTransactions := fun _ => true
  uninit := fun _ => 0

theorem sampleEnv_roomy : sampleEnv.Roomy := ⟨fun _ _ => rfl, fun _ _ => rfl⟩

end Astro
