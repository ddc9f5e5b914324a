import Mathlib.Data.Nat.Digits.Lemmas

/-!
# Little-endian numbers of a fixed width

`toLE n v` is the `n` low bytes of `v`, least significant first, and `ofLE`
reads such bytes back. Both directions are exact: `ofLE_toLE` up to the
width, `toLE_ofLE` for every byte string. `shiftBytes` is the loop over
shifts and masks that encoders write, and `orBytes` the loop over shifts
and disjunctions that decoders write.
-/

namespace LittleEndian

def toLE : Nat → Nat → List UInt8
  | 0, _ => []
  | n + 1, v => UInt8.ofNat v :: toLE n (v / 256)

def ofLE (bytes : List UInt8) : Nat := Nat.ofDigits 256 (bytes.map UInt8.toNat)

@[simp] theorem length_toLE : (toLE n v).length = n := by
  induction n generalizing v with
  | zero => rfl
  | succ n ih => simp [toLE, ih]

@[simp] theorem ofLE_nil : ofLE [] = 0 := rfl

theorem ofLE_cons : ofLE (b :: bytes) = b.toNat + 256 * ofLE bytes := by
  simp [ofLE, Nat.ofDigits_cons]

theorem ofLE_lt (bytes : List UInt8) : ofLE bytes < 256 ^ bytes.length := by
  have h : ofLE bytes < 256 ^ (bytes.map UInt8.toNat).length := by
    refine Nat.ofDigits_lt_base_pow_length (by decide) ?_
    intro x hx
    obtain ⟨b, -, rfl⟩ := List.mem_map.mp hx
    exact b.toNat_lt
  simpa using h

theorem ofLE_toLE : ofLE (toLE n v) = v % 256 ^ n := by
  induction n generalizing v with
  | zero => simp [toLE, Nat.mod_one]
  | succ n ih =>
    have hb : (UInt8.ofNat v).toNat = v % 256 := by simp
    rw [toLE, ofLE_cons, ih, hb, Nat.pow_succ, Nat.mul_comm (256 ^ n), Nat.mod_mul]

theorem toLE_ofLE (bytes : List UInt8) : toLE bytes.length (ofLE bytes) = bytes := by
  induction bytes with
  | nil => rfl
  | cons b bytes ih =>
    have hb := b.toNat_lt
    have hlow : UInt8.ofNat (b.toNat + 256 * ofLE bytes) = b := by
      apply UInt8.toNat_inj.mp
      simp only [UInt8.toNat_ofNat']
      omega
    have hhigh : (b.toNat + 256 * ofLE bytes) / 256 = ofLE bytes := by omega
    rw [List.length_cons, toLE, ofLE_cons, hlow, hhigh, ih]

theorem ofLE_toLE_of_lt (h : v < 256 ^ n) : ofLE (toLE n v) = v := by
  rw [ofLE_toLE, Nat.mod_eq_of_lt h]

theorem toLE_inj (hv : v < 256 ^ n) (hw : w < 256 ^ n) (h : toLE n v = toLE n w) : v = w := by
  rw [← ofLE_toLE_of_lt hv, ← ofLE_toLE_of_lt hw, h]

theorem exists_toLE {bytes : List UInt8} (h : n ≤ bytes.length) :
    ∃ v rest, v < 256 ^ n ∧ bytes = toLE n v ++ rest := by
  have hlen : (bytes.take n).length = n := by simpa using h
  have hlt := ofLE_lt (bytes.take n)
  have hback := toLE_ofLE (bytes.take n)
  rw [hlen] at hlt hback
  exact ⟨_, bytes.drop n, hlt, by rw [hback, List.take_append_drop]⟩

-- ---------------------------------------------------------------------------
-- The loops of encoders and decoders
-- ---------------------------------------------------------------------------

/-- The loop `for i < n: push((v >> 8 * i) & 0xFF)`. -/
def shiftBytes (n v : Nat) : List UInt8 :=
  (List.range n).map fun i => UInt8.ofNat ((v >>> (8 * i)) &&& 0xFF)

theorem shiftBytes_eq_toLE : shiftBytes n v = toLE n v := by
  induction n generalizing v with
  | zero => rfl
  | succ n ih =>
    have hmask (m : Nat) : UInt8.ofNat (m &&& 0xFF) = UInt8.ofNat m := by
      apply UInt8.toNat_inj.mp
      rw [show 0xFF = 2 ^ 8 - 1 from rfl, Nat.and_two_pow_sub_one_eq_mod]
      simp
    have hshift (i : Nat) : v >>> (8 * (i + 1)) = (v / 256) >>> (8 * i) := by
      rw [Nat.shiftRight_eq_div_pow, Nat.shiftRight_eq_div_pow, Nat.div_div_eq_div_mul,
        Nat.mul_add, Nat.pow_add, Nat.mul_comm]
    rw [toLE, ← ih, shiftBytes, List.range_succ_eq_map, List.map_cons, List.map_map]
    simp only [shiftBytes, hmask, Function.comp_def, Nat.succ_eq_add_one, hshift]
    simp

/-- The loop `value |= byte << 8 * i` over consecutive bytes, from the
`i`-th on. -/
def orBytes (i value : Nat) : List UInt8 → Nat
  | [] => value
  | b :: bytes => orBytes (i + 1) (value ||| (b.toNat <<< (8 * i))) bytes

theorem orBytes_eq (h : value < 256 ^ i) :
    orBytes i value bytes = value + 256 ^ i * ofLE bytes := by
  induction bytes generalizing i value with
  | nil => simp [orBytes]
  | cons b bytes ih =>
    have hpow : 256 ^ i = 2 ^ (8 * i) := by rw [Nat.pow_mul]
    have hor : value ||| (b.toNat <<< (8 * i)) = value + 256 ^ i * b.toNat := by
      rw [Nat.shiftLeft_eq, Nat.or_comm, hpow, Nat.mul_comm b.toNat,
        ← Nat.two_pow_add_eq_or_of_lt (hpow ▸ h), Nat.add_comm]
    have hb := b.toNat_lt
    have hlt : value + 256 ^ i * b.toNat < 256 ^ (i + 1) := by
      rw [Nat.pow_succ]
      nlinarith
    rw [orBytes, hor, ih hlt, ofLE_cons, Nat.pow_succ]
    ring

theorem orBytes_zero : orBytes 0 0 bytes = ofLE bytes := by
  have h : orBytes 0 0 bytes = 0 + 256 ^ 0 * ofLE bytes := orBytes_eq (by simp)
  simpa using h

end LittleEndian
