import Astro.Library.LittleEndian
import Mathlib.Data.Nat.Size

/-!
# Big-endian numbers and their bit length

`ofBE` reads a byte string most significant byte first. Its bit length is
found in its first byte that is not zero.
-/

namespace BigEndian

open LittleEndian (ofLE)

def ofBE (bytes : List UInt8) : Nat := ofLE bytes.reverse

@[simp] theorem ofBE_nil : ofBE [] = 0 := rfl

theorem ofBE_cons : ofBE (b :: bytes) = b.toNat * 256 ^ bytes.length + ofBE bytes := by
  simp [ofBE, LittleEndian.ofLE, Nat.ofDigits_append, Nat.add_comm, Nat.mul_comm]

theorem ofBE_lt (bytes : List UInt8) : ofBE bytes < 256 ^ bytes.length := by
  simpa [ofBE] using LittleEndian.ofLE_lt bytes.reverse

/-- The low bits below a number that is not zero do not change its length. -/
theorem size_mul_two_pow_add (hv : 0 < v) (hlow : low < 2 ^ k) :
    (v * 2 ^ k + low).size = v.size + k := by
  apply Nat.le_antisymm
  · have htop : v + 1 ≤ 2 ^ v.size := v.lt_size_self
    apply Nat.size_le.mpr
    calc v * 2 ^ k + low < (v + 1) * 2 ^ k := by rw [Nat.succ_mul]; exact Nat.add_lt_add_left hlow _
      _ ≤ 2 ^ v.size * 2 ^ k := Nat.mul_le_mul_right _ htop
      _ = 2 ^ (v.size + k) := (Nat.pow_add ..).symm
  · obtain ⟨s, hs⟩ := Nat.exists_eq_succ_of_ne_zero (Nat.size_pos.mpr hv).ne'
    have hbot : 2 ^ s ≤ v := Nat.lt_size.mp (by rw [hs]; exact Nat.lt_succ_self s)
    have hle : 2 ^ (s + k) ≤ v * 2 ^ k + low :=
      calc 2 ^ (s + k) = 2 ^ s * 2 ^ k := Nat.pow_add ..
        _ ≤ v * 2 ^ k := Nat.mul_le_mul_right _ hbot
        _ ≤ v * 2 ^ k + low := Nat.le_add_right ..
    rw [hs, Nat.succ_add]
    exact Nat.lt_size.mpr hle

theorem size_ofBE_zero_cons : (ofBE (0 :: bytes)).size = (ofBE bytes).size := by
  simp [ofBE_cons]

theorem size_ofBE_cons (h : b ≠ 0) :
    (ofBE (b :: bytes)).size = b.toNat.size + 8 * bytes.length := by
  have hpow : 256 ^ bytes.length = 2 ^ (8 * bytes.length) := by rw [Nat.pow_mul]
  have hpos : 0 < b.toNat := Nat.pos_of_ne_zero fun hb => h (UInt8.toNat_inj.mp hb)
  rw [ofBE_cons, hpow]
  exact size_mul_two_pow_add hpos (hpow ▸ ofBE_lt bytes)

end BigEndian
