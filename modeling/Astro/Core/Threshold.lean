import Astro.Core.Pow
import Astro.Library.BigEndian

/-!
# The difficulty test is a threshold

A hash meets a difficulty when, read as a big-endian number, it lies below a
power of two. The leading zero bits that are counted byte by byte are those
missing from the bit length of that number.
-/

namespace Astro

open BigEndian (ofBE)

theorem leadingZeroBitsOneByte_bounds (n : Fin 256) (h : n ≠ 0) :
    let z := (leadingZeroBitsOneByte (UInt8.ofNat n)).toNat
    z < 8 ∧ 2 ^ (7 - z) ≤ n.val ∧ n.val < 2 ^ (8 - z) := by
  revert n
  decide +kernel

theorem leadingZeroBitsOneByte_add_size (h : b ≠ 0) :
    (leadingZeroBitsOneByte b).toNat + b.toNat.size = 8 := by
  have hne : (⟨b.toNat, b.toNat_lt⟩ : Fin 256) ≠ 0 := fun hb =>
    h (UInt8.toNat_inj.mp (congrArg Fin.val hb))
  obtain ⟨hlt, hlow, hhigh⟩ := leadingZeroBitsOneByte_bounds ⟨b.toNat, b.toNat_lt⟩ hne
  simp only [UInt8.ofNat_toNat] at hlt hlow hhigh
  have hle := Nat.size_le.mpr hhigh
  have hge := Nat.lt_size.mpr hlow
  omega

/-- The bits counted so far and the bytes to come are 32 bytes at most, so
that nothing wraps around. -/
theorem leadingZeroLoop_add_size (h : z.toNat + 8 * bytes.length < 2 ^ 32) :
    (leadingZeroLoop z bytes).toNat + (ofBE bytes).size = z.toNat + 8 * bytes.length := by
  induction bytes generalizing z with
  | nil => simp [leadingZeroLoop]
  | cons b bytes ih =>
    rw [List.length_cons] at h ⊢
    by_cases hb : b = 0
    · subst hb
      have hadd : (z + 8).toNat = z.toNat + 8 := by
        rw [UInt32.toNat_add]
        exact Nat.mod_eq_of_lt (show z.toNat + 8 < 2 ^ 32 by omega)
      have hrest := ih (z := z + 8) (by omega)
      rw [leadingZeroLoop, if_pos rfl, BigEndian.size_ofBE_zero_cons, hrest, hadd]
      omega
    · have hbyte := leadingZeroBitsOneByte_add_size hb
      have hadd : (z + leadingZeroBitsOneByte b).toNat =
          z.toNat + (leadingZeroBitsOneByte b).toNat := by
        rw [UInt32.toNat_add]
        exact Nat.mod_eq_of_lt (show z.toNat + _ < 2 ^ 32 by omega)
      rw [leadingZeroLoop, if_neg hb, BigEndian.size_ofBE_cons hb, hadd]
      omega

theorem leadingZeroBits_add_size (hash : Hash256) :
    (leadingZeroBits hash).toNat + (ofBE hash.bytes).size = 256 := by
  have hfit : (0 : UInt32).toNat + 8 * hash.bytes.length < 2 ^ 32 := by simp [hash.size_eq]
  simpa [leadingZeroBits, hash.size_eq] using leadingZeroLoop_add_size hfit

/-- Leading zero bits, as the code counts them, and the threshold that a
difficulty sets. -/
theorem meetsDifficulty_iff_lt (hash : Hash256) (difficultyBits : UInt32) :
    (meetsDifficulty difficultyBits hash = true ↔
      difficultyBits.toNat ≤ 256 ∧ ofBE hash.bytes < 2 ^ (256 - difficultyBits.toNat)) ∧
    (leadingZeroBits hash).toNat = 256 - (ofBE hash.bytes).size := by
  have hsize := leadingZeroBits_add_size hash
  refine ⟨?_, by omega⟩
  rw [← Nat.size_le]
  simp only [meetsDifficulty, decide_eq_true_eq, UInt32.le_iff_toNat_le]
  constructor
  · intro h
    exact ⟨by omega, by omega⟩
  · rintro ⟨hle, hbits⟩
    omega

example : leadingZeroBits Hash256.zero = 256 := by decide

end Astro
