import Astro.Core.Env

/-!
# toHex of hash.cpp

Every byte is written by `std::hex` with a width of 2, filled with zeros.
-/

namespace Astro

/-- The digit of a number below 16. -/
def hexDigit (n : UInt8) : UInt8 := if n < 10 then 48 + n else 87 + n

def hexByte (byte : UInt8) : Bytes := [hexDigit (byte / 16), hexDigit (byte % 16)]

def toHex (data : Bytes) : Bytes := data.flatMap hexByte

example : toHex [0x0a, 0xff, 0x30] = "0aff30".toUTF8.data.toList := by decide +kernel

theorem hexDigit_inj (ha : a < 16) (hb : b < 16) (h : hexDigit a = hexDigit b) : a = b := by
  have hall : ∀ i j : Fin 16, hexDigit (UInt8.ofNat i) = hexDigit (UInt8.ofNat j) → i = j := by
    decide +kernel
  have hfin := hall ⟨a.toNat, ha⟩ ⟨b.toNat, hb⟩ (by simpa using h)
  exact UInt8.toNat_inj.mp (Fin.mk.inj hfin)

theorem hexByte_inj (h : hexByte a = hexByte b) : a = b := by
  have hlt (n : UInt8) : n / 16 < 16 ∧ n % 16 < 16 := by
    have hn := n.toNat_lt
    refine ⟨UInt8.lt_iff_toNat_lt.mpr ?_, UInt8.lt_iff_toNat_lt.mpr ?_⟩
    · rw [UInt8.toNat_div]
      exact Nat.div_lt_of_lt_mul hn
    · rw [UInt8.toNat_mod]
      exact Nat.mod_lt _ (by decide)
  obtain ⟨hhigh, hlow⟩ := List.cons_eq_cons.mp h
  have hdiv := congrArg UInt8.toNat (hexDigit_inj (hlt a).1 (hlt b).1 hhigh)
  have hmod := congrArg UInt8.toNat (hexDigit_inj (hlt a).2 (hlt b).2 (List.head_eq_of_cons_eq hlow))
  rw [UInt8.toNat_div, UInt8.toNat_div] at hdiv
  rw [UInt8.toNat_mod, UInt8.toNat_mod] at hmod
  refine UInt8.toNat_inj.mp ?_
  rw [← Nat.div_add_mod a.toNat 16, ← Nat.div_add_mod b.toNat 16]
  exact congrArg₂ (16 * · + ·) hdiv hmod

@[simp] theorem toHex_nil : toHex [] = [] := rfl

theorem toHex_cons : toHex (byte :: data) = hexByte byte ++ toHex data := List.flatMap_cons

@[simp] theorem length_toHex (data : Bytes) : (toHex data).length = 2 * data.length := by
  induction data with
  | nil => rfl
  | cons byte data ih =>
    rw [toHex_cons, List.length_append, ih, List.length_cons, hexByte]
    simp only [List.length_cons, List.length_nil]
    omega

theorem toHex_inj (h : toHex data = toHex data') : data = data' := by
  induction data generalizing data' with
  | nil =>
    have hlen := congrArg List.length h
    rw [length_toHex, length_toHex] at hlen
    exact (List.length_eq_zero_iff.mp (by simpa using hlen.symm)).symm
  | cons byte data ih =>
    cases data' with
    | nil =>
      have hlen := congrArg List.length h
      simp at hlen
    | cons byte' data' =>
      rw [toHex_cons, toHex_cons] at h
      obtain ⟨hbyte, hdata⟩ := List.append_inj h rfl
      rw [hexByte_inj hbyte, ih hdata]

/-- The first digits of a string are those of its first bytes. -/
theorem take_toHex (k : Nat) (data : Bytes) : (toHex data).take (2 * k) = toHex (data.take k) := by
  induction k generalizing data with
  | zero => simp
  | succ k ih =>
    cases data with
    | nil => simp
    | cons byte data =>
      rw [toHex_cons, List.take_succ_cons, toHex_cons, ← ih, hexByte]
      rfl

end Astro
