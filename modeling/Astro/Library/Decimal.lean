import Mathlib.Data.List.TakeWhile
import Mathlib.Data.Nat.Digits.Lemmas

/-!
# Decimal numerals

Numbers written in ASCII digits, the first digit first.
-/

namespace Decimal

def isDigit (c : UInt8) : Bool := 48 ≤ c && c ≤ 57

def value (ds : List UInt8) : Nat := ds.foldl (fun n c => 10 * n + (c.toNat - 48)) 0

def digits (n : Nat) : List UInt8 :=
  if n = 0 then [48] else (Nat.digits 10 n).reverse.map fun d => 48 + UInt8.ofNat d

example : digits 1700000003 = [49, 55, 48, 48, 48, 48, 48, 48, 48, 51] := by decide +kernel

theorem toNat_digit (h : d < 10) : (48 + UInt8.ofNat d).toNat = 48 + d := by
  have hd : (UInt8.ofNat d).toNat = d := UInt8.toNat_ofNat_of_lt' (Nat.lt_trans h (by decide))
  rw [UInt8.toNat_add, hd]
  exact Nat.mod_eq_of_lt (by change 48 + d < 256; omega)

theorem value_digits (n : Nat) : value (digits n) = n := by
  by_cases hn : n = 0
  · simp [digits, hn, value]
  · have hfold : ∀ ds : List Nat, (∀ d ∈ ds, d < 10) →
        value (ds.reverse.map fun d => 48 + UInt8.ofNat d) = Nat.ofDigits 10 ds := by
      intro ds hds
      induction ds with
      | nil => rfl
      | cons d ds ih =>
        obtain ⟨hd, hds⟩ := List.forall_mem_cons.mp hds
        rw [Nat.ofDigits_cons, ← ih hds]
        simp only [value, List.reverse_cons, List.map_append, List.map_cons, List.map_nil,
          List.foldl_append, List.foldl_cons, List.foldl_nil, toNat_digit hd]
        omega
    rw [digits, if_neg hn, hfold _ fun d hd => Nat.digits_lt_base (by decide) hd,
      Nat.ofDigits_digits]

theorem digits_ne_nil (n : Nat) : digits n ≠ [] := by
  unfold digits
  split
  · simp
  next hn => simp [Nat.digits_ne_nil_iff_ne_zero, hn]

theorem isDigit_digits (h : c ∈ digits n) : isDigit c = true := by
  unfold digits at h
  split at h
  · obtain rfl := List.mem_singleton.mp h
    rfl
  · obtain ⟨d, hd, rfl⟩ := List.mem_map.mp h
    have hlt : d < 10 := Nat.digits_lt_base (by decide) (List.mem_reverse.mp hd)
    have hnat := toNat_digit hlt
    simp only [isDigit, Bool.and_eq_true, decide_eq_true_eq, UInt8.le_iff_toNat_le, hnat]
    constructor
    · exact Nat.le_add_right 48 d
    · change 48 + d ≤ 57
      omega

theorem takeWhile_digits (n : Nat) : (digits n).takeWhile isDigit = digits n :=
  List.takeWhile_eq_self_iff.mpr fun _ h => isDigit_digits h

end Decimal
