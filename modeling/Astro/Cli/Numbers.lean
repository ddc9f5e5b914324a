import Astro.Cli.Process

/-!
# Numbers on the command line

`std::stoull` and `std::atoi` skip white space, take a sign and convert the
digits that follow; what stands behind these is ignored. The first reports
what it cannot convert, and the second saturates.
-/

namespace Astro.Cli

open Decimal (isDigit)

/-- `isspace`. -/
def isSpace (c : UInt8) : Bool := c == 32 || (9 ≤ c && c ≤ 13)

/-- Whether there is a minus sign, and the digits behind it. -/
def scanNumber (s : Bytes) : Bool × Bytes :=
  match s.dropWhile isSpace with
  | 45 :: rest => (true, rest.takeWhile isDigit)
  | 43 :: rest => (false, rest.takeWhile isDigit)
  | rest => (false, rest.takeWhile isDigit)

/-- A minus sign negates modulo 2^64. -/
def stoull (s : Bytes) : Except Uncaught UInt64 :=
  let (negative, ds) := scanNumber s
  if ds.isEmpty then .error .invalidArgument
  else
    let value := Decimal.value ds
    if 2 ^ 64 ≤ value then .error .outOfRange
    else .ok (if negative then -UInt64.ofNat value else UInt64.ofNat value)

/-- `strtol` gives the nearest `long`, of which `atoi` keeps the low 32 bits. -/
def atoi (s : Bytes) : Int :=
  let (negative, ds) := scanNumber s
  let value := Decimal.value ds
  (if negative then max (-2 ^ 63) (-(value : Int)) else min (2 ^ 63 - 1) (value : Int)).bmod (2 ^ 32)

example : [text " -1", text "+12x", text "x", text "99999999999999999999"].map stoull =
    [.ok (2 ^ 64 - 1), .ok 12, .error .invalidArgument, .error .outOfRange] := by decide +kernel

/-- Digits are neither white space nor signs. -/
theorem scanNumber_digits (n : Nat) : scanNumber (Decimal.digits n) = (false, Decimal.digits n) := by
  obtain ⟨c, rest, hdigits⟩ := List.exists_cons_of_ne_nil (Decimal.digits_ne_nil n)
  have hc : isDigit c = true := Decimal.isDigit_digits (n := n) (by simp [hdigits])
  have hnot : isSpace c = false ∧ c ≠ 45 ∧ c ≠ 43 := by
    have hall : ∀ i : Fin 256, isDigit (UInt8.ofNat i) = true →
        isSpace (UInt8.ofNat i) = false ∧ UInt8.ofNat i ≠ 45 ∧ UInt8.ofNat i ≠ 43 := by
      decide +kernel
    simpa using hall ⟨c.toNat, c.toNat_lt⟩ (by simpa using hc)
  have htake := Decimal.takeWhile_digits n
  rw [hdigits] at htake ⊢
  unfold scanNumber
  rw [List.dropWhile_cons, hnot.1]
  simp only [Bool.false_eq_true, if_false]
  split
  next h => exact absurd (List.cons.inj h).1 hnot.2.1
  next h => exact absurd (List.cons.inj h).1 hnot.2.2
  · rw [htake]

/-- A number that was written is read back, unless it is too large. -/
theorem stoull_digits (n : Nat) : stoull (Decimal.digits n) =
    if 2 ^ 64 ≤ n then .error .outOfRange else .ok (UInt64.ofNat n) := by
  have hne := Decimal.digits_ne_nil n
  simp [stoull, scanNumber_digits, Decimal.value_digits, hne]

end Astro.Cli
