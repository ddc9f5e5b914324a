import Astro.Core.Env

/-!
# pow.cpp
-/

namespace Astro

/-- Leading zero bits of one byte, by halving; shifts drop the high bits as
`uint8_t` does. -/
def leadingZeroBitsOneByte (x : UInt8) : UInt32 :=
  if x = 0 then 8 else
    let (n, x) := if x &&& 0xF0 = 0 then ((4 : UInt32), x <<< 4) else (0, x)
    let (n, x) := if x &&& 0xC0 = 0 then (n + 2, x <<< 2) else (n, x)
    if x &&& 0x80 = 0 then n + 1 else n

/-- The loop of `leading_zero_bits` over the bytes still to come. -/
def leadingZeroLoop (z : UInt32) : Bytes → UInt32
  | [] => z
  | b :: bytes => if b = 0 then leadingZeroLoop (z + 8) bytes else z + leadingZeroBitsOneByte b

def leadingZeroBits (hash : Hash256) : UInt32 := leadingZeroLoop 0 hash.bytes

def meetsDifficulty (difficultyBits : UInt32) (hash : Hash256) : Bool :=
  difficultyBits ≤ leadingZeroBits hash

theorem meetsDifficulty_mono {hash : Hash256} (h : meetsDifficulty d hash = true) (hd : d' ≤ d) :
    meetsDifficulty d' hash = true := by
  simp only [meetsDifficulty, decide_eq_true_eq] at h ⊢
  exact UInt32.le_trans hd h

theorem meetsDifficulty_zero (hash : Hash256) : meetsDifficulty 0 hash = true := by
  simp [meetsDifficulty]

end Astro
