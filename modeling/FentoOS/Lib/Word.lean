import Mathlib

/-!
# 32-bit machine words

Unsigned words are natural numbers below `2 ^ 32`; arithmetic on them is
arithmetic modulo `2 ^ 32`.  A signed word is the integer its bit pattern
denotes in two's complement.
-/

namespace FentoOS.Lib

/-- The value of an unsigned 32-bit word after wrapping. -/
def wrap32 (n : Nat) : Nat := n % 2 ^ 32

/-- The difference of two unsigned 32-bit words. -/
def sub32 (a b : Nat) : Nat := wrap32 (a + 2 ^ 32 - b)

/-- The conversion of an unsigned 32-bit word to `int`. -/
def sint32 (n : Nat) : Int :=
  if n % 2 ^ 32 < 2 ^ 31 then (n % 2 ^ 32 : Nat) else (n % 2 ^ 32 : Nat) - 2 ^ 32

theorem wrap32_of_lt {n : Nat} (h : n < 2 ^ 32) : wrap32 n = n := Nat.mod_eq_of_lt h

theorem wrap32_lt (n : Nat) : wrap32 n < 2 ^ 32 := Nat.mod_lt _ (by decide)

theorem sint32_of_lt {n : Nat} (h : n < 2 ^ 31) : sint32 n = n := by
  have hn : n % 2 ^ 32 = n := Nat.mod_eq_of_lt (by omega)
  rw [sint32, hn, if_pos h]

/-- A word is the same as `int` exactly when its top bit is clear. -/
theorem sint32_eq_natCast {a b : Nat} (h : a < 2 ^ 32) :
    sint32 a = b ↔ a = b ∧ a < 2 ^ 31 := by
  unfold sint32
  rw [Nat.mod_eq_of_lt h]
  split <;> omega

theorem sint32_inj {a b : Nat} (ha : a < 2 ^ 32) (hb : b < 2 ^ 32) (h : sint32 a = sint32 b) :
    a = b := by
  unfold sint32 at h
  split at h <;> split at h <;> omega

end FentoOS.Lib
