import Mathlib

/-!
# Decimal numbers in `int`

A program reads a number digit by digit into an `int`, which wraps.  What it ends
up with is the number that the digits write, taken modulo `2 ^ 32`.  The digits
that write a number are read as this number.
-/

namespace FentoOS.Lib

def isDigit (c : UInt8) : Bool := '0'.toUInt8 ≤ c && c ≤ '9'.toUInt8

/-- `v * 10 + c - '0'`. -/
def pushDigit (v : Int32) (c : UInt8) : Int32 := v * 10 + Int32.ofNat (c.toNat - '0'.toNat)

/-- The number that digits write. -/
def numeral (s : List UInt8) : Nat := s.foldl (fun n c ↦ n * 10 + (c.toNat - '0'.toNat)) 0

/-- The number that is read from digits. -/
def readDigits (s : List UInt8) : Int32 := s.foldl pushDigit 0

theorem pushDigit_ofNat (n : Nat) (c : UInt8) :
    pushDigit (Int32.ofNat n) c = Int32.ofNat (n * 10 + (c.toNat - '0'.toNat)) := by
  rw [pushDigit, Int32.ofNat_add, Int32.ofNat_mul]
  rfl

theorem foldl_pushDigit (n : Nat) (s : List UInt8) : s.foldl pushDigit (Int32.ofNat n) =
    Int32.ofNat (s.foldl (fun n c ↦ n * 10 + (c.toNat - '0'.toNat)) n) := by
  induction s generalizing n with
  | nil => rfl
  | cons c s ih => rw [List.foldl_cons, pushDigit_ofNat, ih, List.foldl_cons]

theorem readDigits_eq (s : List UInt8) : readDigits s = Int32.ofNat (numeral s) :=
  foldl_pushDigit 0 s

/-! ## Writing a number -/

def digitChar (d : Nat) : UInt8 := UInt8.ofNat ('0'.toNat + d)

/-- The digits that write a number; none for zero. -/
def writeNat (n : Nat) : List UInt8 := ((Nat.digits 10 n).map digitChar).reverse

theorem toNat_digitChar {d : Nat} (hd : d < 10) : (digitChar d).toNat = '0'.toNat + d := by
  rw [digitChar, UInt8.toNat_ofNat']
  exact Nat.mod_eq_of_lt (show 48 + d < 2 ^ 8 by omega)

theorem isDigit_iff {c : UInt8} : isDigit c ↔ 48 ≤ c.toNat ∧ c.toNat ≤ 57 := by
  rw [isDigit, Bool.and_eq_true, decide_eq_true_iff, decide_eq_true_iff, UInt8.le_iff_toNat_le,
    UInt8.le_iff_toNat_le]
  rfl

theorem isDigit_of_mem_writeNat {n : Nat} {c : UInt8} (hc : c ∈ writeNat n) : isDigit c := by
  obtain ⟨d, hd, rfl⟩ := List.mem_map.mp (List.mem_reverse.mp hc)
  have hlt := Nat.digits_lt_base (by decide) hd
  rw [isDigit_iff, toNat_digitChar hlt]
  change 48 ≤ 48 + d ∧ 48 + d ≤ 57
  omega

/-- Digits are written by characters, the last one first, and evaluated again. -/
theorem foldl_map_reverse (base : Nat) {val : UInt8 → Nat} {f : Nat → UInt8} {l : List Nat}
    (h : ∀ d ∈ l, val (f d) = d) :
    (l.map f).reverse.foldl (fun n c ↦ n * base + val c) 0 = Nat.ofDigits base l := by
  induction l with
  | nil => rfl
  | cons d l ih =>
    rw [List.map_cons, List.reverse_cons, List.foldl_concat,
      ih fun d hd ↦ h d (List.mem_cons_of_mem _ hd), h d List.mem_cons_self, Nat.ofDigits_cons,
      Nat.mul_comm]
    exact Nat.add_comm _ _

/-- What is written is read. -/
theorem numeral_writeNat (n : Nat) : numeral (writeNat n) = n := by
  rw [numeral, writeNat, foldl_map_reverse, Nat.ofDigits_digits]
  intro d hd
  rw [toNat_digitChar (Nat.digits_lt_base (by decide) hd), Nat.add_sub_cancel_left]

end FentoOS.Lib
