import FentoOS.Lib.Decimal

/-!
# The C library of the user programs

A string is the list of its characters before the terminator.  A `char` is
signed, but the functions below compare it with characters of the ASCII range
only, so that it makes no difference whether a character above is negative or
greater than all of them.
-/

namespace FentoOS.Libc

open FentoOS.Lib

/-- A string, without its terminator. -/
abbrev Text := List UInt8

/-- A string constant. -/
def keyword (s : String) : Text := s.toList.map Char.toUInt8

def isalpha (c : UInt8) : Bool :=
  ('a'.toUInt8 ≤ c && c ≤ 'z'.toUInt8) || ('A'.toUInt8 ≤ c && c ≤ 'Z'.toUInt8)

def toupper (c : UInt8) : UInt8 := if 'a'.toUInt8 ≤ c ∧ c ≤ 'z'.toUInt8 then c - 32 else c

def tolower (c : UInt8) : UInt8 := if 'A'.toUInt8 ≤ c ∧ c ≤ 'Z'.toUInt8 then c + 32 else c

def isalnum (c : UInt8) : Bool := isalpha c || isDigit c

def isspace (c : UInt8) : Bool :=
  c == ' '.toUInt8 || c == '\t'.toUInt8 || c == '\n'.toUInt8 || c == '\r'.toUInt8 ||
    c == 12 || c == 11

def isBlank (c : UInt8) : Bool := c == ' '.toUInt8 || c == '\t'.toUInt8

def atoi (s : Text) : Int32 :=
  match s.dropWhile isBlank with
  | [] => 0
  | c :: s =>
    if c = '-'.toUInt8 then readDigits (s.takeWhile isDigit) * (-1)
    else if c = '+'.toUInt8 then readDigits (s.takeWhile isDigit)
    else readDigits ((c :: s).takeWhile isDigit)

/-- A digit is neither a blank nor a sign. -/
theorem atoi_digit {c : UInt8} (hc : isDigit c) (s : Text) :
    atoi (c :: s) = readDigits ((c :: s).takeWhile isDigit) := by
  have hne : ∀ d, ¬isDigit d → c ≠ d := fun d hd h ↦ hd (h ▸ hc)
  have hblank : ¬isBlank c := by
    rw [isBlank, Bool.or_eq_true, beq_iff_eq, beq_iff_eq, not_or]
    exact ⟨hne _ (by decide), hne _ (by decide)⟩
  rw [atoi, List.dropWhile_cons_of_neg hblank]
  dsimp only
  rw [if_neg (hne _ (by decide)), if_neg (hne _ (by decide))]

/-- The loop of `getline`, on the bytes that are typed and the characters in the buffer. -/
def getlineLoop (max : Nat) : List UInt8 → List UInt8 → List UInt8 × List UInt8
  | [], buf => (buf, [])
  | c :: input, buf =>
    if buf.length < max - 1 then
      if c = '\n'.toUInt8 then (buf, input)
      else if c = 8 ∨ c = 127 then getlineLoop max input buf.dropLast
      else getlineLoop max input (buf ++ [c])
    else (buf, c :: input)

/-- `getline(buf, max)`: the characters in the buffer, of which it returns the number, and the bytes
that are left. -/
def getline (max : Nat) (input : List UInt8) : List UInt8 × List UInt8 := getlineLoop max input []

/-- The string in a buffer with these characters and a terminator. -/
def stringOf (buf : List UInt8) : Text := buf.takeWhile (· != 0)

end FentoOS.Libc
