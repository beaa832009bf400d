import Mathlib

/-!
# Byte buffers with little-endian fields

A buffer is a function from offsets to bytes.  The programs verified here read
and write the same buffer through several C types — as bytes, as an array of
32-bit words, as an array of packed structures, as a bitmap — and nothing in
this file knows which of these a given buffer is.  What it provides is the
usual algebra of such accesses: reading back what was written, and reading
around it.

Offsets are unbounded.  A C array of length `n` is a buffer of which only the
offsets below `n` are ever looked at.
-/

namespace FentoOS.Lib

/-- A buffer of bytes, addressed by offset. -/
abbrev Bytes := Nat → UInt8

namespace Bytes

/-- The all-zero buffer. -/
def zero : Bytes := fun _ ↦ 0

@[simp] theorem zero_apply (i : Nat) : zero i = 0 := rfl

/-! ## Bytes and ranges of bytes -/

/-- Store one byte. -/
def put8 (b : Bytes) (i : Nat) (v : UInt8) : Bytes := fun j ↦ if j = i then v else b j

@[simp] theorem put8_same (b : Bytes) (i : Nat) (v : UInt8) : put8 b i v i = v := if_pos rfl

variable {i j : Nat}

theorem put8_of_ne (b : Bytes) (v : UInt8) (h : j ≠ i) : put8 b i v j = b j :=
  if_neg h

/-- `memset(b + i, c, n)`. -/
def memset (b : Bytes) (i : Nat) (c : UInt8) (n : Nat) : Bytes :=
  fun j ↦ if i ≤ j ∧ j < i + n then c else b j

/-- `memcpy(b + i, src + k, n)`. -/
def memcpy (b : Bytes) (i : Nat) (src : Bytes) (k n : Nat) : Bytes :=
  fun j ↦ if i ≤ j ∧ j < i + n then src (k + (j - i)) else b j

variable {n : Nat}

theorem memset_of_mem (b : Bytes) (c : UInt8) (h₁ : i ≤ j) (h₂ : j < i + n) :
    memset b i c n j = c := if_pos ⟨h₁, h₂⟩

theorem memset_of_notMem (b : Bytes) (c : UInt8) (h : j < i ∨ i + n ≤ j) :
    memset b i c n j = b j := if_neg (by omega)

theorem memcpy_of_mem (b src : Bytes) {k : Nat} (h₁ : i ≤ j) (h₂ : j < i + n) :
    memcpy b i src k n j = src (k + (j - i)) := if_pos ⟨h₁, h₂⟩

theorem memcpy_of_notMem (b src : Bytes) {k : Nat} (h : j < i ∨ i + n ≤ j) :
    memcpy b i src k n j = b j := if_neg (by omega)

/-! ## Little-endian fields -/

/-- The 16-bit field at offset `i`. -/
def get16 (b : Bytes) (i : Nat) : Nat := (b i).toNat + 256 * (b (i + 1)).toNat

/-- The 32-bit field at offset `i`. -/
def get32 (b : Bytes) (i : Nat) : Nat :=
  (b i).toNat + 256 * (b (i + 1)).toNat + 65536 * (b (i + 2)).toNat
    + 16777216 * (b (i + 3)).toNat

/-- Store the low 16 bits of `v` at offset `i`. -/
def put16 (b : Bytes) (i v : Nat) : Bytes := fun j ↦
  if j = i then UInt8.ofNat v else if j = i + 1 then UInt8.ofNat (v / 256) else b j

/-- Store the low 32 bits of `v` at offset `i`. -/
def put32 (b : Bytes) (i v : Nat) : Bytes := fun j ↦
  if j = i then UInt8.ofNat v
  else if j = i + 1 then UInt8.ofNat (v / 256)
  else if j = i + 2 then UInt8.ofNat (v / 65536)
  else if j = i + 3 then UInt8.ofNat (v / 16777216)
  else b j

theorem get16_lt (b : Bytes) (i : Nat) : get16 b i < 2 ^ 16 := by
  have h₀ := (b i).toNat_lt
  have h₁ := (b (i + 1)).toNat_lt
  unfold get16
  omega

theorem get32_lt (b : Bytes) (i : Nat) : get32 b i < 2 ^ 32 := by
  have h₀ := (b i).toNat_lt
  have h₁ := (b (i + 1)).toNat_lt
  have h₂ := (b (i + 2)).toNat_lt
  have h₃ := (b (i + 3)).toNat_lt
  unfold get32
  omega

@[simp] theorem get32_zero (i : Nat) : get32 zero i = 0 := rfl

/-- A field depends only on the bytes it covers. -/
theorem get16_congr {b b' : Bytes} (h : ∀ j, i ≤ j → j < i + 2 → b j = b' j) :
    get16 b i = get16 b' i := by
  simp only [get16, h i (by omega) (by omega), h (i + 1) (by omega) (by omega)]

theorem get32_congr {b b' : Bytes} (h : ∀ j, i ≤ j → j < i + 4 → b j = b' j) :
    get32 b i = get32 b' i := by
  simp only [get32, h i (by omega) (by omega), h (i + 1) (by omega) (by omega),
    h (i + 2) (by omega) (by omega), h (i + 3) (by omega) (by omega)]

variable {v : Nat}

theorem put16_of_notMem (b : Bytes) (h : j < i ∨ i + 2 ≤ j) : put16 b i v j = b j := by
  simp only [put16]
  rw [if_neg (by omega), if_neg (by omega)]

theorem put32_of_notMem (b : Bytes) (h : j < i ∨ i + 4 ≤ j) : put32 b i v j = b j := by
  simp only [put32]
  rw [if_neg (by omega), if_neg (by omega), if_neg (by omega), if_neg (by omega)]

theorem put32_put32 (b : Bytes) (i v w : Nat) : put32 (put32 b i v) i w = put32 b i w := by
  funext j
  simp only [put32]
  split_ifs <;> rfl

@[simp] theorem get16_put16_same (b : Bytes) (i v : Nat) :
    get16 (put16 b i v) i = v % 2 ^ 16 := by
  simp [get16, put16]
  omega

@[simp] theorem get32_put32_same (b : Bytes) (i v : Nat) :
    get32 (put32 b i v) i = v % 2 ^ 32 := by
  simp [get32, put32]
  omega

theorem get16_put16_of_disjoint (b : Bytes) (h : j + 2 ≤ i ∨ i + 2 ≤ j) :
    get16 (put16 b i v) j = get16 b j :=
  get16_congr fun k _ _ ↦ put16_of_notMem b (by omega)

theorem get16_put32_of_disjoint (b : Bytes) (h : j + 2 ≤ i ∨ i + 4 ≤ j) :
    get16 (put32 b i v) j = get16 b j :=
  get16_congr fun k _ _ ↦ put32_of_notMem b (by omega)

theorem get32_put32_of_disjoint (b : Bytes) (h : j + 4 ≤ i ∨ i + 4 ≤ j) :
    get32 (put32 b i v) j = get32 b j :=
  get32_congr fun k _ _ ↦ put32_of_notMem b (by omega)

/-- Storing what is there changes nothing. -/
theorem put32_get32 (b : Bytes) (i : Nat) : put32 b i (get32 b i) = b := by
  have h₀ := (b i).toNat_lt
  have h₁ := (b (i + 1)).toNat_lt
  have h₂ := (b (i + 2)).toNat_lt
  have h₃ := (b (i + 3)).toNat_lt
  have hbyte : ∀ {x : UInt8} {n : Nat}, n % 256 = x.toNat → UInt8.ofNat n = x :=
    fun h ↦ UInt8.toNat_inj.mp ((UInt8.toNat_ofNat' ..).trans h)
  funext j
  unfold put32
  split
  case isTrue hj =>
    subst hj
    exact hbyte (by unfold get32; omega)
  split
  case isTrue hj =>
    subst hj
    exact hbyte (by unfold get32; omega)
  split
  case isTrue hj =>
    subst hj
    exact hbyte (by unfold get32; omega)
  split
  case isTrue hj =>
    subst hj
    exact hbyte (by unfold get32; omega)
  rfl

/-! ## Bitmaps

Bit `n` of a bitmap is bit `n % 8` of byte `n / 8`. -/

/-- `b[n / 8] & (1 << (n % 8))`. -/
def testBit (b : Bytes) (n : Nat) : Bool := (b (n / 8)).toNat.testBit (n % 8)

/-- `b[n / 8] |= 1 << (n % 8)`. -/
def setBit (b : Bytes) (n : Nat) : Bytes :=
  put8 b (n / 8) (UInt8.ofNat ((b (n / 8)).toNat ||| 2 ^ (n % 8)))

/-- `b[n / 8] &= ~(1 << (n % 8))`. -/
def clearBit (b : Bytes) (n : Nat) : Bytes :=
  put8 b (n / 8) (UInt8.ofNat ((b (n / 8)).toNat &&& (255 ^^^ 2 ^ (n % 8))))

/-- Two positions of one byte are the same bit exactly when they are equal. -/
theorem mod_eq_iff_of_div_eq {m : Nat} (h : m / 8 = n / 8) : n % 8 = m % 8 ↔ m = n := by
  omega

theorem testBit_setBit (b : Bytes) (n m : Nat) :
    testBit (setBit b n) m = (decide (m = n) || testBit b m) := by
  by_cases h : m / 8 = n / 8
  · have hlt : m % 8 < 8 := Nat.mod_lt _ (by omega)
    have hbyte : setBit b n (m / 8) = UInt8.ofNat ((b (m / 8)).toNat ||| 2 ^ (n % 8)) := by
      rw [setBit, h, put8_same]
    rw [testBit, hbyte, UInt8.toNat_ofNat', Nat.testBit_mod_two_pow, Nat.testBit_or,
      Nat.testBit_two_pow, testBit]
    simp [hlt, mod_eq_iff_of_div_eq h, Bool.or_comm]
  · have hne : m ≠ n := fun hc ↦ h (by rw [hc])
    rw [testBit, setBit, put8_of_ne b _ h, testBit]
    simp [hne]

theorem testBit_clearBit (b : Bytes) (n m : Nat) :
    testBit (clearBit b n) m = (!decide (m = n) && testBit b m) := by
  by_cases h : m / 8 = n / 8
  · have hlt : m % 8 < 8 := Nat.mod_lt _ (by omega)
    have hbyte : clearBit b n (m / 8) =
        UInt8.ofNat ((b (m / 8)).toNat &&& (255 ^^^ 2 ^ (n % 8))) := by
      rw [clearBit, h, put8_same]
    have hones : (255 : Nat).testBit (m % 8) = true := by
      rw [show (255 : Nat) = 2 ^ 8 - 1 by norm_num, Nat.testBit_two_pow_sub_one]
      simp [hlt]
    rw [testBit, hbyte, UInt8.toNat_ofNat', Nat.testBit_mod_two_pow, Nat.testBit_and,
      Nat.testBit_xor, Nat.testBit_two_pow, hones, testBit]
    simp [hlt, mod_eq_iff_of_div_eq h, Bool.and_comm]
  · have hne : m ≠ n := fun hc ↦ h (by rw [hc])
    rw [testBit, clearBit, put8_of_ne b _ h, testBit]
    simp [hne]

end Bytes

end FentoOS.Lib
