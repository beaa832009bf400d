import Mathlib

/-!
# A slice of the IA-32 instruction set

The instructions that small tools emit: moves of an immediate to a register, the stack, arithmetic
with a register and an immediate, and software interrupts.  `encode` gives the bytes of an
instruction, and `decode` reads one off the front of a list of bytes.  That reading is exact
(`decode_encode`) makes a sequence of encodings fall apart into its instructions in one way only.

Of the state of the processor there are the registers that these instructions compute with.
-/

namespace FentoOS.Lib.X86

/-! ## Words -/

/-- The bytes of a word, the lowest first. -/
def le32 (v : UInt32) : List UInt8 :=
  [v.toUInt8, (v >>> 8).toUInt8, (v >>> 16).toUInt8, (v >>> 24).toUInt8]

/-- The word at the front of a list of bytes. -/
def read32 : List UInt8 → Option (UInt32 × List UInt8)
  | a :: b :: c :: d :: l => some (UInt32.ofNat
      (a.toNat + 256 * b.toNat + 65536 * c.toNat + 16777216 * d.toNat), l)
  | _ => none

@[simp] theorem length_le32 (v : UInt32) : (le32 v).length = 4 := rfl

theorem read32_le32 (v : UInt32) (l : List UInt8) : read32 (le32 v ++ l) = some (v, l) := by
  have hv := v.toNat_lt
  change some (UInt32.ofNat _, l) = _
  congr 2
  refine UInt32.toNat_inj.mp ?_
  have h₁ : (v >>> 8).toNat = v.toNat / 2 ^ 8 := Nat.shiftRight_eq_div_pow ..
  have h₂ : (v >>> 16).toNat = v.toNat / 2 ^ 16 := Nat.shiftRight_eq_div_pow ..
  have h₃ : (v >>> 24).toNat = v.toNat / 2 ^ 24 := Nat.shiftRight_eq_div_pow ..
  rw [UInt32.toNat_ofNat', UInt32.toNat_toUInt8, UInt32.toNat_toUInt8, UInt32.toNat_toUInt8,
    UInt32.toNat_toUInt8, h₁, h₂, h₃]
  omega

/-- Storing a word at an offset. -/
def setWord (l : List UInt8) (p : Nat) (v : UInt32) : List UInt8 :=
  l.take p ++ le32 v ++ l.drop (p + 4)

section

variable {l : List UInt8} {p : Nat}

theorem length_setWord (hp : p + 4 ≤ l.length) (v : UInt32) :
    (setWord l p v).length = l.length := by
  rw [setWord, List.length_append, List.length_append, List.length_take, List.length_drop,
    length_le32]
  omega

theorem setWord_append (hp : p + 4 ≤ l.length) (v : UInt32) (l' : List UInt8) :
    setWord (l ++ l') p v = setWord l p v ++ l' := by
  rw [setWord, setWord, List.take_append_of_le_length (by omega),
    List.drop_append_of_le_length hp]
  simp only [List.append_assoc]

theorem setWord_length (pre : List UInt8) {x : List UInt8} (hx : x.length = 4)
    (post : List UInt8) (v : UInt32) :
    setWord (pre ++ (x ++ post)) pre.length v = pre ++ (le32 v ++ post) := by
  rw [setWord, List.take_left, ← hx, ← List.length_append, ← List.append_assoc, List.drop_left,
    List.append_assoc]

theorem drop_setWord {q : Nat} (hp : p + 4 ≤ l.length) (hq : p + 4 ≤ q) (v : UInt32) :
    (setWord l p v).drop q = l.drop q := by
  have hlen : (l.take p ++ le32 v).length = p + 4 := by
    rw [List.length_append, List.length_take, length_le32]
    omega
  obtain ⟨k, rfl⟩ := Nat.exists_eq_add_of_le hq
  rw [setWord, ← hlen, List.drop_length_add_append, hlen, List.drop_drop]

end

/-! ## Instructions -/

inductive Reg
  | eax
  | ecx
  | edx
  | ebx
  | esp
  | ebp
  | esi
  | edi
deriving DecidableEq

/-- The number of a register. -/
def Reg.code : Reg → UInt8
  | .eax => 0
  | .ecx => 1
  | .edx => 2
  | .ebx => 3
  | .esp => 4
  | .ebp => 5
  | .esi => 6
  | .edi => 7

def Reg.ofCode (n : UInt8) : Reg :=
  if n = 0 then .eax else if n = 1 then .ecx else if n = 2 then .edx else if n = 3 then .ebx
  else if n = 4 then .esp else if n = 5 then .ebp else if n = 6 then .esi else .edi

inductive Instr
  | movImm (r : Reg) (imm : UInt32)
  | pushReg (r : Reg)
  | pushImm (imm : UInt32)
  | popReg (r : Reg)
  | xorReg (dst src : Reg)
  | addImm (r : Reg) (imm : UInt32)
  | subImm (r : Reg) (imm : UInt32)
  | int (n : UInt8)
  | ret
  | nop
  | leave
deriving DecidableEq

/-- The bytes of an instruction. -/
def encode : Instr → List UInt8
  | .movImm r imm => (0xB8 + r.code) :: le32 imm
  | .pushReg r => [0x50 + r.code]
  | .pushImm imm => 0x68 :: le32 imm
  | .popReg r => [0x58 + r.code]
  | .xorReg dst src => [0x31, 0xC0 + src.code * 8 + dst.code]
  | .addImm r imm => 0x81 :: (0xC0 + r.code) :: le32 imm
  | .subImm r imm => 0x81 :: (0xE8 + r.code) :: le32 imm
  | .int n => [0xCD, n]
  | .ret => [0xC3]
  | .nop => [0x90]
  | .leave => [0xC9]

/-- The operands of an exclusive or of two registers. -/
def decodeXor : List UInt8 → Option (Instr × List UInt8)
  | [] => none
  | m :: l =>
    if 0xC0 ≤ m then some (.xorReg (.ofCode (m % 8)) (.ofCode ((m - 0xC0) / 8)), l) else none

/-- The operands of an addition or a subtraction. -/
def decodeArith : List UInt8 → Option (Instr × List UInt8)
  | [] => none
  | m :: l =>
    if 0xC0 ≤ m ∧ m ≤ 0xC7 then (read32 l).map fun p ↦ (.addImm (.ofCode (m - 0xC0)) p.1, p.2)
    else if 0xE8 ≤ m ∧ m ≤ 0xEF then
      (read32 l).map fun p ↦ (.subImm (.ofCode (m - 0xE8)) p.1, p.2)
    else none

/-- The number of an interrupt. -/
def decodeInt : List UInt8 → Option (Instr × List UInt8)
  | [] => none
  | n :: l => some (.int n, l)

/-- The instruction at the front of a list of bytes. -/
def decode : List UInt8 → Option (Instr × List UInt8)
  | [] => none
  | op :: l =>
    if 0xB8 ≤ op ∧ op ≤ 0xBF then
      (read32 l).map fun p ↦ (.movImm (.ofCode (op - 0xB8)) p.1, p.2)
    else if 0x50 ≤ op ∧ op ≤ 0x57 then some (.pushReg (.ofCode (op - 0x50)), l)
    else if 0x58 ≤ op ∧ op ≤ 0x5F then some (.popReg (.ofCode (op - 0x58)), l)
    else if op = 0x68 then (read32 l).map fun p ↦ (.pushImm p.1, p.2)
    else if op = 0x31 then decodeXor l
    else if op = 0x81 then decodeArith l
    else if op = 0xCD then decodeInt l
    else if op = 0xC3 then some (.ret, l)
    else if op = 0x90 then some (.nop, l)
    else if op = 0xC9 then some (.leave, l)
    else none

/-- Reading an encoding gives the instruction. -/
theorem decode_encode (i : Instr) (l : List UInt8) : decode (encode i ++ l) = some (i, l) := by
  cases i with
  | movImm r imm =>
    have hop : 0xB8 ≤ 0xB8 + r.code ∧ 0xB8 + r.code ≤ 0xBF := by cases r <;> decide
    have hreg : Reg.ofCode (0xB8 + r.code - 0xB8) = r := by cases r <;> rfl
    rw [encode, List.cons_append, decode, if_pos hop, read32_le32, Option.map_some, hreg]
  | pushReg r => cases r <;> rfl
  | pushImm imm =>
    rw [encode, List.cons_append, decode, if_neg (by decide), if_neg (by decide),
      if_neg (by decide), if_pos rfl, read32_le32, Option.map_some]
  | popReg r => cases r <;> rfl
  | xorReg dst src => cases dst <;> cases src <;> rfl
  | addImm r imm =>
    have hop : 0xC0 ≤ 0xC0 + r.code ∧ 0xC0 + r.code ≤ 0xC7 := by cases r <;> decide
    have hreg : Reg.ofCode (0xC0 + r.code - 0xC0) = r := by cases r <;> rfl
    rw [encode, List.cons_append, List.cons_append, decode, if_neg (by decide),
      if_neg (by decide), if_neg (by decide), if_neg (by decide), if_neg (by decide), if_pos rfl,
      decodeArith, if_pos hop, read32_le32, Option.map_some, hreg]
  | subImm r imm =>
    have hadd : ¬(0xC0 ≤ 0xE8 + r.code ∧ 0xE8 + r.code ≤ 0xC7) := by cases r <;> decide
    have hop : 0xE8 ≤ 0xE8 + r.code ∧ 0xE8 + r.code ≤ 0xEF := by cases r <;> decide
    have hreg : Reg.ofCode (0xE8 + r.code - 0xE8) = r := by cases r <;> rfl
    rw [encode, List.cons_append, List.cons_append, decode, if_neg (by decide),
      if_neg (by decide), if_neg (by decide), if_neg (by decide), if_neg (by decide), if_pos rfl,
      decodeArith, if_neg hadd, if_pos hop, read32_le32, Option.map_some, hreg]
  | int n => rfl
  | ret => rfl
  | nop => rfl
  | leave => rfl

/-- Two sequences of encodings that begin in the same way begin with the same instruction. -/
theorem encode_inj {i j : Instr} {l l' : List UInt8} (h : encode i ++ l = encode j ++ l') :
    i = j ∧ l = l' := by
  have hi := decode_encode i l
  rw [h, decode_encode] at hi
  obtain ⟨rfl, rfl⟩ := Prod.mk.inj (Option.some.inj hi)
  exact ⟨rfl, rfl⟩

/-- Two sequences of as many instructions have the same encoding only if they are the same. -/
theorem encodes_inj {is js : List Instr} {l l' : List UInt8} (hlen : is.length = js.length)
    (h : is.flatMap encode ++ l = js.flatMap encode ++ l') : is = js ∧ l = l' := by
  induction is generalizing js with
  | nil =>
    obtain rfl := List.eq_nil_of_length_eq_zero hlen.symm
    exact ⟨rfl, h⟩
  | cons i is ih =>
    cases js with
    | nil => cases hlen
    | cons j js =>
      rw [List.flatMap_cons, List.flatMap_cons, List.append_assoc, List.append_assoc] at h
      obtain ⟨rfl, hrest⟩ := encode_inj h
      obtain ⟨rfl, rfl⟩ := ih (Nat.succ.inj hlen) hrest
      exact ⟨rfl, rfl⟩

/-! ## Registers -/

abbrev Regs := Reg → UInt32

/-- What an instruction that only computes with registers does. -/
def exec (regs : Regs) : Instr → Option Regs
  | .movImm r imm => some (Function.update regs r imm)
  | .xorReg dst src => some (Function.update regs dst (regs dst ^^^ regs src))
  | .addImm r imm => some (Function.update regs r (regs r + imm))
  | .subImm r imm => some (Function.update regs r (regs r - imm))
  | .nop => some regs
  | _ => none

end FentoOS.Lib.X86
