import FentoOS.Fs.View
import FentoOS.Lib.Run

/-!
# The two bitmaps

`bitmap_find_free` scans blocks and the bits in them, `bitmap_clear` divides a number into a block
and a bit.  Both address a bit of the whole map in the same way, so they undo each other, and a
number that has been returned stays marked until it is cleared.

The number of a bit is stored in a `uint32_t`, which is wide enough for any map that a superblock
describes: the sizes of the two maps are 16-bit fields, and `2 ^ 19` blocks have `2 ^ 32` bits.
-/

namespace FentoOS.Fs

open FentoOS.Lib Function

/-- `bitmap_find_free`, with the number as it is stored in `*out`. -/
def bitmapFindFreeOut (d : Disk) (mapStart mapBlocks : Nat) : Option Nat × Disk :=
  ((bitmapFindFree d mapStart mapBlocks).1.map wrap32, (bitmapFindFree d mapStart mapBlocks).2)

/-- One bit of the map from `start` on gets the value `b`, and nothing else on the disk
changes. -/
def ChangesBit (start n : Nat) (b : Bool) (d d' : Disk) : Prop :=
  ∃ buf : Bytes, d' = d.setBlock (start + n / 8192) buf ∧
    ∀ i, buf.testBit i = if i = n % 8192 then b else (d.block (start + n / 8192)).testBit i

/-- A block is the sequence of its bits. -/
theorem bytes_ext_testBit {a b : Bytes} (h : ∀ i, a.testBit i = b.testBit i) : a = b := by
  funext j
  refine UInt8.toNat_inj.mp (Nat.eq_of_testBit_eq fun i ↦ ?_)
  by_cases hi : i < 8
  · have hbit := h (8 * j + i)
    rwa [Bytes.testBit, Bytes.testBit, show (8 * j + i) / 8 = j by omega,
      show (8 * j + i) % 8 = i by omega] at hbit
  · have hpow : 2 ^ 8 ≤ 2 ^ i := Nat.pow_le_pow_right (by decide) (by omega)
    rw [Nat.testBit_lt_two_pow ((a j).toNat_lt.trans_le hpow),
      Nat.testBit_lt_two_pow ((b j).toNat_lt.trans_le hpow)]

section

variable {start blocks n : Nat} {d d' : Disk} {b : Bool}

theorem ChangesBit.size (h : ChangesBit start n b d d') : d'.size = d.size := by
  obtain ⟨buf, rfl, -⟩ := h
  rfl

theorem ChangesBit.mapBit (h : ChangesBit start n b d d') (hn : n < 8192 * blocks) :
    mapBit d' start blocks = update (mapBit d start blocks) n b := by
  obtain ⟨buf, rfl, hbuf⟩ := h
  exact mapBit_setBlock hn hbuf

/-- Changing a bit back restores the disk. -/
theorem ChangesBit.undo {d'' : Disk} (h : ChangesBit start n b d d')
    (h' : ChangesBit start n (!b) d' d'')
    (hold : (d.block (start + n / 8192)).testBit (n % 8192) = !b) : d'' = d := by
  obtain ⟨buf, rfl, hbuf⟩ := h
  obtain ⟨buf', rfl, hbuf'⟩ := h'
  have hsame : buf' = d.block (start + n / 8192) := by
    refine bytes_ext_testBit fun i ↦ ?_
    rw [hbuf', Disk.setBlock_block, update_self, hbuf]
    by_cases hi : i = n % 8192
    · rw [if_pos hi, hi, hold]
    · rw [if_neg hi, if_neg hi]
  rw [hsame, Disk.setBlock, Disk.setBlock_block, update_idem, update_eq_self]
  rfl

/-- What `bitmap_find_free` does. -/
theorem bitmapFindFreeOut_spec (hbits : 8192 * blocks ≤ 2 ^ 32) (hsize : start + blocks ≤ d.size) :
    ((∀ n < 8192 * blocks, mapBit d start blocks n = true) ∧
      bitmapFindFreeOut d start blocks = (none, d)) ∨
    ∃ n < 8192 * blocks, mapBit d start blocks n = false ∧
      (∀ m < n, mapBit d start blocks m = true) ∧
      (bitmapFindFreeOut d start blocks).1 = some n ∧
      ChangesBit start n true d (bitmapFindFreeOut d start blocks).2 := by
  unfold bitmapFindFreeOut
  rcases bitmapFindFree_spec d hsize with ⟨hfull, heq⟩ | ⟨n, ⟨hclear, hleast⟩, hn, heq⟩
  · exact .inl ⟨fun n _ ↦ hfull n, by rw [heq]; rfl⟩
  · refine .inr ⟨n, hn, hclear, hleast, ?_, ?_⟩
    · rw [heq]
      exact congrArg some (Nat.mod_eq_of_lt (hn.trans_le hbits))
    · rw [heq]
      exact ⟨_, rfl, fun i ↦ testBit_setBit_eq ..⟩

/-- What `bitmap_clear` does. -/
theorem changesBit_bitmapClear (hsize : start + blocks ≤ d.size) (hn : n < 8192 * blocks) :
    ChangesBit start n false d (bitmapClear d start n) := by
  have hlt : start + n / 8192 < d.size := by omega
  rw [bitmapClear, blockRead, if_pos hlt]
  simp only [blockWrite, if_pos hlt]
  exact ⟨_, rfl, fun i ↦ testBit_clearBit_eq ..⟩

end

/-! ## Sequences of calls -/

/-- The disk, and the numbers that have been returned and not been cleared since. -/
structure BitmapState where
  disk : Disk
  held : Finset Nat

inductive BitmapCall
  | bitmapFindFree
  | bitmapClear (num : Nat)

/-- The calls on one map.  A bit that is cleared is set. -/
inductive BitmapStep (start blocks : Nat) (s : BitmapState) : BitmapCall → BitmapState → Prop
  | findFree : BitmapStep start blocks s .bitmapFindFree
      ⟨(bitmapFindFreeOut s.disk start blocks).2,
        (bitmapFindFreeOut s.disk start blocks).1.elim s.held (insert · s.held)⟩
  | clear {num : Nat} (hnum : num < 8192 * blocks) (hset : mapBit s.disk start blocks num = true) :
      BitmapStep start blocks s (.bitmapClear num)
        ⟨bitmapClear s.disk start num, s.held.erase num⟩

/-- A map that lies on the disk, and no number has been returned yet. -/
def BitmapState.Fresh (start blocks : Nat) (s : BitmapState) : Prop :=
  start + blocks ≤ s.disk.size ∧ s.held = ∅

/-- What is held is marked. -/
structure HeldMarked (start blocks : Nat) (s : BitmapState) : Prop where
  size : start + blocks ≤ s.disk.size
  held : ∀ n ∈ s.held, n < 8192 * blocks ∧ mapBit s.disk start blocks n = true

theorem HeldMarked.step {start blocks : Nat} {s s' : BitmapState} {c : BitmapCall}
    (hbits : 8192 * blocks ≤ 2 ^ 32) (h : HeldMarked start blocks s)
    (hstep : BitmapStep start blocks s c s') : HeldMarked start blocks s' := by
  cases hstep with
  | findFree =>
    rcases bitmapFindFreeOut_spec hbits h.size with ⟨-, heq⟩ | ⟨n, hn, -, -, hres, hchange⟩
    · rw [heq]
      exact h
    · rw [hres]
      refine ⟨hchange.size ▸ h.size, fun m hm ↦ ?_⟩
      change m < _ ∧ mapBit (bitmapFindFreeOut s.disk start blocks).2 start blocks m = true
      rw [hchange.mapBit hn]
      by_cases hmn : m = n
      · rw [hmn, update_self]
        exact ⟨hn, rfl⟩
      · rw [update_of_ne hmn]
        exact h.held m (Finset.mem_of_mem_insert_of_ne hm hmn)
  | @clear num hnum hset =>
    have hchange := changesBit_bitmapClear h.size hnum
    refine ⟨hchange.size ▸ h.size, fun m hm ↦ ?_⟩
    obtain ⟨hne, hm⟩ := Finset.mem_erase.mp hm
    change m < _ ∧ mapBit (bitmapClear s.disk start num) start blocks m = true
    rw [hchange.mapBit hnum, update_of_ne hne]
    exact h.held m hm

/-- Allocation in a bitmap is exact.  On any disk with the map on it, `bitmap_find_free` marks and
returns the first clear bit of the whole map, which `bitmap_clear` undoes, or the map is full and
nothing changes; `bitmap_clear` clears the one bit; and in a sequence of calls no number is
returned while it is held. -/
theorem bitmap_allocation_exact {start blocks : Nat} (hbits : 8192 * blocks ≤ 2 ^ 32) :
    (∀ d : Disk, start + blocks ≤ d.size →
      ((∀ n < 8192 * blocks, mapBit d start blocks n = true) ∧
        bitmapFindFreeOut d start blocks = (none, d)) ∨
      ∃ n < 8192 * blocks, mapBit d start blocks n = false ∧
        (∀ m < n, mapBit d start blocks m = true) ∧
        (bitmapFindFreeOut d start blocks).1 = some n ∧
        ChangesBit start n true d (bitmapFindFreeOut d start blocks).2 ∧
        bitmapClear (bitmapFindFreeOut d start blocks).2 start n = d) ∧
    (∀ (d : Disk) (n : Nat), start + blocks ≤ d.size → n < 8192 * blocks →
      ChangesBit start n false d (bitmapClear d start n)) ∧
    ∀ s, Reach (BitmapState.Fresh start blocks) (BitmapStep start blocks) s →
      ∀ n, (bitmapFindFreeOut s.disk start blocks).1 = some n → n ∉ s.held := by
  refine ⟨fun d hsize ↦ ?_, fun d n hsize hn ↦ changesBit_bitmapClear hsize hn, ?_⟩
  · rcases bitmapFindFreeOut_spec hbits hsize with hfull | ⟨n, hn, hclear, hleast, hres, hchange⟩
    · exact .inl hfull
    · refine .inr ⟨n, hn, hclear, hleast, hres, hchange, ?_⟩
      refine hchange.undo (changesBit_bitmapClear (hchange.size ▸ hsize) hn) ?_
      rwa [mapBit, if_pos hn] at hclear
  · intro s hs n hres hheld
    have hmarked : HeldMarked start blocks s := by
      refine hs.invariant (fun s hinit ↦ ⟨hinit.1, fun m hm ↦ ?_⟩)
        fun _ _ _ h hstep ↦ h.step hbits hstep
      rw [hinit.2] at hm
      exact absurd hm (Finset.notMem_empty m)
    rcases bitmapFindFreeOut_spec hbits hmarked.size with ⟨-, heq⟩ | ⟨m, -, hclear, -, hfound, -⟩
    · rw [heq] at hres
      cases hres
    · rw [hfound] at hres
      cases hres
      rw [(hmarked.held n hheld).2] at hclear
      cases hclear

/-- The maps of a superblock, at their largest. -/
theorem bitmap_allocation_exact_widest : 8192 * 65535 ≤ 2 ^ 32 ∧
    ∀ d : Disk, 2 + 65535 ≤ d.size → ChangesBit 2 5 false d (bitmapClear d 2 5) :=
  ⟨by decide, fun d hsize ↦
    (@bitmap_allocation_exact 2 65535 (by decide)).2.1 d 5 hsize (by decide)⟩

end FentoOS.Fs
