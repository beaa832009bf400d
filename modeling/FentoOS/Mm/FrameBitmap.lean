import FentoOS.Mm.Pmm
import FentoOS.Lib.Run

/-!
# The packed bitmap of frames

`pmm.c` keeps the bits of 32 frames in one word.  Seen through `test_frame`, setting and clearing
a bit in a word is an update of one place of a function, so the packed allocator does what the
one of `Mm/Pmm.lean` does.

What it hands out is then a matter of bookkeeping.  A bit is clear exactly if its frame lies
between the reserved end and the end of memory and is not handed out at the moment, over any
sequence of allocations and of releases of frames that are.
-/

namespace FentoOS.Mm

open FentoOS.Lib Function

/-! ## Words of bits -/

/-- `bitmap`. -/
abbrev FrameBitmap := Nat → BitVec 32

/-- `1u << (frame % 32)`. -/
def frameBit (frame : Nat) : BitVec 32 := 1#32 <<< (frame % 32)

/-- `set_used`. -/
def setUsed (bitmap : FrameBitmap) (frame : Nat) : FrameBitmap :=
  Function.update bitmap (frame / 32) (bitmap (frame / 32) ||| frameBit frame)

/-- `set_free`. -/
def setFree (bitmap : FrameBitmap) (frame : Nat) : FrameBitmap :=
  Function.update bitmap (frame / 32) (bitmap (frame / 32) &&& ~~~frameBit frame)

/-- `test_frame`. -/
def testFrame (bitmap : FrameBitmap) (frame : Nat) : Bool :=
  bitmap (frame / 32) &&& frameBit frame ≠ 0#32

theorem getLsbD_frameBit (frame i : Nat) :
    (frameBit frame).getLsbD i = decide (i = frame % 32) := by
  have hlt := Nat.mod_lt frame (by decide : 0 < 32)
  change (BitVec.twoPow 32 (frame % 32)).getLsbD i = _
  rw [BitVec.getLsbD_twoPow, decide_eq_true hlt, Bool.true_and]
  exact decide_eq_decide.mpr eq_comm

theorem testFrame_eq (bitmap : FrameBitmap) (frame : Nat) :
    testFrame bitmap frame = (bitmap (frame / 32)).getLsbD (frame % 32) := by
  have hlt := Nat.mod_lt frame (by decide : 0 < 32)
  cases hbit : (bitmap (frame / 32)).getLsbD (frame % 32) with
  | false =>
    refine decide_eq_false (not_not.mpr (BitVec.eq_of_getLsbD_eq fun i _ ↦ ?_))
    rw [BitVec.getLsbD_and, getLsbD_frameBit, BitVec.getLsbD_zero]
    by_cases hi : i = frame % 32
    · rw [hi, hbit, Bool.false_and]
    · rw [decide_eq_false hi, Bool.and_false]
  | true =>
    refine decide_eq_true fun hzero ↦ ?_
    have hset : (bitmap (frame / 32) &&& frameBit frame).getLsbD (frame % 32) = true := by
      rw [BitVec.getLsbD_and, getLsbD_frameBit, hbit, decide_eq_true rfl, Bool.true_and]
    rw [hzero, BitVec.getLsbD_zero] at hset
    cases hset

/-- Two frames with the same word and the same bit are the same. -/
theorem frame_ext {f g : Nat} (hword : f / 32 = g / 32) (hbit : f % 32 = g % 32) : f = g := by
  omega

/-- `set_used` marks one frame. -/
theorem testFrame_setUsed (bitmap : FrameBitmap) (frame : Nat) :
    testFrame (setUsed bitmap frame) = update (testFrame bitmap) frame true := by
  funext f
  rw [testFrame_eq, setUsed]
  by_cases hword : f / 32 = frame / 32
  · rw [hword, update_self, BitVec.getLsbD_or, getLsbD_frameBit]
    by_cases hbit : f % 32 = frame % 32
    · obtain rfl := frame_ext hword hbit
      rw [update_self, decide_eq_true rfl, Bool.or_true]
    · rw [update_of_ne (fun hf ↦ hbit (congrArg (· % 32) hf)), testFrame_eq, hword,
        decide_eq_false hbit, Bool.or_false]
  · rw [update_of_ne hword,
      update_of_ne (fun hf ↦ hword (congrArg (· / 32) hf)), testFrame_eq]

/-- `set_free` unmarks one frame. -/
theorem testFrame_setFree (bitmap : FrameBitmap) (frame : Nat) :
    testFrame (setFree bitmap frame) = update (testFrame bitmap) frame false := by
  funext f
  have hlt := Nat.mod_lt f (by decide : 0 < 32)
  rw [testFrame_eq, setFree]
  by_cases hword : f / 32 = frame / 32
  · rw [hword, update_self, BitVec.getLsbD_and, BitVec.getLsbD_not, getLsbD_frameBit]
    by_cases hbit : f % 32 = frame % 32
    · obtain rfl := frame_ext hword hbit
      rw [update_self, decide_eq_true rfl, Bool.not_true, Bool.and_false, Bool.and_false]
    · rw [update_of_ne (fun hf ↦ hbit (congrArg (· % 32) hf)), testFrame_eq, hword,
        decide_eq_false hbit, decide_eq_true hlt, Bool.not_false, Bool.and_true, Bool.and_true]
  · rw [update_of_ne hword,
      update_of_ne (fun hf ↦ hword (congrArg (· / 32) hf)), testFrame_eq]

/-! ## The packed allocator -/

/-- The static variables of `pmm.c`. -/
structure PackedPmm where
  bitmap : FrameBitmap
  totalFrames : Nat
  freeFrames : Nat

namespace PackedPmm

/-- The loop of `pmm_init`. -/
def release (p : PackedPmm) : (f n : Nat) → PackedPmm
  | _, 0 => p
  | f, n + 1 =>
    release { p with bitmap := setFree p.bitmap f, freeFrames := p.freeFrames + 1 } (f + 1) n

/-- `pmm_init`. -/
def init (memUpperKb kernelEnd : Nat) : PackedPmm :=
  release
    { bitmap := fun _ ↦ BitVec.allOnes 32, totalFrames := framesOf memUpperKb, freeFrames := 0 }
    (firstFrame kernelEnd) (framesOf memUpperKb - firstFrame kernelEnd)

/-- `pmm_alloc_frame`. -/
def allocFrame (p : PackedPmm) : Nat × PackedPmm :=
  match findFirst (fun f ↦ !testFrame p.bitmap f) 0 p.totalFrames with
  | none => (0, p)
  | some f =>
    (f * 4096, { p with bitmap := setUsed p.bitmap f, freeFrames := p.freeFrames - 1 })

/-- `pmm_free_frame`. -/
def freeFrame (p : PackedPmm) (frame : Nat) : PackedPmm :=
  let f := frame / 4096
  if f ≥ p.totalFrames then p
  else if testFrame p.bitmap f then
    { p with bitmap := setFree p.bitmap f, freeFrames := p.freeFrames + 1 }
  else p

/-- What `test_frame` makes of the bitmap.  The flag is not part of the code's state. -/
def unpack (p : PackedPmm) (oom : Bool) : Pmm where
  used := testFrame p.bitmap
  totalFrames := p.totalFrames
  freeFrames := p.freeFrames
  oom := oom

theorem unpack_release (p : PackedPmm) (oom : Bool) (f n : Nat) :
    (p.release f n).unpack oom = releaseFrames (p.unpack oom) f n := by
  induction n generalizing p f with
  | zero => rfl
  | succ n ih =>
    rw [release, ih, releaseFrames]
    congr 1
    unfold unpack
    rw [testFrame_setFree]

theorem unpack_init (memUpperKb kernelEnd : Nat) :
    (init memUpperKb kernelEnd).unpack false = pmmInit memUpperKb kernelEnd := by
  have hall : testFrame (fun _ ↦ BitVec.allOnes 32) = fun _ ↦ true := by
    funext f
    rw [testFrame_eq, BitVec.getLsbD_allOnes]
    exact decide_eq_true (Nat.mod_lt f (by decide))
  rw [init, unpack_release, pmmInit]
  congr 1
  unfold unpack
  rw [hall]

/-- `pmm_alloc_frame` does on words what it does on bits. -/
theorem unpack_allocFrame (p : PackedPmm) (oom : Bool) :
    (pmmAllocFrame (p.unpack oom)).1 = p.allocFrame.1 ∧
      ∃ oom', (pmmAllocFrame (p.unpack oom)).2 = p.allocFrame.2.unpack oom' := by
  unfold pmmAllocFrame allocFrame
  have hnext : nextFrame (p.unpack oom) =
      findFirst (fun f ↦ !testFrame p.bitmap f) 0 p.totalFrames := rfl
  rw [hnext]
  cases findFirst (fun f ↦ !testFrame p.bitmap f) 0 p.totalFrames with
  | none => exact ⟨rfl, true, rfl⟩
  | some f =>
    refine ⟨rfl, oom, ?_⟩
    simp only [unpack, testFrame_setUsed]

theorem unpack_freeFrame (p : PackedPmm) (oom : Bool) (frame : Nat) :
    (p.freeFrame frame).unpack oom = pmmFreeFrame (p.unpack oom) frame := by
  unfold freeFrame pmmFreeFrame
  change _ = if frame / 4096 ≥ p.totalFrames then p.unpack oom
    else if testFrame p.bitmap (frame / 4096) then _ else p.unpack oom
  dsimp only
  by_cases hend : frame / 4096 ≥ p.totalFrames
  · rw [if_pos hend, if_pos hend]
  · rw [if_neg hend, if_neg hend]
    split
    · unfold unpack
      rw [testFrame_setFree]
    · rfl

end PackedPmm

/-! ## What is handed out -/

/-- `kernel_end` rounded up to a frame, and a megabyte behind it. -/
def reservedEnd (kernelEnd : Nat) : Nat := (kernelEnd + 4095) / 4096 * 4096 + 0x100000

theorem firstFrame_eq {kernelEnd : Nat} (h : kernelEnd < 2 ^ 31) :
    firstFrame kernelEnd * 4096 = reservedEnd kernelEnd := by
  unfold firstFrame reservedEnd wrap32
  omega

theorem freeSet_pmmInit (memUpperKb kernelEnd : Nat) : freeSet (pmmInit memUpperKb kernelEnd) =
    Finset.Ico (firstFrame kernelEnd) (framesOf memUpperKb) := by
  ext f
  rw [mem_freeSet, Finset.mem_Ico]
  constructor
  · rintro ⟨-, hfree⟩
    exact pmmInit_used_eq_false hfree
  · rintro ⟨hle, hlt⟩
    refine ⟨lt_of_lt_of_eq hlt (pmmInit_totalFrames ..).symm, ?_⟩
    rw [pmmInit, releaseFrames_used, if_pos (by omega)]

/-- The allocator, and the addresses that have been handed out and not been given back. -/
structure FrameState where
  pmm : PackedPmm
  taken : Finset Nat

/-- The calls. -/
inductive FrameCall
  | pmmAllocFrame
  | pmmFreeFrame (frame : Nat)

/-- A frame that is allocated is taken, unless the result is `0`, and a frame that is given back
was taken. -/
inductive FrameStep (s : FrameState) : FrameCall → FrameState → Prop
  | alloc : FrameStep s .pmmAllocFrame ⟨s.pmm.allocFrame.2,
      if s.pmm.allocFrame.1 = 0 then s.taken else insert s.pmm.allocFrame.1 s.taken⟩
  | free {frame : Nat} (hframe : frame ∈ s.taken) :
      FrameStep s (.pmmFreeFrame frame) ⟨s.pmm.freeFrame frame, s.taken.erase frame⟩

/-- `pmm_init` has been called. -/
def FrameState.Fresh (memUpperKb kernelEnd : Nat) (s : FrameState) : Prop :=
  s = ⟨PackedPmm.init memUpperKb kernelEnd, ∅⟩

/-- The bits below `total_frames` that are clear. -/
def PackedPmm.clearFrames (p : PackedPmm) : Finset Nat :=
  {f ∈ Finset.range p.totalFrames | testFrame p.bitmap f = false}

theorem PackedPmm.mem_clearFrames {p : PackedPmm} {f : Nat} :
    f ∈ p.clearFrames ↔ f < p.totalFrames ∧ testFrame p.bitmap f = false := by
  rw [PackedPmm.clearFrames, Finset.mem_filter, Finset.mem_range]

theorem PackedPmm.freeSet_unpack (p : PackedPmm) (oom : Bool) :
    freeSet (p.unpack oom) = p.clearFrames := rfl

/-- `pmm_alloc_frame` takes a frame whose bit is clear, if there is one. -/
theorem PackedPmm.allocFrame_spec (p : PackedPmm) :
    (p.clearFrames = ∅ ∧ p.allocFrame = (0, p)) ∨
      ∃ f ∈ p.clearFrames, p.allocFrame.1 = f * 4096 ∧
        p.allocFrame.2.clearFrames = p.clearFrames.erase f ∧
        p.allocFrame.2.totalFrames = p.totalFrames ∧
        p.allocFrame.2.freeFrames = p.freeFrames - 1 := by
  obtain ⟨hres, oom, hstate⟩ := p.unpack_allocFrame false
  rcases freeSet_pmmAllocFrame (p.unpack false) with ⟨hempty, -⟩ | ⟨f, hf, hfree, heq⟩
  · refine .inl ⟨hempty, ?_⟩
    have hnone : findFirst (fun f ↦ !testFrame p.bitmap f) 0 p.totalFrames = none := by
      refine findFirst_eq_none.mpr fun f _ hlt ↦ ?_
      by_contra hclear
      have hmem : f ∈ p.clearFrames := mem_clearFrames.mpr ⟨by omega, by simpa using hclear⟩
      rw [← p.freeSet_unpack false, hempty] at hmem
      exact Finset.notMem_empty f hmem
    rw [PackedPmm.allocFrame, hnone]
  · have hnew := hstate.symm.trans (congrArg Prod.snd heq)
    rw [hstate] at hfree
    exact .inr ⟨f, hf, hres.symm.trans (congrArg Prod.fst heq), hfree,
      congrArg Pmm.totalFrames hnew, congrArg Pmm.freeFrames hnew⟩

/-- `pmm_free_frame` clears the bit of a frame below the end. -/
theorem PackedPmm.freeFrame_spec (p : PackedPmm) {f : Nat} (hlt : f < p.totalFrames)
    (hused : f ∉ p.clearFrames) :
    (p.freeFrame (f * 4096)).clearFrames = insert f p.clearFrames ∧
      (p.freeFrame (f * 4096)).totalFrames = p.totalFrames ∧
      (p.freeFrame (f * 4096)).freeFrames = p.freeFrames + 1 := by
  have htest : testFrame p.bitmap f = true := by
    by_contra hclear
    exact hused (mem_clearFrames.mpr ⟨hlt, by simpa using hclear⟩)
  have heq : p.freeFrame (f * 4096) =
      { p with bitmap := setFree p.bitmap f, freeFrames := p.freeFrames + 1 } := by
    unfold freeFrame
    rw [Nat.mul_div_cancel f (by decide)]
    dsimp only
    rw [if_neg (by omega), if_pos htest]
  rw [heq]
  refine ⟨?_, rfl, rfl⟩
  ext g
  rw [mem_clearFrames, Finset.mem_insert, mem_clearFrames, testFrame_setFree]
  by_cases hg : g = f
  · subst hg
    simp [hlt]
  · simp [hg]

/-- The books are right: of the frames from `lo` up to `hi` those that are not taken are free. -/
structure Booked (lo hi : Nat) (s : FrameState) : Prop where
  total : s.pmm.totalFrames = hi
  count : s.pmm.freeFrames = s.pmm.clearFrames.card
  free : ∀ f, f ∈ s.pmm.clearFrames ↔ lo ≤ f ∧ f < hi ∧ f * 4096 ∉ s.taken
  taken : ∀ a ∈ s.taken, ∃ f, lo ≤ f ∧ f < hi ∧ a = f * 4096

theorem booked_of_unpack {lo : Nat} {p : PackedPmm} {q : Pmm} (hp : p.unpack false = q)
    (hexact : q.Exact) (hfree : freeSet q = Finset.Ico lo q.totalFrames) :
    Booked lo q.totalFrames ⟨p, ∅⟩ := by
  subst hp
  refine ⟨rfl, hexact, fun f ↦ ?_, fun a ha ↦ absurd ha (Finset.notMem_empty a)⟩
  change f ∈ freeSet (p.unpack false) ↔ _
  rw [hfree, Finset.mem_Ico]
  simp

theorem booked_init (memUpperKb kernelEnd : Nat) :
    Booked (firstFrame kernelEnd) (framesOf memUpperKb)
      ⟨PackedPmm.init memUpperKb kernelEnd, ∅⟩ := by
  rw [← pmmInit_totalFrames memUpperKb kernelEnd]
  refine booked_of_unpack (PackedPmm.unpack_init ..) (exact_pmmInit ..) ?_
  rw [freeSet_pmmInit, pmmInit_totalFrames]

section

variable {lo hi : Nat} {s s' : FrameState} {c : FrameCall}

theorem Booked.alloc (h : Booked lo hi s) (hlo : 0 < lo) : Booked lo hi ⟨s.pmm.allocFrame.2,
    if s.pmm.allocFrame.1 = 0 then s.taken else insert s.pmm.allocFrame.1 s.taken⟩ := by
  rcases s.pmm.allocFrame_spec with ⟨-, heq⟩ | ⟨f, hf, hres, hclear, htotal, hcount⟩
  · rw [heq, if_pos rfl]
    exact h
  · obtain ⟨hle, hlt, -⟩ := (h.free f).mp hf
    rw [hres, if_neg (by omega)]
    refine ⟨htotal.trans h.total, ?_, fun g ↦ ?_, fun a ha ↦ ?_⟩
    · change s.pmm.allocFrame.2.freeFrames = s.pmm.allocFrame.2.clearFrames.card
      rw [hcount, hclear, Finset.card_erase_of_mem hf, h.count]
    · change g ∈ s.pmm.allocFrame.2.clearFrames ↔ _ ∧ _ ∧ g * 4096 ∉ insert (f * 4096) s.taken
      rw [hclear, Finset.mem_erase, h.free, Finset.mem_insert, not_or]
      have hiff : g = f ↔ g * 4096 = f * 4096 := by omega
      rw [ne_eq, hiff]
      constructor
      · rintro ⟨hne, hge, hbelow, hfree⟩
        exact ⟨hge, hbelow, hne, hfree⟩
      · rintro ⟨hge, hbelow, hne, hfree⟩
        exact ⟨hne, hge, hbelow, hfree⟩
    · rcases Finset.mem_insert.mp ha with rfl | ha
      · exact ⟨f, hle, hlt, rfl⟩
      · exact h.taken a ha

theorem Booked.free_frame (h : Booked lo hi s) {frame : Nat} (hframe : frame ∈ s.taken) :
    Booked lo hi ⟨s.pmm.freeFrame frame, s.taken.erase frame⟩ := by
  obtain ⟨f, hle, hlt, rfl⟩ := h.taken frame hframe
  have hused : f ∉ s.pmm.clearFrames := fun hf ↦ ((h.free f).mp hf).2.2 hframe
  obtain ⟨hclear, htotal, hcount⟩ := s.pmm.freeFrame_spec (by rw [h.total]; exact hlt) hused
  refine ⟨htotal.trans h.total, ?_, fun g ↦ ?_, fun a ha ↦ h.taken a (Finset.mem_of_mem_erase ha)⟩
  · change (s.pmm.freeFrame (f * 4096)).freeFrames = (s.pmm.freeFrame (f * 4096)).clearFrames.card
    rw [hcount, hclear, Finset.card_insert_of_notMem hused, h.count]
  · change g ∈ (s.pmm.freeFrame (f * 4096)).clearFrames ↔
      _ ∧ _ ∧ g * 4096 ∉ s.taken.erase (f * 4096)
    rw [hclear, Finset.mem_insert, h.free, Finset.mem_erase]
    have hiff : g * 4096 = f * 4096 ↔ g = f := by omega
    rw [ne_eq, hiff]
    by_cases hg : g = f
    · subst hg
      simp [hle, hlt]
    · simp [hg]

theorem Booked.step (h : Booked lo hi s) (hlo : 0 < lo) (hstep : FrameStep s c s') :
    Booked lo hi s' := by
  cases hstep with
  | alloc => exact h.alloc hlo
  | free hframe => exact h.free_frame hframe

end

/-- Frames are handed out from the memory behind the kernel, one at a time.  Wherever a run of
allocations and releases has led, the next address `pmm_alloc_frame` returns is a whole frame
from the reserved end up to the end of memory that is not handed out already, it returns `0` only
if every bit is set, and `pmm_free_count` is the number of clear bits. -/
theorem frames_handed_out_once {memUpperKb kernelEnd : Nat} (hend : kernelEnd < 2 ^ 31)
    {s : FrameState} (hs : Reach (FrameState.Fresh memUpperKb kernelEnd) FrameStep s) :
    (∀ a, s.pmm.allocFrame.1 = a → a ≠ 0 → 4096 ∣ a ∧ reservedEnd kernelEnd ≤ a ∧
        a < s.pmm.totalFrames * 4096 ∧ a ∉ s.taken) ∧
      (s.pmm.allocFrame.1 = 0 ↔ ∀ f < s.pmm.totalFrames, testFrame s.pmm.bitmap f = true) ∧
      s.pmm.freeFrames = s.pmm.clearFrames.card := by
  have hlo := firstFrame_eq hend
  have hbooked : Booked (firstFrame kernelEnd) (framesOf memUpperKb) s := by
    refine hs.invariant ?_ fun _ _ _ hbooked hstep ↦ hbooked.step ?_ hstep
    · rintro _ rfl
      exact booked_init ..
    · unfold reservedEnd at hlo
      omega
  refine ⟨?_, ?_, hbooked.count⟩
  · rintro a rfl hne
    rcases s.pmm.allocFrame_spec with ⟨-, heq⟩ | ⟨f, hf, hres, -⟩
    · exact absurd (congrArg Prod.fst heq) hne
    · obtain ⟨hle, hlt, htaken⟩ := (hbooked.free f).mp hf
      rw [hres, hbooked.total]
      exact ⟨Dvd.intro_left f rfl, by omega, by omega, htaken⟩
  · rcases s.pmm.allocFrame_spec with ⟨hempty, heq⟩ | ⟨f, hf, hres, -⟩
    · refine ⟨fun _ f hlt ↦ ?_, fun _ ↦ congrArg Prod.fst heq⟩
      by_contra hclear
      have hmem := PackedPmm.mem_clearFrames.mpr ⟨hlt, by simpa using hclear⟩
      rw [hempty] at hmem
      exact Finset.notMem_empty f hmem
    · have hle := ((hbooked.free f).mp hf).1
      have hne : s.pmm.allocFrame.1 ≠ 0 := by
        rw [hres]
        unfold reservedEnd at hlo
        omega
      refine ⟨fun hzero ↦ absurd hzero hne, fun hall ↦ ?_⟩
      obtain ⟨hlt, hclear⟩ := PackedPmm.mem_clearFrames.mp hf
      rw [hall f hlt] at hclear
      cases hclear

/-- A kernel that ends at two megabytes, with two frames behind what it reserves: both are
allocated, and the first of them is freed and is the next one. -/
theorem frames_handed_out_once_again : ∃ s, Reach (FrameState.Fresh 2056 0x200000) FrameStep s ∧
    s.taken = {0x301000} ∧ s.pmm.allocFrame.1 = 0x300000 ∧
      s.pmm.freeFrames = s.pmm.clearFrames.card := by
  have htwo : Reach (FrameState.Fresh 2056 0x200000) FrameStep _ :=
    .step (.step (.init rfl) .alloc) .alloc
  have hone := htwo.step (.free (by decide +kernel : 0x300000 ∈ _))
  exact ⟨_, hone, by decide +kernel, by decide +kernel,
    (frames_handed_out_once (by decide) hone).2.2⟩

end FentoOS.Mm
