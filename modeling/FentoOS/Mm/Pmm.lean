import FentoOS.Lib.Search
import FentoOS.Lib.Word

/-!
# Physical frames

`kernel/mm/pmm.c`: a bitmap of the 4096-byte frames of physical memory and the
number of free ones.  Allocation takes the lowest free frame and returns its
address; it returns `0` when there is none, and the flag `oom`, which the code
does not have, remembers that it did.
-/

namespace FentoOS.Mm

open FentoOS.Lib Function

/-- The state of the frame allocator. -/
structure Pmm where
  used : Nat → Bool
  totalFrames : Nat
  freeFrames : Nat
  oom : Bool

/-- The loop of `pmm_init` over the frames it releases. -/
def releaseFrames (p : Pmm) : (f n : Nat) → Pmm
  | _, 0 => p
  | f, n + 1 =>
    releaseFrames { p with
      used := Function.update p.used f false
      freeFrames := p.freeFrames + 1 } (f + 1) n

/-- `total_frames`, for a memory size given in kilobytes above the first megabyte. -/
def framesOf (memUpperKb : Nat) : Nat :=
  min (wrap32 ((1024 + memUpperKb) * 1024) / 4096) (1024 * 1024)

/-- The first frame behind the kernel and the megabyte reserved after it. -/
def firstFrame (kernelEnd : Nat) : Nat :=
  wrap32 (wrap32 (kernelEnd + 4095) / 4096 * 4096 + 0x100000) / 4096

/-- `pmm_init`. -/
def pmmInit (memUpperKb kernelEnd : Nat) : Pmm :=
  releaseFrames
    { used := fun _ ↦ true, totalFrames := framesOf memUpperKb, freeFrames := 0, oom := false }
    (firstFrame kernelEnd) (framesOf memUpperKb - firstFrame kernelEnd)

/-- The frame `pmm_alloc_frame` takes. -/
def nextFrame (p : Pmm) : Option Nat := findFirst (fun f ↦ !p.used f) 0 p.totalFrames

/-- `pmm_alloc_frame`. -/
def pmmAllocFrame (p : Pmm) : Nat × Pmm :=
  match nextFrame p with
  | none => (0, { p with oom := true })
  | some f =>
    (f * 4096,
      { p with used := Function.update p.used f true, freeFrames := p.freeFrames - 1 })

/-- `pmm_free_frame`. -/
def pmmFreeFrame (p : Pmm) (frame : Nat) : Pmm :=
  let f := frame / 4096
  if f ≥ p.totalFrames then p
  else if p.used f then
    { p with used := Function.update p.used f false, freeFrames := p.freeFrames + 1 }
  else p

/-! ## What the functions do to the bitmap -/

/-- An allocation that does not fail takes a free frame. -/
theorem pmmAllocFrame_cases {p : Pmm} (h : (pmmAllocFrame p).2.oom = false) :
    ∃ f, f < p.totalFrames ∧ p.used f = false ∧ pmmAllocFrame p = (f * 4096,
      { p with used := update p.used f true, freeFrames := p.freeFrames - 1 }) := by
  cases hn : nextFrame p with
  | none =>
    rw [pmmAllocFrame, hn] at h
    cases h
  | some f =>
    obtain ⟨-, hlt, hfree, -⟩ := findFirst_eq_some hn
    exact ⟨f, by omega, by simpa using hfree, by rw [pmmAllocFrame, hn]⟩

theorem oom_pmmAllocFrame {p : Pmm} (h : (pmmAllocFrame p).2.oom = false) : p.oom = false := by
  obtain ⟨f, -, -, heq⟩ := pmmAllocFrame_cases h
  rw [heq] at h
  exact h

theorem pmmFreeFrame_totalFrames (p : Pmm) (frame : Nat) :
    (pmmFreeFrame p frame).totalFrames = p.totalFrames := by
  simp only [pmmFreeFrame]
  split_ifs <;> rfl

theorem pmmFreeFrame_oom (p : Pmm) (frame : Nat) : (pmmFreeFrame p frame).oom = p.oom := by
  simp only [pmmFreeFrame]
  split_ifs <;> rfl

theorem pmmFreeFrame_used (p : Pmm) (frame f : Nat) : (pmmFreeFrame p frame).used f = true ↔
    p.used f = true ∧ ¬(frame / 4096 = f ∧ f < p.totalFrames) := by
  simp only [pmmFreeFrame]
  split_ifs with hge hused
  · exact ⟨fun h ↦ ⟨h, by omega⟩, And.left⟩
  · by_cases hf : f = frame / 4096
    · subst hf
      simp
      omega
    · simp [update_of_ne hf, Ne.symm hf]
  · constructor
    · intro h
      refine ⟨h, fun hf ↦ hused ?_⟩
      rw [hf.1, h]
    · exact And.left

/-! ## The number of free frames -/

/-- The frames that are free. -/
def freeSet (p : Pmm) : Finset Nat := {f ∈ Finset.range p.totalFrames | p.used f = false}

/-- `free_frames` counts the free frames. -/
def Pmm.Exact (p : Pmm) : Prop := p.freeFrames = (freeSet p).card

theorem mem_freeSet {p : Pmm} {f : Nat} :
    f ∈ freeSet p ↔ f < p.totalFrames ∧ p.used f = false := by
  rw [freeSet, Finset.mem_filter, Finset.mem_range]

/-- An allocation fails when no frame is free, and takes a free frame otherwise. -/
theorem freeSet_pmmAllocFrame (p : Pmm) :
    (freeSet p = ∅ ∧ pmmAllocFrame p = (0, { p with oom := true })) ∨
    ∃ f ∈ freeSet p, freeSet (pmmAllocFrame p).2 = (freeSet p).erase f ∧
      pmmAllocFrame p = (f * 4096,
        { p with used := update p.used f true, freeFrames := p.freeFrames - 1 }) := by
  cases hn : nextFrame p with
  | none =>
    refine .inl ⟨Finset.eq_empty_of_forall_notMem fun f hf ↦ ?_, by rw [pmmAllocFrame, hn]⟩
    obtain ⟨hlt, hfree⟩ := mem_freeSet.mp hf
    have hused := findFirst_eq_none.mp hn f (Nat.zero_le f) (by omega)
    simp [hfree] at hused
  | some f =>
    obtain ⟨-, hlt, hfree, -⟩ := findFirst_eq_some hn
    have heq : pmmAllocFrame p = (f * 4096,
        { p with used := update p.used f true, freeFrames := p.freeFrames - 1 }) := by
      rw [pmmAllocFrame, hn]
    refine .inr ⟨f, mem_freeSet.mpr ⟨by omega, by simpa using hfree⟩, ?_, heq⟩
    ext g
    rw [heq, Finset.mem_erase, mem_freeSet, mem_freeSet]
    by_cases hg : g = f
    · simp [hg]
    · simp [hg]

theorem Pmm.Exact.alloc {p : Pmm} (h : p.Exact) : (pmmAllocFrame p).2.Exact := by
  obtain ⟨-, heq⟩ | ⟨f, hf, hfree, heq⟩ := freeSet_pmmAllocFrame p
  · rw [heq]
    exact h
  · rw [Pmm.Exact, hfree, Finset.card_erase_of_mem hf, heq, ← h]

theorem Pmm.Exact.free {p : Pmm} (h : p.Exact) (frame : Nat) : (pmmFreeFrame p frame).Exact := by
  simp only [pmmFreeFrame]
  split_ifs with hge hused
  · exact h
  · set q : Pmm := { p with
      used := update p.used (frame / 4096) false
      freeFrames := p.freeFrames + 1 } with hq
    have hnmem : frame / 4096 ∉ freeSet p := by
      rw [mem_freeSet, hused]
      simp
    have hinsert : freeSet q = insert (frame / 4096) (freeSet p) := by
      ext g
      rw [Finset.mem_insert, mem_freeSet, mem_freeSet]
      by_cases hg : g = frame / 4096
      · subst hg
        simp [hq]
        omega
      · simp [hq, hg]
    rw [Pmm.Exact, hinsert, Finset.card_insert_of_notMem hnmem, ← h]
  · exact h

/-! ## After `pmm_init` -/

theorem releaseFrames_used (p : Pmm) (f n g : Nat) : (releaseFrames p f n).used g =
    if f ≤ g ∧ g < f + n then false else p.used g := by
  induction n generalizing p f with
  | zero => rw [if_neg (by omega)]; rfl
  | succ n ih =>
    rw [releaseFrames, ih]
    by_cases hg : g = f
    · subst hg
      simp
    · change (if _ then false else update p.used f false g) = _
      rw [update_of_ne hg]
      by_cases hlt : f + 1 ≤ g ∧ g < f + 1 + n
      · rw [if_pos hlt, if_pos (by omega)]
      · rw [if_neg hlt, if_neg (by omega)]

theorem releaseFrames_totalFrames (p : Pmm) (f n : Nat) :
    (releaseFrames p f n).totalFrames = p.totalFrames := by
  induction n generalizing p f with
  | zero => rfl
  | succ n ih => rw [releaseFrames, ih]

theorem pmmInit_totalFrames (memUpperKb kernelEnd : Nat) :
    (pmmInit memUpperKb kernelEnd).totalFrames = framesOf memUpperKb := by
  rw [pmmInit, releaseFrames_totalFrames]

theorem pmmInit_used_eq_false {memUpperKb kernelEnd f : Nat}
    (h : (pmmInit memUpperKb kernelEnd).used f = false) :
    firstFrame kernelEnd ≤ f ∧ f < framesOf memUpperKb := by
  rw [pmmInit, releaseFrames_used] at h
  split at h
  · omega
  · cases h

theorem framesOf_le (memUpperKb : Nat) : framesOf memUpperKb ≤ 2 ^ 20 := min_le_right ..

theorem exact_releaseFrames {p : Pmm} (h : p.Exact) {f n : Nat} (hn : f + n ≤ p.totalFrames)
    (hused : ∀ g, f ≤ g → g < f + n → p.used g = true) : (releaseFrames p f n).Exact := by
  induction n generalizing p f with
  | zero => exact h
  | succ n ih =>
    have hfree := h.free (f * 4096)
    have hf := hused f le_rfl (by omega)
    rw [pmmFreeFrame, Nat.mul_div_cancel _ (by decide)] at hfree
    simp only [hf, if_true, if_neg (show ¬f ≥ p.totalFrames by omega)] at hfree
    refine ih hfree (by simp only; omega) fun g hg hg' ↦ ?_
    simp only
    rw [update_of_ne (by omega)]
    exact hused g (by omega) (by omega)

theorem exact_pmmInit (memUpperKb kernelEnd : Nat) : (pmmInit memUpperKb kernelEnd).Exact := by
  have hempty : ∀ T, Pmm.Exact ⟨fun _ ↦ true, T, 0, false⟩ := by
    intro T
    rw [Pmm.Exact, eq_comm, Finset.card_eq_zero, Finset.eq_empty_iff_forall_notMem]
    intro f hf
    cases (mem_freeSet.mp hf).2
  by_cases hle : firstFrame kernelEnd ≤ framesOf memUpperKb
  · exact exact_releaseFrames (hempty _) (by simp only; omega) fun _ _ _ ↦ rfl
  · rw [pmmInit, Nat.sub_eq_zero_of_le (by omega)]
    exact hempty _

end FentoOS.Mm
