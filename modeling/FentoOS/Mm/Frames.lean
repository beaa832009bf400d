import FentoOS.Lib.Supply
import FentoOS.Mm.Owners
import FentoOS.Mm.Vmm

/-!
# The supply of frames

The functions of `paging.c` and `vmm.c` take frames from the allocator one by one.  None
of them looks whether there are enough before it starts, and of those behind the first one
most are not checked at all: `pmm_alloc_frame` returns `0`, and the function goes on with
frame 0.  What can be said in any case is how many frames a call asks for; the allocator
fails during the call exactly when so many are not free.
-/

namespace FentoOS.Mm

open FentoOS.Lib

/-- The free frames, and whether an allocation has failed. -/
def Memory.supply (m : Memory) : Supply Nat := ⟨freeSet m.pmm, m.pmm.oom⟩

/-- `n` frames are asked for between the two states. -/
def Memory.Draws (n : Nat) (m m' : Memory) : Prop := Supply.Draws n m.supply m'.supply

section

variable {m m' : Memory} {n : Nat}

theorem mem_free {f : Nat} : f ∈ freeSet m.pmm ↔ f < m.pmm.totalFrames ∧ ¬m.Used f := by
  rw [mem_freeSet, Memory.Used, Bool.not_eq_true]

theorem Memory.Draws.of_pmm (h : m'.pmm = m.pmm) : Memory.Draws 0 m m' := by
  have hsupply : m'.supply = m.supply := by rw [Memory.supply, Memory.supply, h]
  rw [Memory.Draws, hsupply]
  exact .zero _

theorem Memory.Draws.trans {m'' : Memory} {n' : Nat} (h : Memory.Draws n m m')
    (h' : Memory.Draws n' m' m'') : Memory.Draws (n + n') m m'' :=
  Supply.Draws.trans h h'

/-- Writing to memory takes no frames. -/
theorem Memory.Draws.write (h : Memory.Draws n m m') (mem : Bytes) :
    Memory.Draws n m { m' with mem := mem } :=
  h.trans (.of_pmm rfl)

theorem Memory.Draws.clear (h : Memory.Draws n m m') (hoom : m'.pmm.oom = false) :
    m.pmm.oom = false := by
  have hfailed : m'.pmm.oom = (m.pmm.oom || decide ((freeSet m.pmm).card < n)) := h.failed
  rw [hoom] at hfailed
  exact (Bool.or_eq_false_iff.mp hfailed.symm).1

theorem Memory.Draws.oom_iff (h : Memory.Draws n m m') (hclear : m.pmm.oom = false) :
    m'.pmm.oom = true ↔ (freeSet m.pmm).card < n := by
  have hfailed : m'.pmm.oom = (m.pmm.oom || decide ((freeSet m.pmm).card < n)) := h.failed
  rw [hfailed, hclear, Bool.false_or, decide_eq_true_iff]

/-- No allocation fails if there are enough frames. -/
theorem Memory.Draws.clear_of_le (h : Memory.Draws n m m') (hclear : m.pmm.oom = false)
    (hn : n ≤ (freeSet m.pmm).card) : m'.pmm.oom = false := by
  rw [← Bool.not_eq_true, h.oom_iff hclear]
  omega

/-! ## Allocating -/

/-- An allocation hands out a frame that was free, or fails because there is none. -/
theorem allocFrame_cases (m : Memory) :
    (∃ f, f < m.pmm.totalFrames ∧ ¬m.Used f ∧ (allocFrame m).1 = f * 4096 ∧
      (allocFrame m).2.Used f) ∨ (freeSet m.pmm = ∅ ∧ (allocFrame m).1 = 0) := by
  obtain ⟨hempty, heq⟩ | ⟨f, hf, -, heq⟩ := freeSet_pmmAllocFrame m.pmm
  · exact .inr ⟨hempty, by rw [allocFrame, heq]⟩
  · obtain ⟨hlt, hfree⟩ := mem_free.mp hf
    refine .inl ⟨f, hlt, hfree, by rw [allocFrame, heq], ?_⟩
    rw [allocFrame, heq]
    exact Function.update_self ..

theorem used_allocFrame {g : Nat} (h : m.Used g) : (allocFrame m).2.Used g := by
  rw [allocFrame, pmmAllocFrame]
  split
  · exact h
  · change Function.update m.pmm.used _ true g = true
    rw [Function.update_apply]
    split
    · rfl
    · exact h

theorem totalFrames_allocFrame (m : Memory) :
    (allocFrame m).2.pmm.totalFrames = m.pmm.totalFrames := by
  rw [allocFrame, pmmAllocFrame]
  split <;> rfl

theorem draws_allocFrame (m : Memory) : Memory.Draws 1 m (allocFrame m).2 := by
  obtain ⟨hempty, heq⟩ | ⟨f, hf, hleft, heq⟩ := freeSet_pmmAllocFrame m.pmm
  · refine .of_empty hempty ?_ ?_
    · rw [allocFrame, heq]
      exact hempty
    · rw [allocFrame, heq]
      rfl
  · refine .of_erase hf hleft ?_
    rw [allocFrame, heq]
    rfl

/-- With frame 0 not free, the allocator returns `0` only if no frame is free. -/
theorem allocFrame_eq_zero_iff (hzero : 0 ∉ freeSet m.pmm) :
    (allocFrame m).1 = 0 ↔ freeSet m.pmm = ∅ := by
  obtain ⟨f, hlt, hfree, hf, -⟩ | ⟨hempty, hfail⟩ := allocFrame_cases m
  · have hmem : f ∈ freeSet m.pmm := mem_free.mpr ⟨hlt, hfree⟩
    refine ⟨fun h0 ↦ ?_, fun hempty ↦ ?_⟩
    · obtain rfl : f = 0 := by omega
      exact absurd hmem hzero
    · rw [hempty] at hmem
      exact absurd hmem (Finset.notMem_empty f)
  · exact ⟨fun _ ↦ hempty, fun _ ↦ hfail⟩

/-! ## Mapping -/

theorem draws_tableFor (m : Memory) (D di flags : Nat) :
    Memory.Draws (if present (entry m.mem D di) then 0 else 1) m (tableFor m D di flags).2 := by
  rw [tableFor]
  by_cases hp : present (entry m.mem D di)
  · simp only [if_pos hp]
    split <;> exact .of_pmm rfl
  · simp only [if_neg hp]
    exact (draws_allocFrame m).write _

theorem draws_mapInDir (m : Memory) (D va pa flags : Nat) :
    Memory.Draws (if present (entry m.mem D (pdIndex va)) then 0 else 1) m
      (mapInDir m D va pa flags) :=
  (draws_tableFor m D (pdIndex va) flags).write _

theorem copyEntries_pmm (m : Memory) (dir i n : Nat) : (copyEntries m dir i n).pmm = m.pmm := by
  induction n generalizing m i with
  | zero => rfl
  | succ n ih => exact ih (setEntry m dir i _) (i + 1)

theorem draws_halAddrspaceCreate (m : Memory) : Memory.Draws 1 m (halAddrspaceCreate m).2 := by
  rw [halAddrspaceCreate]
  split
  · exact draws_allocFrame m
  · have hpmm := copyEntries_pmm (zeroFrame (allocFrame m).2 (allocFrame m).1)
      (allocFrame m).1 0 256
    generalize copyEntries _ _ _ _ = m₁ at hpmm ⊢
    exact (draws_allocFrame m).trans (.of_pmm hpmm)

theorem draws_clonePages (src dst ti n : Nat) (m : Memory) :
    ∃ c, Memory.Draws c m (clonePages src dst ti n m) := by
  induction n generalizing ti m with
  | zero => exact ⟨0, .of_pmm rfl⟩
  | succ n ih =>
    rw [clonePages]
    simp only
    split
    · obtain ⟨c, hc⟩ := ih (ti + 1) (setEntry { (allocFrame m).2 with
        mem := (allocFrame m).2.mem.memcpy (allocFrame m).1 (allocFrame m).2.mem
          (frameOf (entry m.mem src ti)) 4096 } dst ti
        ((allocFrame m).1 ||| entry m.mem src ti % 4096))
      exact ⟨1 + c, ((draws_allocFrame m).write _).trans hc⟩
    · exact ih (ti + 1) m

theorem draws_cloneTables (src dst di n : Nat) (m : Memory) :
    ∃ c, Memory.Draws c m (cloneTables src dst di n m) := by
  induction n generalizing di m with
  | zero => exact ⟨0, .of_pmm rfl⟩
  | succ n ih =>
    rw [cloneTables]
    simp only
    split
    · obtain ⟨c₁, hc₁⟩ := draws_clonePages (frameOf (entry m.mem src di)) (allocFrame m).1 0 1024
        (setEntry (zeroFrame (allocFrame m).2 (allocFrame m).1) dst di
          ((allocFrame m).1 ||| entry m.mem src di % 4096))
      obtain ⟨c₂, hc₂⟩ := ih (di + 1) (clonePages (frameOf (entry m.mem src di)) (allocFrame m).1
        0 1024 (setEntry (zeroFrame (allocFrame m).2 (allocFrame m).1) dst di
          ((allocFrame m).1 ||| entry m.mem src di % 4096)))
      exact ⟨1 + c₁ + c₂, (((draws_allocFrame m).write _).trans hc₁).trans hc₂⟩
    · exact ih (di + 1) m

/-- The pages that `expand` needs for a number of bytes. -/
def pagesFor (need : Nat) : Nat := (need + 4095) / 4096

/-- Frames are allocated for `n` pages of the kernel from page `q` on. -/
def growPages (m : Memory) : (q n : Nat) → Memory
  | _, 0 => m
  | q, n + 1 =>
    growPages (halPagingMap (allocFrame m).2 (q * 4096) (allocFrame m).1 3) (q + 1) n

/-- The loop of `expand` grows the heap page by page until the need is met or page `top`, where
the limit is, is reached. -/
theorem expandLoop_eq {top : Nat} (htop : top < 2 ^ 20) {q need fuel : Nat} (m : Memory)
    (hq : q ≤ top) (hfuel : top - q ≤ fuel) :
    expandLoop (top * 4096) fuel need (q * 4096) m =
      ((q + min (pagesFor need) (top - q)) * 4096,
        growPages m q (min (pagesFor need) (top - q))) := by
  induction fuel generalizing q need m with
  | zero =>
    have hzero : min (pagesFor need) (top - q) = 0 := by omega
    rw [hzero]
    rfl
  | succ fuel ih =>
    rw [expandLoop]
    by_cases hgo : q * 4096 < top * 4096 ∧ need > 0
    · rw [if_pos hgo]
      obtain ⟨need', hneed'⟩ : ∃ n, n = if need > 4096 then need - 4096 else 0 := ⟨_, rfl⟩
      have hn : min (pagesFor need) (top - q) = min (pagesFor need') (top - (q + 1)) + 1 := by
        unfold pagesFor
        split at hneed' <;> omega
      have hwrap : wrap32 (q * 4096 + 4096) = (q + 1) * 4096 := by
        rw [wrap32_of_lt (by omega), Nat.succ_mul]
      dsimp only
      rw [hwrap, ← hneed', hn, ih _ (by omega) (by omega), growPages, Nat.add_right_comm q 1,
        Nat.add_assoc q]
    · rw [if_neg hgo]
      have hzero : min (pagesFor need) (top - q) = 0 := by
        unfold pagesFor
        omega
      rw [hzero]
      rfl

/-- `expand`, with the heap ending at page `e`. -/
theorem expand_eq {v : Vmm} {e : Nat} (hend : v.heapEnd = e * 4096)
    (hlimit : v.heapLimit = heapMax) (he : e ≤ 0x8000) (need : Nat) : expand v need =
      { v with
        heapEnd := (e + min (pagesFor need) (0x8000 - e)) * 4096
        m := growPages v.m e (min (pagesFor need) (0x8000 - e)) } := by
  have hmax : heapMax = 0x8000 * 4096 := rfl
  have hfuel : 0x8000 - e ≤ (0x8000 * 4096 - e * 4096 + 4095) / 4096 := by omega
  rw [expand, hlimit, hend, hmax, expandLoop_eq (by decide) v.m he hfuel]

end

end FentoOS.Mm
