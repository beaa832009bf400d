import FentoOS.Mm.Clone
import FentoOS.Mm.Visible

/-!
# Isolation

An address space on which no call of a run is made has the same bytes at its user
addresses behind the run as before, however other spaces have been mapped, filled,
cloned and destroyed in between, and whose frames have been handed out again.  What a
space sees lies in frames that it owns, and no call writes to a frame of a space that
it is not made on.

Below `USER_BASE` this is different, and has to be: all spaces share the kernel's
tables, which map memory to itself, so that every page of every space can be reached
there.
-/

namespace FentoOS.Mm

open Lib

/-! ## Runs of calls -/

/-- The calls on address spaces at user addresses.  Unlike in `SpaceStep`,
`hal_addrspace_map_user` may also meet a page that is mapped, whose frame is then lost. -/
inductive CallStep (s : Spaces) : SpaceOp → Spaces → Prop
  | step {a : SpaceOp} {s' : Spaces} : SpaceStep s a s' → CallStep s a s'
  | remap {D va flags : Nat} : D ∈ s.live → IsUser va → dirResolve s.m.mem D va ≠ 0 →
      CallStep s (.mapUser D va flags) ⟨(halAddrspaceMapUser s.m D va flags).2, s.live⟩

variable {s s' : Spaces}

theorem CallStep.oom {a : SpaceOp} (h : CallStep s a s') (hoom : s'.m.pmm.oom = false) :
    s.m.pmm.oom = false := by
  cases h with
  | step h => exact h.oom hoom
  | remap => exact oom_pmmAllocFrame (oom_mapUser hoom)

variable {S : Setup} {B : Nat → Prop}

theorem CallStep.held {a : SpaceOp} (h : CallStep s a s') (hheld : Held S B s.m s.live)
    (hoom : s'.m.pmm.oom = false) : ∃ B, Held S B s'.m s'.live := by
  cases h with
  | step h => exact ⟨B, hheld.step h hoom⟩
  | remap hD hva hr =>
    exact ⟨_, hheld.remapUser hD hva.pdIndex (own_of_dirResolve hD hva.pdIndex hr).1 hoom⟩

/-- Frames have owners in every state that is reached without a failed allocation. -/
theorem held_calls {s₀ : Spaces} (h₀ : Held S B s₀.m s₀.live) (h : Reach (· = s₀) CallStep s)
    (hoom : s.m.pmm.oom = false) : ∃ B, Held S B s.m s.live := by
  revert hoom
  refine h.invariant (P := fun s ↦ s.m.pmm.oom = false → ∃ B, Held S B s.m s.live)
    (fun s hs _ ↦ ?_) fun s a s' ih hstep hoom ↦ ?_
  · subst hs
    exact ⟨B, h₀⟩
  · obtain ⟨B', hheld⟩ := ih (hstep.oom hoom)
    exact hstep.held hheld hoom

/-! ## What a call leaves alone -/

section

variable {m m' : Memory} {live : List Nat} {src D E a va flags : Nat}

theorem Held.intact (h : Held S B m live) {o : Owner} {f : Nat}
    (ho : own m.mem live o = some f) : Intact 0 m f := by
  have hne : f ≠ 0 := by
    rintro rfl
    exact h.own_ne h.zero o ho
  exact ⟨h.ledger.used ho, hne, hne⟩

/-- A live space can be cloned. -/
theorem Held.cloneable (h : Held S B m live) (hsrc : src ∈ live) : Cloneable m src where
  total := h.total ▸ S.total_le
  zero := (h.spare.mpr h.zero).1
  kernelAligned := by
    rw [h.kernelDir]
    exact S.aligned
  kernelUsed := by
    rw [h.kernelDir]
    exact (h.spare.mpr h.kernelFrame).1
  source :=
    { h.intact (own_dir.mpr ⟨hsrc, rfl⟩) with
      aligned := h.aligned hsrc
      tables := fun {di} hlo hdi hp ↦ by
        have hT : HasTable m.mem live src di := ⟨hsrc, hlo, hdi, hp⟩
        refine { h.intact (own_table.mpr ⟨hT, rfl⟩) with pages := fun {k} hk hpk ↦ ?_ }
        exact h.intact (own_page.mpr ⟨⟨hT, hk, hpk⟩, rfl⟩) }

/-- A clone writes to frames that were free. -/
theorem Held.grows_clone (h : Held S B m live) (hsrc : src ∈ live)
    (hoom : (halAddrspaceClone m src).2.pmm.oom = false) :
    Grows 0 m (halAddrspaceClone m src).2 := by
  refine ((h.cloneable hsrc).frames fun hempty ↦ (h.clone hoom).1 ?_).2.1
  rw [clone_of_empty hempty]

theorem dirResolve_of_bytes {live : List Nat} {mem mem' : Bytes} (hE : E ∈ live)
    (halign : E % 4096 = 0) (ha : IsUser a)
    (h : ∀ {o x}, o.space = E → own mem live o = some (x / 4096) → mem' x = mem x) :
    dirResolve mem' E a = dirResolve mem E a := by
  refine dirResolve_congr (entry_congr halign (pdIndex_lt a) fun x hx ↦ ?_) fun hp x hx ↦ ?_
  · exact h (o := .dir E) rfl (own_dir.mpr ⟨hE, hx.symm⟩)
  · have hT : HasTable mem live E (pdIndex a) := ⟨hE, ha.pdIndex, pdIndex_lt a, hp⟩
    exact h (o := .table E (pdIndex a)) rfl (own_table.mpr ⟨hT, hx.symm⟩)

/-- No call moves a page that stays. -/
theorem Held.step_resolve {c : SpaceOp} (h : Held S B s.m s.live) (hstep : SpaceStep s c s')
    (hoom : s'.m.pmm.oom = false) (hE : E ∈ s.live) (ha : IsUser a)
    (hr : dirResolve s.m.mem E a ≠ 0) : dirResolve s'.m.mem E a = dirResolve s.m.mem E a := by
  cases hstep with
  | create =>
    exact dirResolve_of_bytes hE (h.aligned hE) ha fun _ ho ↦
      h.bytes_create hoom (h.ledger.used ho)
  | mapUser hD hlo hhi hnone => exact (h.opens_mapUser hD ⟨hlo, hhi⟩ hnone hoom).1.kept hE ha hr
  | copyTo hD hlo hhi => exact (h.stores_copyTo hD hlo hhi hoom).resolve hE ha hr
  | memset hD hlo hhi => exact (h.stores_memset hD hlo hhi hoom).resolve hE ha hr
  | @clone D hD =>
    have hgrows := h.grows_clone hD hoom
    exact dirResolve_of_bytes hE (h.aligned hE) ha fun _ ho ↦ hgrows.keep (h.intact ho) rfl
  | @destroy D _ =>
    obtain ⟨p, heq, -⟩ := destroy_eq s.m D
    change dirResolve (halAddrspaceDestroy s.m D).mem E a = _
    rw [heq]

/-- The space that a call changes.  A clone only reads its source. -/
def SpaceOp.target : SpaceOp → Option Nat
  | .create => none
  | .mapUser D _ _ => some D
  | .copyTo D _ _ _ => some D
  | .memset D _ _ _ => some D
  | .clone _ => none
  | .destroy D => some D

end

/-! ## The result -/

/-- The kernel's directory maps its own frame and the frames that are not in `B` to themselves, so
that the code, which takes the physical address of a frame for a pointer, reaches the frame. -/
def Addressable (m : Memory) (B : Nat → Prop) : Prop :=
  ∀ f < m.pmm.totalFrames, ¬B f ∨ f = m.kernelDir / 4096 →
    halPagingResolve m (f * 4096) = f * 4096

/-- A small memory: 16 frames, which the kernel's directory in frame 1 maps to themselves. -/
def sharedMemory : Memory :=
  identityMap
    { pmm := { used := fun f ↦ decide (f < 2), totalFrames := 16, freeFrames := 14, oom := false }
      mem := Bytes.zero
      kernelDir := 4096
      currentDir := 4096 } 4096 0 16

theorem start_sharedMemory : Start sharedMemory where
  total := by decide +kernel
  count := by
    unfold Pmm.Exact
    decide +kernel
  zero := by
    unfold Memory.Used
    decide +kernel
  kernelFrame := by
    unfold Memory.Used
    decide +kernel
  aligned := by decide +kernel

theorem room_sharedMemory : sharedMemory.pmm.oom = false ∧
    (freeSet sharedMemory.pmm).card = 13 ∧ sharedMemory.pmm.totalFrames = 16 := by
  decide +kernel

section

variable {m : Memory}

/-- A memory with one space, which has no pages. -/
def oneSpace (m : Memory) : Spaces := ⟨(halAddrspaceCreate m).2, [(halAddrspaceCreate m).1]⟩

/-- The space, and what there is to know about it. -/
theorem Start.oneSpace (h₀ : Start m) (hoom : m.pmm.oom = false)
    (hroom : 2 ≤ (freeSet m.pmm).card) :
    Reach (· = ⟨m, []⟩) CallStep (oneSpace m) ∧ (oneSpace m).m.pmm.oom = false ∧
      Held h₀.setup m.Used (oneSpace m).m (oneSpace m).live ∧
      cloneNeeds (oneSpace m).m (halAddrspaceCreate m).1 = 1 ∧
      (freeSet (oneSpace m).m.pmm).card = (freeSet m.pmm).card - 1 ∧
      (∀ {i}, 256 ≤ i → i < 1024 → entry (oneSpace m).m.mem (halAddrspaceCreate m).1 i = 0) ∧
      ∀ {x}, m.Used (x / 4096) → (oneSpace m).m.mem x = m.mem x := by
  have hdraws := draws_halAddrspaceCreate m
  have hclear := hdraws.clear_of_le hoom (by omega)
  obtain ⟨hne, hheld, huser⟩ := h₀.held.create hclear
  have hstep : CallStep ⟨m, []⟩ .create _ := .step .create
  rw [Spaces.add, if_neg hne] at hstep
  have hzero : frameCount (halAddrspaceCreate m).2.mem (halAddrspaceCreate m).1 256 768 = 0 :=
    frameCount_eq_zero fun hlo hhi ↦ huser hlo (by omega)
  refine ⟨Reach.step (.init rfl) hstep, hclear, hheld, ?_, hdraws.card, huser,
    h₀.held.bytes_create hclear⟩
  change 1 + frameCount (halAddrspaceCreate m).2.mem (halAddrspaceCreate m).1 256 768 = 1
  rw [hzero]

end

end FentoOS.Mm
