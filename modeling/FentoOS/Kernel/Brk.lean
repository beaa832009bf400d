import FentoOS.Kernel.System
import FentoOS.Mm.Isolation
import FentoOS.Mm.MapRange

/-!
# The program break

`sys_brk` of `kernel/syscall/syscall.c`.  When the break grows, every page between the
old and the new break is mapped, without a look at whether it is mapped already or
whether a frame is found.  So the break only adds memory as long as the pages it
grows into are not mapped and there are frames for them; a task that lowers its break
and raises it again loses what it had stored.
-/

namespace FentoOS.Kernel

open Lib Mm

/-- `(a + 0xFFF) & ~0xFFFu`. -/
def pageUp (a : Nat) : Nat := frameOf (wrap32 (a + 0xFFF))

/-- The loop of `sys_brk`. -/
def brkLoop (dir limit : Nat) : (fuel va : Nat) → Memory → Memory
  | 0, _, m => m
  | fuel + 1, va, m =>
    if va < limit then
      brkLoop dir limit fuel (wrap32 (va + 0x1000)) (halAddrspaceMapUser m dir va 0).2
    else m

/-- `sys_brk`. -/
def sysBrk (k : Machine) (addr : Nat) : Int × Machine :=
  k.withCurrent fun t T ↦
    if addr = 0 then (sint32 T.brk, k)
    else
      let mem := if T.brk < addr then
          brkLoop T.addrspace (pageUp addr) (pageUp addr) (pageUp T.brk) k.mem
        else k.mem
      (sint32 addr, { k with mem := mem }.upd t fun T ↦ { T with brk := addr })

section

variable {k : Machine} {t : Addr} {T : Task} {addr : Nat}

theorem pageUp_mod (a : Nat) : pageUp a % 4096 = 0 := frameOf_mod _

theorem pageUp_of_le (h : addr ≤ 0xFFFFF000) :
    addr ≤ pageUp addr ∧ pageUp addr < addr + 4096 ∧ pageUp addr ≤ 0xFFFFF000 := by
  have hwrap : wrap32 (addr + 0xFFF) = addr + 0xFFF := wrap32_of_lt (by omega)
  unfold pageUp frameOf
  rw [hwrap]
  omega

/-- The loop maps the pages of the range. -/
theorem brkLoop_eq (dir limit : Nat) {fuel va n : Nat} (hn : va + n * 4096 = limit)
    (hlimit : limit < 2 ^ 32) (hfuel : n ≤ fuel) (m : Memory) :
    brkLoop dir limit fuel va m = mapPages dir va n m := by
  induction fuel generalizing va n m with
  | zero =>
    obtain rfl : n = 0 := by omega
    rfl
  | succ fuel ih =>
    rw [brkLoop]
    obtain _ | n := n
    · rw [if_neg (by omega)]
      rfl
    · rw [if_pos (by omega), wrap32_of_lt (by omega), mapPages]
      exact ih (by omega) (by omega) _

end

/-! ## Calls in a run -/

/-- The kernel, and the address spaces that are live. -/
structure BrkState where
  k : Machine
  live : List Nat

inductive BrkEvent
  | brk (addr : Nat)
  | space (c : SpaceOp)

/-- The task calls `sys_brk`, or something else happens to address spaces, for which frames are
found and which does not end the space `D`. -/
inductive BrkStep (D : Nat) (w : BrkState) : BrkEvent → BrkState → Prop
  | brk {addr : Nat} : addr < 2 ^ 32 → BrkStep D w (.brk addr) ⟨(sysBrk w.k addr).2, w.live⟩
  | space {c : SpaceOp} {s : Spaces} : SpaceStep ⟨w.k.mem, w.live⟩ c s → s.m.pmm.oom = false →
      D ∈ s.live → BrkStep D w (.space c) ⟨{ w.k with mem := s.m }, s.live⟩

/-- The current task `t` has the live space `D`, and `brk₀` is an address at which a break starts:
a user address at the start of a page, as `elf_load` returns it.  The tables of the kernel's
half of the spaces are in frames of the kernel. -/
structure BrkTask (S : Setup) (B : Nat → Prop) (t : Addr) (D brk₀ : Nat) (w : BrkState) : Prop where
  held : Held S B w.k.mem w.live
  clear : w.k.mem.pmm.oom = false
  live : D ∈ w.live
  current : w.k.current = some t
  task : ∃ T, w.k.tasks t = some T ∧ T.addrspace = D
  aligned : brk₀ % 4096 = 0
  user : IsUser brk₀
  tables : ∀ {i}, i < 256 → present (S.entries i) → B (S.entries i / 4096)

/-- The task before its first call.  The frames that others do not use can be addressed. -/
structure BrkStart (S : Setup) (B : Nat → Prop) (t : Addr) (D brk₀ : Nat) (w : BrkState) : Prop
    extends BrkTask S B t D brk₀ w where
  brk : ∀ {T}, w.k.tasks t = some T → T.brk = brk₀
  direct : Addressable w.k.mem B

/-- Everything from `brk₀` to the break is mapped. -/
structure BrkInv (S : Setup) (B : Nat → Prop) (t : Addr) (D brk₀ : Nat) (w : BrkState) : Prop
    extends BrkTask S B t D brk₀ w where
  lt : ∀ {T}, w.k.tasks t = some T → T.brk < 2 ^ 32
  mapped : ∀ {T a}, w.k.tasks t = some T → brk₀ ≤ a → a < T.brk →
    dirResolve w.k.mem.mem D a ≠ 0

/-- A call that raises the break raises it from a user address to one that can be rounded up, no
page in between is mapped, and there are frames for the pages and their tables. -/
def BrkFits (t : Addr) (w : BrkState) : BrkEvent → Prop
  | .brk addr => ∀ T, w.k.tasks t = some T → T.brk < addr →
      userBase ≤ T.brk ∧ addr ≤ 0xFFFFF000 ∧
      (∀ a, pageUp T.brk ≤ a → a < pageUp addr → dirResolve w.k.mem.mem T.addrspace a = 0) ∧
      mapNeeds w.k.mem.mem T.addrspace (pageUp T.brk) ((pageUp addr - pageUp T.brk) / 4096) ≤
        (freeSet w.k.mem.pmm).card
  | .space _ => True

section

variable {S : Setup} {B : Nat → Prop} {t : Addr} {D brk₀ addr : Nat} {w : BrkState}

theorem BrkStart.inv (h : BrkStart S B t D brk₀ w) : BrkInv S B t D brk₀ w where
  toBrkTask := h.toBrkTask
  lt hT := h.brk hT ▸ h.user.2
  mapped hT hlo hhi := by
    rw [h.brk hT] at hhi
    omega

/-- The memory behind a call that raises the break. -/
structure BrkGrown (S : Setup) (B : Nat → Prop) (D brk₀ addr : Nat) (w : BrkState)
    (m : Memory) : Prop where
  held : Held S B m w.live
  clear : m.pmm.oom = false
  opens : ∃ lo hi, OpensRange w.live D lo hi w.k.mem m
  others : ∀ {x}, B (x / 4096) → m.mem x = w.k.mem.mem x
  mapped : ∀ {a}, brk₀ ≤ a → a < addr → dirResolve m.mem D a ≠ 0

theorem BrkInv.grow (h : BrkInv S B t D brk₀ w) {T : Task} (hT : w.k.tasks t = some T)
    (hbrk : T.brk < addr) (hfits : BrkFits t w (.brk addr)) :
    BrkGrown S B D brk₀ addr w
      (brkLoop T.addrspace (pageUp addr) (pageUp addr) (pageUp T.brk) w.k.mem) := by
  obtain ⟨T', hT', rfl⟩ := h.task
  obtain rfl : T = T' := Option.some.inj (hT.symm.trans hT')
  obtain ⟨hlo, hhi, hnone, hroom⟩ := hfits T hT hbrk
  obtain ⟨hup₁, hup₂, -⟩ := pageUp_of_le (by omega : T.brk ≤ 0xFFFFF000)
  obtain ⟨hup₁', hup₂', hup₃'⟩ := pageUp_of_le hhi
  have hm₁ := pageUp_mod T.brk
  have hm₂ := pageUp_mod addr
  have hn : pageUp T.brk + (pageUp addr - pageUp T.brk) / 4096 * 4096 = pageUp addr := by omega
  have hmaps := h.held.mapsRange h.live hm₁ (by omega) (by omega) h.clear
    (fun hlo' hlt ↦ hnone _ hlo' (by omega)) hroom
  rw [brkLoop_eq _ _ hn (by omega) (by omega)]
  refine ⟨hmaps.held, hmaps.clear, ⟨_, _, hmaps.opens⟩, hmaps.others, fun {a} ha hlt ↦ ?_⟩
  have hstart := h.aligned
  have huser : IsUser a := ⟨h.user.1.trans ha, by omega⟩
  -- Below the old break, in the rest of its page, and in the pages that are new.
  have hold : ∀ {b}, brk₀ ≤ b → b < T.brk → a / 4096 = b / 4096 →
      dirResolve (mapPages T.addrspace (pageUp T.brk) ((pageUp addr - pageUp T.brk) / 4096)
        w.k.mem).mem T.addrspace a ≠ 0 := by
    intro b hb hbT hpage
    have hr := h.mapped hT hb hbT
    rw [← dirResolve_page _ _ hpage] at hr
    rwa [hmaps.opens.kept h.live huser hr]
  by_cases hbelow : a < T.brk
  · exact hold ha hbelow rfl
  · by_cases hpage : a < pageUp T.brk
    · exact hold (b := T.brk - 1) (by omega) (by omega) (by omega)
    · exact hmaps.mapped (by omega) (by omega)

/-! ## One call -/

/-- The pages of the kernel's half stay where they are. -/
theorem BrkTask.resolve_kernel (h : BrkTask S B t D brk₀ w) {m : Memory} (hm : Held S B m w.live)
    (hothers : ∀ {x}, B (x / 4096) → m.mem x = w.k.mem.mem x) {E a : Nat} (hE : E ∈ w.live)
    (ha : a < userBase) : dirResolve m.mem E a = dirResolve w.k.mem.mem E a := by
  have hpd : pdIndex a < 256 := by
    unfold userBase at ha
    unfold pdIndex
    omega
  have hentry := h.held.entries hE hpd
  refine dirResolve_congr ((hm.entries hE hpd).trans hentry.symm) fun hp x hx ↦ hothers ?_
  rw [hentry] at hp hx
  exact hx ▸ h.tables hpd hp

/-- **What the break adds.**  If the call returns the address that was asked for, everything from
`brk₀` to it is mapped; pages that were mapped are where they were, and at user addresses and
in the frames of the kernel there are the same bytes; and if a page below the address is
missing, the break is the old one. -/
structure BrkAdds (B : Nat → Prop) (t : Addr) (D brk₀ addr : Nat) (w : BrkState)
    (r : Int × Machine) : Prop where
  mapped : r.1 = sint32 addr → ∀ {a}, brk₀ ≤ a → a < addr → dirResolve r.2.mem.mem D a ≠ 0
  kept : ∀ {E a}, E ∈ w.live → a < 2 ^ 32 → dirResolve w.k.mem.mem E a ≠ 0 →
    dirResolve r.2.mem.mem E a = dirResolve w.k.mem.mem E a
  bytes : ∀ {E a}, E ∈ w.live → a < 2 ^ 32 → dirResolve w.k.mem.mem E a ≠ 0 →
    userBase ≤ a ∨ B (dirResolve w.k.mem.mem E a / 4096) → byteAt r.2.mem E a = byteAt w.k.mem E a
  refused : (∃ a, brk₀ ≤ a ∧ a < addr ∧ dirResolve r.2.mem.mem D a = 0) →
    ∀ {T T'}, w.k.tasks t = some T → r.2.tasks t = some T' → T'.brk = T.brk

theorem BrkTask.adds {r : Int × Machine} (h : BrkTask S B t D brk₀ w)
    (hr : BrkGrown S B D brk₀ addr w r.2.mem) : BrkAdds B t D brk₀ addr w r := by
  obtain ⟨lo, hi, hopens⟩ := hr.opens
  have hkept : ∀ {E a}, E ∈ w.live → a < 2 ^ 32 → dirResolve w.k.mem.mem E a ≠ 0 →
      dirResolve r.2.mem.mem E a = dirResolve w.k.mem.mem E a := by
    intro E a hE ha hres
    by_cases hlow : a < userBase
    · exact h.resolve_kernel hr.held hr.others hE hlow
    · exact hopens.kept hE ⟨by omega, ha⟩ hres
  refine ⟨fun _ ↦ hr.mapped, hkept, fun {E a} hE ha hres hframe ↦ ?_, ?_⟩
  · by_cases hlow : userBase ≤ a
    · exact hopens.byteAt_kept hE ⟨hlow, ha⟩ fun hnone ↦ hres (byteAt_eq_none.mp hnone)
    · have hB := hframe.resolve_left hlow
      rw [byteAt_of_resolve hres, byteAt_of_resolve (by rwa [hkept hE ha hres]),
        hkept hE ha hres, hr.others]
      have hmod := dirResolve_mod w.k.mem.mem E a
      have hframe' : (dirResolve w.k.mem.mem E a + a % 4096) / 4096 =
        dirResolve w.k.mem.mem E a / 4096 := by omega
      rwa [hframe']
  · rintro ⟨a, hlo, hhi, hres⟩
    exact absurd hres (hr.mapped hlo hhi)

theorem BrkInv.stays (h : BrkInv S B t D brk₀ w)
    (hle : ∀ {T}, w.k.tasks t = some T → addr ≤ T.brk) :
    BrkGrown S B D brk₀ addr w w.k.mem := by
  obtain ⟨T, hT, -⟩ := h.task
  exact ⟨h.held, h.clear, ⟨0, 0, .refl ..⟩, fun _ ↦ rfl,
    fun hlo hhi ↦ h.mapped hT hlo (hhi.trans_le (hle hT))⟩

/-- The break has moved to `addr`. -/
theorem BrkInv.move (h : BrkInv S B t D brk₀ w) {m : Memory} (hm : BrkGrown S B D brk₀ addr w m)
    (haddr : addr < 2 ^ 32) :
    BrkInv S B t D brk₀
      ⟨{ w.k with mem := m }.upd t fun T ↦ { T with brk := addr }, w.live⟩ := by
  obtain ⟨T, hT, hD⟩ := h.task
  have htask : ∀ {T'}, ({ w.k with mem := m }.upd t fun T ↦ { T with brk := addr }).tasks t =
      some T' → T' = { T with brk := addr } := by
    intro T' hT'
    rw [upd_tasks, if_pos rfl] at hT'
    change (w.k.tasks t).map _ = some T' at hT'
    rw [hT] at hT'
    exact (Option.some.inj hT').symm
  refine ⟨⟨hm.held, hm.clear, h.live, h.current, ⟨{ T with brk := addr }, ?_, hD⟩, h.aligned,
    h.user, h.tables⟩, fun hT' ↦ ?_, fun hT' hlo hhi ↦ ?_⟩
  · rw [upd_tasks, if_pos rfl]
    change (w.k.tasks t).map _ = _
    rw [hT]
    rfl
  · rw [htask hT']
    exact haddr
  · rw [htask hT'] at hhi
    exact hm.mapped hlo hhi

/-- One call that fits. -/
theorem BrkInv.call (h : BrkInv S B t D brk₀ w) (haddr : addr < 2 ^ 32)
    (hfits : BrkFits t w (.brk addr)) :
    BrkGrown S B D brk₀ addr w (sysBrk w.k addr).2.mem ∧
      BrkInv S B t D brk₀ ⟨(sysBrk w.k addr).2, w.live⟩ := by
  obtain ⟨T, hT, hD⟩ := h.task
  rw [sysBrk, withCurrent_eq h.current hT]
  by_cases h0 : addr = 0
  · rw [if_pos h0]
    exact ⟨h.stays fun _ ↦ h0 ▸ Nat.zero_le _, h⟩
  · rw [if_neg h0]
    by_cases hbrk : T.brk < addr
    · have hgrown := h.grow hT hbrk hfits
      simp only [if_pos hbrk]
      exact ⟨hgrown, h.move hgrown haddr⟩
    · have hstays : BrkGrown S B D brk₀ addr w w.k.mem := h.stays fun hT' ↦ by
        rw [← Option.some.inj (hT.symm.trans hT')]
        omega
      simp only [if_neg hbrk]
      exact ⟨hstays, h.move hstays haddr⟩

theorem BrkInv.step {e : BrkEvent} {w' : BrkState} (h : BrkInv S B t D brk₀ w)
    (hfits : BrkFits t w e) (hstep : BrkStep D w e w') : BrkInv S B t D brk₀ w' := by
  cases hstep with
  | brk haddr => exact (h.call haddr hfits).2
  | space hspace hoom hD =>
    refine ⟨⟨h.held.step hspace hoom, hoom, hD, h.current, h.task, h.aligned, h.user, h.tables⟩,
      h.lt, fun {T a} hT hlo hhi ↦ ?_⟩
    have hr := h.mapped hT hlo hhi
    have huser : IsUser a := ⟨h.user.1.trans hlo, hhi.trans (h.lt hT)⟩
    change dirResolve _ D a ≠ 0
    rwa [h.held.step_resolve hspace hoom h.live huser hr]

end

/-- **The program break only adds memory**, in every run in which each call that raises the break
does so from a user address to one that can be rounded up to a page, over pages none of which
is mapped, and with frames for them. -/
theorem brk_only_adds {S : Setup} {B : Nat → Prop} {t : Addr} {D brk₀ : Nat} {w₀ w : BrkState}
    (h₀ : BrkStart S B t D brk₀ w₀) (h : Reach (· = w₀) (Under (BrkFits t) (BrkStep D)) w)
    {addr : Nat} (haddr : addr < 2 ^ 32) (hfits : BrkFits t w (.brk addr)) :
    BrkAdds B t D brk₀ addr w (sysBrk w.k addr) := by
  have hinv : BrkInv S B t D brk₀ w := by
    refine h.invariant (fun w hw ↦ ?_) fun w e w' ih hstep ↦ ih.step hstep.1 hstep.2
    subst hw
    exact h₀.inv
  exact hinv.adds (hinv.call haddr hfits).1

/-- The first task, in the space `D`, with its break at `USER_BASE`. -/
def brkBoot (s : Spaces) (D : Nat) : BrkState where
  k :=
    { mem := s.m
      fs :=
        { sb := ⟨0, 0, 0, 0, 0⟩
          mounted := false
          disk := { size := 0, block := fun _ ↦ Bytes.zero, junk := Bytes.zero, trace := [] } }
      files := consoleFiles 3
      tasks := bootTasks 2 3 4096 D userBase
      slots := Function.update (fun _ ↦ none) 0 (some 2)
      current := some 2
      taskList := some 2
      nextPid := 2
      started := true
      foreground := 0 }
  live := s.live

theorem brkBoot_task (s : Spaces) (D : Nat) :
    (brkBoot s D).k.tasks 2 = some (initTask 2 3 4096 D userBase) := rfl

theorem brkBoot_start {S : Setup} {B : Nat → Prop} {s : Spaces} {D : Nat}
    (hheld : Held S B s.m s.live) (hclear : s.m.pmm.oom = false) (hD : D ∈ s.live)
    (htables : ∀ {i}, i < 256 → present (S.entries i) → B (S.entries i / 4096))
    (hdirect : Addressable s.m B) : BrkStart S B 2 D userBase (brkBoot s D) where
  held := hheld
  clear := hclear
  live := hD
  current := rfl
  task := ⟨_, brkBoot_task s D, rfl⟩
  aligned := rfl
  user := ⟨le_rfl, by decide⟩
  tables := htables
  brk hT := by
    rw [← Option.some.inj ((brkBoot_task s D).symm.trans hT)]
    rfl
  direct := hdirect

/-- The first task behind the creation of its space. -/
theorem brkBoot_oneSpace {m : Memory} (h₀ : Start m) (hoom : m.pmm.oom = false)
    (hroom : 3 ≤ (freeSet m.pmm).card)
    (htables : ∀ i < 256, present (entry m.mem m.kernelDir i) →
      m.Used (entry m.mem m.kernelDir i / 4096))
    (hdirect : Addressable (oneSpace m).m m.Used) :
    BrkStart h₀.setup m.Used 2 (halAddrspaceCreate m).1 userBase
        (brkBoot (oneSpace m) (halAddrspaceCreate m).1) ∧
      BrkFits 2 (brkBoot (oneSpace m) (halAddrspaceCreate m).1) (.brk (userBase + 4096)) := by
  obtain ⟨-, hclear, hheld, -, hleft, hempty, -⟩ := h₀.oneSpace hoom (by omega)
  refine ⟨brkBoot_start hheld hclear List.mem_cons_self (fun hi hp ↦ htables _ hi hp) hdirect,
    fun T hT _ ↦ ?_⟩
  rw [← Option.some.inj ((brkBoot_task ..).symm.trans hT)]
  refine ⟨le_rfl, by decide, fun a hlo hhi ↦ ?_, (mapNeeds_le ..).trans ?_⟩
  · have hup : pageUp userBase = userBase := by decide
    have ha : IsUser a := ⟨hup ▸ hlo, hhi.trans (by decide)⟩
    have hnone : ¬(present (entry (oneSpace m).m.mem (halAddrspaceCreate m).1 (pdIndex a)) ∧
        present (entry (oneSpace m).m.mem
          (tableAt (oneSpace m).m.mem (halAddrspaceCreate m).1 (pdIndex a)) (ptIndex a))) := by
      rw [hempty ha.pdIndex (pdIndex_lt _)]
      rintro ⟨hp, -⟩
      cases hp
    exact (dirResolve_eq ..).trans (if_neg hnone)
  · change 2 * ((pageUp (userBase + 4096) - pageUp userBase) / 4096) ≤
      (freeSet (oneSpace m).m.pmm).card
    rw [hleft]
    change 2 ≤ _
    omega

/-- The first task in the small memory. -/
theorem brkBoot_shared :
    BrkStart start_sharedMemory.setup sharedMemory.Used 2 (halAddrspaceCreate sharedMemory).1
        userBase (brkBoot (oneSpace sharedMemory) (halAddrspaceCreate sharedMemory).1) ∧
      BrkFits 2 (brkBoot (oneSpace sharedMemory) (halAddrspaceCreate sharedMemory).1)
        (.brk (userBase + 4096)) := by
  obtain ⟨hoom, hcard, -⟩ := room_sharedMemory
  refine brkBoot_oneSpace start_sharedMemory hoom (by omega) ?_ ?_
  · unfold Memory.Used
    decide +kernel
  · unfold Addressable Memory.Used
    decide +kernel

/-- The task asks for its first page. -/
theorem brk_only_adds_shared : BrkAdds sharedMemory.Used 2 (halAddrspaceCreate sharedMemory).1
    userBase (userBase + 4096)
    (brkBoot (oneSpace sharedMemory) (halAddrspaceCreate sharedMemory).1)
    (sysBrk (brkBoot (oneSpace sharedMemory) (halAddrspaceCreate sharedMemory).1).k
      (userBase + 4096)) :=
  brk_only_adds brkBoot_shared.1 (.init rfl) (by decide) brkBoot_shared.2

/-- The task asks for a page, gives it back and asks for it again: the page is in another frame. -/
theorem brk_loses_page :
    BrkStart start_sharedMemory.setup sharedMemory.Used 2 (halAddrspaceCreate sharedMemory).1
      userBase (brkBoot (oneSpace sharedMemory) (halAddrspaceCreate sharedMemory).1) ∧
    let k₀ := (brkBoot (oneSpace sharedMemory) (halAddrspaceCreate sharedMemory).1).k
    let k₁ := (sysBrk k₀ 0x40001000).2
    let k₂ := (sysBrk k₁ 0x40000000).2
    let r := sysBrk k₂ 0x40001000
    r.1 = 0x40001000 ∧
      dirResolve k₂.mem.mem (halAddrspaceCreate sharedMemory).1 0x40000000 = 0x4000 ∧
      dirResolve r.2.mem.mem (halAddrspaceCreate sharedMemory).1 0x40000000 = 0x6000 := by
  refine ⟨brkBoot_shared.1, ?_⟩
  decide +kernel

end FentoOS.Kernel
