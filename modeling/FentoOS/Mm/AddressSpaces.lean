import FentoOS.Lib.Run
import FentoOS.Mm.Frames

/-!
# Address spaces come and go

Every function of `paging.c` that makes, extends, copies or frees an address
space is a sequence of the moves that keep `Held`; the loops of
`hal_addrspace_clone` and of `hal_addrspace_copy_to` carry it from one iteration
to the next.  It follows that over any sequence of these functions every frame in
use has exactly one owner, and that the frames come back when the spaces are
destroyed.

The results are about runs in which `pmm_alloc_frame` finds a frame each time,
that is in which `oom` is not set.  `oom` is never cleared, so that it is not set
in a state says that it was not set on the way there.
-/

namespace FentoOS.Mm

open FentoOS.Lib

variable {flags va n src : Nat}

/-! ## Mapping a page -/

section

variable {S : Setup} {B : Nat → Prop} {m : Memory} {live : List Nat} {D di ti f : Nat}

theorem Pending.lt_two_pow (h : Pending S B f) : f < 2 ^ 20 := lt_of_lt_of_le h.lt S.total_le

theorem Held.take_back (h : Held S (fun g ↦ (B g ∨ g = f) ∧ g ≠ f) m live) (hf : ¬B f) :
    Held S B m live := by
  refine h.congr fun g ↦ ⟨fun hg ↦ hg.1.resolve_right hg.2, fun hg ↦ ⟨.inl hg, ?_⟩⟩
  rintro rfl
  exact hf hg

/-- A new frame is filled with zeros and becomes a table. -/
theorem Held.newTable (h : Held S B m live) (hD : D ∈ live) (hlo : 256 ≤ di) (hdi : di < 1024)
    (hnone : ¬present (entry m.mem D di)) (hoom : (allocFrame m).2.pmm.oom = false) {x : Nat}
    (hx : x < 4096) (hp : present x) :
    let m₁ := zeroFrame (allocFrame m).2 (allocFrame m).1
    let m' := setEntry m₁ D di ((allocFrame m).1 ||| x)
    Held S B m' live ∧ HasTable m'.mem live D di ∧ tableAt m'.mem D di = (allocFrame m).1 ∧
      (∀ {k}, k < 1024 → entry m'.mem (allocFrame m).1 k = 0) ∧
      (∀ {D' di'}, D' ∈ live → di' < 1024 → ¬(D' = D ∧ di' = di) →
        entry m'.mem D' di' = entry m.mem D' di') ∧
      (∀ o, o ≠ .table D di → own m'.mem live o = own m.mem live o) ∧
      ∀ x, m.Used (x / 4096) → x / 4096 ≠ D / 4096 → m'.mem x = m.mem x := by
  intro m₁ m'
  obtain ⟨t, ht, hfree, hpend, h₀⟩ := h.alloc hoom
  have htouch : Touches t m.mem m₁.mem := by
    change Touches t m.mem (m.mem.memset (allocFrame m).1 0 4096)
    rw [ht]
    exact touches_zero t
  obtain ⟨hown₁, h₁⟩ : own m₁.mem live = own m.mem live ∧ Held S (fun g ↦ B g ∨ g = t) m₁ live :=
    h₀.touch_pending hpend htouch
  have hzero : ∀ {k}, k < 1024 → entry m₁.mem (t * 4096) k = 0 := by
    intro k hk
    simp only [m₁, zeroFrame, ht]
    exact entry_memset hk
  have hdir : ∀ {D' di'}, D' ∈ live → di' < 1024 → entry m₁.mem D' di' = entry m.mem D' di' :=
    h.entry_dir htouch (h₀.own_ne hpend.mem _)
  have hnone₁ : ¬present (entry m₁.mem D di) := by rwa [hdir hD hdi]
  have hv : Names (t * 4096 ||| x) t := names_word hpend.lt_two_pow hx hp
  have hm' : m' = setEntry m₁ D di (t * 4096 ||| x) := by simp only [m', ht]
  have hent : entry m'.mem D di = t * 4096 ||| x := by
    rw [hm']
    exact entry_put32_same hv.lt
  have htD : t ≠ D / 4096 :=
    fun heq ↦ h₀.own_ne hpend.mem (.dir D) (own_dir.mpr ⟨hD, heq.symm⟩)
  refine ⟨?_, ⟨hD, hlo, hdi, hent.symm ▸ hv.present⟩, ?_, fun {k} hk ↦ ?_, ?_, fun o ho ↦ ?_,
    fun x hx hxD ↦ ?_⟩
  · rw [hm']
    exact (h₁.putTable hD hdi hv.lt hlo hnone₁ hpend hzero hv.frame hv.present).take_back
      (h.not_spare hfree)
  · rw [tableAt, hent, frameOf, hv.frame, ht]
  · rw [ht, hm']
    exact ((h₁.touches_dir hD hdi).word htD hk).trans (hzero hk)
  · intro D' di' hD' hdi' hne
    rw [hm', ← hdir hD' hdi']
    exact h₁.entry_dir_of_ne hD hdi hD' hdi' hne
  · rw [hm', ← hown₁]
    exact (h₁.own_putTable hD hdi hv.lt hlo hnone₁ hpend hzero hv.frame hv.present).2 o ho
  · rw [hm']
    refine (h₁.touches_dir hD hdi x hxD).trans (htouch x ?_)
    rintro rfl
    exact hfree hx

/-- `map_in_dir` finds a table or makes one; nothing but the table and the directory changes. -/
theorem Held.tableFor (h : Held S B m live) (hD : D ∈ live) (hlo : 256 ≤ di) (hdi : di < 1024)
    (flags : Nat) (hoom : (tableFor m D di flags).2.pmm.oom = false) :
    Held S B (tableFor m D di flags).2 live ∧
      HasTable (tableFor m D di flags).2.mem live D di ∧
      (tableFor m D di flags).1 = tableAt (tableFor m D di flags).2.mem D di ∧
      (∀ o, o ≠ .table D di →
        own (tableFor m D di flags).2.mem live o = own m.mem live o) ∧
      (∀ x, m.Used (x / 4096) → x / 4096 ≠ D / 4096 →
        (tableFor m D di flags).2.mem x = m.mem x) ∧
      ∀ {t}, m.Used t → own (tableFor m D di flags).2.mem live (.table D di) = some t →
        own m.mem live (.table D di) = some t := by
  by_cases hp : present (entry m.mem D di)
  · have hT : HasTable m.mem live D di := ⟨hD, hlo, hdi, hp⟩
    have hv := names_or_four (entry_lt m.mem D di) hp
    simp only [Mm.tableFor, if_pos hp]
    split
    · have hent : entry (m.mem.put32 (D + 4 * di) (entry m.mem D di ||| 4)) D di =
          entry m.mem D di ||| 4 := entry_put32_same hv.lt
      have hown := h.own_setFlags hD hdi hv.lt hT hv.frame hv.present
      refine ⟨h.setFlags hD hdi hv.lt hT hv.frame hv.present, ?_, ?_, fun o _ ↦ congrFun hown o,
        fun x _ hxD ↦ h.touches_dir hD hdi x hxD, fun _ ht ↦ (congrFun hown _).symm.trans ht⟩
      · exact ⟨hD, hlo, hdi, hent.symm ▸ hv.present⟩
      · change frameOf _ = frameOf (entry (m.mem.put32 (D + 4 * di) _) D di)
        rw [hent, frameOf, frameOf, hv.frame]
    · exact ⟨h, hT, rfl, fun _ _ ↦ rfl, fun _ _ _ ↦ rfl, fun _ ht ↦ ht⟩
  · have hoom' : (allocFrame m).2.pmm.oom = false := by
      rw [Mm.tableFor, if_neg hp] at hoom
      exact hoom
    have hx : 3 ||| (flags &&& 4) < 4096 :=
      Nat.or_lt_two_pow (n := 12) (by decide) (lt_of_le_of_lt Nat.and_le_right (by decide))
    obtain ⟨hheld, hhas, htab, -, -, hown, hbytes⟩ := h.newTable hD hlo hdi hp hoom' hx
      (present_or_left (a := 3) rfl _)
    obtain ⟨f, hf, hfree, -⟩ := h.alloc hoom'
    simp only [Mm.tableFor, if_neg hp]
    refine ⟨hheld, hhas, htab.symm, hown, hbytes, fun {t} hused ht ↦ absurd hused ?_⟩
    rw [← (own_table.mp ht).2, ← frameOf_div]
    change ¬m.Used (tableAt _ D di / 4096)
    rwa [htab, hf, frame_div]

/-- `map_in_dir` puts a frame in its place and leaves the other pages alone. -/
theorem Held.own_mapInDir (h : Held S B m live) (hD : D ∈ live) (hva : 256 ≤ pdIndex va)
    (hf : Pending S B f) (hoom : (mapInDir m D va (f * 4096) flags).pmm.oom = false) :
    own (mapInDir m D va (f * 4096) flags).mem live (.page D (pdIndex va) (ptIndex va)) = some f ∧
      (∀ o, o ≠ .page D (pdIndex va) (ptIndex va) → o ≠ .table D (pdIndex va) →
        own (mapInDir m D va (f * 4096) flags).mem live o = own m.mem live o) ∧
      ∀ x, m.Used (x / 4096) → (∀ o, o = .dir D ∨ o = .table D (pdIndex va) →
        own m.mem live o ≠ some (x / 4096)) →
          (mapInDir m D va (f * 4096) flags).mem x = m.mem x := by
  obtain ⟨h₁, hT, htab, hown, hbytes, htable⟩ := h.tableFor hD hva (pdIndex_lt _) flags hoom
  have hv := names_pageEntry hf.lt_two_pow flags
  obtain ⟨hself, hother⟩ := h₁.own_put_table hT (ptIndex_lt _) hv.lt
  rw [if_pos hv.present, hv.frame] at hself
  rw [Mm.mapInDir]
  simp only [htab]
  refine ⟨hself, fun o hpage hne ↦ (hother o hpage).trans (hown o hne), fun x hx hno ↦ ?_⟩
  have hxD : x / 4096 ≠ D / 4096 := fun heq ↦ hno _ (.inl rfl) (own_dir.mpr ⟨hD, heq.symm⟩)
  refine (touches_put32 (frameOf_mod _) (ptIndex_lt _) _ x fun heq ↦ ?_).trans (hbytes x hx hxD)
  rw [frameOf_div] at heq
  exact hno _ (.inr rfl) (htable hx (own_table.mpr ⟨hT, heq.symm⟩))

/-- `map_in_dir` puts a new frame at a page that is not mapped. -/
theorem Held.mapInDir (h : Held S B m live) (hD : D ∈ live) (hva : 256 ≤ pdIndex va)
    (hf : Pending S B f) (hnone : own m.mem live (.page D (pdIndex va) (ptIndex va)) = none)
    (hoom : (mapInDir m D va (f * 4096) flags).pmm.oom = false) :
    Held S (fun g ↦ B g ∧ g ≠ f) (mapInDir m D va (f * 4096) flags) live := by
  obtain ⟨h₁, hT, htab, hown, -⟩ := h.tableFor hD hva (pdIndex_lt _) flags hoom
  have hv := names_pageEntry hf.lt_two_pow flags
  rw [Mm.mapInDir]
  simp only [htab]
  refine h₁.putPage hT (ptIndex_lt _) (fun hp ↦ ?_) hf hv.lt hv.frame hv.present
  rw [← hown _ (by simp), own_page_eq_none] at hnone
  exact hnone ⟨hT, (ptIndex_lt _), hp⟩

/-- `map_in_dir` puts a new frame at a page that is mapped: the old frame is nobody's. -/
theorem Held.remapInDir (h : Held S B m live) (hD : D ∈ live) {g : Nat} (hva : 256 ≤ pdIndex va)
    (hf : Pending S B f) (hg : own m.mem live (.page D (pdIndex va) (ptIndex va)) = some g)
    (hoom : (Mm.mapInDir m D va (f * 4096) flags).pmm.oom = false) :
    Held S (fun b ↦ (B b ∨ b = g) ∧ b ≠ f) (Mm.mapInDir m D va (f * 4096) flags) live := by
  have hti := ptIndex_lt va
  obtain ⟨h₁, hT, htab, hown, -⟩ := h.tableFor hD hva (pdIndex_lt _) flags hoom
  have hv := names_pageEntry hf.lt_two_pow flags
  rw [Mm.mapInDir]
  simp only [htab]
  set m₁ := (Mm.tableFor m D (pdIndex va) flags).2
  set T := tableAt m₁.mem D (pdIndex va) with hTdef
  have hg₁ : own m₁.mem live (.page D (pdIndex va) (ptIndex va)) = some g :=
    (hown _ (by simp)).trans hg
  -- The entry is cleared first, and the place filled again.
  obtain ⟨-, hother⟩ := h₁.own_put_table hT hti (v := 0) (by decide)
  have h₂ := h₁.dropPage hT hti (v := 0) hg₁ (by decide) (by decide)
  have hplace := (hother (.table D (pdIndex va)) (by simp)).trans (own_table.mpr ⟨hT, rfl⟩)
  obtain ⟨hT₂, hframe⟩ := own_table.mp hplace
  have hT₂T : tableAt (setEntry m₁ T (ptIndex va) 0).mem D (pdIndex va) = T := by
    rw [tableAt, frameOf, hframe, hTdef, tableAt, frameOf]
  have hput := h₂.putPage hT₂ hti (f := f) (v := pageEntry (f * 4096) flags) ?_
    ⟨.inl hf.mem, hf.ne_zero, hf.ne_kernel, hf.lt⟩ hv.lt hv.frame hv.present
  · rw [hT₂T] at hput
    simpa only [setEntry, ← hTdef, Bytes.put32_put32] using hput
  · rw [hT₂T, entry_setEntry (by decide)]
    decide

/-! ## Creating a space -/

theorem copyEntries_eq (m : Memory) (dir i n : Nat) :
    copyEntries m dir i n = { m with mem := (copyEntries m dir i n).mem } := by
  induction n generalizing m i with
  | zero => rfl
  | succ n ih => exact ih (setEntry m dir i _) (i + 1)

theorem touches_copyEntries {dir : Nat} (m : Memory) (hdir : dir % 4096 = 0) {i : Nat}
    (hn : i + n ≤ 1024) : Touches (dir / 4096) m.mem (copyEntries m dir i n).mem := by
  induction n generalizing m i with
  | zero => exact fun _ _ ↦ rfl
  | succ n ih =>
    intro x hx
    rw [copyEntries, ih (setEntry m dir i _) (by omega) x hx]
    exact touches_put32 hdir (by omega) _ x hx

/-- The loop of `hal_addrspace_create` copies the entries it covers. -/
theorem entry_copyEntries {dir : Nat} (m : Memory) (hdir : dir % 4096 = 0)
    (hK : m.kernelDir % 4096 = 0) (hne : m.kernelDir / 4096 ≠ dir / 4096) {i : Nat}
    (hn : i + n ≤ 1024) (k : Nat) : entry (copyEntries m dir i n).mem dir k =
      if i ≤ k ∧ k < i + n then entry m.mem m.kernelDir k else entry m.mem dir k := by
  induction n generalizing m i with
  | zero => rw [if_neg (by omega)]; rfl
  | succ n ih =>
    have hset : ∀ k, k < 1024 → entry (setEntry m dir i (entry m.mem m.kernelDir i)).mem
        m.kernelDir k = entry m.mem m.kernelDir k :=
      fun k hk ↦ (touches_put32 hdir (by omega) _).entry hK hne hk
    rw [copyEntries, ih (setEntry m dir i _) hK hne (by omega)]
    change (if _ then entry (setEntry m dir i (entry m.mem m.kernelDir i)).mem m.kernelDir k
      else entry (m.mem.put32 (dir + 4 * i) (entry m.mem m.kernelDir i)) dir k) = _
    by_cases hki : k = i
    · subst hki
      rw [if_neg (by omega), if_pos (by omega), entry_put32_same (entry_lt ..)]
    · rw [entry_put32_of_ne hki]
      by_cases hlt : i ≤ k ∧ k < i + (n + 1)
      · rw [if_pos (by omega), if_pos hlt, hset k (by omega)]
      · rw [if_neg (by omega), if_neg hlt]

theorem oom_create (hoom : (halAddrspaceCreate m).2.pmm.oom = false) :
    (allocFrame m).2.pmm.oom = false := by
  rw [halAddrspaceCreate] at hoom
  split at hoom
  · exact hoom
  · rw [copyEntries_eq] at hoom
    exact hoom

/-- `hal_addrspace_create` with the frame it is given: only that frame changes, the first
entries are the kernel's and the others zero. -/
theorem halAddrspaceCreate_frame {f : Nat} (hf : (allocFrame m).1 = f * 4096) (hf0 : f ≠ 0)
    (hK : m.kernelDir % 4096 = 0) (hKne : m.kernelDir / 4096 ≠ f) :
    ∃ mem', halAddrspaceCreate m = (f * 4096, { (allocFrame m).2 with mem := mem' }) ∧
      Touches f m.mem mem' ∧
      (∀ {i}, i < 256 → entry mem' (f * 4096) i = entry m.mem m.kernelDir i) ∧
      ∀ {i}, 256 ≤ i → i < 1024 → entry mem' (f * 4096) i = 0 := by
  have hmod : f * 4096 % 4096 = 0 := Nat.mul_mod_left ..
  set m₁ := zeroFrame (allocFrame m).2 (f * 4096) with hm₁
  have hKne₁ : m₁.kernelDir / 4096 ≠ f * 4096 / 4096 := by rwa [frame_div]
  have htouch₁ : Touches f m.mem m₁.mem := touches_zero f
  have hentry := entry_copyEntries m₁ hmod hK hKne₁ (i := 0) (n := 256) (by decide)
  refine ⟨(copyEntries m₁ (f * 4096) 0 256).mem, ?_, fun x hx ↦ ?_, fun {i} hi ↦ ?_,
    fun {i} hlo hi ↦ ?_⟩
  · rw [halAddrspaceCreate, hf, if_neg (Nat.mul_ne_zero hf0 (by decide)), ← hm₁, copyEntries_eq]
    rfl
  · rw [← htouch₁ x hx]
    exact touches_copyEntries m₁ hmod (by decide) x (by rwa [frame_div])
  · rw [hentry, if_pos (by omega)]
    exact htouch₁.entry hK hKne (by omega)
  · rw [hentry, if_neg (by omega)]
    exact entry_memset hi

theorem Held.create_frame (h : Held S B m live) {f : Nat} (hf : (allocFrame m).1 = f * 4096)
    (hpend : Pending S (fun g ↦ B g ∨ g = f) f) :
    ∃ mem', halAddrspaceCreate m = (f * 4096, { (allocFrame m).2 with mem := mem' }) ∧
      Touches f m.mem mem' ∧
      (∀ {i}, i < 256 → entry mem' (f * 4096) i = S.entries i) ∧
      ∀ {i}, 256 ≤ i → i < 1024 → entry mem' (f * 4096) i = 0 := by
  have hK : m.kernelDir = S.kernelDir := h.kernelDir
  obtain ⟨mem', hcreate, htouch, hkernel, huser⟩ := halAddrspaceCreate_frame hf hpend.ne_zero
    (hK ▸ S.aligned) (hK ▸ hpend.ne_kernel.symm)
  refine ⟨mem', hcreate, htouch, fun {i} hi ↦ ?_, huser⟩
  rw [hkernel hi, hK, h.kernelEntries hi]

/-- `hal_addrspace_create` writes to a frame that was free. -/
theorem Held.bytes_create (h : Held S B m live) (hoom : (halAddrspaceCreate m).2.pmm.oom = false)
    {x : Nat} (hx : m.Used (x / 4096)) : (halAddrspaceCreate m).2.mem x = m.mem x := by
  obtain ⟨f, hf, hfree, hpend, -⟩ := h.alloc (oom_create hoom)
  obtain ⟨mem', hcreate, htouch, -⟩ := h.create_frame hf hpend
  rw [hcreate]
  refine htouch x ?_
  rintro rfl
  exact hfree hx

/-- `hal_addrspace_create` makes a space without user tables. -/
theorem Held.create (h : Held S B m live) (hoom : (halAddrspaceCreate m).2.pmm.oom = false) :
    (halAddrspaceCreate m).1 ≠ 0 ∧
      Held S B (halAddrspaceCreate m).2 ((halAddrspaceCreate m).1 :: live) ∧
      ∀ {i}, 256 ≤ i → i < 1024 →
        entry (halAddrspaceCreate m).2.mem (halAddrspaceCreate m).1 i = 0 := by
  obtain ⟨f, hf, hfree, hpend, h₀⟩ := h.alloc (oom_create hoom)
  obtain ⟨mem', hcreate, htouch, hkernel, huser⟩ := h.create_frame hf hpend
  rw [hcreate]
  exact ⟨Nat.mul_ne_zero hpend.ne_zero (by decide),
    ((h₀.touch_pending hpend htouch).2.putDir hpend hkernel huser).take_back
      (h.not_spare hfree), huser⟩

/-! ## Mapping user pages -/

/-- `USER_BASE`. -/
def userBase : Nat := 0x40000000

theorem pdIndex_user (hlo : userBase ≤ va) (hhi : va < 2 ^ 32) : 256 ≤ pdIndex va := by
  unfold userBase at hlo
  unfold pdIndex
  omega

theorem dirResolve_eq (mem : Bytes) (dir va : Nat) : dirResolve mem dir va =
    if present (entry mem dir (pdIndex va)) ∧
      present (entry mem (tableAt mem dir (pdIndex va)) (ptIndex va)) then
        frameOf (entry mem (tableAt mem dir (pdIndex va)) (ptIndex va))
    else 0 := by
  simp only [dirResolve, tableAt]
  by_cases hde : present (entry mem dir (pdIndex va))
  · by_cases hte : present (entry mem (frameOf (entry mem dir (pdIndex va))) (ptIndex va))
    · simp [hde, hte]
    · simp [hde, hte]
  · simp [hde]

/-- A page that resolves is one that a place names. -/
theorem own_of_dirResolve (hD : D ∈ live) (hva : 256 ≤ pdIndex va)
    (hr : dirResolve m.mem D va ≠ 0) :
    own m.mem live (.page D (pdIndex va) (ptIndex va)) = some (dirResolve m.mem D va / 4096) ∧
      dirResolve m.mem D va % 4096 = 0 := by
  rw [dirResolve_eq] at hr ⊢
  split at hr
  case isTrue hp =>
    rw [if_pos hp, frameOf_div]
    exact ⟨own_page.mpr ⟨⟨⟨hD, hva, (pdIndex_lt _), hp.1⟩, (ptIndex_lt _), hp.2⟩, rfl⟩,
      frameOf_mod _⟩
  case isFalse => exact absurd rfl hr

/-- A page that does not resolve is not mapped. -/
theorem Held.not_mapped (h : Held S B m live) (hr : dirResolve m.mem D va = 0) :
    own m.mem live (.page D (pdIndex va) (ptIndex va)) = none := by
  rw [own_page_eq_none]
  rintro ⟨hT, hti, hp⟩
  have hown := own_page.mpr ⟨⟨hT, hti, hp⟩, rfl⟩
  rw [dirResolve_eq, if_pos ⟨hT.2.2.2, hp⟩] at hr
  rw [← frameOf_div, hr] at hown
  exact h.own_ne h.zero _ hown

theorem oom_mapInDir {pa : Nat} (hoom : (mapInDir m D va pa flags).pmm.oom = false) :
    m.pmm.oom = false :=
  (draws_mapInDir m D va pa flags).clear hoom

theorem oom_mapUser (hoom : (halAddrspaceMapUser m D va flags).2.pmm.oom = false) :
    (allocFrame m).2.pmm.oom = false := by
  rw [halAddrspaceMapUser] at hoom
  split at hoom
  · exact hoom
  · exact oom_mapInDir hoom

/-- `hal_addrspace_map_user` at a page that is not mapped. -/
theorem Held.mapUser (h : Held S B m live) (hD : D ∈ live) (hva : 256 ≤ pdIndex va)
    (hnone : dirResolve m.mem D va = 0)
    (hoom : (halAddrspaceMapUser m D va flags).2.pmm.oom = false) :
    Held S B (halAddrspaceMapUser m D va flags).2 live := by
  obtain ⟨f, hf, hfree, hpend, h₀⟩ := h.alloc (oom_mapUser hoom)
  have hf0 : f * 4096 ≠ 0 := Nat.mul_ne_zero hpend.ne_zero (by decide)
  rw [halAddrspaceMapUser, hf, if_neg hf0] at hoom ⊢
  exact (h₀.mapInDir hD hva hpend (h.not_mapped hnone) hoom).take_back
      (h.not_spare hfree)

/-- `hal_addrspace_map_user` at a page that is mapped. -/
theorem Held.remapUser (h : Held S B m live) (hD : D ∈ live) {g : Nat} (hva : 256 ≤ pdIndex va)
    (hg : own m.mem live (.page D (pdIndex va) (ptIndex va)) = some g)
    (hoom : (halAddrspaceMapUser m D va flags).2.pmm.oom = false) :
    Held S (fun b ↦ B b ∨ b = g) (halAddrspaceMapUser m D va flags).2 live := by
  obtain ⟨f, hf, hfree, hpend, h₀⟩ := h.alloc (oom_mapUser hoom)
  have hf0 : f * 4096 ≠ 0 := Nat.mul_ne_zero hpend.ne_zero (by decide)
  rw [halAddrspaceMapUser, hf, if_neg hf0] at hoom ⊢
  refine (h₀.remapInDir hD hva hpend hg hoom).congr fun b ↦ ?_
  have hfB : ¬B f := h.not_spare hfree
  have hfg : g ≠ f := by
    rintro rfl
    exact hfree (h.ledger.used hg)
  constructor
  · rintro ⟨(hb | hb) | hb, hne⟩
    · exact .inl hb
    · exact absurd hb hne
    · exact .inr hb
  · rintro (hb | rfl)
    · exact ⟨.inl (.inl hb), fun hbf ↦ hfB (hbf ▸ hb)⟩
    · exact ⟨.inr rfl, hfg⟩

/-! ## Storing to user pages -/

theorem pdIndex_frameOf (va : Nat) : pdIndex (frameOf va) = pdIndex va := by
  unfold pdIndex frameOf
  omega

theorem ptIndex_frameOf (va : Nat) : ptIndex (frameOf va) = ptIndex va := by
  unfold ptIndex frameOf
  omega

theorem dirResolve_frameOf (mem : Bytes) (dir va : Nat) :
    dirResolve mem dir (frameOf va) = dirResolve mem dir va := by
  simp only [dirResolve, pdIndex_frameOf, ptIndex_frameOf]

theorem demandPage_fst (m : Memory) (D va : Nat) :
    (demandPage m D va).1 = dirResolve (demandPage m D va).2.mem D va := by
  rw [demandPage]
  simp only
  split <;> rfl

theorem oom_demandPage (hoom : (demandPage m D va).2.pmm.oom = false) : m.pmm.oom = false := by
  rw [demandPage] at hoom
  simp only at hoom
  split at hoom
  · exact oom_pmmAllocFrame (oom_mapUser hoom)
  · exact hoom

theorem Held.demandPage (h : Held S B m live) (hD : D ∈ live) (hva : 256 ≤ pdIndex va)
    (hoom : (demandPage m D va).2.pmm.oom = false) : Held S B (demandPage m D va).2 live := by
  rw [Mm.demandPage] at hoom ⊢
  simp only at hoom ⊢
  split at hoom
  case isTrue hr =>
    rw [if_pos hr]
    refine h.mapUser hD (by rwa [pdIndex_frameOf]) ?_ hoom
    rwa [dirResolve_frameOf]
  case isFalse hr =>
    rw [if_neg hr]
    exact h

/-- A round stays within a page and within the range. -/
theorem pageChunk_spec {len done : Nat} (hhi : va + len ≤ 2 ^ 32) (hd : done < len) :
    0 < pageChunk va len done ∧ done + pageChunk va len done ≤ len ∧
      (va + done) % 4096 + pageChunk va len done ≤ 4096 := by
  rw [pageChunk, wrap32_of_lt (by omega)]
  omega

theorem oom_storeLoop {len fuel done : Nat} {src : Bytes}
    (hoom : (storeLoop D va src len fuel done m).pmm.oom = false) : m.pmm.oom = false := by
  induction fuel generalizing done m with
  | zero => exact hoom
  | succ fuel ih =>
    rw [storeLoop] at hoom
    split at hoom
    · simp only at hoom
      split at hoom
      · exact oom_demandPage hoom
      · have hoom' := ih hoom
        exact oom_demandPage hoom'
    · exact hoom

/-- The loops of `hal_addrspace_copy_to` and `hal_addrspace_memset`. -/
theorem Held.storeLoop (h : Held S B m live) (hD : D ∈ live) {len : Nat} (hlo : userBase ≤ va)
    (hhi : va + len ≤ 2 ^ 32) {src : Bytes} {fuel done : Nat}
    (hoom : (storeLoop D va src len fuel done m).pmm.oom = false) :
    Held S B (storeLoop D va src len fuel done m) live := by
  induction fuel generalizing done m with
  | zero => exact h
  | succ fuel ih =>
    rw [Mm.storeLoop] at hoom ⊢
    split at hoom
    case isFalse hd =>
      rw [if_neg hd]
      exact h
    case isTrue hd =>
      rw [if_pos hd]
      have hcur : wrap32 (va + done) = va + done := wrap32_of_lt (by omega)
      have hva : 256 ≤ pdIndex (wrap32 (va + done)) := by
        rw [hcur]
        exact pdIndex_user (by omega) (by omega)
      simp only at hoom ⊢
      split at hoom
      case isTrue hr =>
        rw [if_pos hr]
        exact h.demandPage hD hva hoom
      case isFalse hr =>
        rw [if_neg hr]
        have hoom' := oom_storeLoop hoom
        have h₁ := h.demandPage hD hva hoom'
        rw [demandPage_fst] at hr
        obtain ⟨hown, hmod⟩ := own_of_dirResolve hD hva hr
        refine ih (h₁.touch_page hown ?_).2 hoom
        rw [demandPage_fst]
        refine touches_memcpy hmod ?_ src done
        rw [hcur]
        exact (pageChunk_spec hhi hd).2.2

/-! ## Cloning -/

theorem oom_clonePages {srcTable dstTable ti : Nat}
    (hoom : (clonePages srcTable dstTable ti n m).pmm.oom = false) : m.pmm.oom = false := by
  obtain ⟨c, hdraws⟩ := draws_clonePages srcTable dstTable ti n m
  exact hdraws.clear hoom

/-- One page is copied into an empty place. -/
theorem Held.clonePage (h : Held S B m live) (hT : HasTable m.mem live D di) (hti : ti < 1024)
    (hempty : ¬present (entry m.mem (tableAt m.mem D di) ti)) {e : Nat} (hp : present e)
    (hoom : (allocFrame m).2.pmm.oom = false) :
    let r := allocFrame m
    let m₁ := { r.2 with mem := r.2.mem.memcpy r.1 r.2.mem (frameOf e) 4096 }
    let m' := setEntry m₁ (tableAt m.mem D di) ti (r.1 ||| e % 4096)
    Held S B m' live ∧
      (∀ {D' i}, D' ∈ live → i < 1024 → entry m'.mem D' i = entry m.mem D' i) ∧
      ∀ {k}, k < 1024 → k ≠ ti →
        entry m'.mem (tableAt m.mem D di) k = entry m.mem (tableAt m.mem D di) k := by
  intro r m₁ m'
  obtain ⟨f, hf, hfree, hpend, h₀⟩ := h.alloc hoom
  have htouch : Touches f m.mem m₁.mem := by
    change Touches f m.mem (m.mem.memcpy (allocFrame m).1 m.mem (frameOf e) 4096)
    rw [hf]
    exact touches_copy f m.mem (frameOf e)
  obtain ⟨-, h₁⟩ := h₀.touch_pending hpend htouch
  have hdir₁ : ∀ {D' i}, D' ∈ live → i < 1024 → entry m₁.mem D' i = entry m.mem D' i :=
    h.entry_dir htouch (h₀.own_ne hpend.mem _)
  have htable₁ : ∀ {k}, k < 1024 →
      entry m₁.mem (tableAt m.mem D di) k = entry m.mem (tableAt m.mem D di) k :=
    htouch.entry_table (h₀.own_ne hpend.mem _) hT
  have hT₁ : HasTable m₁.mem live D di := (hasTable_congr hdir₁).mpr hT
  have htab : tableAt m₁.mem D di = tableAt m.mem D di := by
    rw [tableAt, tableAt, hdir₁ hT.1 hT.2.2.1]
  have hv : Names (f * 4096 ||| e % 4096) f :=
    names_word hpend.lt_two_pow (Nat.mod_lt _ (by decide)) (present_mod hp)
  have hm' : m' = setEntry m₁ (tableAt m₁.mem D di) ti (f * 4096 ||| e % 4096) := by
    simp only [m', htab, r, hf]
  rw [hm']
  refine ⟨?_, fun hD' hi ↦ ?_, fun hk hne ↦ ?_⟩
  · refine (h₁.putPage hT₁ hti ?_ hpend hv.lt hv.frame hv.present).take_back
      (h.not_spare hfree)
    rwa [htab, htable₁ hti]
  · exact (h₁.entry_dir_of_table hT₁ hti hD' hi).trans (hdir₁ hD' hi)
  · rw [htab]
    exact (entry_put32_of_ne hne _).trans (htable₁ hk)

/-- The inner loop of `hal_addrspace_clone` fills an empty table. -/
theorem Held.clonePages (h : Held S B m live) (hT : HasTable m.mem live D di) (srcTable : Nat)
    (hn : ti + n = 1024)
    (hempty : ∀ {k}, ti ≤ k → k < 1024 → ¬present (entry m.mem (tableAt m.mem D di) k))
    (hoom : (clonePages srcTable (tableAt m.mem D di) ti n m).pmm.oom = false) :
    Held S B (clonePages srcTable (tableAt m.mem D di) ti n m) live ∧
      ∀ {D' i}, D' ∈ live → i < 1024 →
        entry (clonePages srcTable (tableAt m.mem D di) ti n m).mem D' i = entry m.mem D' i := by
  induction n generalizing ti m with
  | zero => exact ⟨h, fun _ _ ↦ rfl⟩
  | succ n ih =>
    rw [Mm.clonePages] at hoom ⊢
    simp only at hoom ⊢
    split at hoom
    case isFalse hp =>
      rw [if_neg hp]
      exact ih h hT (by omega) (fun hk ↦ hempty (by omega)) hoom
    case isTrue hp =>
      rw [if_pos hp]
      have hoom' := oom_clonePages hoom
      obtain ⟨h', hdir, hrest⟩ := h.clonePage hT (by omega) (hempty le_rfl (by omega)) hp hoom'
      generalize setEntry _ (tableAt m.mem D di) ti _ = m' at h' hdir hrest hoom ⊢
      have htab : tableAt m.mem D di = tableAt m'.mem D di := by
        rw [tableAt, tableAt, hdir hT.1 hT.2.2.1]
      rw [htab] at hoom hrest ⊢
      obtain ⟨hheld, hentry⟩ := ih h' ((hasTable_congr hdir).mpr hT) (by omega)
        (fun hk hlt ↦ by rw [hrest hlt (by omega), ← htab]; exact hempty (by omega) hlt) hoom
      exact ⟨hheld, fun hD hi ↦ (hentry hD hi).trans (hdir hD hi)⟩

theorem oom_cloneTables {dst : Nat} (hoom : (cloneTables src dst di n m).pmm.oom = false) :
    m.pmm.oom = false := by
  obtain ⟨c, hdraws⟩ := draws_cloneTables src dst di n m
  exact hdraws.clear hoom

/-- The outer loop of `hal_addrspace_clone` fills an empty directory. -/
theorem Held.cloneTables {dst : Nat} (h : Held S B m live) (hD : dst ∈ live) (hlo : 256 ≤ di)
    (hn : di + n = 1024) (hempty : ∀ {k}, di ≤ k → k < 1024 → ¬present (entry m.mem dst k))
    (hoom : (cloneTables src dst di n m).pmm.oom = false) :
    Held S B (cloneTables src dst di n m) live := by
  induction n generalizing di m with
  | zero => exact h
  | succ n ih =>
    rw [Mm.cloneTables] at hoom ⊢
    simp only at hoom ⊢
    split at hoom
    case isFalse hp =>
      rw [if_neg hp]
      exact ih h (by omega) (by omega) (fun hk ↦ hempty (by omega)) hoom
    case isTrue hp =>
      rw [if_pos hp]
      have hoom₁ := oom_clonePages (oom_cloneTables hoom)
      obtain ⟨h₁, hT, htab, hzero, hdir, -⟩ := h.newTable hD hlo (by omega)
        (hempty le_rfl (by omega)) hoom₁ (Nat.mod_lt _ (by decide)) (present_mod hp)
      generalize setEntry _ dst di _ = m₁ at h₁ hT htab hzero hdir hoom ⊢
      rw [← htab] at hoom hzero ⊢
      obtain ⟨h₂, hentry⟩ := h₁.clonePages hT (frameOf (entry m.mem src di)) (Nat.zero_add 1024)
        (fun _ hk hpk ↦ by rw [hzero hk] at hpk; cases hpk) (oom_cloneTables hoom)
      refine ih h₂ (by omega) (by omega) (fun {k} hk hlt ↦ ?_) hoom
      rw [hentry hD hlt, hdir hD hlt (by omega)]
      exact hempty (by omega) hlt

theorem oom_clone (hoom : (halAddrspaceClone m src).2.pmm.oom = false) :
    (halAddrspaceCreate m).2.pmm.oom = false := by
  rw [halAddrspaceClone] at hoom
  split at hoom
  · exact hoom
  · exact oom_cloneTables hoom

/-- `hal_addrspace_clone` makes a new space. -/
theorem Held.clone (h : Held S B m live) (hoom : (halAddrspaceClone m src).2.pmm.oom = false) :
    (halAddrspaceClone m src).1 ≠ 0 ∧
      Held S B (halAddrspaceClone m src).2 ((halAddrspaceClone m src).1 :: live) := by
  obtain ⟨hne, h₁, hzero⟩ := h.create (oom_clone hoom)
  rw [halAddrspaceClone, if_neg hne] at hoom ⊢
  refine ⟨hne, h₁.cloneTables List.mem_cons_self le_rfl rfl (fun hlo hk hp ↦ ?_) hoom⟩
  rw [hzero hlo hk] at hp
  cases hp

/-! ## Destroying a space -/

/-- The space that a place belongs to. -/
def Owner.space : Owner → Nat
  | .dir D => D
  | .table D _ => D
  | .page D _ _ => D

/-- Frees leave the number of frames, the count of free ones and `oom` as they should be. -/
structure Freed (p p' : Pmm) : Prop where
  totalFrames : p'.totalFrames = p.totalFrames
  count : p.Exact → p'.Exact
  oom : p'.oom = p.oom

theorem Freed.refl (p : Pmm) : Freed p p := ⟨rfl, id, rfl⟩

theorem Freed.trans {p p' p'' : Pmm} (h : Freed p p') (h' : Freed p' p'') : Freed p p'' :=
  ⟨h'.totalFrames.trans h.totalFrames, fun hp ↦ h'.count (h.count hp), h'.oom.trans h.oom⟩

theorem freed_pmmFreeFrame (p : Pmm) (frame : Nat) : Freed p (pmmFreeFrame p frame) :=
  ⟨pmmFreeFrame_totalFrames p frame, fun h ↦ h.free frame, pmmFreeFrame_oom p frame⟩

theorem freed_freePages (mem : Bytes) (table ti n : Nat) (p : Pmm) :
    Freed p (freePages mem table ti n p) := by
  induction n generalizing ti p with
  | zero => exact .refl p
  | succ n ih =>
    refine Freed.trans ?_ (ih _ _)
    split
    · exact freed_pmmFreeFrame p _
    · exact .refl p

theorem freed_freeTables (mem : Bytes) (dir di n : Nat) (p : Pmm) :
    Freed p (freeTables mem dir di n p) := by
  induction n generalizing di p with
  | zero => exact .refl p
  | succ n ih =>
    refine Freed.trans ?_ (ih _ _)
    split
    · exact (freed_freePages ..).trans (freed_pmmFreeFrame _ _)
    · exact .refl p

theorem forall_range_succ {P : Nat → Prop} {i : Nat} : (∀ k, i ≤ k → k < i + (n + 1) → P k) ↔
    P i ∧ ∀ k, i + 1 ≤ k → k < i + 1 + n → P k := by
  refine ⟨fun h ↦ ⟨h i le_rfl (by omega), fun k hk hk' ↦ h k (by omega) (by omega)⟩, ?_⟩
  rintro ⟨hfirst, hrest⟩ k hk hk'
  rcases Nat.eq_or_lt_of_le hk with rfl | hk
  · exact hfirst
  · exact hrest k hk (by omega)

/-- The inner loop of `hal_addrspace_destroy` frees the pages it covers. -/
theorem freePages_used (mem : Bytes) (table ti n : Nat) (p : Pmm) (f : Nat) :
    (freePages mem table ti n p).used f = true ↔ p.used f = true ∧ ∀ k, ti ≤ k → k < ti + n →
      present (entry mem table k) → ¬(entry mem table k / 4096 = f ∧ f < p.totalFrames) := by
  induction n generalizing ti p with
  | zero => exact ⟨fun h ↦ ⟨h, fun k hk hk' ↦ by omega⟩, And.left⟩
  | succ n ih =>
    rw [freePages, ih]
    have hstep : ∀ {q : Pmm}, q = (if present (entry mem table ti) then
        pmmFreeFrame p (frameOf (entry mem table ti)) else p) →
        q.totalFrames = p.totalFrames ∧ (q.used f = true ↔ p.used f = true ∧
          (present (entry mem table ti) →
            ¬(entry mem table ti / 4096 = f ∧ f < p.totalFrames))) := by
      rintro q rfl
      split
      case isTrue hp =>
        refine ⟨pmmFreeFrame_totalFrames .., ?_⟩
        rw [pmmFreeFrame_used, frameOf_div]
        simp [hp]
      case isFalse hp => simp [hp]
    obtain ⟨htotal, hused⟩ := hstep rfl
    rw [htotal, hused]
    rw [and_assoc, forall_range_succ]

/-- The outer loop of `hal_addrspace_destroy` frees the tables it covers, and their pages. -/
theorem freeTables_used (mem : Bytes) (dir di n : Nat) (p : Pmm) (f : Nat) :
    (freeTables mem dir di n p).used f = true ↔ p.used f = true ∧ ∀ d, di ≤ d → d < di + n →
      present (entry mem dir d) →
        ¬(entry mem dir d / 4096 = f ∧ f < p.totalFrames) ∧
        ∀ k, k < 1024 → present (entry mem (tableAt mem dir d) k) →
          ¬(entry mem (tableAt mem dir d) k / 4096 = f ∧ f < p.totalFrames) := by
  induction n generalizing di p with
  | zero => exact ⟨fun h ↦ ⟨h, fun k hk hk' ↦ by omega⟩, And.left⟩
  | succ n ih =>
    rw [freeTables, ih]
    have hstep : ∀ {q : Pmm}, q = (if present (entry mem dir di) then
        pmmFreeFrame (freePages mem (frameOf (entry mem dir di)) 0 1024 p)
          (frameOf (entry mem dir di)) else p) →
        q.totalFrames = p.totalFrames ∧ (q.used f = true ↔ p.used f = true ∧
          (present (entry mem dir di) →
            ¬(entry mem dir di / 4096 = f ∧ f < p.totalFrames) ∧
            ∀ k, k < 1024 → present (entry mem (tableAt mem dir di) k) →
              ¬(entry mem (tableAt mem dir di) k / 4096 = f ∧ f < p.totalFrames))) := by
      rintro q rfl
      split
      case isTrue hp =>
        have htotal := (freed_freePages mem (frameOf (entry mem dir di)) 0 1024 p).totalFrames
        refine ⟨(pmmFreeFrame_totalFrames ..).trans htotal, ?_⟩
        rw [pmmFreeFrame_used, frameOf_div, htotal, freePages_used, tableAt]
        constructor
        · rintro ⟨⟨hu, hpages⟩, htable⟩
          exact ⟨hu, fun _ ↦ ⟨htable, fun k hk ↦ hpages k (Nat.zero_le _) (by omega)⟩⟩
        · rintro ⟨hu, hall⟩
          exact ⟨⟨hu, fun k _ hk ↦ (hall hp).2 k (by omega)⟩, (hall hp).1⟩
      case isFalse hp => simp [hp]
    obtain ⟨htotal, hused⟩ := hstep rfl
    rw [htotal, hused]
    rw [and_assoc, forall_range_succ]

/-- `hal_addrspace_destroy` frees what the space owns. -/
theorem Held.destroy_used (h : Held S B m live) (hD : D ∈ live) (f : Nat) :
    (halAddrspaceDestroy m D).Used f ↔
      m.Used f ∧ ∀ o, o.space = D → own m.mem live o ≠ some f := by
  have hD0 : D / 4096 ≠ 0 := fun h0 ↦ h.own_ne h.zero (.dir D) (own_dir.mpr ⟨hD, h0⟩)
  have hDK : D ≠ m.kernelDir := by
    rintro rfl
    exact h.kernel_ne_dir hD (by rw [h.kernelDir])
  have hneg : ¬(D = 0 ∨ D = m.kernelDir) := by
    rintro (rfl | heq)
    · exact hD0 rfl
    · exact hDK heq
  rw [halAddrspaceDestroy, if_neg hneg, Memory.Used]
  simp only
  have htotal := (freed_freeTables m.mem D 256 768 m.pmm).totalFrames
  rw [pmmFreeFrame_used, htotal, freeTables_used, h.total]
  constructor
  · rintro ⟨⟨hu, htables⟩, hdir⟩
    refine ⟨hu, fun o ho hown ↦ ?_⟩
    have hlt := h.bound hown
    cases o with
    | dir D' =>
      obtain rfl : D' = D := ho
      exact hdir ⟨(own_dir.mp hown).2, hlt⟩
    | table D' di =>
      obtain rfl : D' = D := ho
      obtain ⟨⟨-, hlo, hhi, hp⟩, heq⟩ := own_table.mp hown
      exact (htables di hlo (by omega) hp).1 ⟨heq, hlt⟩
    | page D' di ti =>
      obtain rfl : D' = D := ho
      obtain ⟨⟨⟨-, hlo, hhi, hp⟩, hti, hpt⟩, heq⟩ := own_page.mp hown
      exact (htables di hlo (by omega) hp).2 ti hti hpt ⟨heq, hlt⟩
  · rintro ⟨hu, hall⟩
    refine ⟨⟨hu, fun d hd hd' hp ↦ ?_⟩, fun hf ↦ ?_⟩
    · have hT : HasTable m.mem live D d := ⟨hD, hd, by omega, hp⟩
      refine ⟨fun hf ↦ ?_, fun k hk hpk hf ↦ ?_⟩
      · exact hall (.table D d) rfl (own_table.mpr ⟨hT, hf.1⟩)
      · exact hall (.page D d k) rfl (own_page.mpr ⟨⟨hT, hk, hpk⟩, hf.1⟩)
    · exact hall (.dir D) rfl (own_dir.mpr ⟨hD, hf.1⟩)

theorem own_erase (mem : Bytes) (hnodup : live.Nodup) (D : Nat) (o : Owner) :
    own mem (live.erase D) o = if o.space = D then none else own mem live o := by
  have hmem : ∀ {E}, E ∈ live.erase D ↔ E ≠ D ∧ E ∈ live := hnodup.mem_erase_iff
  have hhas : ∀ {E d}, HasTable mem (live.erase D) E d ↔ E ≠ D ∧ HasTable mem live E d := by
    intro E d
    rw [HasTable, HasTable, hmem, and_assoc]
  cases o with
  | dir E =>
    by_cases hE : E = D
    · simp [own, Owner.space, hmem, hE]
    · simp [own, Owner.space, hmem, hE]
  | table E d =>
    by_cases hE : E = D
    · simp [own, Owner.space, hhas, hE]
    · simp [own, Owner.space, hhas, hE]
  | page E d t =>
    by_cases hE : E = D
    · simp [own, Owner.space, hhas, hE]
    · simp [own, Owner.space, hhas, hE]

theorem destroy_eq (m : Memory) (D : Nat) :
    ∃ p, halAddrspaceDestroy m D = { m with pmm := p } ∧ Freed m.pmm p := by
  rw [halAddrspaceDestroy]
  split
  · exact ⟨m.pmm, rfl, .refl _⟩
  · exact ⟨_, rfl, (freed_freeTables ..).trans (freed_pmmFreeFrame ..)⟩

/-- `hal_addrspace_destroy` of a space. -/
theorem Held.destroy (h : Held S B m live) (hD : D ∈ live) :
    Held S B (halAddrspaceDestroy m D) (live.erase D) := by
  have hused := h.destroy_used hD
  obtain ⟨p, heq, hfreed⟩ := destroy_eq m D
  rw [heq] at hused ⊢
  have hown := own_erase m.mem h.nodup D
  have hclear : ∀ o, o.space = D → own m.mem (live.erase D) o = none :=
    fun o ho ↦ (hown o).trans (if_pos ho)
  have hkeep : ∀ o, ¬o.space = D → own m.mem (live.erase D) o = own m.mem live o :=
    fun o ho ↦ (hown o).trans (if_neg ho)
  exact { h with
    ledger := h.ledger.clear hclear hkeep hused
    spare := fun {f} ↦ (spare_clear hclear hkeep hused f).trans h.spare
    bound := fun {o f} ho ↦ by
      rw [hown] at ho
      split at ho
      · cases ho
      · exact h.bound ho
    total := hfreed.totalFrames.trans h.total
    count := hfreed.count h.count
    aligned := fun hE ↦ h.aligned (List.mem_of_mem_erase hE)
    nodup := h.nodup.erase D
    entries := fun hE hi ↦ h.entries (List.mem_of_mem_erase hE) hi }

end

/-! ## Runs -/

/-- Memory, and the address spaces that have been created and not destroyed. -/
structure Spaces where
  m : Memory
  live : List Nat

/-- The state behind a function that returned a new space, or failed. -/
def Spaces.add (s : Spaces) (r : Nat × Memory) : Spaces :=
  ⟨r.2, if r.1 = 0 then s.live else r.1 :: s.live⟩

/-- The functions on address spaces. -/
inductive SpaceOp
  | create
  | mapUser (D va flags : Nat)
  | copyTo (D va : Nat) (src : Bytes) (len : Nat)
  | memset (D va : Nat) (c : UInt8) (len : Nat)
  | clone (D : Nat)
  | destroy (D : Nat)

/-- The calls that the kernel makes: on live spaces, on pages of user space, and to map pages
that are not mapped. -/
inductive SpaceStep (s : Spaces) : SpaceOp → Spaces → Prop
  | create : SpaceStep s .create (s.add (halAddrspaceCreate s.m))
  | mapUser {D va flags : Nat} : D ∈ s.live → userBase ≤ va → va < 2 ^ 32 →
      dirResolve s.m.mem D va = 0 →
      SpaceStep s (.mapUser D va flags) ⟨(halAddrspaceMapUser s.m D va flags).2, s.live⟩
  | copyTo {D va : Nat} {src : Bytes} {len : Nat} : D ∈ s.live → userBase ≤ va →
      va + len ≤ 2 ^ 32 →
      SpaceStep s (.copyTo D va src len) ⟨halAddrspaceCopyTo s.m D va src len, s.live⟩
  | memset {D va : Nat} {c : UInt8} {len : Nat} : D ∈ s.live → userBase ≤ va →
      va + len ≤ 2 ^ 32 →
      SpaceStep s (.memset D va c len) ⟨halAddrspaceMemset s.m D va c len, s.live⟩
  | clone {D : Nat} : D ∈ s.live → SpaceStep s (.clone D) (s.add (halAddrspaceClone s.m D))
  | destroy {D : Nat} : D ∈ s.live →
      SpaceStep s (.destroy D) ⟨halAddrspaceDestroy s.m D, s.live.erase D⟩

variable {s : Spaces}

theorem SpaceStep.oom {s' : Spaces} {a : SpaceOp} (h : SpaceStep s a s')
    (hoom : s'.m.pmm.oom = false) : s.m.pmm.oom = false := by
  cases h with
  | create => exact oom_pmmAllocFrame (oom_create hoom)
  | mapUser => exact oom_pmmAllocFrame (oom_mapUser hoom)
  | copyTo => exact oom_storeLoop hoom
  | memset => exact oom_storeLoop hoom
  | clone => exact oom_pmmAllocFrame (oom_create (oom_clone hoom))
  | @destroy D _ =>
    obtain ⟨p, heq, hfreed⟩ := destroy_eq s.m D
    change (halAddrspaceDestroy s.m D).pmm.oom = false at hoom
    rw [heq] at hoom
    exact hfreed.oom.symm.trans hoom

variable {S : Setup}

theorem Held.step {B : Nat → Prop} {s' : Spaces} {a : SpaceOp} (h : Held S B s.m s.live)
    (hstep : SpaceStep s a s') (hoom : s'.m.pmm.oom = false) : Held S B s'.m s'.live := by
  cases hstep with
  | create =>
    obtain ⟨hne, hheld, -⟩ := h.create hoom
    simpa only [Spaces.add, if_neg hne] using hheld
  | mapUser hD hlo hhi hnone => exact h.mapUser hD (pdIndex_user hlo hhi) hnone hoom
  | copyTo hD hlo hhi => exact h.storeLoop hD hlo hhi hoom
  | memset hD hlo hhi => exact h.storeLoop hD hlo hhi hoom
  | clone =>
    obtain ⟨hne, hheld⟩ := h.clone hoom
    simpa only [Spaces.add, if_neg hne] using hheld
  | destroy hD => exact h.destroy hD

/-- What is needed of the memory in which the kernel starts to make address spaces. -/
structure Start (m : Memory) : Prop where
  total : m.pmm.totalFrames ≤ 2 ^ 20
  count : m.pmm.Exact
  zero : m.Used 0
  kernelFrame : m.Used (m.kernelDir / 4096)
  aligned : m.kernelDir % 4096 = 0

/-- What `m` fixes for the address spaces. -/
def Start.setup {m : Memory} (h : Start m) : Setup :=
  ⟨m.pmm.totalFrames, h.total, m.kernelDir, h.aligned, entry m.mem m.kernelDir⟩

theorem own_nil {mem : Bytes} {o : Owner} {f : Nat} : own mem [] o ≠ some f := by
  cases o with
  | dir D => simp [own]
  | table D di => simp [own, HasTable]
  | page D di ti => simp [own, HasTable]

variable {m : Memory}

theorem Start.held (h : Start m) : Held h.setup m.Used m [] := by
  have hown : ∀ {o f}, own m.mem [] o ≠ some f := own_nil
  exact {
    ledger := ⟨fun ho ↦ absurd ho hown, fun ho ↦ absurd ho hown⟩
    spare := ⟨And.left, fun hf ↦ ⟨hf, fun _ ↦ hown⟩⟩
    bound := fun ho ↦ absurd ho hown
    total := rfl
    count := h.count
    aligned := fun hD ↦ absurd hD List.not_mem_nil
    nodup := List.nodup_nil
    zero := h.zero
    kernelDir := rfl
    kernelFrame := h.kernelFrame
    kernelEntries := fun _ ↦ rfl
    entries := fun hD ↦ absurd hD List.not_mem_nil }

theorem held_run (h₀ : Start m) (h : Reach (· = ⟨m, []⟩) SpaceStep s) (hoom : s.m.pmm.oom = false) :
    Held h₀.setup m.Used s.m s.live := by
  revert hoom
  refine h.invariant (P := fun s ↦ s.m.pmm.oom = false → Held h₀.setup m.Used s.m s.live)
    (fun s hs _ ↦ ?_) fun s a s' ih hstep hoom ↦ ?_
  · subst hs
    exact h₀.held
  · exact (ih (hstep.oom hoom)).step hstep hoom

/-- Destroying the spaces one after the other. -/
theorem Held.destroyAll {B : Nat → Prop} {live : List Nat} (h : Held S B m live) :
    Held S B (live.foldl halAddrspaceDestroy m) [] := by
  induction live generalizing m with
  | nil => exact h
  | cons D live ih =>
    have hd := h.destroy List.mem_cons_self
    rw [List.erase_cons_head] at hd
    exact ih hd

/-- Without address spaces the frames in use are those of others. -/
theorem Held.restored {m' : Memory} (h : Held S m.Used m' [])
    (hm : m.pmm.totalFrames = S.totalFrames) (hcount : m.pmm.Exact) :
    m'.pmm.used = m.pmm.used ∧ m'.pmm.freeFrames = m.pmm.freeFrames := by
  have hused : m'.pmm.used = m.pmm.used := by
    funext f
    rw [Bool.eq_iff_iff]
    exact ⟨fun hf ↦ h.spare.mp ⟨hf, fun _ ↦ own_nil⟩, fun hf ↦ (h.spare.mpr hf).1⟩
  refine ⟨hused, ?_⟩
  have hset : freeSet m'.pmm = freeSet m.pmm := by rw [freeSet, freeSet, hused, h.total, hm]
  rw [h.count, hcount, hset]

/-- The owner of a frame: the kernel, or a place of a live address space. -/
def OwnedBy (m : Memory) (s : Spaces) : Option Owner → Nat → Prop
  | none, f => m.Used f
  | some o, f => own s.m.mem s.live o = some f

/-- **Frames are owned and conserved.**  Over every sequence of calls in which
`pmm_alloc_frame` always found a frame: every frame in use has exactly one owner, and what is
owned is in use; two spaces never share a table or a page; every space has the first 256
entries of the kernel's directory, which stay as they were; and when the live spaces are
destroyed, the frames in use are those of the beginning again, and so is
`pmm_free_count`. -/
theorem frames_owned_and_conserved {m : Memory} (h₀ : Start m) {s : Spaces}
    (h : Reach (· = ⟨m, []⟩) SpaceStep s) (hoom : s.m.pmm.oom = false) :
    (∀ f, s.m.Used f → ∃! o, OwnedBy m s o f) ∧
    (∀ o f, OwnedBy m s o f → s.m.Used f) ∧
    (∀ o o' f, o.space ≠ o'.space → own s.m.mem s.live o = some f →
      own s.m.mem s.live o' ≠ some f) ∧
    (∀ D ∈ s.live, ∀ i < 256, entry s.m.mem D i = entry s.m.mem s.m.kernelDir i ∧
      entry s.m.mem s.m.kernelDir i = entry m.mem m.kernelDir i) ∧
    (s.live.foldl halAddrspaceDestroy s.m).pmm.used = m.pmm.used ∧
    (s.live.foldl halAddrspaceDestroy s.m).pmm.freeFrames = m.pmm.freeFrames := by
  have hheld := held_run h₀ h hoom
  refine ⟨fun f hf ↦ ?_, fun o f ho ↦ ?_, fun o o' f hne ho ho' ↦ ?_, fun D hD i hi ↦ ?_, ?_⟩
  · by_cases hB : m.Used f
    · refine ⟨none, hB, fun o ho ↦ ?_⟩
      cases o with
      | none => rfl
      | some o => exact absurd ho (hheld.own_ne hB o)
    · obtain ⟨o, ho⟩ : ∃ o, own s.m.mem s.live o = some f := by
        by_contra hno
        exact hB (hheld.spare.mp ⟨hf, fun o ho ↦ hno ⟨o, ho⟩⟩)
      refine ⟨some o, ho, fun o' ho' ↦ ?_⟩
      cases o' with
      | none => exact absurd ho' hB
      | some o' => rw [hheld.ledger.inj ho' ho]
  · cases o with
    | none => exact (hheld.spare.mpr ho).1
    | some o => exact hheld.ledger.used ho
  · exact hne (by rw [hheld.ledger.inj ho ho'])
  · have hK := hheld.kernelEntries hi
    have hKd : s.m.kernelDir = m.kernelDir := hheld.kernelDir
    rw [hheld.entries hD hi, hKd]
    exact ⟨hK.symm, hK⟩
  · exact hheld.destroyAll.restored rfl h₀.count

/-- In the small memory, a space is created at frame 4 and a page mapped at its beginning. -/
def sampleSpace : Spaces :=
  ⟨(halAddrspaceMapUser (allocFrame sampleMemory).2 16384 userBase 0).2, [16384]⟩

/-- The space takes three frames, and gives them back. -/
theorem frames_owned_and_conserved_page :
    sampleSpace.m.pmm.freeFrames = 57 ∧
    (halAddrspaceDestroy sampleSpace.m 16384).pmm.freeFrames = 60 := by
  have hstart : Start sampleMemory :=
    ⟨by decide, by unfold Pmm.Exact; decide, rfl, rfl, rfl⟩
  have hcreate : halAddrspaceCreate sampleMemory = allocFrame sampleMemory :=
    halAddrspaceCreate_blank rfl (by decide)
  have h₁ : SpaceStep ⟨sampleMemory, []⟩ .create ⟨(allocFrame sampleMemory).2, [16384]⟩ := by
    have := SpaceStep.create (s := ⟨sampleMemory, []⟩)
    rw [hcreate] at this
    exact this
  have h₂ : SpaceStep ⟨(allocFrame sampleMemory).2, [16384]⟩ (.mapUser 16384 userBase 0)
      sampleSpace :=
    .mapUser List.mem_cons_self le_rfl (by decide) (by decide)
  have hreach : Reach (· = ⟨sampleMemory, []⟩) SpaceStep sampleSpace :=
    .step (.step (.init rfl) h₁) h₂
  refine ⟨by decide +kernel, ?_⟩
  exact (frames_owned_and_conserved hstart hreach (by decide +kernel)).2.2.2.2.2

end FentoOS.Mm
