import FentoOS.Mm.Clone
import FentoOS.Mm.DirectMap
import FentoOS.Mm.HeapRuns

/-!
# Running out of frames

`pmm_alloc_frame` returns `0` when no frame is free.  `hal_addrspace_map_user` and
`hal_addrspace_create` look at what it returned.  `map_in_dir` does not when it needs a
table, and neither do the loops of `hal_addrspace_clone` and `expand`: they make an entry
that is present and refers to frame 0, and report success.

How many frames a call asks for can be read off the page tables before it.  So the number
of free frames decides which calls go wrong, and these are exactly the ones that fail
behind their first allocation.
-/

namespace FentoOS.Mm

open FentoOS.Lib

/-- Entry `di` of the directory is present and refers to frame 0. -/
def ZeroTable (mem : Bytes) (dir di : Nat) : Prop :=
  present (entry mem dir di) ∧ entry mem dir di / 4096 = 0

/-- Entry `ti` of a table of the directory is present and refers to frame 0. -/
def ZeroPage (mem : Bytes) (dir di ti : Nat) : Prop :=
  present (entry mem dir di) ∧ present (entry mem (tableAt mem dir di) ti) ∧
    entry mem (tableAt mem dir di) ti / 4096 = 0

theorem Names.not_zero {v f : Nat} (h : Names v f) (hf : f ≠ 0) :
    ¬(Mm.present v ∧ v / 4096 = 0) :=
  fun hz ↦ hf (h.frame.symm.trans hz.2)

/-- The directory and its tables are frames in use. -/
structure Rooted (m : Memory) (D : Nat) : Prop where
  total : m.pmm.totalFrames ≤ 2 ^ 20
  zero : m.Used 0
  aligned : D % 4096 = 0
  used : m.Used (D / 4096)
  tables : ∀ {di}, di < 1024 → present (entry m.mem D di) →
    Intact (D / 4096) m (entry m.mem D di / 4096)

/-! ## Mapping a page -/

section

variable {m : Memory} {D va flags : Nat}

theorem Rooted.alloc (h : Rooted m D) : Rooted (allocFrame m).2 D where
  total := by rw [totalFrames_allocFrame]; exact h.total
  zero := used_allocFrame h.zero
  aligned := h.aligned
  used := used_allocFrame h.used
  tables := fun hdi hp ↦ (h.tables hdi hp).grows (grows_allocFrame 0 m)

/-- `map_in_dir` with frames enough: the entry of the directory names the table it writes to. -/
theorem Rooted.tableFor (h : Rooted m D) {di : Nat} (hdi : di < 1024)
    (hoom : (tableFor m D di flags).2.pmm.oom = false) :
    ∃ t, (tableFor m D di flags).1 = t * 4096 ∧ t ≠ 0 ∧ t ≠ D / 4096 ∧
      Names (entry (tableFor m D di flags).2.mem D di) t := by
  by_cases hp : present (entry m.mem D di)
  · have ht := h.tables hdi hp
    refine ⟨entry m.mem D di / 4096, ?_, ht.ne_zero, ht.ne, ?_⟩
    · simp only [Mm.tableFor, if_pos hp]
      rfl
    · simp only [Mm.tableFor, if_pos hp]
      have hv := names_or_four (entry_lt m.mem D di) hp
      split
      · rw [entry_setEntry hv.lt]
        exact hv
      · exact ⟨entry_lt .., rfl, hp⟩
  · have hoom' : (allocFrame m).2.pmm.oom = false := by
      rw [Mm.tableFor, if_neg hp] at hoom
      exact hoom
    have hx : 3 ||| (flags &&& 4) < 4096 :=
      Nat.or_lt_two_pow (n := 12) (by decide) (lt_of_le_of_lt Nat.and_le_right (by decide))
    obtain ⟨t, hlt, hfree, heq⟩ := pmmAllocFrame_cases hoom'
    have hnot : ¬m.Used t := by
      rw [Memory.Used, hfree]
      exact Bool.false_ne_true
    have ht : (allocFrame m).1 = t * 4096 := by rw [allocFrame, heq]
    have hv : Names (t * 4096 ||| (3 ||| (flags &&& 4))) t :=
      names_word (hlt.trans_le h.total) hx (present_or_left (a := 3) rfl _)
    simp only [Mm.tableFor, if_neg hp, ht]
    refine ⟨t, rfl, ?_, ?_, ?_⟩
    · rintro rfl
      exact hnot h.zero
    · rintro rfl
      exact hnot h.used
    · rw [entry_setEntry hv.lt]
      exact hv

theorem Rooted.mapInDir (h : Rooted m D) {f : Nat} (hf : f < 2 ^ 20) (hf0 : f ≠ 0)
    (hoom : (mapInDir m D va (f * 4096) flags).pmm.oom = false) :
    ¬ZeroTable (mapInDir m D va (f * 4096) flags).mem D (pdIndex va) ∧
      ¬ZeroPage (mapInDir m D va (f * 4096) flags).mem D (pdIndex va) (ptIndex va) := by
  obtain ⟨t, ht, ht0, htD, hnames⟩ := h.tableFor (pdIndex_lt _) hoom
  have hv := names_pageEntry hf flags
  have hdir : entry (Mm.mapInDir m D va (f * 4096) flags).mem D (pdIndex va) =
      entry (Mm.tableFor m D (pdIndex va) flags).2.mem D (pdIndex va) := by
    rw [Mm.mapInDir, ht]
    refine (touches_put32 (Nat.mul_mod_left ..) (ptIndex_lt _) _).entry h.aligned ?_ (pdIndex_lt _)
    rw [frame_div]
    exact htD.symm
  have htab : tableAt (Mm.mapInDir m D va (f * 4096) flags).mem D (pdIndex va) = t * 4096 := by
    rw [tableAt, hdir, frameOf, hnames.frame]
  refine ⟨?_, fun hz ↦ ?_⟩
  · rw [ZeroTable, hdir]
    exact hnames.not_zero ht0
  · obtain ⟨-, hpage⟩ := hz
    rw [htab, Mm.mapInDir, ht, entry_setEntry hv.lt] at hpage
    exact hv.not_zero hf0 hpage

/-- What should hold of a call of `hal_addrspace_map_user`: the entries it makes do not refer to
frame 0, and if the allocator fails it says so and gives back what it took. -/
def MapsSafely (m : Memory) (D va flags : Nat) : Prop :=
  let r := halAddrspaceMapUser m D va flags
  (if r.1 then ¬ZeroTable r.2.mem D (pdIndex va) ∧ ¬ZeroPage r.2.mem D (pdIndex va) (ptIndex va)
    else r.2.mem = m.mem) ∧
  (r.2.pmm.oom = true → r.1 = false ∧ freeSet r.2.pmm = freeSet m.pmm)

/-- `hal_addrspace_map_user` goes wrong when the last frame is taken for the page and there is no
table for it. -/
theorem Rooted.mapsSafely_iff (h : Rooted m D) (hclear : m.pmm.oom = false) :
    MapsSafely m D va flags ↔
      ¬((freeSet m.pmm).card = 1 ∧ ¬present (entry m.mem D (pdIndex va))) := by
  obtain ⟨f, hlt, hfree, hf, -⟩ | ⟨hempty, hfail⟩ := allocFrame_cases m
  · have hf0 : f ≠ 0 := by
      rintro rfl
      exact hfree h.zero
    have hpos : 0 < (freeSet m.pmm).card := Finset.card_pos.mpr ⟨f, mem_free.mpr ⟨hlt, hfree⟩⟩
    have hr : halAddrspaceMapUser m D va flags =
        (true, Mm.mapInDir (allocFrame m).2 D va (f * 4096) (7 ||| flags)) := by
      rw [halAddrspaceMapUser, hf, if_neg (Nat.mul_ne_zero hf0 (by decide))]
    have hdraws := (draws_allocFrame m).trans
      (draws_mapInDir (allocFrame m).2 D va (f * 4096) (7 ||| flags))
    have hoom := hdraws.oom_iff hclear
    rw [MapsSafely, hr]
    simp only [if_true, Bool.true_eq_false, false_and, imp_false]
    rw [hoom]
    change _ ∧ ¬(_ < 1 + if present (entry m.mem D (pdIndex va)) then 0 else 1) ↔ _
    constructor
    · rintro ⟨-, hno⟩ ⟨hone, hp⟩
      rw [if_neg hp] at hno
      omega
    · intro hno
      have henough : ¬(freeSet m.pmm).card <
          1 + if present (entry m.mem D (pdIndex va)) then 0 else 1 := by
        split
        · omega
        case isFalse hp =>
          have hone : (freeSet m.pmm).card ≠ 1 := fun hone ↦ hno ⟨hone, hp⟩
          omega
      refine ⟨h.alloc.mapInDir (hlt.trans_le h.total) hf0 ?_, henough⟩
      rw [← Bool.not_eq_true, hoom]
      exact henough
  · have hr : halAddrspaceMapUser m D va flags = (false, (allocFrame m).2) := by
      rw [halAddrspaceMapUser, if_pos hfail]
    rw [MapsSafely, hr, hempty]
    refine iff_of_true ⟨rfl, fun _ ↦ ⟨rfl, ?_⟩⟩ (by simp)
    exact Finset.subset_empty.mp (hempty ▸ (draws_allocFrame m).subset)

end

/-! ## Cloning a space -/

section

variable {m : Memory} {src : Nat}

/-- The directory `E` and its tables below user space are in frames that are in use. -/
structure Shared (m : Memory) (E : Nat) : Prop where
  aligned : E % 4096 = 0
  used : m.Used (E / 4096) ∧ E / 4096 ≠ 0
  tables : ∀ {i}, i < 256 → present (entry m.mem E i) →
    m.Used (entry m.mem E i / 4096) ∧ entry m.mem E i / 4096 ≠ 0

/-- What should hold of a call of `hal_addrspace_clone`. -/
def ClonesSafely (m : Memory) (src : Nat) : Prop :=
  let r := halAddrspaceClone m src
  (if r.1 = 0 then r.2.mem = m.mem
    else (∀ di, di < 1024 → ¬ZeroTable r.2.mem r.1 di) ∧
      ∀ di ti, 256 ≤ di → di < 1024 → ti < 1024 → ¬ZeroPage r.2.mem r.1 di ti) ∧
  (r.2.pmm.oom = true → r.1 = 0 ∧ freeSet r.2.pmm = freeSet m.pmm)

/-- A copy names frames that were free, and frame 0 is not free. -/
theorem Cloneable.not_zero (h : Cloneable m src) (hK : Shared m m.kernelDir)
    (hoom : (halAddrspaceClone m src).2.pmm.oom = false) :
    (∀ di, di < 1024 →
      ¬ZeroTable (halAddrspaceClone m src).2.mem (halAddrspaceClone m src).1 di) ∧
    ∀ di ti, 256 ≤ di → di < 1024 → ti < 1024 →
      ¬ZeroPage (halAddrspaceClone m src).2.mem (halAddrspaceClone m src).1 di ti := by
  obtain ⟨-, hlow, hcopies⟩ := h.copies hoom
  have hfresh : ∀ {g}, ¬m.Used g → g ≠ 0 := by
    rintro g hg rfl
    exact hg h.zero
  refine ⟨fun di hdi hz ↦ ?_, fun di ti hlo hdi hti hz ↦ ?_⟩
  · rcases Nat.lt_or_ge di 256 with hlt | hlo
    · rw [ZeroTable, hlow hlt] at hz
      exact (hK.tables hlt hz.1).2 hz.2
    · obtain ⟨hcopy, hnone⟩ := hcopies hlo hdi
      by_cases hp : present (entry m.mem src di)
      · exact hfresh (hcopy hp).fresh.1 hz.2
      · rw [ZeroTable, hnone hp] at hz
        cases hz.1
  · obtain ⟨hcopy, hnone⟩ := hcopies hlo hdi
    obtain ⟨hpd, hpt, hz⟩ := hz
    by_cases hp : present (entry m.mem src di)
    · have htable := hcopy hp
      by_cases hpp : present (entry m.mem (frameOf (entry m.mem src di)) ti)
      · exact hfresh (htable.pages hti hpp).fresh.1 hz
      · exact htable.empty hti hpp hpt
    · rw [hnone hp] at hpd
      cases hpd

/-- `hal_addrspace_clone` goes wrong when there is a frame for the directory, but not for all of
the tables and pages. -/
theorem Cloneable.clonesSafely_iff (h : Cloneable m src) (hK : Shared m m.kernelDir)
    (hclear : m.pmm.oom = false) :
    ClonesSafely m src ↔
      (freeSet m.pmm).card = 0 ∨ cloneNeeds m src ≤ (freeSet m.pmm).card := by
  by_cases hempty : freeSet m.pmm = ∅
  · rw [ClonesSafely, clone_of_empty hempty]
    refine iff_of_true ⟨rfl, fun _ ↦ ⟨rfl, ?_⟩⟩ (.inl (Finset.card_eq_zero.mpr hempty))
    rw [hempty]
    exact Finset.subset_empty.mp (hempty ▸ (draws_allocFrame m).subset)
  · obtain ⟨hne, -, hdraws⟩ := h.frames hempty
    have hoom := hdraws.oom_iff hclear
    have hcard : (freeSet m.pmm).card ≠ 0 := fun h0 ↦ hempty (Finset.card_eq_zero.mp h0)
    rw [ClonesSafely]
    simp only [if_neg hne]
    constructor
    · rintro ⟨-, hreport⟩
      refine .inr (Nat.le_of_not_lt fun hlt ↦ ?_)
      exact hne (hreport (hoom.mpr hlt)).1
    · intro henough
      have hno : ¬(freeSet m.pmm).card < cloneNeeds m src := by omega
      refine ⟨h.not_zero hK ?_, fun ho ↦ absurd (hoom.mp ho) hno⟩
      rw [← Bool.not_eq_true, hoom]
      exact hno

end

/-! ## Growing the heap -/

/-- The entry that the kernel's directory has for page `p`. -/
def kernelPage (m : Memory) (p : Nat) : Nat :=
  entry m.mem (tableAt m.mem m.kernelDir (p / 1024)) (p % 1024)

/-- The kernel's directory has tables for the pages of the heap, as `hal_paging_init` leaves
it. -/
structure HeapTables (m : Memory) : Prop where
  total : m.pmm.totalFrames ≤ 2 ^ 20
  zero : m.Used 0
  aligned : m.kernelDir % 4096 = 0
  present : ∀ {di}, 8 ≤ di → di < 32 → present (entry m.mem m.kernelDir di)
  ne : ∀ {di}, 8 ≤ di → di < 32 → entry m.mem m.kernelDir di / 4096 ≠ 0 ∧
    entry m.mem m.kernelDir di / 4096 ≠ m.kernelDir / 4096
  inj : ∀ {di di'}, 8 ≤ di → di < 32 → 8 ≤ di' → di' < 32 →
    entry m.mem m.kernelDir di / 4096 = entry m.mem m.kernelDir di' / 4096 → di = di'

section

variable {m : Memory} {p q n : Nat}

theorem HeapTables.table (h : HeapTables m) (hlo : 0x2000 ≤ p) (hhi : p < 0x8000) :
    Mm.present (entry m.mem m.kernelDir (p / 1024)) ∧
      tableAt m.mem m.kernelDir (p / 1024) / 4096 ≠ m.kernelDir / 4096 := by
  refine ⟨h.present (by omega) (by omega), ?_⟩
  rw [tableAt, frameOf_div]
  exact (h.ne (by omega) (by omega)).2

/-- A page of the heap is mapped to frame `f`. -/
theorem HeapTables.map (h : HeapTables m) (hlo : 0x2000 ≤ q) (hhi : q < 0x8000) {f : Nat}
    (hf : f < 2 ^ 20) :
    HeapTables (halPagingMap m (q * 4096) (f * 4096) 3) ∧
      Names (kernelPage (halPagingMap m (q * 4096) (f * 4096) 3) q) f ∧
      ∀ {p}, 0x2000 ≤ p → p < 0x8000 → p ≠ q →
        kernelPage (halPagingMap m (q * 4096) (f * 4096) 3) p = kernelPage m p := by
  obtain ⟨hp, hne⟩ := h.table hlo hhi
  have hti : q % 1024 < 1024 := Nat.mod_lt _ (by decide)
  have hv := names_pageEntry hf 3
  have hmap : halPagingMap m (q * 4096) (f * 4096) 3 = setEntry m
      (tableAt m.mem m.kernelDir (q / 1024)) (q % 1024) (pageEntry (f * 4096) 3) := by
    rw [halPagingMap, mapInDir, pdIndex_page hhi, ptIndex_page, tableFor]
    simp only [if_pos hp]
    rfl
  have hkernel : (halPagingMap m (q * 4096) (f * 4096) 3).kernelDir = m.kernelDir := by
    rw [hmap]
    rfl
  have hpmm : (halPagingMap m (q * 4096) (f * 4096) 3).pmm = m.pmm := by
    rw [hmap]
    rfl
  have htouch : Touches (tableAt m.mem m.kernelDir (q / 1024) / 4096) m.mem
      (halPagingMap m (q * 4096) (f * 4096) 3).mem := by
    rw [hmap]
    exact touches_put32 (frameOf_mod _) hti _
  have hsame : entry (halPagingMap m (q * 4096) (f * 4096) 3).mem
      (tableAt m.mem m.kernelDir (q / 1024)) (q % 1024) = pageEntry (f * 4096) 3 := by
    rw [hmap]
    exact entry_setEntry hv.lt
  have hother : ∀ {k}, k ≠ q % 1024 → entry (halPagingMap m (q * 4096) (f * 4096) 3).mem
      (tableAt m.mem m.kernelDir (q / 1024)) k =
        entry m.mem (tableAt m.mem m.kernelDir (q / 1024)) k := by
    intro k hk
    rw [hmap]
    exact entry_put32_of_ne hk _
  generalize halPagingMap m (q * 4096) (f * 4096) 3 = m' at *
  have hdir : ∀ {di}, di < 1024 → entry m'.mem m.kernelDir di = entry m.mem m.kernelDir di :=
    fun hdi ↦ htouch.entry h.aligned hne.symm hdi
  have htab : ∀ {di}, di < 1024 → tableAt m'.mem m.kernelDir di = tableAt m.mem m.kernelDir di :=
    fun hdi ↦ by rw [tableAt, tableAt, hdir hdi]
  refine ⟨⟨hpmm ▸ h.total, ?_, hkernel ▸ h.aligned, ?_, ?_, ?_⟩, ?_, ?_⟩
  · rw [Memory.Used, hpmm]
    exact h.zero
  · intro di hlo hhi
    rw [hkernel, hdir (by omega)]
    exact h.present hlo hhi
  · intro di hlo hhi
    rw [hkernel, hdir (by omega)]
    exact h.ne hlo hhi
  · intro di di' hlo hhi hlo' hhi'
    rw [hkernel, hdir (by omega), hdir (by omega)]
    exact h.inj hlo hhi hlo' hhi'
  · rw [kernelPage, hkernel, htab (by omega), hsame]
    exact hv
  · intro p hplo hphi hpq
    rw [kernelPage, kernelPage, hkernel, htab (by omega)]
    by_cases hd : p / 1024 = q / 1024
    · rw [hd]
      exact hother (by omega)
    · refine htouch.entry (frameOf_mod _) (fun heq ↦ hd ?_) (Nat.mod_lt _ (by decide))
      rw [tableAt, tableAt, frameOf_div, frameOf_div] at heq
      exact h.inj (by omega) (by omega) (by omega) (by omega) heq

theorem HeapTables.alloc (h : HeapTables m) : HeapTables (allocFrame m).2 :=
  ⟨by rw [totalFrames_allocFrame]; exact h.total, used_allocFrame h.zero, h.aligned, h.present,
    h.ne, h.inj⟩

/-- The allocator's answer is frame 0 only when no frame is left. -/
theorem HeapTables.answer (h : HeapTables m) : ∃ f, (allocFrame m).1 = f * 4096 ∧ f < 2 ^ 20 ∧
    (f = 0 ↔ (freeSet m.pmm).card = 0) := by
  have hzero := allocFrame_eq_zero_iff fun h0 ↦ (mem_free.mp h0).2 h.zero
  rw [← Finset.card_eq_zero] at hzero
  obtain ⟨f, hlt, -, hf, -⟩ | ⟨-, hfail⟩ := allocFrame_cases m
  · refine ⟨f, hf, hlt.trans_le h.total, ?_⟩
    rw [← hzero, hf]
    omega
  · exact ⟨0, hfail, by decide, by rw [← hzero]; simp [hfail]⟩

/-- When the heap grows from page `q` on, it takes a frame for each page, and the page number
`q + i` is mapped to frame 0 exactly if no more than `i` frames were free. -/
theorem HeapTables.growPages (h : HeapTables m) (hlo : 0x2000 ≤ q) (hn : q + n ≤ 0x8000) :
    HeapTables (growPages m q n) ∧ Memory.Draws n m (growPages m q n) ∧
      (∀ {p}, 0x2000 ≤ p → p < q → kernelPage (growPages m q n) p = kernelPage m p) ∧
      ∀ {i}, i < n → Mm.present (kernelPage (growPages m q n) (q + i)) ∧
        (kernelPage (growPages m q n) (q + i) / 4096 = 0 ↔ (freeSet m.pmm).card ≤ i) := by
  induction n generalizing q m with
  | zero => exact ⟨h, .of_pmm rfl, fun _ _ ↦ rfl, fun hi ↦ absurd hi (Nat.not_lt_zero _)⟩
  | succ n ih =>
    obtain ⟨f, hf, hlt, hf0⟩ := h.answer
    obtain ⟨h₁, hself, hother⟩ := h.alloc.map hlo (by omega) hlt
    rw [Mm.growPages, hf]
    have hdraws := (draws_allocFrame m).trans
      (draws_mapInDir (allocFrame m).2 (allocFrame m).2.kernelDir (q * 4096) (f * 4096) 3)
    rw [pdIndex_page (by omega), if_pos (h.alloc.table hlo (by omega)).1] at hdraws
    have hcard : (freeSet (halPagingMap (allocFrame m).2 (q * 4096) (f * 4096) 3).pmm).card =
        (freeSet m.pmm).card - 1 := hdraws.card
    obtain ⟨h₂, hdraws', hkept, hpages⟩ := ih h₁ (by omega) (by omega : q + 1 + n ≤ 0x8000)
    refine ⟨h₂, Nat.add_comm n 1 ▸ hdraws.trans hdraws', fun {p} hplo hp ↦ ?_, fun {i} hi ↦ ?_⟩
    · rw [hkept hplo (by omega)]
      exact hother hplo (by omega) (by omega)
    · cases i with
      | zero =>
        rw [Nat.add_zero q, hkept hlo (Nat.lt_succ_self q), hself.frame, hf0]
        exact ⟨hself.present, by omega⟩
      | succ i =>
        have hi' := hpages (by omega : i < n)
        rw [hcard, Nat.add_right_comm, Nat.add_assoc] at hi'
        exact ⟨hi'.1, hi'.2.trans (by omega)⟩

/-- What should hold of a call of `expand`: the pages by which the heap grows are not mapped to
frame 0. -/
def ExpandsSafely (v : Vmm) (need : Nat) : Prop :=
  ∀ p, v.heapEnd ≤ p * 4096 → p * 4096 < (expand v need).heapEnd →
    ¬ZeroTable (expand v need).m.mem (expand v need).m.kernelDir (pdIndex (p * 4096)) ∧
      ¬ZeroPage (expand v need).m.mem (expand v need).m.kernelDir (pdIndex (p * 4096))
        (ptIndex (p * 4096))

/-- `expand` goes wrong when there are fewer frames than pages. -/
theorem HeapTables.expandsSafely_iff {v : Vmm} (h : HeapTables v.m) {e : Nat}
    (hend : v.heapEnd = e * 4096) (hlow : 0x2000 ≤ e) (hhigh : e ≤ 0x8000)
    (hlimit : v.heapLimit = heapMax) (need : Nat) :
    ExpandsSafely v need ↔ min (pagesFor need) (0x8000 - e) ≤ (freeSet v.m.pmm).card := by
  rw [ExpandsSafely, expand_eq hend hlimit hhigh, hend]
  generalize hn : min (pagesFor need) (0x8000 - e) = n
  obtain ⟨h', -, -, hpages⟩ := h.growPages (n := n) hlow (by omega)
  simp only
  constructor
  · intro hsafe
    by_contra hlt
    obtain ⟨hp, hz⟩ := hpages (i := n - 1) (by omega)
    obtain ⟨-, hpage⟩ := hsafe (e + (n - 1)) (by omega) (by omega)
    rw [pdIndex_page (by omega), ptIndex_page] at hpage
    exact hpage ⟨h'.present (by omega) (by omega), hp, hz.mpr (by omega)⟩
  · intro henough p hlo hhi
    obtain ⟨i, rfl⟩ : ∃ i, p = e + i := ⟨p - e, by omega⟩
    rw [pdIndex_page (by omega), ptIndex_page]
    refine ⟨fun hz ↦ (h'.ne (by omega) (by omega)).1 hz.2, fun hz ↦ ?_⟩
    have hle := (hpages (by omega : i < n)).2.mp hz.2.2
    omega

/-- Behind `hal_paging_init` the tables of the heap are there. -/
theorem Paged.heapTables {R T N : Nat} {back : Nat → Nat} (h : Paged R T N m back) :
    HeapTables m := by
  have hroom := h.room
  have hle := h.frames.le
  have htotal := h.total
  have hdir : ∀ {di}, di < 32 → Names (entry m.mem m.kernelDir di) (R + 1 + di) := by
    intro di hdi
    rw [h.kernelDir, h.tables hdi]
    exact names_word_three (by omega)
  refine ⟨h.frames.total.symm ▸ htotal, ?_, ?_, fun _ hhi ↦ (hdir hhi).present, ?_, ?_⟩
  · exact (h.frames.used (by omega)).mpr (by omega)
  · rw [h.kernelDir]
    exact Nat.mul_mod_left ..
  · intro di _ hhi
    rw [(hdir hhi).frame, h.kernelDir, frame_div]
    omega
  · intro di di' _ hhi _ hhi' heq
    rw [(hdir hhi).frame, (hdir hhi').frame] at heq
    omega

end

/-! ## The pages of the heap

A page that `expand` has mapped to frame 0 is not memory of its own: two such pages are the same
bytes.  In a heap without such pages the headers are where the block list has them. -/

section

variable {s : HeapState} {L : List Nat} {v : Vmm} {size ptr : Nat}

/-- The pages by which `kmalloc` grows the heap can be read off the block list. -/
theorem HeapInv.growth (h : HeapInv s L) (hpos : 0 < size) : s.vmm.growth size =
    if hasFree s.vmm.headers L (roundUp8 size) then 0
      else min (pagesFor (growBytes size)) ((heapMax - s.vmm.heapEnd) / 4096) := by
  rcases h.fit size with ⟨c, hfind, hfound⟩ | ⟨A, c, -, hfind, hfound⟩
  · rw [Vmm.growth, hfound, if_pos (hasFree_of_find hfind)]
  · rw [Vmm.growth, hfound, hasFree_of_find_none hfind, ← h.limit]
    exact if_neg hpos.ne'

/-- `kmalloc` takes a frame for each page by which it grows the heap. -/
theorem HeapTables.kmalloc (h : HeapTables s.vmm.m) (hs : HeapInv s L)
    (hk : kmalloc s.vmm size = some (ptr, v)) :
    HeapTables v.m ∧ Memory.Draws (s.vmm.growth size) s.vmm.m v.m ∧
      v.heapEnd = s.vmm.heapEnd + s.vmm.growth size * 4096 ∧
      ∀ p, heapStart ≤ p * 4096 → p * 4096 < v.heapEnd →
        (p * 4096 < s.vmm.heapEnd ∧ kernelPage v.m p = kernelPage s.vmm.m p) ∨
        (s.vmm.growth size ≤ (freeSet s.vmm.m.pmm).card → kernelPage v.m p / 4096 ≠ 0) := by
  obtain ⟨hgrowth, hmem, hend, -⟩ | ⟨hgrowth, hmem, hend, -⟩ := kmalloc_cases hk
  · rw [hgrowth, hmem, hend]
    exact ⟨h, .of_pmm rfl, rfl, fun _ _ hhi ↦ .inl ⟨hhi, rfl⟩⟩
  · have hlow := hs.low
    have hhigh := hs.high
    have hconst : heapMax = 0x8000 * 4096 ∧ heapStart = 0x2000 * 4096 := by decide
    obtain ⟨e, he⟩ : ∃ e, s.vmm.heapEnd = e * 4096 :=
      ⟨s.vmm.heapEnd / 4096, by have := hs.aligned; omega⟩
    have hroom : (s.vmm.heapLimit - s.vmm.heapEnd) / 4096 = 0x8000 - e := by
      rw [hs.limit]
      omega
    rw [hroom] at hgrowth
    rw [hend, hmem, expand_eq he hs.limit (by omega), ← hgrowth]
    have hle : s.vmm.growth size ≤ 0x8000 - e := hgrowth ▸ Nat.min_le_right ..
    obtain ⟨h', hdraws, hkept, hpages⟩ := h.growPages (q := e) (n := s.vmm.growth size)
      (by omega) (by omega)
    refine ⟨h', hdraws, by rw [he, Nat.add_mul], fun p hlo hhi ↦ ?_⟩
    by_cases hold : p < e
    · exact .inl ⟨by omega, hkept (by omega) hold⟩
    · obtain ⟨i, rfl⟩ : ∃ i, p = e + i := ⟨p - e, by omega⟩
      simp only at hhi
      have hi : i < s.vmm.growth size := by omega
      refine .inr fun hcard hz ↦ ?_
      have := (hpages hi).2.mp hz
      omega

/-- The tables of the heap are there, and its pages are mapped to frames other than frame 0. -/
structure Backed (v : Vmm) : Prop where
  tables : HeapTables v.m
  pages : ∀ p, heapStart ≤ p * 4096 → p * 4096 < v.heapEnd → kernelPage v.m p / 4096 ≠ 0

theorem Backed.kmalloc (h : Backed s.vmm) (hs : HeapInv s L)
    (hcard : s.vmm.growth size ≤ (freeSet s.vmm.m.pmm).card)
    (hk : kmalloc s.vmm size = some (ptr, v)) : Backed v := by
  obtain ⟨htables, -, -, hpages⟩ := h.tables.kmalloc hs hk
  refine ⟨htables, fun p hlo hhi ↦ ?_⟩
  rcases hpages p hlo hhi with ⟨hold, hsame⟩ | hnew
  · rw [hsame]
    exact h.pages p hlo hold
  · exact hnew hcard

/-- Behind `vmm_init` the heap is backed if there were frames for its pages. -/
theorem Mapped.backed {R T N e : Nat} {back : Nat → Nat} (h : Mapped R T N e v back)
    (hback : ∀ p, 0x2000 ≤ p → p < e → back p ≠ 0) : Backed v := by
  refine ⟨h.toPaged.heapTables, fun p hlo hhi ↦ ?_⟩
  have hconst : heapStart = 0x2000 * 4096 := by decide
  have hhigh := h.high
  rw [h.heapEnd] at hhi
  have hp : p < 0x8000 := by omega
  have htable : tableAt v.m.mem v.m.kernelDir (p / 1024) = tableFrame R p * 4096 := by
    rw [tableAt, h.kernelDir, h.tables (by omega), frameOf]
    exact congrArg (· * 4096) (names_word_three (h.toPaged.table_lt hp)).frame
  rw [kernelPage, htable, h.pages hp, (names_word_three (h.back_lt hp)).frame]
  exact hback p (by omega) (by omega)

end

/-- **`kmalloc` gives what was asked.**  In every state of a run in which the pages of the heap
have frames, and there are frames for those by which it must grow, `kmalloc` returns `NULL` or a
block with room for the request if and only if there is a free block for it, or the heap is at its
limit already, or the limit leaves room for the header and the request behind the end of the heap.
-/
theorem kmalloc_gives_iff {s : HeapState} (h : Reach HeapStart HeapStep s) (hbacked : Backed s.vmm)
    {size : Nat} (hpos : 0 < size) (hsize : size + 4128 < 2 ^ 32)
    (hcard : s.vmm.growth size ≤ (freeSet s.vmm.m.pmm).card) :
    ∃ ptr v, kmalloc s.vmm size = some (ptr, v) ∧ Backed v ∧
      (v.Gives ptr size ↔ Roomy s s.vmm.blocks size) := by
  obtain ⟨L, hL⟩ := heapInv_reach h
  obtain ⟨ptr, v, L', hk, hanswer⟩ := hL.kmalloc hpos hsize
  rw [hL.blocks_eq]
  exact ⟨ptr, v, hk, hbacked.kmalloc hL hcard hk, hanswer.gives⟩

/-- A machine with 128 megabytes of memory, whose kernel ends at two megabytes. -/
def largeVmm : Vmm := vmmInit (halPagingInit { sampleMemory with pmm := pmmInit 130048 0x200000 })

theorem heapStart_large : HeapStart ⟨largeVmm, fun _ ↦ none⟩ := ⟨⟨_, rfl⟩, rfl⟩

theorem mapped_largeVmm : Mapped 0x300 0x8000 0x721 0x2400 largeVmm
    (grown 0x8000 0x321 0x2000 1024 id) := by
  have htotal : framesOf 130048 = 0x8000 := by decide
  have h := mapped_boot (v := largeVmm) (by rw [firstFrame_sample, htotal]; decide)
    ⟨sampleMemory, rfl⟩
  rwa [firstFrame_sample, htotal] at h

theorem backed_largeVmm : Backed largeVmm := by
  refine mapped_largeVmm.backed fun p hlo hhi ↦ ?_
  rw [grown, if_pos ⟨hlo, hhi⟩, if_pos (by omega)]
  omega

/-- It has frames for every page that the heap can have. -/
theorem growth_largeVmm {size : Nat} (hpos : 0 < size) :
    largeVmm.growth size ≤ (freeSet largeVmm.m.pmm).card := by
  have hgrowth := (heapInv_vmmInit _).growth (s := ⟨largeVmm, fun _ ↦ none⟩) hpos
  have hmax : heapMax = 0x8000 * 4096 := rfl
  simp only at hgrowth
  rw [mapped_largeVmm.heapEnd] at hgrowth
  rw [mapped_largeVmm.frames.card_free, hgrowth]
  split <;> omega

/-- Eight bytes right after `vmm_init`. -/
theorem kmalloc_gives_eight : largeVmm.heapEnd + headerSize + 8 ≤ heapMax ∧
    ∃ ptr v, kmalloc largeVmm 8 = some (ptr, v) ∧ Backed v ∧
      (v.Gives ptr 8 ↔ Roomy ⟨largeVmm, fun _ ↦ none⟩ largeVmm.blocks 8) :=
  ⟨by rw [mapped_largeVmm.heapEnd]; decide,
    kmalloc_gives_iff (.init heapStart_large) backed_largeVmm (by decide) (by decide)
      (growth_largeVmm (by decide))⟩

/-- Right after `vmm_init` there are `0x05C00000` bytes up to the limit, and a request for that
many gets them, with the header inside. -/
theorem kmalloc_cut_short : Backed largeVmm ∧
    largeVmm.growth 0x05C00000 ≤ (freeSet largeVmm.m.pmm).card ∧
    ∃ ptr v, kmalloc largeVmm 0x05C00000 = some (ptr, v) ∧ ¬v.Gives ptr 0x05C00000 := by
  have hinv : HeapInv ⟨largeVmm, fun _ ↦ none⟩ [heapStart] := heapInv_vmmInit _
  obtain ⟨ptr, v, L', hk, hanswer⟩ := hinv.kmalloc (by decide : 0 < 0x05C00000) (by decide)
  refine ⟨backed_largeVmm, growth_largeVmm (by decide), ptr, v, hk, fun hv ↦ ?_⟩
  have hend := mapped_largeVmm.heapEnd
  have hbounds := hinv.blocks.bounds List.mem_cons_self
  have hconst : heapMax = 0x08000000 ∧ heapStart = 0x02000000 ∧ headerSize = 20 ∧
      roundUp8 0x05C00000 = 0x05C00000 := by decide
  obtain ⟨hmax, hstart, hhs, hround⟩ := hconst
  rcases hanswer.gives.mp hv with hfree | hfull | hroom
  · obtain ⟨b, hb, -, hfit⟩ := hasFree_iff.mp hfree
    obtain rfl := List.mem_singleton.mp hb
    simp only at hbounds hfit
    omega
  · simp only at hfull
    omega
  · simp only at hroom
    omega

/-! ## The result -/

/-- **Running out of frames is reported**, by each of the functions, exactly in these states.
By `hal_addrspace_map_user`: unless a table is needed and one frame is free.  By
`hal_addrspace_clone`: if no frame is free, or as many as the source consists of.  By `expand`,
which has no way to report it: if there are as many free frames as the heap grows by pages. -/
theorem shortage_reported_iff (m : Memory) (D va flags src : Nat) (v : Vmm) (e need : Nat) :
    (Rooted m D → m.pmm.oom = false →
      (MapsSafely m D va flags ↔
        ¬((freeSet m.pmm).card = 1 ∧ ¬present (entry m.mem D (pdIndex va))))) ∧
    (Cloneable m src → Shared m m.kernelDir → m.pmm.oom = false →
      (ClonesSafely m src ↔
        (freeSet m.pmm).card = 0 ∨ cloneNeeds m src ≤ (freeSet m.pmm).card)) ∧
    (HeapTables v.m → v.heapEnd = e * 4096 → 0x2000 ≤ e → e ≤ 0x8000 → v.heapLimit = heapMax →
      (ExpandsSafely v need ↔ min (pagesFor need) (0x8000 - e) ≤ (freeSet v.m.pmm).card)) :=
  ⟨fun h hclear ↦ h.mapsSafely_iff hclear,
    fun h hK hclear ↦ h.clonesSafely_iff hK hclear,
    fun h hend hlow hhigh hlimit ↦ h.expandsSafely_iff hend hlow hhigh hlimit need⟩

/-- The small memory with a space at frame 2 that has one page, with its table at frame 3. -/
def pagedMemory : Memory :=
  { sampleMemory with
    pmm := { sampleMemory.pmm with used := fun f ↦ decide (f < 5), freeFrames := 59 }
    mem := (Bytes.zero.put32 0x3000 0x4007).put32 0x2400 0x3007 }

theorem entry_pagedMemory {k : Nat} (hk : k < 1024) :
    entry pagedMemory.mem 0x2000 k = (if k = 256 then 0x3007 else 0) ∧
      entry pagedMemory.mem 0x3000 k = (if k = 0 then 0x4007 else 0) ∧
      entry pagedMemory.mem 0x1000 k = 0 := by
  have hother : ∀ x, (x + 4 ≤ 0x2400 ∨ 0x2404 ≤ x) → (x + 4 ≤ 0x3000 ∨ 0x3004 ≤ x) →
      pagedMemory.mem.get32 x = 0 := by
    intro x h₁ h₂
    rw [pagedMemory, Bytes.get32_put32_of_disjoint _ h₁, Bytes.get32_put32_of_disjoint _ h₂]
    rfl
  refine ⟨?_, ?_, hother _ (by omega) (by omega)⟩
  · split
    case isTrue h => subst h; rfl
    case isFalse h => exact hother _ (by omega) (by omega)
  · split
    case isTrue h => subst h; rfl
    case isFalse h => exact hother _ (by omega) (by omega)

theorem cloneNeeds_pagedMemory : cloneNeeds pagedMemory 0x2000 = 3 := by
  decide +kernel

theorem pagedMemory_table {di : Nat} (hdi : di < 1024)
    (hp : present (entry pagedMemory.mem 0x2000 di)) :
    entry pagedMemory.mem 0x2000 di / 4096 = 3 := by
  rw [(entry_pagedMemory hdi).1] at hp ⊢
  split at hp
  case isTrue h => rw [if_pos h]
  case isFalse => cases hp

theorem cloneable_pagedMemory : Cloneable pagedMemory 0x2000 where
  total := by decide
  zero := rfl
  kernelAligned := rfl
  kernelUsed := rfl
  source :=
    { used := rfl
      ne_zero := by decide
      ne := by decide
      aligned := rfl
      tables := fun {di} _ hdi hp ↦ by
        rw [pagedMemory_table hdi hp]
        refine ⟨⟨rfl, by decide, by decide⟩, fun {k} hk hp ↦ ?_⟩
        change present (entry _ 0x3000 k) at hp
        change Intact 0 pagedMemory (entry _ 0x3000 k / 4096)
        rw [(entry_pagedMemory hk).2.1] at hp ⊢
        split at hp
        case isTrue h => rw [if_pos h]; exact ⟨rfl, by decide, by decide⟩
        case isFalse => cases hp }

theorem shared_pagedMemory : Shared pagedMemory pagedMemory.kernelDir :=
  ⟨rfl, ⟨rfl, by decide⟩, fun {i} hi hp ↦ by
    change present (entry _ 0x1000 i) at hp
    rw [(entry_pagedMemory (by omega)).2.2] at hp
    cases hp⟩

/-- There are frames for another page and for a clone of the space, and behind `vmm_init` of a
machine with 64 megabytes there are frames for a page of the heap. -/
theorem shortage_reported_paged :
    MapsSafely pagedMemory 0x2000 (userBase + 4096) 0 ∧ ClonesSafely pagedMemory 0x2000 ∧
      ExpandsSafely sampleVmm 4096 := by
  have hcard : (freeSet pagedMemory.pmm).card = 59 := by decide
  have hroom : (freeSet sampleVmm.m.pmm).card = 0x4000 - 0x721 :=
    mapped_sampleVmm.frames.card_free
  have hrooted : Rooted pagedMemory 0x2000 :=
    ⟨by decide, rfl, rfl, rfl, fun {di} hdi hp ↦ by
      rw [pagedMemory_table hdi hp]
      exact ⟨rfl, by decide, by decide⟩⟩
  obtain ⟨hmaps, hclones, hexpands⟩ :=
    shortage_reported_iff pagedMemory 0x2000 (userBase + 4096) 0 0x2000 sampleVmm 0x2400 4096
  refine ⟨(hmaps hrooted rfl).mpr ?_,
    (hclones cloneable_pagedMemory shared_pagedMemory rfl).mpr ?_,
    (hexpands mapped_sampleVmm.toPaged.heapTables mapped_sampleVmm.heapEnd (by decide) (by decide)
      mapped_sampleVmm.limit).mpr ?_⟩
  · rw [hcard]
    simp
  · rw [hcard, cloneNeeds_pagedMemory]
    decide
  · rw [hroom]
    decide

/-- In memory that holds nothing but zeros, an empty directory at frame 2. -/
theorem rooted_blank {m : Memory} (hm : m.mem = Bytes.zero) (hzero : m.Used 0) (hdir : m.Used 2)
    (htotal : m.pmm.totalFrames ≤ 2 ^ 20) : Rooted m 8192 :=
  ⟨htotal, hzero, rfl, hdir, fun _ hp ↦ by rw [entry_blank hm] at hp; cases hp⟩

/-- The small memory with a single free frame. -/
def scarceMemory : Memory :=
  { sampleMemory with pmm := { sampleMemory.pmm with totalFrames := 5, freeFrames := 1 } }

/-- The last frame is taken for the page, and there is none for its table: the call reports
success, and the directory's entry refers to frame 0. -/
theorem last_frame_maps_zero : Rooted scarceMemory 8192 ∧ scarceMemory.pmm.oom = false ∧
    (halAddrspaceMapUser scarceMemory 8192 userBase 0).1 = true ∧
    entry (halAddrspaceMapUser scarceMemory 8192 userBase 0).2.mem 8192 (pdIndex userBase) = 7 ∧
    ¬MapsSafely scarceMemory 8192 userBase 0 := by
  have hentry : (halAddrspaceMapUser scarceMemory 8192 userBase 0).1 = true ∧
      entry (halAddrspaceMapUser scarceMemory 8192 userBase 0).2.mem 8192 (pdIndex userBase) =
        7 := by
    decide +kernel
  obtain ⟨htrue, hseven⟩ := hentry
  refine ⟨rooted_blank rfl rfl rfl (by decide), rfl, htrue, hseven, fun hsafe ↦ ?_⟩
  have hmaps := hsafe.1
  rw [if_pos htrue] at hmaps
  refine hmaps.1 ?_
  rw [ZeroTable, hseven]
  decide

end FentoOS.Mm
