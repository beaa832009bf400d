import FentoOS.Lib.Ledger
import FentoOS.Mm.Entries

/-!
# Who owns a frame

The frames that an address space consists of are named by the words of its
directory and of its tables.  An `Owner` is a place that can name a frame: a
directory, an entry of a directory, or an entry of a table, in the part of the
directory that belongs to user space.  `own` reads memory and says which frame
each place names.

`Held` is the invariant of the frame allocator and all address spaces together.
The places form a ledger over the bitmap of used frames, and the frames that are
used and in no place are the set `B`: those of the kernel, and those that a
function has allocated and not yet put into a place.  Each function of
`paging.c` is a sequence of the few moves proved here to keep `Held`.
-/

namespace FentoOS.Mm

open FentoOS.Lib

/-! ## Owners -/

/-- A place that can name a frame. -/
inductive Owner
  | dir (D : Nat)
  | table (D di : Nat)
  | page (D di ti : Nat)
deriving DecidableEq

/-- Entry `di` of the directory `D` is one of user space and names a table. -/
def HasTable (mem : Bytes) (live : List Nat) (D di : Nat) : Prop :=
  D ∈ live ∧ 256 ≤ di ∧ di < 1024 ∧ present (entry mem D di)

instance (mem : Bytes) (live : List Nat) (D di : Nat) : Decidable (HasTable mem live D di) :=
  inferInstanceAs (Decidable (_ ∧ _))

/-- The table that entry `di` of the directory `D` names. -/
def tableAt (mem : Bytes) (D di : Nat) : Nat := frameOf (entry mem D di)

/-- The frame that a place names. -/
def own (mem : Bytes) (live : List Nat) : Owner → Option Nat
  | .dir D => if D ∈ live then some (D / 4096) else none
  | .table D di => if HasTable mem live D di then some (entry mem D di / 4096) else none
  | .page D di ti =>
    if HasTable mem live D di ∧ ti < 1024 ∧ present (entry mem (tableAt mem D di) ti) then
      some (entry mem (tableAt mem D di) ti / 4096)
    else none

section Own

variable {mem : Bytes} {live : List Nat} {D di ti f : Nat}

theorem own_dir : own mem live (.dir D) = some f ↔ D ∈ live ∧ D / 4096 = f := by
  simp [own]

theorem own_table : own mem live (.table D di) = some f ↔
    HasTable mem live D di ∧ entry mem D di / 4096 = f := by
  simp [own]

theorem own_page : own mem live (.page D di ti) = some f ↔
    (HasTable mem live D di ∧ ti < 1024 ∧ present (entry mem (tableAt mem D di) ti)) ∧
      entry mem (tableAt mem D di) ti / 4096 = f := by
  simp [own]

/-- A place is empty in any of three ways: the directory is not live, or there is no table,
or no page. -/
theorem own_page_eq_none : own mem live (.page D di ti) = none ↔
    ¬(HasTable mem live D di ∧ ti < 1024 ∧ present (entry mem (tableAt mem D di) ti)) := by
  simp [own]

end Own

variable {mem' : Bytes}

theorem hasTable_congr {mem : Bytes} {live : List Nat} {D di : Nat}
    (h : D ∈ live → di < 1024 → entry mem' D di = entry mem D di) :
    HasTable mem' live D di ↔ HasTable mem live D di := by
  constructor
  · rintro ⟨hD, hlo, hhi, hp⟩
    exact ⟨hD, hlo, hhi, h hD hhi ▸ hp⟩
  · rintro ⟨hD, hlo, hhi, hp⟩
    exact ⟨hD, hlo, hhi, (h hD hhi).symm ▸ hp⟩

section Congr

variable {mem : Bytes} {live : List Nat} {D di ti : Nat}
  (hdir : D ∈ live → di < 1024 → entry mem' D di = entry mem D di)

include hdir

theorem own_table_congr : own mem' live (.table D di) = own mem live (.table D di) := by
  have hhas := hasTable_congr hdir
  by_cases h : HasTable mem live D di
  · rw [own, own, if_pos (hhas.mpr h), if_pos h, hdir h.1 h.2.2.1]
  · rw [own, own, if_neg (hhas.not.mpr h), if_neg h]

theorem own_page_congr (htable : HasTable mem live D di → ti < 1024 →
      entry mem' (tableAt mem D di) ti = entry mem (tableAt mem D di) ti) :
    own mem' live (.page D di ti) = own mem live (.page D di ti) := by
  have hhas := hasTable_congr hdir
  by_cases h : HasTable mem live D di ∧ ti < 1024
  · have htab : tableAt mem' D di = tableAt mem D di := by
      rw [tableAt, tableAt, hdir h.1.1 h.1.2.2.1]
    simp only [own, hhas, htab, htable h.1 h.2]
  · rw [own, own, if_neg fun hc ↦ h ⟨hhas.mp hc.1, hc.2.1⟩, if_neg fun hc ↦ h ⟨hc.1, hc.2.1⟩]

end Congr

/-- What the places name depends on the directories and tables only. -/
theorem own_congr {mem : Bytes} {live : List Nat}
    (hdir : ∀ {D di}, D ∈ live → di < 1024 → entry mem' D di = entry mem D di)
    (htable : ∀ {D di ti}, HasTable mem live D di → ti < 1024 →
      entry mem' (tableAt mem D di) ti = entry mem (tableAt mem D di) ti) :
    own mem' live = own mem live := by
  funext o
  cases o with
  | dir D => rfl
  | table D di => exact own_table_congr hdir
  | page D di ti => exact own_page_congr hdir htable

/-! ## The invariant -/

/-- `f` is marked as used. -/
def Memory.Used (m : Memory) (f : Nat) : Prop := m.pmm.used f = true

/-- What stays the same while address spaces come and go: the number of frames, the
kernel's directory, and its first entries. -/
structure Setup where
  totalFrames : Nat
  total_le : totalFrames ≤ 2 ^ 20
  kernelDir : Nat
  aligned : kernelDir % 4096 = 0
  entries : Nat → Nat

/-- The address spaces `live` own their frames, the frames of `B` are used by others, and
nothing else is used.  All directories start with the entries of the kernel's. -/
structure Held (S : Setup) (B : Nat → Prop) (m : Memory) (live : List Nat) : Prop where
  ledger : Ledger (own m.mem live) m.Used
  spare : ∀ {f}, Spare (own m.mem live) m.Used f ↔ B f
  bound : ∀ {o f}, own m.mem live o = some f → f < S.totalFrames
  total : m.pmm.totalFrames = S.totalFrames
  count : m.pmm.Exact
  aligned : ∀ {D}, D ∈ live → D % 4096 = 0
  nodup : live.Nodup
  zero : B 0
  kernelDir : m.kernelDir = S.kernelDir
  kernelFrame : B (S.kernelDir / 4096)
  kernelEntries : ∀ {i}, i < 256 → entry m.mem S.kernelDir i = S.entries i
  entries : ∀ {D i}, D ∈ live → i < 256 → entry m.mem D i = S.entries i

/-- A frame that has been allocated and is nobody's yet. -/
structure Pending (S : Setup) (B : Nat → Prop) (f : Nat) : Prop where
  mem : B f
  ne_zero : f ≠ 0
  ne_kernel : f ≠ S.kernelDir / 4096
  lt : f < S.totalFrames

variable {B' : Nat → Prop} {D' : Nat}

section Held

variable {S : Setup} {B : Nat → Prop} {m : Memory} {live : List Nat} {D di ti f : Nat}

theorem Held.congr (h : Held S B m live) (hB : ∀ g, B g ↔ B' g) : Held S B' m live := by
  obtain rfl : B = B' := funext fun g ↦ propext (hB g)
  exact h

theorem Held.own_ne (h : Held S B m live) (hf : B f) (o : Owner) : own m.mem live o ≠ some f :=
  (h.spare.mpr hf).2 o

theorem Held.not_spare (h : Held S B m live) (hf : ¬m.Used f) : ¬B f :=
  fun hB ↦ hf (h.spare.mpr hB).1

/-- Two directories are two frames. -/
theorem Held.dir_ne (h : Held S B m live) (hD : D ∈ live) (hD' : D' ∈ live) (hne : D' ≠ D) :
    D' / 4096 ≠ D / 4096 := by
  have ha := h.aligned hD
  have ha' := h.aligned hD'
  omega

theorem Held.kernel_ne_dir (h : Held S B m live) (hD : D ∈ live) :
    S.kernelDir / 4096 ≠ D / 4096 :=
  fun heq ↦ h.own_ne h.kernelFrame (.dir D) (own_dir.mpr ⟨hD, heq.symm⟩)

theorem Held.table_ne_dir (h : Held S B m live) (ht : HasTable m.mem live D di) (hD : D' ∈ live) :
    D' / 4096 ≠ entry m.mem D di / 4096 := by
  intro heq
  have := h.ledger.inj (own_dir.mpr ⟨hD, heq⟩) (own_table.mpr ⟨ht, rfl⟩)
  cases this

/-! ## Moves -/

/-- A frame is allocated. -/
theorem Held.alloc (h : Held S B m live) (hoom : (allocFrame m).2.pmm.oom = false) :
    ∃ f, (allocFrame m).1 = f * 4096 ∧ ¬m.Used f ∧ Pending S (fun g ↦ B g ∨ g = f) f ∧
      Held S (fun g ↦ B g ∨ g = f) (allocFrame m).2 live := by
  obtain ⟨f, hlt, hfree, heq⟩ := pmmAllocFrame_cases hoom
  have hnot : ¬m.Used f := by
    rw [Memory.Used, hfree]
    simp
  have hused : ∀ g, (allocFrame m).2.Used g ↔ m.Used g ∨ g = f := by
    intro g
    rw [allocFrame, heq]
    by_cases hg : g = f
    · simp [Memory.Used, hg]
    · simp [Memory.Used, hg]
  have hnB : ¬B f := h.not_spare hnot
  have htotal : (allocFrame m).2.pmm.totalFrames = m.pmm.totalFrames := by rw [allocFrame, heq]
  refine ⟨f, by rw [allocFrame, heq], hnot, ⟨.inr rfl, ?_, ?_, h.total ▸ hlt⟩, ?_⟩
  · rintro rfl
    exact hnB h.zero
  · rintro rfl
    exact hnB h.kernelFrame
  exact { h with
    ledger := h.ledger.take hused
    spare := fun {g} ↦ (h.ledger.spare_take hnot hused g).trans (or_congr_left h.spare)
    total := htotal.trans h.total
    count := h.count.alloc
    zero := .inl h.zero
    kernelFrame := .inl h.kernelFrame }

theorem Held.entry_dir (h : Held S B m live) {n i : Nat} (ht : Touches n m.mem mem')
    (hn : own m.mem live (.dir D) ≠ some n) (hD : D ∈ live) (hi : i < 1024) :
    entry mem' D i = entry m.mem D i :=
  ht.entry (h.aligned hD) (fun heq ↦ hn (own_dir.mpr ⟨hD, heq⟩)) hi

theorem Touches.entry_table {n : Nat} (ht : Touches n m.mem mem')
    (hn : own m.mem live (.table D di) ≠ some n) (hT : HasTable m.mem live D di) (hti : ti < 1024) :
    Mm.entry mem' (tableAt m.mem D di) ti = Mm.entry m.mem (tableAt m.mem D di) ti :=
  ht.entry (frameOf_mod _)
    (fun heq ↦ hn (own_table.mpr ⟨hT, (frameOf_div _).symm.trans heq⟩)) hti

/-- A frame changes that is neither a directory nor a table. -/
theorem Held.touch (h : Held S B m live) {n : Nat} (ht : Touches n m.mem mem')
    (hK : n ≠ S.kernelDir / 4096) (hdir : ∀ D, own m.mem live (.dir D) ≠ some n)
    (htable : ∀ D di, own m.mem live (.table D di) ≠ some n) :
    own mem' live = own m.mem live ∧ Held S B { m with mem := mem' } live := by
  have hown := own_congr (h.entry_dir ht (hdir _)) (ht.entry_table (htable _ _))
  refine ⟨hown, ?_⟩
  exact { h with
    ledger := hown.symm ▸ h.ledger
    spare := hown.symm ▸ h.spare
    bound := fun ho ↦ h.bound (hown ▸ ho)
    kernelEntries := fun {i} hi ↦
      (ht.entry S.aligned (Ne.symm hK) (by omega)).trans (h.kernelEntries hi)
    entries := fun hmem hi ↦
      (h.entry_dir ht (hdir _) hmem (by omega)).trans (h.entries hmem hi) }

/-- A frame that is nobody's yet changes. -/
theorem Held.touch_pending (h : Held S B m live) (hf : Pending S B f) (ht : Touches f m.mem mem') :
    own mem' live = own m.mem live ∧ Held S B { m with mem := mem' } live :=
  h.touch ht hf.ne_kernel (fun _ ↦ h.own_ne hf.mem _) fun _ _ ↦ h.own_ne hf.mem _

/-- A page changes. -/
theorem Held.touch_page (h : Held S B m live) (hf : own m.mem live (.page D di ti) = some f)
    (ht : Touches f m.mem mem') :
    own mem' live = own m.mem live ∧ Held S B { m with mem := mem' } live := by
  refine h.touch ht ?_ (fun D' hD' ↦ ?_) fun D' di' hT ↦ ?_
  · rintro rfl
    exact h.own_ne h.kernelFrame _ hf
  · cases h.ledger.inj hf hD'
  · cases h.ledger.inj hf hT

/-- A spare frame is put in an empty place. -/
theorem Held.put (h : Held S B m live) (hf : Pending S B f) {own' : Owner → Option Nat} {o : Owner}
    (hfree : own m.mem live o = none) (hself : own' o = some f)
    (hother : ∀ o', o' ≠ o → own' o' = own m.mem live o') :
    Ledger own' m.Used ∧ (∀ {g}, Spare own' m.Used g ↔ B g ∧ g ≠ f) ∧
      ∀ {o' g}, own' o' = some g → g < S.totalFrames := by
  have hspare := h.spare.mpr hf.mem
  refine ⟨h.ledger.put hfree hspare hself hother, fun {g} ↦
    (spare_put hfree hspare hself hother g).trans (and_congr_left' h.spare), fun {o' g} ho' ↦ ?_⟩
  by_cases ho : o' = o
  · subst ho
    obtain rfl := Option.some.inj (hself.symm.trans ho')
    exact hf.lt
  · exact h.bound ((hother o' ho).symm.trans ho')

/-! ### Writing an entry of a directory -/

section PutDir

variable {v : Nat} (h : Held S B m live) (hD : D ∈ live) (hdi : di < 1024) (hv : v < 2 ^ 32)

include h hD hdi

theorem Held.touches_dir : Touches (D / 4096) m.mem (m.mem.put32 (D + 4 * di) v) :=
  touches_put32 (h.aligned hD) hdi v

/-- The other entries of directories stay. -/
theorem Held.entry_dir_of_ne {di' : Nat} (hD' : D' ∈ live) (hdi' : di' < 1024)
    (hne : ¬(D' = D ∧ di' = di)) :
    entry (m.mem.put32 (D + 4 * di) v) D' di' = entry m.mem D' di' := by
  by_cases hDD : D' = D
  · subst hDD
    exact entry_put32_of_ne (fun hdd ↦ hne ⟨rfl, hdd⟩) v
  · exact (h.touches_dir hD hdi).entry (h.aligned hD') (h.dir_ne hD hD' hDD) hdi'

/-- The entries of tables stay. -/
theorem Held.entry_table_of_dir {di' k : Nat} (hT : HasTable m.mem live D' di') (hk : k < 1024) :
    entry (m.mem.put32 (D + 4 * di) v) (tableAt m.mem D' di') k =
      entry m.mem (tableAt m.mem D' di') k := by
  refine (h.touches_dir hD hdi).entry (frameOf_mod _) ?_ hk
  rw [tableAt, frameOf_div]
  exact (h.table_ne_dir hT hD).symm

/-- The other places stay. -/
theorem Held.own_put_dir {o : Owner} (ht : o ≠ .table D di) (hp : ∀ ti, o ≠ .page D di ti) :
    own (m.mem.put32 (D + 4 * di) v) live o = own m.mem live o := by
  cases o with
  | dir D' => rfl
  | table D' di' =>
    refine own_table_congr fun hmem hhi ↦ h.entry_dir_of_ne hD hdi hmem hhi ?_
    rintro ⟨rfl, rfl⟩
    exact ht rfl
  | page D' di' ti' =>
    refine own_page_congr (fun hmem hhi ↦ h.entry_dir_of_ne hD hdi hmem hhi ?_)
      (h.entry_table_of_dir hD hdi)
    rintro ⟨rfl, rfl⟩
    exact hp ti' rfl

/-- A change of an entry of user space that the ledger survives. -/
theorem Held.put_dir (hlo : 256 ≤ di)
    (hledger : Ledger (own (m.mem.put32 (D + 4 * di) v) live) m.Used)
    (hspare : ∀ {g}, Spare (own (m.mem.put32 (D + 4 * di) v) live) m.Used g ↔ B' g)
    (hbound : ∀ {o g}, own (m.mem.put32 (D + 4 * di) v) live o = some g → g < S.totalFrames)
    (hzero : B' 0) (hkernel : B' (S.kernelDir / 4096)) : Held S B' (setEntry m D di v) live :=
  { h with
    ledger := hledger
    spare := hspare
    bound := hbound
    zero := hzero
    kernelFrame := hkernel
    kernelEntries := fun {i} hi ↦ by
      rw [← h.kernelEntries hi]
      exact (h.touches_dir hD hdi).entry S.aligned (h.kernel_ne_dir hD) (by omega)
    entries := fun {D' i} hD' hi ↦ by
      rw [← h.entries hD' hi]
      exact h.entry_dir_of_ne hD hdi hD' (by omega) fun heq ↦ by omega }

include hv

/-- An entry that names a table is changed into one that names the same table. -/
theorem Held.own_setFlags (hT : HasTable m.mem live D di)
    (hframe : v / 4096 = entry m.mem D di / 4096) (hp : present v) :
    own (setEntry m D di v).mem live = own m.mem live := by
  have hent : entry (m.mem.put32 (D + 4 * di) v) D di = v := entry_put32_same hv
  have hhas : HasTable (m.mem.put32 (D + 4 * di) v) live D di :=
    ⟨hD, hT.2.1, hdi, hent.symm ▸ hp⟩
  have htab : tableAt (m.mem.put32 (D + 4 * di) v) D di = tableAt m.mem D di := by
    rw [tableAt, tableAt, hent, frameOf, frameOf, hframe]
  change own (m.mem.put32 (D + 4 * di) v) live = _
  funext o
  by_cases ho : o = .table D di
  · subst ho
    rw [own, own, if_pos hhas, if_pos hT, hent, hframe]
  · by_cases hpage : ∃ ti, o = .page D di ti
    · obtain ⟨ti, rfl⟩ := hpage
      by_cases hti : ti < 1024
      · simp only [own, hhas, hT, htab, h.entry_table_of_dir hD hdi hT hti]
      · simp [own, hti]
    · exact h.own_put_dir hD hdi ho fun ti heq ↦ hpage ⟨ti, heq⟩

theorem Held.setFlags (hT : HasTable m.mem live D di) (hframe : v / 4096 = entry m.mem D di / 4096)
    (hp : present v) : Held S B (setEntry m D di v) live := by
  have hown : own (m.mem.put32 (D + 4 * di) v) live = own m.mem live :=
    h.own_setFlags hD hdi hv hT hframe hp
  exact h.put_dir hD hdi hT.2.1 (hown.symm ▸ h.ledger) (hown.symm ▸ h.spare)
    (fun ho ↦ h.bound (hown ▸ ho)) h.zero h.kernelFrame

/-- A spare frame of zeros becomes a table. -/
theorem Held.own_putTable (hlo : 256 ≤ di) (hnone : ¬present (entry m.mem D di))
    (hf : Pending S B f) (hzero : ∀ {k}, k < 1024 → entry m.mem (f * 4096) k = 0)
    (hframe : v / 4096 = f) (hp : present v) :
    own (setEntry m D di v).mem live (.table D di) = some f ∧
      ∀ o, o ≠ .table D di → own (setEntry m D di v).mem live o = own m.mem live o := by
  have hent : entry (m.mem.put32 (D + 4 * di) v) D di = v := entry_put32_same hv
  have hhas : HasTable (m.mem.put32 (D + 4 * di) v) live D di :=
    ⟨hD, hlo, hdi, hent.symm ▸ hp⟩
  have hfD : f ≠ D / 4096 := fun heq ↦ h.own_ne hf.mem (.dir D) (own_dir.mpr ⟨hD, heq.symm⟩)
  change own (m.mem.put32 (D + 4 * di) v) live _ = _ ∧
    ∀ o, _ → own (m.mem.put32 (D + 4 * di) v) live o = _
  refine ⟨own_table.mpr ⟨hhas, by rw [hent, hframe]⟩, fun o ho ↦ ?_⟩
  by_cases hpage : ∃ ti, o = .page D di ti
  · obtain ⟨ti, rfl⟩ := hpage
    have hold : own m.mem live (.page D di ti) = none :=
      own_page_eq_none.mpr fun hc ↦ hnone hc.1.2.2.2
    rw [hold, own_page_eq_none]
    rintro ⟨-, hti, hpr⟩
    have htab : tableAt (m.mem.put32 (D + 4 * di) v) D di = f * 4096 := by
      rw [tableAt, hent, frameOf, hframe]
    rw [htab, (h.touches_dir hD hdi).entry (by simp) (by simpa using hfD) hti, hzero hti] at hpr
    cases hpr
  · exact h.own_put_dir hD hdi ho fun ti heq ↦ hpage ⟨ti, heq⟩

theorem Held.putTable (hlo : 256 ≤ di) (hnone : ¬present (entry m.mem D di)) (hf : Pending S B f)
    (hzero : ∀ {k}, k < 1024 → entry m.mem (f * 4096) k = 0) (hframe : v / 4096 = f)
    (hp : present v) : Held S (fun g ↦ B g ∧ g ≠ f) (setEntry m D di v) live := by
  obtain ⟨hself, hother⟩ := h.own_putTable hD hdi hv hlo hnone hf hzero hframe hp
  have hfree : own m.mem live (.table D di) = none := if_neg fun hT ↦ hnone hT.2.2.2
  obtain ⟨hledger, hspare, hbound⟩ := h.put hf hfree hself hother
  exact h.put_dir hD hdi hlo hledger hspare hbound ⟨h.zero, hf.ne_zero.symm⟩
    ⟨h.kernelFrame, hf.ne_kernel.symm⟩

end PutDir

/-! ### Writing an entry of a table -/

theorem Held.entry_dir_of_table {v i : Nat} (h : Held S B m live) (hT : HasTable m.mem live D di)
    (hti : ti < 1024) (hD' : D' ∈ live) (hi : i < 1024) :
    entry (m.mem.put32 (tableAt m.mem D di + 4 * ti) v) D' i = entry m.mem D' i := by
  refine (touches_put32 (frameOf_mod _) hti v).entry (h.aligned hD') ?_ hi
  rw [frameOf_div]
  exact h.table_ne_dir hT hD'

section PutPage

variable {v : Nat} (h : Held S B m live) (hT : HasTable m.mem live D di) (hti : ti < 1024)

include h hT hti

/-- An entry of a table is changed: the other places stay. -/
theorem Held.own_put_table (hv : v < 2 ^ 32) :
    (own (setEntry m (tableAt m.mem D di) ti v).mem live (.page D di ti) =
      if present v then some (v / 4096) else none) ∧
      ∀ o, o ≠ .page D di ti →
        own (setEntry m (tableAt m.mem D di) ti v).mem live o = own m.mem live o := by
  set T := tableAt m.mem D di with hTdef
  set mem' := m.mem.put32 (T + 4 * ti) v with hmem'
  have htouch : Touches (T / 4096) m.mem mem' := touches_put32 (frameOf_mod _) hti v
  have hent : entry mem' T ti = v := entry_put32_same hv
  have hdir : ∀ {D' i}, D' ∈ live → i < 1024 → entry mem' D' i = entry m.mem D' i :=
    h.entry_dir_of_table hT hti
  have htable : ∀ {D' di' k}, HasTable m.mem live D' di' → k < 1024 →
      ¬(D' = D ∧ di' = di ∧ k = ti) →
      entry mem' (tableAt m.mem D' di') k = entry m.mem (tableAt m.mem D' di') k := by
    intro D' di' k hT' hk hne
    by_cases hsame : D' = D ∧ di' = di
    · obtain ⟨rfl, rfl⟩ := hsame
      exact entry_put32_of_ne (fun hkt ↦ hne ⟨rfl, rfl, hkt⟩) v
    · refine htouch.entry (frameOf_mod _) (fun heq ↦ hsame ?_) hk
      rw [tableAt, frameOf_div, hTdef, tableAt, frameOf_div] at heq
      cases h.ledger.inj (own_table.mpr ⟨hT', heq⟩) (own_table.mpr ⟨hT, rfl⟩)
      exact ⟨rfl, rfl⟩
  have htab : tableAt mem' D di = T := by rw [tableAt, hdir hT.1 hT.2.2.1, ← tableAt]
  change own mem' live _ = _ ∧ ∀ o, _ → own mem' live o = _
  refine ⟨?_, fun o ho ↦ ?_⟩
  · simp only [own, hasTable_congr hdir, hT, hti, htab, hent, true_and]
  · cases o with
    | dir D' => rfl
    | table D' di' => exact own_table_congr hdir
    | page D' di' ti' =>
      refine own_page_congr hdir fun hT' hti' ↦ htable hT' hti' ?_
      rintro ⟨rfl, rfl, rfl⟩
      exact ho rfl

/-- A change of an entry of a table that the ledger survives. -/
theorem Held.put_table
    (hledger : Ledger (own (setEntry m (tableAt m.mem D di) ti v).mem live) m.Used)
    (hspare : ∀ {g}, Spare (own (setEntry m (tableAt m.mem D di) ti v).mem live) m.Used g ↔ B' g)
    (hbound : ∀ {o g}, own (setEntry m (tableAt m.mem D di) ti v).mem live o = some g →
      g < S.totalFrames) (hzero : B' 0) (hkernel : B' (S.kernelDir / 4096)) :
    Held S B' (setEntry m (tableAt m.mem D di) ti v) live :=
  { h with
    ledger := hledger
    spare := hspare
    bound := hbound
    zero := hzero
    kernelFrame := hkernel
    kernelEntries := fun {i} hi ↦ by
      rw [← h.kernelEntries hi]
      refine (touches_put32 (frameOf_mod _) hti v).entry S.aligned (fun heq ↦ ?_) (by omega)
      rw [frameOf_div] at heq
      exact h.own_ne h.kernelFrame (.table D di) (own_table.mpr ⟨hT, heq.symm⟩)
    entries := fun {D' i} hD' hi ↦ by
      rw [← h.entries hD' hi]
      exact h.entry_dir_of_table hT hti hD' (by omega) }

/-- A spare frame becomes a page. -/
theorem Held.putPage (hnone : ¬present (entry m.mem (tableAt m.mem D di) ti))
    (hf : Pending S B f) (hv : v < 2 ^ 32) (hframe : v / 4096 = f) (hp : present v) :
    Held S (fun g ↦ B g ∧ g ≠ f) (setEntry m (tableAt m.mem D di) ti v) live := by
  obtain ⟨hself, hother⟩ := h.own_put_table hT hti hv
  rw [if_pos hp, hframe] at hself
  have hfree : own m.mem live (.page D di ti) = none :=
    own_page_eq_none.mpr fun hc ↦ hnone hc.2.2
  obtain ⟨hledger, hspare, hbound⟩ := h.put hf hfree hself hother
  exact h.put_table hT hti hledger hspare hbound ⟨h.zero, hf.ne_zero.symm⟩
    ⟨h.kernelFrame, hf.ne_kernel.symm⟩

/-- A page is forgotten: its frame stays in use and is nobody's. -/
theorem Held.dropPage {g : Nat} (hg : own m.mem live (.page D di ti) = some g)
    (hv : v < 2 ^ 32) (hp : ¬present v) :
    Held S (fun b ↦ B b ∨ b = g) (setEntry m (tableAt m.mem D di) ti v) live := by
  obtain ⟨hself, hother⟩ := h.own_put_table hT hti hv
  rw [if_neg hp] at hself
  refine h.put_table hT hti (h.ledger.drop hself hother) (fun {b} ↦ ?_) ?_ (.inl h.zero)
    (.inl h.kernelFrame)
  · exact (h.ledger.spare_drop hg hself hother b).trans (or_congr_left h.spare)
  · intro o b ho
    by_cases hop : o = .page D di ti
    · rw [hop, hself] at ho
      cases ho
    · exact h.bound ((hother o hop).symm.trans ho)

end PutPage

/-! ### New directories -/

/-- A spare frame with the entries of the kernel becomes a directory. -/
theorem Held.putDir (h : Held S B m live) (hf : Pending S B f)
    (hkernel : ∀ {i}, i < 256 → entry m.mem (f * 4096) i = S.entries i)
    (huser : ∀ {i}, 256 ≤ i → i < 1024 → entry m.mem (f * 4096) i = 0) :
    Held S (fun g ↦ B g ∧ g ≠ f) m (f * 4096 :: live) := by
  have hdiv : f * 4096 / 4096 = f := frame_div _
  have hnmem : f * 4096 ∉ live := fun hmem ↦ h.own_ne hf.mem (.dir _) (own_dir.mpr ⟨hmem, hdiv⟩)
  have hhas : ∀ D di, HasTable m.mem (f * 4096 :: live) D di ↔ HasTable m.mem live D di := by
    intro D di
    unfold HasTable
    constructor
    · rintro ⟨hD, hlo, hhi, hpr⟩
      rcases List.mem_cons.mp hD with rfl | hD
      · rw [huser hlo hhi] at hpr
        cases hpr
      · exact ⟨hD, hlo, hhi, hpr⟩
    · exact fun hT ↦ ⟨List.mem_cons_of_mem _ hT.1, hT.2⟩
  have hself : own m.mem (f * 4096 :: live) (.dir (f * 4096)) = some f :=
    own_dir.mpr ⟨List.mem_cons_self, hdiv⟩
  have hother : ∀ o, o ≠ .dir (f * 4096) → own m.mem (f * 4096 :: live) o = own m.mem live o := by
    intro o ho
    cases o with
    | dir D =>
      have hne : D ≠ f * 4096 := fun heq ↦ ho (by rw [heq])
      simp [own, hne]
    | table D di => simp only [own, hhas]
    | page D di ti => simp only [own, hhas]
  have hfree : own m.mem live (.dir (f * 4096)) = none := if_neg hnmem
  obtain ⟨hledger, hspare, hbound⟩ := h.put hf hfree hself hother
  exact { h with
    ledger := hledger
    spare := hspare
    bound := hbound
    aligned := fun hD ↦ by
      rcases List.mem_cons.mp hD with rfl | hD
      · exact Nat.mul_mod_left ..
      · exact h.aligned hD
    nodup := List.nodup_cons.mpr ⟨hnmem, h.nodup⟩
    zero := ⟨h.zero, hf.ne_zero.symm⟩
    kernelFrame := ⟨h.kernelFrame, hf.ne_kernel.symm⟩
    entries := fun {D i} hD hi ↦ by
      rcases List.mem_cons.mp hD with rfl | hD
      · exact hkernel hi
      · exact h.entries hD hi }

end Held

end FentoOS.Mm
