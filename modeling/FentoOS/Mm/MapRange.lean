import FentoOS.Mm.Frames
import FentoOS.Mm.Visible

/-!
# Mapping a range of pages

`sys_brk`, `setup_user_stack` and `elf_load` map the pages of a range one after the
other.  If none of the pages is mapped before and there are frames for the pages and
for the tables that the range lacks, then all of them are mapped behind the loop, and
no other page has moved or changed.
-/

namespace FentoOS.Mm

open Lib

/-- The loop over the pages of a range that does not look at what `hal_addrspace_map_user`
returns. -/
def mapPages (dir : Nat) : (va n : Nat) → Memory → Memory
  | _, 0, m => m
  | va, n + 1, m => mapPages dir (va + 4096) n (halAddrspaceMapUser m dir va 0).2

/-- The entries of the directory that have no table yet and are those of some page of the
range. -/
def missingTables (mem : Bytes) (D va n : Nat) : Finset Nat :=
  (Finset.range 1024).filter fun di ↦
    ¬present (entry mem D di) ∧ ∃ i < n, pdIndex (va + i * 4096) = di

/-- The frames it takes to map the range. -/
def mapNeeds (mem : Bytes) (D va n : Nat) : Nat := n + (missingTables mem D va n).card

/-- The pages of the live spaces keep their frames and what is in them; pages that are new are
those from `lo` to `hi` in the space `D`. -/
structure OpensRange (live : List Nat) (D lo hi : Nat) (m m' : Memory) : Prop where
  kept : ∀ {E a}, E ∈ live → IsUser a → dirResolve m.mem E a ≠ 0 →
    dirResolve m'.mem E a = dirResolve m.mem E a
  bytes : ∀ {E a x}, E ∈ live → IsUser a → dirResolve m.mem E a ≠ 0 →
    x / 4096 = dirResolve m.mem E a / 4096 → m'.mem x = m.mem x
  rest : ∀ {E a}, E ∈ live → IsUser a → ¬(E = D ∧ lo ≤ a ∧ a < hi) →
    dirResolve m'.mem E a = dirResolve m.mem E a

variable {lo hi len : Nat} {src : Bytes}

section

variable {S : Setup} {B : Nat → Prop} {m m' : Memory} {live : List Nat} {D E va a n : Nat}

theorem OpensRange.refl (live : List Nat) (D lo hi : Nat) (m : Memory) :
    OpensRange live D lo hi m m :=
  ⟨fun _ _ _ ↦ rfl, fun _ _ _ _ ↦ rfl, fun _ _ _ ↦ rfl⟩

theorem OpensRange.byteAt_kept (h : OpensRange live D lo hi m m') (hE : E ∈ live) (ha : IsUser a)
    (hb : byteAt m E a ≠ none) : byteAt m' E a = byteAt m E a := by
  have hr : dirResolve m.mem E a ≠ 0 := fun h0 ↦ hb (byteAt_eq_none.mpr h0)
  have hmod : dirResolve m.mem E a % 4096 = 0 := (own_of_dirResolve hE ha.pdIndex hr).2
  have hkept := h.kept hE ha hr
  rw [byteAt_of_resolve hr, byteAt_of_resolve (hkept ▸ hr), hkept,
    h.bytes hE ha hr (by omega)]

/-- The first page, and then the others. -/
theorem OpensRange.cons {m'' : Memory} (hva : va % 4096 = 0) (hhi : va + 4096 ≤ hi)
    (h : Opens live D va m m') (h' : OpensRange live D (va + 4096) hi m' m'') :
    OpensRange live D va hi m m'' where
  kept hE ha hr := by
    have hkept := h.kept hE ha hr
    exact (h'.kept hE ha (hkept ▸ hr)).trans hkept
  bytes hE ha hr hx := by
    have hkept := h.kept hE ha hr
    exact (h'.bytes hE ha (hkept ▸ hr) (hkept ▸ hx)).trans (h.bytes hE ha hr hx)
  rest hE ha hne := by
    refine (h'.rest hE ha fun hc ↦ hne ⟨hc.1, by omega, hc.2.2⟩).trans (h.rest hE ha fun hc ↦ ?_)
    exact hne ⟨hc.1, by omega, by omega⟩

/-! ## Frames -/

/-- Behind `hal_addrspace_map_user` the table of the page is there, and no other table is
new. -/
theorem Held.tables_mapUser (h : Held S B m live) (hD : D ∈ live) {flags : Nat} (hva : IsUser va)
    (hoom : (halAddrspaceMapUser m D va flags).2.pmm.oom = false) :
    present (entry (halAddrspaceMapUser m D va flags).2.mem D (pdIndex va)) ∧
      ∀ {di}, 256 ≤ di → di < 1024 → di ≠ pdIndex va →
        (present (entry (halAddrspaceMapUser m D va flags).2.mem D di) ↔
          present (entry m.mem D di)) := by
  obtain ⟨f, hf, -, hpend, h₀⟩ := h.alloc (oom_mapUser hoom)
  have hf0 : f * 4096 ≠ 0 := Nat.mul_ne_zero hpend.ne_zero (by decide)
  rw [halAddrspaceMapUser, hf, if_neg hf0] at hoom ⊢
  obtain ⟨hself, hother, -⟩ := h₀.own_mapInDir hD hva.pdIndex hpend hoom
  refine ⟨(own_page.mp hself).1.1.2.2.2, fun {di} hlo hhi hne ↦ ?_⟩
  have htable := hother (.table D di) (by simp) (by simpa using hne)
  have hiff : ∀ {mem : Bytes}, own mem live (.table D di) = none ↔ ¬present (entry mem D di) := by
    intro mem
    simp [own, HasTable, hD, hlo, hhi]
  rw [← not_iff_not, ← hiff, ← hiff, htable]
  rfl

/-- What `hal_addrspace_map_user` takes: a frame for the page, and one for its table. -/
theorem Held.draws_mapUser (h : Held S B m live) (hne : freeSet m.pmm ≠ ∅) (D va flags : Nat) :
    Memory.Draws (1 + if present (entry m.mem D (pdIndex va)) then 0 else 1) m
      (halAddrspaceMapUser m D va flags).2 := by
  have hzero : 0 ∉ freeSet m.pmm := by
    rw [mem_freeSet]
    rintro ⟨-, h0⟩
    have hused : m.pmm.used 0 = true := (h.spare.mpr h.zero).1
    rw [hused] at h0
    cases h0
  rw [halAddrspaceMapUser, if_neg fun h0 ↦ hne ((allocFrame_eq_zero_iff hzero).mp h0)]
  exact (draws_allocFrame m).trans (draws_mapInDir (allocFrame m).2 ..)

theorem missingTables_mapUser (h : Held S B m live) (hD : D ∈ live) {flags : Nat}
    (hva : userBase ≤ va) (hhi : va + (n + 1) * 4096 ≤ 2 ^ 32)
    (hoom : (halAddrspaceMapUser m D va flags).2.pmm.oom = false) :
    missingTables (halAddrspaceMapUser m D va flags).2.mem D (va + 4096) n =
      (missingTables m.mem D va (n + 1)).erase (pdIndex va) := by
  obtain ⟨hnew, hold⟩ := h.tables_mapUser hD ⟨hva, by omega⟩ hoom
  have huser : ∀ {i}, i < n → 256 ≤ pdIndex (va + 4096 + i * 4096) :=
    fun hi ↦ pdIndex_user (by omega) (by omega)
  ext di
  simp only [missingTables, Finset.mem_erase, Finset.mem_filter, Finset.mem_range]
  constructor
  · rintro ⟨hdi, hmiss, i, hi, rfl⟩
    have hne : pdIndex (va + 4096 + i * 4096) ≠ pdIndex va := by
      intro heq
      rw [heq] at hmiss
      exact hmiss hnew
    refine ⟨hne, hdi, ?_, i + 1, by omega, by congr 1; omega⟩
    rwa [← hold (huser hi) hdi hne]
  · rintro ⟨hne, hdi, hmiss, i, hi, rfl⟩
    obtain _ | i := i
    · rw [Nat.zero_mul, Nat.add_zero] at hne
      exact absurd rfl hne
    · have heq : va + (i + 1) * 4096 = va + 4096 + i * 4096 := by omega
      rw [heq] at hne hdi hmiss ⊢
      refine ⟨hdi, ?_, i, by omega, rfl⟩
      rwa [hold (huser (by omega)) hdi hne]

/-- If there are frames for the range, there is one for its first page, and then there are frames
for the rest. -/
theorem Held.room_mapUser (h : Held S B m live) (hD : D ∈ live) (flags : Nat)
    (hva : userBase ≤ va) (hhi : va + (n + 1) * 4096 ≤ 2 ^ 32) (hoom : m.pmm.oom = false)
    (hroom : mapNeeds m.mem D va (n + 1) ≤ (freeSet m.pmm).card) :
    (halAddrspaceMapUser m D va flags).2.pmm.oom = false ∧
      mapNeeds (halAddrspaceMapUser m D va flags).2.mem D (va + 4096) n ≤
        (freeSet (halAddrspaceMapUser m D va flags).2.pmm).card := by
  have hne : freeSet m.pmm ≠ ∅ := by
    rw [← Finset.nonempty_iff_ne_empty, ← Finset.card_pos]
    unfold mapNeeds at hroom
    omega
  have hmem : pdIndex va ∈ missingTables m.mem D va (n + 1) ↔
      ¬present (entry m.mem D (pdIndex va)) := by
    simp only [missingTables, Finset.mem_filter, Finset.mem_range, (pdIndex_lt _), true_and]
    refine ⟨And.left, fun hp ↦ ⟨hp, 0, by omega, by simp⟩⟩
  have hdraws := h.draws_mapUser hne D va flags
  have hcard : (freeSet (halAddrspaceMapUser m D va flags).2.pmm).card =
    (freeSet m.pmm).card - (1 + if present (entry m.mem D (pdIndex va)) then 0 else 1) :=
      hdraws.card
  have herase : ((missingTables m.mem D va (n + 1)).erase (pdIndex va)).card +
      (if present (entry m.mem D (pdIndex va)) then 0 else 1) =
        (missingTables m.mem D va (n + 1)).card := by
    split
    case isTrue hp => rw [Finset.erase_eq_of_notMem fun hc ↦ hmem.mp hc hp, Nat.add_zero]
    case isFalse hp => exact Finset.card_erase_add_one (hmem.mpr hp)
  rw [mapNeeds] at hroom
  have hclear := hdraws.clear_of_le hoom (by omega)
  refine ⟨hclear, ?_⟩
  rw [mapNeeds, missingTables_mapUser h hD hva hhi hclear, hcard]
  omega

theorem mapNeeds_le (mem : Bytes) (D va n : Nat) : mapNeeds mem D va n ≤ 2 * n := by
  have hsub : missingTables mem D va n ⊆
      (Finset.range n).image fun i ↦ pdIndex (va + i * 4096) := by
    intro di hdi
    simp only [missingTables, Finset.mem_filter, Finset.mem_range] at hdi
    obtain ⟨-, -, i, hi, rfl⟩ := hdi
    exact Finset.mem_image_of_mem _ (Finset.mem_range.mpr hi)
  have hcard := (Finset.card_le_card hsub).trans Finset.card_image_le
  rw [Finset.card_range] at hcard
  unfold mapNeeds
  omega

/-! ## The loop -/

/-- What the loop does to the view of memory. -/
structure MapsRange (S : Setup) (B : Nat → Prop) (live : List Nat) (D va n : Nat)
    (m m' : Memory) : Prop where
  held : Held S B m' live
  clear : m'.pmm.oom = false
  opens : OpensRange live D va (va + n * 4096) m m'
  mapped : ∀ {a}, va ≤ a → a < va + n * 4096 → dirResolve m'.mem D a ≠ 0
  others : ∀ {x}, B (x / 4096) → m'.mem x = m.mem x

/-- **The pages of a range are mapped**, if none of them was and there are frames for them. -/
theorem Held.mapsRange (h : Held S B m live) (hD : D ∈ live) (hmod : va % 4096 = 0)
    (hva : userBase ≤ va) (hhi : va + n * 4096 ≤ 2 ^ 32) (hoom : m.pmm.oom = false)
    (hnone : ∀ {a}, va ≤ a → a < va + n * 4096 → dirResolve m.mem D a = 0)
    (hroom : mapNeeds m.mem D va n ≤ (freeSet m.pmm).card) :
    MapsRange S B live D va n m (mapPages D va n m) := by
  induction n generalizing va m with
  | zero =>
    exact ⟨h, hoom, .refl .., fun _ _ ↦ by omega, fun _ ↦ rfl⟩
  | succ n ih =>
    have huser : IsUser va := ⟨hva, by omega⟩
    have hfirst : dirResolve m.mem D va = 0 := hnone le_rfl (by omega)
    obtain ⟨hclear, hroom'⟩ := h.room_mapUser hD 0 hva hhi hoom hroom
    have h₁ := h.mapUser hD huser.pdIndex hfirst hclear
    obtain ⟨hopen, f, hf0, -, hf, -⟩ := h.opens_mapUser hD huser hfirst hclear
    have hrest := ih h₁ (by omega) (by omega) (by omega) hclear (fun {a} hlo hlt ↦ ?_) hroom'
    · refine ⟨hrest.held, hrest.clear, .cons hmod (by omega) hopen ?_, fun {a} hlo hlt ↦ ?_,
        fun {x} hx ↦ ?_⟩
      · have heq : va + (n + 1) * 4096 = va + 4096 + n * 4096 := by omega
        rw [heq]
        exact hrest.opens
      · by_cases hin : a < va + 4096
        · have hr : dirResolve (halAddrspaceMapUser m D va 0).2.mem D a ≠ 0 := by
            rw [dirResolve_page _ D (by omega : a / 4096 = va / 4096), hf]
            exact Nat.mul_ne_zero hf0 (by decide)
          rw [mapPages, hrest.opens.kept hD ⟨by omega, by omega⟩ hr]
          exact hr
        · exact hrest.mapped (by omega) (by omega)
      · exact (hrest.others hx).trans (h.bytes_mapUser hD huser hclear hx)
    · rw [hopen.rest hD ⟨by omega, by omega⟩ (by omega)]
      exact hnone (by omega) (by omega)

/-! ## A mapped range as a buffer -/

/-- The space `D` sees the buffer `v` from `lo` to `hi`. -/
structure Flat (S : Setup) (B : Nat → Prop) (live : List Nat) (D lo hi : Nat) (m : Memory)
    (v : Bytes) : Prop where
  held : Held S B m live
  clear : m.pmm.oom = false
  sees : ∀ {a}, lo ≤ a → a < hi → byteAt m D a = some (v a)

/-- A mapped range is a buffer. -/
theorem MapsRange.flat {m' : Memory} (h : MapsRange S B live D va n m m') :
    ∃ v, Flat S B live D va (va + n * 4096) m' v :=
  ⟨fun a ↦ m'.mem (dirResolve m'.mem D a + a % 4096), h.held, h.clear,
    fun hlo hhi ↦ byteAt_of_resolve (h.mapped hlo hhi)⟩

theorem Flat.word {v : Bytes} (h : Flat S B live D lo hi m v) (hlo : lo ≤ va) (hhi : va + 4 ≤ hi) :
    wordAt m D va = some (v.get32 va) := by
  rw [wordAt, h.sees hlo (by omega), h.sees (by omega : lo ≤ va + 1) (by omega),
    h.sees (by omega : lo ≤ va + 2) (by omega), h.sees (by omega : lo ≤ va + 3) (by omega)]
  rfl

/-- The bytes from `lo` to `hi` are stored in the space `D`, where every page is mapped: no frame is
taken, no page moves, and nothing else changes. -/
structure Fills (live : List Nat) (D lo hi : Nat) (src : Bytes) (m m' : Memory) : Prop where
  seen : Seen live m'.mem
  pmm : m'.pmm = m.pmm
  resolve : ∀ {E a}, E ∈ live → IsUser a → dirResolve m'.mem E a = dirResolve m.mem E a
  bytes : ∀ {E a}, E ∈ live → IsUser a → byteAt m' E a =
    if E = D ∧ lo ≤ a ∧ a < hi then some (src (a - lo)) else byteAt m E a
  rest : ∀ x, OffPages live m.mem x → m'.mem x = m.mem x

theorem Fills.refl (h : Seen live m.mem) (hle : hi ≤ lo) (src : Bytes) :
    Fills live D lo hi src m m :=
  ⟨h, rfl, fun _ _ ↦ rfl, fun _ _ ↦ (if_neg (by omega)).symm, fun _ _ ↦ rfl⟩

theorem OffPages.congr {mem mem' : Bytes} {x : Nat} (h : OffPages live mem x)
    (hres : ∀ {E b}, E ∈ live → IsUser b → dirResolve mem' E b = dirResolve mem E b) :
    OffPages live mem' x := by
  intro D a hD ha hr
  rw [hres hD ha] at hr ⊢
  exact h hD ha hr

/-- The first `n` bytes are stored, and then the others. -/
theorem Fills.cons {m'' : Memory} {n : Nat} (hle : va + n ≤ hi)
    (h : Fills live D va (va + n) src m m')
    (h' : Fills live D (va + n) hi (fun i ↦ src (n + i)) m' m'') :
    Fills live D va hi src m m'' where
  seen := h'.seen
  pmm := h'.pmm.trans h.pmm
  resolve hE ha := (h'.resolve hE ha).trans (h.resolve hE ha)
  bytes {E a} hE ha := by
    rw [h'.bytes hE ha, h.bytes hE ha]
    by_cases hED : E = D ∧ va ≤ a ∧ a < hi
    · rw [if_pos hED]
      split
      case isTrue hin =>
        congr 2
        omega
      case isFalse hout => rw [if_pos (by omega)]
    · rw [if_neg hED, if_neg (by omega), if_neg (by omega)]
  rest x hx := (h'.rest x (hx.congr h.resolve)).trans (h.rest x hx)

/-- The loops of `hal_addrspace_copy_to` and `hal_addrspace_memset` where every page is mapped. -/
theorem Seen.fills_storeLoop (h : Seen live m.mem) (hD : D ∈ live) (hlo : userBase ≤ va)
    (hhi : va + len ≤ 2 ^ 32) {fuel done : Nat}
    (hmapped : ∀ {a}, va ≤ a → a < va + len → dirResolve m.mem D a ≠ 0)
    (hfuel : len ≤ done + fuel) :
    Fills live D (va + done) (va + len) (fun i ↦ src (done + i)) m
      (storeLoop D va src len fuel done m) := by
  induction fuel generalizing done m with
  | zero => exact .refl h (by omega) _
  | succ fuel ih =>
    rw [storeLoop]
    split
    case isFalse => exact .refl h (by omega) _
    case isTrue hd =>
      have hcur : wrap32 (va + done) = va + done := wrap32_of_lt (by omega)
      have huser : IsUser (va + done) := ⟨by omega, by omega⟩
      have hr := hmapped (by omega : va ≤ va + done) (by omega)
      have hpage : demandPage m D (va + done) = (dirResolve m.mem D (va + done), m) := by
        rw [demandPage]
        simp only [if_neg hr]
      obtain ⟨hpos, hinside, hchunk⟩ := pageChunk_spec hhi hd
      obtain ⟨h₂, hres, hbytes, hrest⟩ := h.byteAt_memcpy hD huser hr hchunk
        (rfl : _ = { m with mem := m.mem.memcpy _ src done _ })
      simp only [hcur, hpage, if_neg hr]
      have hfirst : Fills live D (va + done) (va + done + pageChunk va len done)
          (fun i ↦ src (done + i)) m _ := ⟨h₂, rfl, hres, hbytes, hrest⟩
      have htail := ih h₂ (fun {a} hlo' hlt ↦ by
        rw [hres hD ⟨by omega, by omega⟩]
        exact hmapped hlo' hlt) (by omega : len ≤ done + pageChunk va len done + fuel)
      refine hfirst.cons (by omega) ?_
      simpa only [Nat.add_assoc] using htail

theorem Seen.fills_copyTo (h : Seen live m.mem) (hD : D ∈ live) (hlo : userBase ≤ va)
    (hhi : va + len ≤ 2 ^ 32) (hmapped : ∀ {a}, va ≤ a → a < va + len → dirResolve m.mem D a ≠ 0) :
    Fills live D va (va + len) src m (halAddrspaceCopyTo m D va src len) := by
  rw [halAddrspaceCopyTo]
  simpa using h.fills_storeLoop hD hlo hhi hmapped (Nat.le_add_left len 0)

/-- A copy to the range is a copy to the buffer. -/
theorem Flat.copyTo {v : Bytes} (h : Flat S B live D lo hi m v) (hD : D ∈ live)
    (huser : userBase ≤ lo) (hhi : hi ≤ 2 ^ 32) (hlo : lo ≤ va) (hle : va + len ≤ hi) :
    Flat S B live D lo hi (halAddrspaceCopyTo m D va src len) (v.memcpy va src 0 len) := by
  have hmapped : ∀ {a}, va ≤ a → a < va + len → dirResolve m.mem D a ≠ 0 := by
    intro a ha hlt h0
    have hsees := h.sees (hlo.trans ha) (lt_of_lt_of_le hlt hle)
    rw [byteAt_eq_none.mpr h0] at hsees
    cases hsees
  have hfills : Fills live D va (va + len) src m (halAddrspaceCopyTo m D va src len) :=
    (h.held.seen fun _ ↦ id).fills_copyTo hD (by omega) (by omega) hmapped
  have hclear : (halAddrspaceCopyTo m D va src len).pmm.oom = false := by
    rw [hfills.pmm, h.clear]
  refine ⟨h.held.storeLoop hD (by omega) (by omega) hclear, hclear, fun {a} ha hlt ↦ ?_⟩
  rw [hfills.bytes hD ⟨by omega, by omega⟩]
  by_cases hin : va ≤ a ∧ a < va + len
  · rw [if_pos ⟨rfl, hin⟩, Bytes.memcpy_of_mem _ _ hin.1 hin.2, Nat.zero_add]
  · rw [if_neg fun hc ↦ hin hc.2, Bytes.memcpy_of_notMem _ _ (by omega), h.sees ha hlt]

end

end FentoOS.Mm
