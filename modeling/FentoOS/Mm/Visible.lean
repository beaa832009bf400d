import FentoOS.Mm.AddressSpaces

/-!
# What a program sees

A program in an address space sees memory through the tables of the space.  The
functions that map and fill pages are described here by what they change in this
view: `hal_addrspace_map_user` opens one page, and `hal_addrspace_copy_to` and
`hal_addrspace_memset` store a range of bytes.  Everything else that any live space
sees at its user addresses stays as it is, since no two pages share a frame and no
page is in the frame of a table.
-/

namespace FentoOS.Mm

open Lib

/-- The addresses of user space. -/
def IsUser (va : Nat) : Prop := userBase ≤ va ∧ va < 2 ^ 32

/-- What a load at `va` gives in the space `D`; nothing where no page is mapped. -/
def byteAt (m : Memory) (D va : Nat) : Option UInt8 :=
  if dirResolve m.mem D va = 0 then none
  else some (m.mem (dirResolve m.mem D va + va % 4096))

/-- What a load of a word gives. -/
def wordAt (m : Memory) (D va : Nat) : Option Nat :=
  match byteAt m D va, byteAt m D (va + 1), byteAt m D (va + 2), byteAt m D (va + 3) with
  | some b₀, some b₁, some b₂, some b₃ =>
    some (b₀.toNat + 256 * b₁.toNat + 65536 * b₂.toNat + 16777216 * b₃.toNat)
  | _, _, _, _ => none

theorem IsUser.pdIndex {va : Nat} (h : IsUser va) : 256 ≤ pdIndex va := pdIndex_user h.1 h.2

theorem IsUser.frameOf {va : Nat} (h : IsUser va) : IsUser (frameOf va) := by
  obtain ⟨hlo, hhi⟩ := h
  unfold userBase at hlo
  unfold IsUser userBase Mm.frameOf
  omega

variable {flags len done : Nat} {src : Bytes}

section

variable {S : Setup} {B : Nat → Prop} {m m' : Memory} {live : List Nat} {D E va a : Nat}

theorem byteAt_of_resolve (h : dirResolve m.mem D va ≠ 0) :
    byteAt m D va = some (m.mem (dirResolve m.mem D va + va % 4096)) := if_neg h

theorem byteAt_eq_none : byteAt m D va = none ↔ dirResolve m.mem D va = 0 := by
  unfold byteAt
  split <;> simp_all

/-- A page resolves to the frame that its place holds. -/
theorem dirResolve_own {mem : Bytes} (hD : D ∈ live) (ha : IsUser a) : dirResolve mem D a =
    (own mem live (.page D (pdIndex a) (ptIndex a))).getD 0 * 4096 := by
  rw [dirResolve_eq]
  split
  case isTrue hp =>
    rw [own_page.mpr ⟨⟨⟨hD, ha.pdIndex, (pdIndex_lt _), hp.1⟩, (ptIndex_lt _), hp.2⟩, rfl⟩]
    rfl
  case isFalse hp =>
    rw [own_page_eq_none.mpr fun hc ↦ hp ⟨hc.1.2.2.2, hc.2.2⟩]
    rfl

theorem dirResolve_mod (mem : Bytes) (D a : Nat) : dirResolve mem D a % 4096 = 0 := by
  rw [dirResolve_eq]
  split
  · exact frameOf_mod _
  · rfl

theorem dirResolve_page (mem : Bytes) (D : Nat) {a b : Nat} (h : a / 4096 = b / 4096) :
    dirResolve mem D a = dirResolve mem D b := by
  rw [← dirResolve_frameOf, frameOf, h, ← dirResolve_frameOf mem D b, frameOf]

theorem page_inj {a b : Nat} (ha : IsUser a) (hb : IsUser b)
    (h : Owner.page D (pdIndex a) (ptIndex a) = .page E (pdIndex b) (ptIndex b)) :
    D = E ∧ a / 4096 = b / 4096 := by
  injection h with hD hdi hti
  refine ⟨hD, ?_⟩
  have := ha.2
  have := hb.2
  unfold pdIndex at hdi
  unfold ptIndex at hti
  omega

/-! ## Mapping a page -/

/-- The pages of the live spaces keep their frames and what is in them; if a page is new, it is
the page of `va` in the space `D`. -/
structure Opens (live : List Nat) (D va : Nat) (m m' : Memory) : Prop where
  kept : ∀ {E a}, E ∈ live → IsUser a → dirResolve m.mem E a ≠ 0 →
    dirResolve m'.mem E a = dirResolve m.mem E a
  bytes : ∀ {E a x}, E ∈ live → IsUser a → dirResolve m.mem E a ≠ 0 →
    x / 4096 = dirResolve m.mem E a / 4096 → m'.mem x = m.mem x
  rest : ∀ {E a}, E ∈ live → IsUser a → ¬(E = D ∧ a / 4096 = va / 4096) →
    dirResolve m'.mem E a = dirResolve m.mem E a

theorem Opens.refl (live : List Nat) (D va : Nat) (m : Memory) : Opens live D va m m :=
  ⟨fun _ _ _ ↦ rfl, fun _ _ _ _ ↦ rfl, fun _ _ _ ↦ rfl⟩

theorem Opens.byteAt_kept (h : Opens live D va m m') (hE : E ∈ live) (ha : IsUser a)
    (hb : byteAt m E a ≠ none) : byteAt m' E a = byteAt m E a := by
  have hr : dirResolve m.mem E a ≠ 0 := fun h0 ↦ hb (byteAt_eq_none.mpr h0)
  have hmod : dirResolve m.mem E a % 4096 = 0 := (own_of_dirResolve hE ha.pdIndex hr).2
  have hkept := h.kept hE ha hr
  rw [byteAt_of_resolve hr, byteAt_of_resolve (hkept ▸ hr), hkept,
    h.bytes hE ha hr (by omega)]

/-- `hal_addrspace_map_user` puts a frame that was free at the page of `va`, whether there was a
page before or not; what is in the frame stays there.  The other pages keep their frames and what
is in them. -/
theorem Held.fresh_mapUser (h : Held S B m live) (hD : D ∈ live) (hva : IsUser va)
    (hoom : (halAddrspaceMapUser m D va flags).2.pmm.oom = false) :
    (∃ f, f ≠ 0 ∧ ¬m.Used f ∧
      dirResolve (halAddrspaceMapUser m D va flags).2.mem D va = f * 4096 ∧
      ∀ {x}, x / 4096 = f → (halAddrspaceMapUser m D va flags).2.mem x = m.mem x) ∧
    (∀ {E a}, E ∈ live → IsUser a → ¬(E = D ∧ a / 4096 = va / 4096) →
      dirResolve (halAddrspaceMapUser m D va flags).2.mem E a = dirResolve m.mem E a) ∧
    ∀ {E a x}, E ∈ live → IsUser a → dirResolve m.mem E a ≠ 0 →
      x / 4096 = dirResolve m.mem E a / 4096 →
        (halAddrspaceMapUser m D va flags).2.mem x = m.mem x := by
  obtain ⟨f, hf, hfree, hpend, h₀⟩ := h.alloc (oom_mapUser hoom)
  have hf0 : f * 4096 ≠ 0 := Nat.mul_ne_zero hpend.ne_zero (by decide)
  rw [halAddrspaceMapUser, hf, if_neg hf0] at hoom ⊢
  obtain ⟨hself, hother, hbytes⟩ := h₀.own_mapInDir hD hva.pdIndex hpend hoom
  refine ⟨⟨f, hpend.ne_zero, hfree, ?_, fun {x} hx ↦ ?_⟩, fun {E a} hE ha hne ↦ ?_,
    fun {E a x} hE ha hr hx ↦ ?_⟩
  · simp only
    rw [dirResolve_own hD hva, hself]
    rfl
  · refine hbytes x (hx ▸ (h₀.spare.mpr hpend.mem).1) fun o _ ho ↦ ?_
    rw [hx] at ho
    exact h₀.own_ne hpend.mem o ho
  · simp only
    rw [dirResolve_own hE ha, dirResolve_own hE ha,
      hother _ (fun heq ↦ hne (page_inj ha hva heq)) (by simp)]
    rfl
  · have hown := (own_of_dirResolve hE ha.pdIndex hr).1
    rw [← hx] at hown
    refine hbytes x (h₀.ledger.used hown) ?_
    rintro o (rfl | rfl) ho
    · cases h.ledger.inj hown ho
    · cases h.ledger.inj hown ho

/-- A page that was not mapped is opened. -/
theorem Held.opens_mapUser (h : Held S B m live) (hD : D ∈ live) (hva : IsUser va)
    (hnone : dirResolve m.mem D va = 0)
    (hoom : (halAddrspaceMapUser m D va flags).2.pmm.oom = false) :
    Opens live D va m (halAddrspaceMapUser m D va flags).2 ∧
      ∃ f, f ≠ 0 ∧ ¬m.Used f ∧
        dirResolve (halAddrspaceMapUser m D va flags).2.mem D va = f * 4096 ∧
        ∀ {x}, x / 4096 = f → (halAddrspaceMapUser m D va flags).2.mem x = m.mem x := by
  obtain ⟨hfresh, hrest, hbytes⟩ := h.fresh_mapUser hD hva hoom
  refine ⟨⟨fun {E a} hE ha hr ↦ hrest hE ha ?_, hbytes, hrest⟩, hfresh⟩
  rintro ⟨rfl, hpage⟩
  exact hr (dirResolve_page m.mem E hpage ▸ hnone)

/-- A frame that belongs to no space keeps its bytes. -/
theorem Held.bytes_mapUser (h : Held S B m live) (hD : D ∈ live) {x : Nat} (hva : IsUser va)
    (hoom : (halAddrspaceMapUser m D va flags).2.pmm.oom = false) (hx : B (x / 4096)) :
    (halAddrspaceMapUser m D va flags).2.mem x = m.mem x := by
  obtain ⟨f, hf, -, hpend, h₀⟩ := h.alloc (oom_mapUser hoom)
  have hf0 : f * 4096 ≠ 0 := Nat.mul_ne_zero hpend.ne_zero (by decide)
  rw [halAddrspaceMapUser, hf, if_neg hf0] at hoom ⊢
  obtain ⟨-, -, hbytes⟩ := h₀.own_mapInDir hD hva.pdIndex hpend hoom
  exact hbytes x (h₀.spare.mpr (.inl hx)).1 fun o _ ↦ h₀.own_ne (.inl hx) o

/-- The page that the loops store to is there. -/
theorem Held.opens_demandPage (h : Held S B m live) (hD : D ∈ live) (hva : IsUser va)
    (hoom : (Mm.demandPage m D va).2.pmm.oom = false) :
    Opens live D va m (Mm.demandPage m D va).2 ∧
      dirResolve (Mm.demandPage m D va).2.mem D va ≠ 0 := by
  by_cases hr : dirResolve m.mem D va = 0
  · have heq : (Mm.demandPage m D va).2 = (halAddrspaceMapUser m D (frameOf va) 0).2 := by
      rw [Mm.demandPage]
      simp only [if_pos hr]
    rw [heq] at hoom ⊢
    obtain ⟨hopen, f, hf0, -, hf, -⟩ := h.opens_mapUser hD hva.frameOf
      (by rwa [dirResolve_frameOf]) hoom
    refine ⟨⟨hopen.kept, hopen.bytes, fun {E a} hE ha hne ↦ ?_⟩, ?_⟩
    · exact hopen.rest hE ha (by rwa [frameOf_div])
    · rw [← dirResolve_frameOf, hf]
      exact Nat.mul_ne_zero hf0 (by decide)
  · have heq : (Mm.demandPage m D va).2 = m := by
      rw [Mm.demandPage]
      simp only [if_neg hr]
    rw [heq]
    exact ⟨.refl live D va m, hr⟩

/-! ## Storing bytes -/

/-- The pages of the spaces are in frames of their own: no two of them in one frame, and none in
the frame of a directory or of a table. -/
structure Seen (live : List Nat) (mem : Bytes) : Prop where
  aligned : ∀ {D}, D ∈ live → D % 4096 = 0
  inj : ∀ {D E a b}, D ∈ live → E ∈ live → IsUser a → IsUser b → dirResolve mem D a ≠ 0 →
    dirResolve mem D a = dirResolve mem E b → D = E ∧ a / 4096 = b / 4096
  dir : ∀ {D E a}, D ∈ live → E ∈ live → IsUser a → dirResolve mem D a ≠ 0 →
    E / 4096 ≠ dirResolve mem D a / 4096
  table : ∀ {D E a b}, D ∈ live → E ∈ live → IsUser a → IsUser b → dirResolve mem D a ≠ 0 →
    present (entry mem E (pdIndex b)) →
      entry mem E (pdIndex b) / 4096 ≠ dirResolve mem D a / 4096

theorem Held.seen (h : Held S B m live) {l : List Nat} (hl : ∀ D ∈ l, D ∈ live) :
    Seen l m.mem where
  aligned hD := h.aligned (hl _ hD)
  inj hD hE ha hb hr heq := by
    have hown := (own_of_dirResolve (hl _ hD) ha.pdIndex hr).1
    have hown' := (own_of_dirResolve (hl _ hE) hb.pdIndex (heq ▸ hr)).1
    rw [heq] at hown
    exact page_inj ha hb (h.ledger.inj hown hown')
  dir hD hE ha hr heq := by
    have hown := (own_of_dirResolve (hl _ hD) ha.pdIndex hr).1
    cases h.ledger.inj hown (own_dir.mpr ⟨hl _ hE, heq⟩)
  table hD hE ha hb hr hp heq := by
    have hown := (own_of_dirResolve (hl _ hD) ha.pdIndex hr).1
    cases h.ledger.inj hown
      (own_table.mpr ⟨⟨hl _ hE, hb.pdIndex, Nat.mod_lt _ (by decide), hp⟩, heq⟩)

/-- `x` is in no page of a space. -/
def OffPages (live : List Nat) (mem : Bytes) (x : Nat) : Prop :=
  ∀ {D a}, D ∈ live → IsUser a → dirResolve mem D a ≠ 0 → x / 4096 ≠ dirResolve mem D a / 4096

/-- What is stored in pages moves no page. -/
theorem Seen.keeps {mem mem' : Bytes} (h : Seen live mem)
    (hmem : ∀ x, OffPages live mem x → mem' x = mem x) :
    Seen live mem' ∧
      ∀ {E b}, E ∈ live → IsUser b → dirResolve mem' E b = dirResolve mem E b := by
  have hdir : ∀ {E}, E ∈ live → ∀ x, x / 4096 = E / 4096 → mem' x = mem x :=
    fun hE x hx ↦ hmem x fun hD ha hr heq ↦ h.dir hD hE ha hr (hx.symm.trans heq)
  have hentry : ∀ {E b}, E ∈ live → entry mem' E (pdIndex b) = entry mem E (pdIndex b) :=
    fun hE ↦ entry_congr (h.aligned hE) (pdIndex_lt _) (hdir hE)
  have hres : ∀ {E b}, E ∈ live → IsUser b → dirResolve mem' E b = dirResolve mem E b :=
    fun hE hb ↦ dirResolve_congr (hentry hE) fun hp x hx ↦
      hmem x fun hD ha hr heq ↦ h.table hD hE ha hb hr hp (hx.symm.trans heq)
  refine ⟨⟨h.aligned, fun hD hE ha hb hr heq ↦ ?_, fun hD hE ha hr ↦ ?_,
    fun hD hE ha hb hr hp ↦ ?_⟩, hres⟩
  · rw [hres hD ha] at hr heq
    rw [hres hE hb] at heq
    exact h.inj hD hE ha hb hr heq
  · rw [hres hD ha] at hr ⊢
    exact h.dir hD hE ha hr
  · rw [hres hD ha] at hr ⊢
    rw [hentry hE] at hp ⊢
    exact h.table hD hE ha hb hr hp

/-- A store into one page. -/
theorem Seen.byteAt_memcpy (h : Seen live m.mem) (hD : D ∈ live) (hva : IsUser va)
    (hr : dirResolve m.mem D va ≠ 0) {k n : Nat} (hn : va % 4096 + n ≤ 4096)
    (hm' : m' = { m with mem := m.mem.memcpy (dirResolve m.mem D va + va % 4096) src k n }) :
    Seen live m'.mem ∧ (∀ {E a}, E ∈ live → IsUser a →
      dirResolve m'.mem E a = dirResolve m.mem E a) ∧
      (∀ {E a}, E ∈ live → IsUser a → byteAt m' E a =
        if E = D ∧ va ≤ a ∧ a < va + n then some (src (k + (a - va))) else byteAt m E a) ∧
      ∀ x, OffPages live m.mem x → m'.mem x = m.mem x := by
  have hmod := dirResolve_mod m.mem D va
  have hmem : m'.mem = m.mem.memcpy (dirResolve m.mem D va + va % 4096) src k n := by rw [hm']
  have hoff : ∀ x, OffPages live m.mem x → m'.mem x = m.mem x := by
    intro x hx
    rw [hmem]
    exact touches_memcpy hmod hn src k x (hx hD hva hr)
  obtain ⟨hseen, hres⟩ := h.keeps hoff
  refine ⟨hseen, hres, fun {E a} hE ha ↦ ?_, hoff⟩
  by_cases hra : dirResolve m.mem E a = 0
  · have hnone : byteAt m E a = none := byteAt_eq_none.mpr hra
    rw [if_neg, hnone, byteAt_eq_none, hres hE ha, hra]
    rintro ⟨rfl, hlo, hhi⟩
    exact hr (dirResolve_page m.mem E (by omega : va / 4096 = a / 4096) ▸ hra)
  · have hmoda := dirResolve_mod m.mem E a
    rw [byteAt_of_resolve (hres hE ha ▸ hra), byteAt_of_resolve hra, hres hE ha, hmem]
    by_cases hframe : dirResolve m.mem E a = dirResolve m.mem D va
    · obtain ⟨rfl, hpage⟩ := h.inj hE hD ha hva hra hframe
      rw [hframe]
      split
      case isTrue hin =>
        rw [Bytes.memcpy_of_mem _ _ (by omega) (by omega)]
        congr 3
        omega
      case isFalse hout => rw [Bytes.memcpy_of_notMem _ _ (by omega)]
    · have hpages : dirResolve m.mem E a / 4096 ≠ dirResolve m.mem D va / 4096 := by omega
      rw [if_neg, Bytes.memcpy_of_notMem _ _ (by omega)]
      rintro ⟨rfl, hlo, hhi⟩
      exact hframe (dirResolve_page m.mem E (by omega))

/-- The bytes from `lo` to `hi` are stored in the space `D`; mapped pages stay where they are, and
what else the live spaces see stays as it is. -/
structure Stores (live : List Nat) (D lo hi : Nat) (src : Bytes) (m m' : Memory) : Prop where
  stored : ∀ {a}, lo ≤ a → a < hi → byteAt m' D a = some (src (a - lo))
  resolve : ∀ {E a}, E ∈ live → IsUser a → dirResolve m.mem E a ≠ 0 →
    dirResolve m'.mem E a = dirResolve m.mem E a
  kept : ∀ {E a}, E ∈ live → IsUser a → ¬(E = D ∧ lo ≤ a ∧ a < hi) → byteAt m E a ≠ none →
    byteAt m' E a = byteAt m E a
  rest : ∀ {E a}, E ∈ live → IsUser a →
    (E = D → ∀ {b}, lo ≤ b → b < hi → b / 4096 ≠ a / 4096) →
    dirResolve m'.mem E a = dirResolve m.mem E a

/-- A page is opened and filled from `va` on, and the rest is stored behind it. -/
theorem Stores.cons {m₁ m₂ m₃ : Memory} {n hi : Nat} (hn : 0 < n) (hle : va + n ≤ hi)
    (hva : userBase ≤ va) (hhi : hi ≤ 2 ^ 32) (hD : D ∈ live) (hopen : Opens live D va m m₁)
    (hres : ∀ {E a}, E ∈ live → IsUser a → dirResolve m₂.mem E a = dirResolve m₁.mem E a)
    (hbyte : ∀ {E a}, E ∈ live → IsUser a → byteAt m₂ E a =
      if E = D ∧ va ≤ a ∧ a < va + n then some (src (a - va)) else byteAt m₁ E a)
    (hrest : Stores live D (va + n) hi (fun i ↦ src (n + i)) m₂ m₃) :
    Stores live D va hi src m m₃ where
  stored {a} hlo hlt := by
    have ha : IsUser a := ⟨hva.trans hlo, lt_of_lt_of_le hlt hhi⟩
    by_cases hin : a < va + n
    · have hfirst := (hbyte hD ha).trans (if_pos ⟨rfl, hlo, hin⟩)
      rw [← hfirst]
      refine hrest.kept hD ha (by omega) ?_
      rw [hfirst]
      simp
    · rw [hrest.stored (by omega) hlt]
      congr 2
      omega
  resolve hE ha hr := by
    have hr₁ := hopen.kept hE ha hr
    have hr₂ := (hres hE ha).trans hr₁
    exact (hrest.resolve hE ha (hr₂ ▸ hr)).trans hr₂
  kept hE ha hne hb := by
    have hb₁ := hopen.byteAt_kept hE ha hb
    have hb₂ := ((hbyte hE ha).trans (if_neg fun hc ↦ hne ⟨hc.1, hc.2.1, by omega⟩)).trans hb₁
    exact (hrest.kept hE ha (fun hc ↦ hne ⟨hc.1, by omega, hc.2.2⟩) (hb₂ ▸ hb)).trans hb₂
  rest hE ha hne := by
    have hpage := hopen.rest hE ha fun hc ↦ hne hc.1 le_rfl (by omega) hc.2.symm
    refine (hrest.rest hE ha fun hED {b} hlo hlt ↦ ?_).trans ((hres hE ha).trans hpage)
    exact hne hED (by omega) hlt

theorem Held.bytes_demandPage (h : Held S B m live) (hD : D ∈ live) (hva : IsUser va)
    (hoom : (Mm.demandPage m D va).2.pmm.oom = false) {x : Nat} (hx : B (x / 4096)) :
    (Mm.demandPage m D va).2.mem x = m.mem x := by
  rw [Mm.demandPage] at hoom ⊢
  simp only at hoom ⊢
  split at hoom
  case isTrue hr =>
    rw [if_pos hr]
    exact h.bytes_mapUser hD hva.frameOf hoom hx
  case isFalse hr => rw [if_neg hr]

/-- The memory behind one round of the loops: the page is mapped, and `n` bytes are stored there. -/
def storeRound (m : Memory) (D va : Nat) (src : Bytes) (k n : Nat) : Memory :=
  { (demandPage m D va).2 with
    mem := (demandPage m D va).2.mem.memcpy ((demandPage m D va).1 + va % 4096) src k n }

theorem storeRound_eq (m : Memory) (D va : Nat) (src : Bytes) (k n : Nat) :
    storeRound m D va src k n = { (demandPage m D va).2 with
      mem := (demandPage m D va).2.mem.memcpy
        (dirResolve (demandPage m D va).2.mem D va + va % 4096) src k n } := by
  rw [storeRound, demandPage_fst]

/-- What is known of a round that starts at `va + done`. -/
structure Round (S : Setup) (B : Nat → Prop) (live : List Nat) (D va len done : Nat)
    (src : Bytes) (m : Memory) : Prop where
  clear : (demandPage m D (va + done)).2.pmm.oom = false
  found : (demandPage m D (va + done)).1 ≠ 0
  chunk : 0 < pageChunk va len done ∧ (va + done) % 4096 + pageChunk va len done ≤ 4096
  inside : done + pageChunk va len done ≤ len
  held : Held S B (storeRound m D (va + done) src done (pageChunk va len done)) live
  others : ∀ {x}, B (x / 4096) →
    (storeRound m D (va + done) src done (pageChunk va len done)).mem x = m.mem x

theorem Held.round (h : Held S B m live) (hD : D ∈ live) (hlo : userBase ≤ va)
    (hhi : va + len ≤ 2 ^ 32) (hd : done < len)
    (hclear : (Mm.demandPage m D (va + done)).2.pmm.oom = false) (src : Bytes) :
    Round S B live D va len done src m := by
  have huser : IsUser (va + done) := ⟨by omega, by omega⟩
  have hres := (h.opens_demandPage hD huser hclear).2
  have h₁ := h.demandPage hD huser.pdIndex hclear
  obtain ⟨hown, hmod⟩ := own_of_dirResolve hD huser.pdIndex hres
  obtain ⟨hpos, hinside, hchunk⟩ := pageChunk_spec hhi hd
  rw [← demandPage_fst] at hres hown hmod
  have htouch : Touches _ (Mm.demandPage m D (va + done)).2.mem _ :=
    touches_memcpy hmod hchunk src done
  refine ⟨hclear, hres, ⟨hpos, hchunk⟩, hinside, (h₁.touch_page hown htouch).2, fun {x} hx ↦ ?_⟩
  refine (htouch x fun heq ↦ ?_).trans (h.bytes_demandPage hD huser hclear hx)
  exact h₁.own_ne hx _ (heq ▸ hown)

/-- One round of the loops of `hal_addrspace_copy_to` and `hal_addrspace_memset`. -/
theorem Held.storeLoop_succ (h : Held S B m live) (hD : D ∈ live) (hlo : userBase ≤ va)
    (hhi : va + len ≤ 2 ^ 32) {fuel : Nat} (hd : done < len)
    (hoom : (Mm.storeLoop D va src len (fuel + 1) done m).pmm.oom = false) :
    Mm.storeLoop D va src len (fuel + 1) done m =
      Mm.storeLoop D va src len fuel (done + pageChunk va len done)
        (storeRound m D (va + done) src done (pageChunk va len done)) ∧
      Round S B live D va len done src m := by
  have hcur : wrap32 (va + done) = va + done := wrap32_of_lt (by omega)
  rw [Mm.storeLoop, if_pos hd] at hoom ⊢
  simp only [hcur] at hoom ⊢
  have hclear : (Mm.demandPage m D (va + done)).2.pmm.oom = false := by
    split at hoom
    · exact hoom
    · have := oom_storeLoop hoom
      exact this
  have hround := h.round hD hlo hhi hd hclear src
  exact ⟨if_neg hround.found, hround⟩

/-- The loop from `done` on. -/
theorem Held.stores_storeLoop (h : Held S B m live) (hD : D ∈ live) (hlo : userBase ≤ va)
    (hhi : va + len ≤ 2 ^ 32) {fuel : Nat} (hfuel : len ≤ done + fuel)
    (hoom : (Mm.storeLoop D va src len fuel done m).pmm.oom = false) :
    Stores live D (va + done) (va + len) (fun i ↦ src (done + i)) m
      (Mm.storeLoop D va src len fuel done m) := by
  have hrefl : ∀ {m}, ¬done < len →
      Stores live D (va + done) (va + len) (fun i ↦ src (done + i)) m m := fun hd ↦
    ⟨fun _ _ ↦ by omega, fun _ _ _ ↦ rfl, fun _ _ _ _ ↦ rfl, fun _ _ _ ↦ rfl⟩
  induction fuel generalizing done m with
  | zero => exact hrefl (by omega)
  | succ fuel ih =>
    by_cases hd : done < len
    · obtain ⟨heq, hround⟩ := h.storeLoop_succ hD hlo hhi hd hoom
      rw [heq] at hoom ⊢
      have huser : IsUser (va + done) := ⟨by omega, by omega⟩
      have hinside := hround.inside
      have hpos := hround.chunk.1
      obtain ⟨hopen, hres⟩ := h.opens_demandPage hD huser hround.clear
      have hseen := (h.demandPage hD huser.pdIndex hround.clear).seen fun _ ↦ id
      obtain ⟨-, hres₂, hbyte₂, -⟩ := hseen.byteAt_memcpy hD huser hres hround.chunk.2
        (storeRound_eq ..)
      have hrest := ih hround.held (by omega) hoom fun hd ↦ ⟨fun _ _ ↦ by omega, fun _ _ _ ↦ rfl,
        fun _ _ _ _ ↦ rfl, fun _ _ _ ↦ rfl⟩
      refine Stores.cons hpos (by omega) huser.1 hhi hD hopen hres₂ hbyte₂ ?_
      simpa only [Nat.add_assoc] using hrest
    · rw [Mm.storeLoop, if_neg hd]
      exact hrefl hd

/-- `hal_addrspace_copy_to`: the bytes are there, and nothing else has changed. -/
theorem Held.stores_copyTo (h : Held S B m live) (hD : D ∈ live) (hlo : userBase ≤ va)
    (hhi : va + len ≤ 2 ^ 32) (hoom : (halAddrspaceCopyTo m D va src len).pmm.oom = false) :
    Stores live D va (va + len) src m (halAddrspaceCopyTo m D va src len) := by
  rw [halAddrspaceCopyTo]
  simpa using h.stores_storeLoop hD hlo hhi (Nat.le_add_left len 0) hoom

/-- `hal_addrspace_memset`. -/
theorem Held.stores_memset (h : Held S B m live) (hD : D ∈ live) (hlo : userBase ≤ va)
    (hhi : va + len ≤ 2 ^ 32) {c : UInt8} (hoom : (halAddrspaceMemset m D va c len).pmm.oom = false)
    : Stores live D va (va + len) (fun _ ↦ c) m (halAddrspaceMemset m D va c len) := by
  rw [halAddrspaceMemset]
  simpa using h.stores_storeLoop hD hlo hhi (Nat.le_add_left len 0) hoom

end

end FentoOS.Mm
