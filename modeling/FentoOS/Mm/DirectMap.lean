import FentoOS.Lib.Run
import FentoOS.Mm.AddressSpaces
import FentoOS.Mm.Frames

/-!
# The direct map of the kernel

`paging.c` reaches a frame through its own address, so it relies on the kernel's
directory mapping every frame that `pmm_alloc_frame` hands out to itself.
`hal_paging_init` maps the first 128 megabytes that way.  The heap, however, is
mapped over virtual `0x02000000` and up, and so takes the direct map away from
the frames at these addresses; and a machine may have frames above 128 megabytes.

`Paged` says what the directory maps, page by page: page `p` goes to frame
`back p`.  What `hal_paging_init` and `expand` do to it is exact, so the direct
map is a matter of arithmetic: whether a frame is handed out whose address is in
the heap, or the heap grows over a frame that was handed out.
-/

namespace FentoOS.Mm

open FentoOS.Lib Function

/-! ## The frames handed out so far -/

/-- Of `T` frames, the first `N` are used. -/
structure Frames (T N : Nat) (p : Pmm) : Prop where
  total : p.totalFrames = T
  le : N ≤ T
  used : ∀ {f}, f < T → (p.used f = true ↔ f < N)

variable {T N : Nat}

theorem Frames.nextFrame {p : Pmm} (h : Frames T N p) :
    nextFrame p = if N < T then some N else none := by
  have hused : ∀ {f}, f < T → ((!p.used f) = true ↔ N ≤ f) := by
    intro f hf
    rw [Bool.not_eq_true', ← Bool.not_eq_true, h.used hf, not_lt]
  split
  case isTrue hlt =>
    cases hn : Mm.nextFrame p with
    | none =>
      have := findFirst_eq_none.mp hn N (Nat.zero_le _) (by rw [h.total]; omega)
      rw [(hused hlt).mpr le_rfl] at this
      cases this
    | some f =>
      obtain ⟨-, hf, hfree, hmin⟩ := findFirst_eq_some hn
      rw [h.total, Nat.zero_add] at hf
      have hle := (hused hf).mp hfree
      rcases Nat.eq_or_lt_of_le hle with rfl | hlt'
      · rfl
      · have := hmin N (Nat.zero_le _) hlt'
        rw [(hused hlt).mpr le_rfl] at this
        cases this
  case isFalse hge =>
    refine findFirst_eq_none.mpr fun f _ hf ↦ ?_
    rw [h.total, Nat.zero_add] at hf
    rw [← Bool.not_eq_true, hused hf]
    omega

/-- An allocation hands out the next frame, or fails when all are used. -/
theorem Frames.alloc {p : Pmm} (h : Frames T N p) :
    (pmmAllocFrame p).1 = (if N < T then N else 0) * 4096 ∧
      Frames T (min (N + 1) T) (pmmAllocFrame p).2 := by
  have hle := h.le
  rw [pmmAllocFrame, h.nextFrame]
  by_cases hN : N < T
  · simp only [if_pos hN]
    refine ⟨trivial, h.total, by omega, fun {f} hf ↦ ?_⟩
    change update p.used N true f = true ↔ _
    by_cases hfN : f = N
    · subst hfN
      rw [update_self]
      simp
      omega
    · rw [update_of_ne hfN, h.used hf]
      omega
  · simp only [if_neg hN]
    refine ⟨by simp, h.total, by omega, fun {f} hf ↦ ?_⟩
    rw [show min (N + 1) T = N by omega]
    exact h.used hf

theorem Frames.card_free {p : Pmm} (h : Frames T N p) : (freeSet p).card = T - N := by
  have hfree : freeSet p = Finset.Ico N T := by
    ext f
    rw [mem_freeSet, h.total, Finset.mem_Ico, ← Bool.not_eq_true]
    constructor
    · rintro ⟨hlt, hno⟩
      rw [h.used hlt] at hno
      omega
    · rintro ⟨hle, hlt⟩
      rw [h.used hlt]
      omega
  rw [hfree, Nat.card_Ico]

theorem frames_pmmInit {memUpperKb kernelEnd : Nat}
    (h : firstFrame kernelEnd ≤ framesOf memUpperKb) :
    Frames (framesOf memUpperKb) (firstFrame kernelEnd) (pmmInit memUpperKb kernelEnd) := by
  refine ⟨releaseFrames_totalFrames .., h, fun {f} hf ↦ ?_⟩
  rw [pmmInit, releaseFrames_used]
  by_cases hlt : firstFrame kernelEnd ≤ f
  · rw [if_pos (by omega)]
    simp
    omega
  · rw [if_neg (by omega)]
    simp
    omega

/-! ## What the kernel's directory maps -/

/-- The word that maps a page to frame `f` for the kernel. -/
def word (f : Nat) : Nat := f * 4096 ||| 3

theorem names_word_three {f : Nat} (hf : f < 2 ^ 20) : Names (word f) f :=
  names_word hf (by decide) rfl

theorem frameOf_word {f : Nat} (hf : f < 2 ^ 20) : frameOf (word f) = f * 4096 := by
  rw [frameOf, (names_word_three hf).frame]

theorem pageEntry_word (f : Nat) : pageEntry (f * 4096) 3 = word f := by
  rw [pageEntry, frameOf, frame_div]
  rfl

variable {p : Nat}

theorem pdIndex_page (hp : p < 0x8000) : pdIndex (p * 4096) = p / 1024 := by
  unfold pdIndex
  omega

theorem ptIndex_page (p : Nat) : ptIndex (p * 4096) = p % 1024 := by
  unfold ptIndex
  omega

/-- The table of page `p`, when the directory is at frame `R` and the tables follow it. -/
def tableFrame (R p : Nat) : Nat := R + 1 + p / 1024

section Put

variable {mem : Bytes} {R p v : Nat}

theorem touches_page : Touches (tableFrame R p) mem
    (mem.put32 (tableFrame R p * 4096 + 4 * (p % 1024)) v) :=
  touches_word _ (Nat.mod_lt p (by decide)) v

/-- Writing the word of a page is seen at this page only. -/
theorem entry_put_page (hv : v < 2 ^ 32) (q : Nat) :
    entry (mem.put32 (tableFrame R p * 4096 + 4 * (p % 1024)) v) (tableFrame R q * 4096)
      (q % 1024) = if q = p then v else entry mem (tableFrame R q * 4096) (q % 1024) := by
  split
  case isTrue hqp =>
    subst hqp
    exact entry_put32_same hv
  case isFalse hqp =>
    by_cases hsame : tableFrame R q = tableFrame R p
    · rw [hsame]
      refine entry_put32_of_ne ?_ _
      unfold tableFrame at hsame
      omega
    · exact touches_page.word hsame (Nat.mod_lt _ (by decide))

theorem entry_put_page_dir {di : Nat} (hdi : di < 1024) :
    entry (mem.put32 (tableFrame R p * 4096 + 4 * (p % 1024)) v) (R * 4096) di =
      entry mem (R * 4096) di := by
  refine touches_page.word ?_ hdi
  unfold tableFrame
  omega

end Put

/-- The kernel's directory is at frame `R`, its 32 tables are the frames behind it, and the
page `p` of the first 128 megabytes is mapped to frame `back p`. -/
structure Paged (R T N : Nat) (m : Memory) (back : Nat → Nat) : Prop where
  frames : Frames T N m.pmm
  room : R + 33 ≤ N
  total : T ≤ 2 ^ 20
  kernelDir : m.kernelDir = R * 4096
  tables : ∀ {di}, di < 32 → entry m.mem (R * 4096) di = word (R + 1 + di)
  pages : ∀ {p}, p < 0x8000 → entry m.mem (tableFrame R p * 4096) (p % 1024) = word (back p)
  back_lt : ∀ {p}, p < 0x8000 → back p < 2 ^ 20

variable {n : Nat}

section

variable {R T N : Nat} {m : Memory} {back : Nat → Nat}

theorem Paged.table_lt (h : Paged R T N m back) (hp : p < 0x8000) : tableFrame R p < 2 ^ 20 := by
  have hroom := h.room
  have hle := h.frames.le
  have htotal := h.total
  unfold tableFrame
  omega

theorem Paged.dir_entry (h : Paged R T N m back) (hp : p < 0x8000) :
    entry m.mem m.kernelDir (pdIndex (p * 4096)) = word (tableFrame R p) := by
  rw [h.kernelDir, pdIndex_page hp]
  exact h.tables (by omega)

/-- `hal_paging_resolve` of a page. -/
theorem Paged.resolve (h : Paged R T N m back) (hp : p < 0x8000) :
    halPagingResolve m (p * 4096) = back p * 4096 := by
  have hte : entry m.mem (tableFrame R p * 4096) (ptIndex (p * 4096)) = word (back p) := by
    rw [ptIndex_page]
    exact h.pages hp
  have hde := names_word_three (h.table_lt hp)
  have hback := names_word_three (h.back_lt hp)
  rw [halPagingResolve, h.dir_entry hp, if_neg (not_not.mpr hde.present),
    frameOf_word (h.table_lt hp)]
  simp only [hte, hback.present, not_true_eq_false, if_false, frameOf_word (h.back_lt hp)]
  rw [Nat.mul_mod_left, Nat.or_zero]

/-- `hal_paging_map` of a page. -/
theorem Paged.map (h : Paged R T N m back) {g : Nat} (hp : p < 0x8000) (hg : g < 2 ^ 20) :
    Paged R T N (halPagingMap m (p * 4096) (g * 4096) 3) (update back p g) := by
  have hmap : halPagingMap m (p * 4096) (g * 4096) 3 =
      setEntry m (tableFrame R p * 4096) (p % 1024) (word g) := by
    rw [halPagingMap, mapInDir, tableFor, h.dir_entry hp,
      if_pos (names_word_three (h.table_lt hp)).present, frameOf_word (h.table_lt hp),
      ptIndex_page, pageEntry_word]
    rfl
  rw [hmap]
  refine ⟨h.frames, h.room, h.total, h.kernelDir, fun {di} hdi ↦ ?_, fun {q} hq ↦ ?_,
    fun {q} hq ↦ ?_⟩
  · exact (entry_put_page_dir (by omega)).trans (h.tables hdi)
  · rw [setEntry, entry_put_page (names_word_three hg).lt, update_apply, h.pages hq]
    split <;> rfl
  · rw [update_apply]
    split
    · exact hg
    · exact h.back_lt hq

theorem Paged.alloc (h : Paged R T N m back) :
    (allocFrame m).1 = (if N < T then N else 0) * 4096 ∧
      Paged R T (min (N + 1) T) (allocFrame m).2 back := by
  obtain ⟨hfst, hframes⟩ := h.frames.alloc
  have hle := h.frames.le
  have hroom := h.room
  exact ⟨hfst, hframes, by omega, h.total, h.kernelDir, h.tables, h.pages, h.back_lt⟩

/-! ## Setting up the map -/

/-- While `hal_paging_init` runs: there are `c` tables, and the pages below `p` are mapped to
themselves. -/
structure Building (R T : Nat) (m : Memory) (c p : Nat) : Prop where
  frames : Frames T (R + 1 + c) m.pmm
  total : T ≤ 2 ^ 20
  room : R + 33 ≤ T
  kernelDir : m.kernelDir = R * 4096
  tables : ∀ {di}, di < 32 → entry m.mem (R * 4096) di = if di < c then word (R + 1 + di) else 0
  pages : ∀ {q}, q < p → entry m.mem (tableFrame R q * 4096) (q % 1024) = word q

variable {c p : Nat}

theorem Building.frame_lt (h : Building R T m c p) {di : Nat} (hdi : di < 32) :
    R + 1 + di < 2 ^ 20 := by
  have hroom := h.room
  have htotal := h.total
  omega

/-- The next table is allocated. -/
theorem Building.newTable (h : Building R T m c p) (hc : c < 32) (hp : p ≤ c * 1024) :
    Building R T (setEntry (zeroFrame (allocFrame m).2 (allocFrame m).1) (R * 4096) c
      (word (R + 1 + c))) (c + 1) p ∧ (allocFrame m).1 = (R + 1 + c) * 4096 := by
  have hroom := h.room
  obtain ⟨hfst, hframes⟩ := h.frames.alloc
  rw [if_pos (by omega)] at hfst
  have hfst : (allocFrame m).1 = (R + 1 + c) * 4096 := hfst
  rw [show min (R + 1 + c + 1) T = R + 1 + (c + 1) by omega] at hframes
  have hzero : Touches (R + 1 + c) m.mem (m.mem.memset ((R + 1 + c) * 4096) 0 4096) :=
    touches_zero _
  set mem₁ := m.mem.memset ((R + 1 + c) * 4096) 0 4096
  have hdir : Touches R mem₁ (mem₁.put32 (R * 4096 + 4 * c) (word (R + 1 + c))) :=
    touches_word R (by omega) _
  have hother : ∀ {f k}, f ≠ R → f ≠ R + 1 + c → k < 1024 →
      entry (mem₁.put32 (R * 4096 + 4 * c) (word (R + 1 + c))) (f * 4096) k =
        entry m.mem (f * 4096) k := by
    intro f k hR hN hk
    rw [hdir.word hR hk, hzero.word hN hk]
  refine ⟨⟨hframes, h.total, h.room, h.kernelDir, fun {di} hdi ↦ ?_, fun {q} hq ↦ ?_⟩, hfst⟩
  · change entry ((m.mem.memset (allocFrame m).1 0 4096).put32 _ _) _ _ = _
    rw [hfst]
    by_cases hdc : di = c
    · rw [hdc, if_pos (by omega), entry_put32_same (names_word_three (h.frame_lt hc)).lt]
    · rw [entry_put32_of_ne hdc, hzero.word (by omega) (by omega), h.tables hdi]
      by_cases hlt : di < c
      · rw [if_pos hlt, if_pos (by omega)]
      · rw [if_neg hlt, if_neg (by omega)]
  · change entry ((m.mem.memset (allocFrame m).1 0 4096).put32 _ _) _ _ = _
    rw [hfst, hother _ _ (Nat.mod_lt _ (by decide)), h.pages hq]
    · unfold tableFrame
      omega
    · unfold tableFrame
      omega

/-- The next page is mapped by a table that is there. -/
theorem Building.store (h : Building R T m c p) (hp : p < c * 1024) (hc : c ≤ 32) :
    Building R T (setEntry m (tableFrame R p * 4096) (p % 1024) (word p)) c (p + 1) := by
  refine ⟨h.frames, h.total, h.room, h.kernelDir, fun hdi ↦ ?_, fun {q} hq ↦ ?_⟩
  · exact (entry_put_page_dir (by omega)).trans (h.tables hdi)
  · rw [setEntry, entry_put_page (names_word_three (by omega)).lt]
    split
    case isTrue hqp => rw [hqp]
    case isFalse hqp => exact h.pages (by omega)

/-- One iteration of the loop of `hal_paging_init`. -/
theorem Building.step (h : Building R T m ((p + 1023) / 1024) p) (hp : p < 0x8000) :
    Building R T (mapInDir m (R * 4096) (p * 4096) (p * 4096) 3) ((p + 1 + 1023) / 1024)
      (p + 1) := by
  by_cases hmod : p % 1024 = 0
  · -- the first page of a table
    set c := (p + 1023) / 1024 with hc
    have hcp : c = p / 1024 := by omega
    obtain ⟨hnew, hfst⟩ := h.newTable (by omega) (by omega)
    have hde : entry m.mem (R * 4096) (p / 1024) = 0 := by
      rw [h.tables (by omega), if_neg (by omega)]
    have hmap : mapInDir m (R * 4096) (p * 4096) (p * 4096) 3 =
        setEntry (setEntry (zeroFrame (allocFrame m).2 (allocFrame m).1) (R * 4096) c
          (word (R + 1 + c))) (tableFrame R p * 4096) (p % 1024) (word p) := by
      rw [mapInDir, tableFor, pdIndex_page hp, hde, if_neg (by decide), ptIndex_page,
        pageEntry_word, tableFrame, ← hcp]
      simp only [hfst]
      rfl
    rw [hmap, show (p + 1 + 1023) / 1024 = c + 1 by omega]
    exact hnew.store (by omega) (by omega)
  · have hcount : (p + 1 + 1023) / 1024 = (p + 1023) / 1024 := by omega
    have hlt : tableFrame R p < 2 ^ 20 := h.frame_lt (by omega)
    have hde : entry m.mem (R * 4096) (p / 1024) = word (tableFrame R p) := by
      rw [h.tables (by omega), if_pos (by omega), tableFrame]
    have hmap : mapInDir m (R * 4096) (p * 4096) (p * 4096) 3 =
        setEntry m (tableFrame R p * 4096) (p % 1024) (word p) := by
      rw [mapInDir, tableFor, pdIndex_page hp, hde, if_pos (names_word_three hlt).present,
        frameOf_word hlt, ptIndex_page, pageEntry_word]
      rfl
    rw [hmap, hcount]
    exact h.store (by omega) (by omega)

/-- The loop of `hal_paging_init`. -/
theorem Building.identityMap (h : Building R T m ((p + 1023) / 1024) p) (hn : p + n = 0x8000) :
    Building R T (identityMap m (R * 4096) p n) 32 0x8000 := by
  induction n generalizing m p with
  | zero =>
    obtain rfl : p = 0x8000 := hn
    exact h
  | succ n ih => exact ih (h.step (by omega)) (by omega)

/-- Behind `hal_paging_init` the first 128 megabytes are mapped to themselves. -/
theorem paged_halPagingInit (hframes : Frames T R m.pmm) (hroom : R + 33 ≤ T)
    (htotal : T ≤ 2 ^ 20) : Paged R T (R + 33) (halPagingInit m) id := by
  obtain ⟨hfst, halloc⟩ := hframes.alloc
  rw [if_pos (by omega)] at hfst
  have hfst : (allocFrame m).1 = R * 4096 := hfst
  rw [show min (R + 1) T = R + 1 by omega] at halloc
  set m₁ : Memory := { (allocFrame m).2 with kernelDir := R * 4096, currentDir := R * 4096 }
    with hm₁
  have hbase : Building R T (zeroFrame m₁ (R * 4096)) ((0 + 1023) / 1024) 0 := by
    refine ⟨halloc, htotal, hroom, rfl, fun {di} hdi ↦ ?_, fun hq ↦ by omega⟩
    rw [if_neg (by omega)]
    exact entry_memset (by omega)
  have hinit : halPagingInit m = Mm.identityMap (zeroFrame m₁ (R * 4096)) (R * 4096) 0 32768 := by
    rw [halPagingInit, hfst]
  rw [hinit]
  have h := hbase.identityMap (Nat.zero_add _)
  refine ⟨h.frames, le_rfl, h.total, h.kernelDir, fun hdi ↦ ?_, h.pages, fun hp ↦ ?_⟩
  · rw [h.tables hdi, if_pos hdi]
  · exact lt_trans hp (by decide)

/-! ## Growing the heap -/

/-- What the pages are mapped to when the heap grows by `n` pages from page `h` on, and the
next frame is `N`. -/
def grown (T N h n : Nat) (back : Nat → Nat) (p : Nat) : Nat :=
  if h ≤ p ∧ p < h + n then (if N + (p - h) < T then N + (p - h) else 0) else back p

theorem grown_zero (T N h : Nat) (back : Nat → Nat) : grown T N h 0 back = back := by
  funext p
  exact if_neg (by omega)

theorem grown_succ {h : Nat} (hle : N ≤ T) : grown T N h (n + 1) back =
    grown T (min (N + 1) T) (h + 1) n (update back h (if N < T then N else 0)) := by
  funext p
  rw [grown, grown, update_apply]
  by_cases hp : p = h
  · have hin : h ≤ p ∧ p < h + (n + 1) := by omega
    have hout : ¬(h + 1 ≤ p ∧ p < h + 1 + n) := by omega
    rw [if_pos hin, if_neg hout, if_pos hp, hp, Nat.sub_self, Nat.add_zero]
  · rw [if_neg hp]
    by_cases hin : h + 1 ≤ p ∧ p < h + 1 + n
    · have hin' : h ≤ p ∧ p < h + (n + 1) := by omega
      rw [if_pos hin, if_pos hin']
      by_cases hT : N + (p - h) < T
      · rw [if_pos hT, if_pos (by omega)]
        omega
      · rw [if_neg hT, if_neg (by omega)]
    · rw [if_neg hin, if_neg (by omega)]

/-- Page after page is mapped to frame after frame. -/
theorem Paged.growPages (h : Paged R T N m back) {q : Nat} (hn : q + n ≤ 0x8000) :
    Paged R T (min (N + n) T) (growPages m q n) (grown T N q n back) := by
  induction n generalizing q m N back with
  | zero =>
    rw [Nat.add_zero, Nat.min_eq_left h.frames.le, grown_zero]
    exact h
  | succ n ih =>
    obtain ⟨hfst, halloc⟩ := h.alloc
    have hg : (if N < T then N else 0) < 2 ^ 20 := by
      have := h.total
      have := h.frames.le
      split <;> omega
    have hmap := halloc.map (by omega : q < 0x8000) hg
    rw [← hfst] at hmap
    have hcount : min (min (N + 1) T + n) T = min (N + (n + 1)) T := by omega
    rw [← hcount, grown_succ h.frames.le]
    exact ih hmap (by omega)

end

/-! ## Frames in the way of the heap -/

/-- Outside the heap, which ends at page `h`, pages are mapped to themselves. -/
def Identity (h : Nat) (back : Nat → Nat) : Prop :=
  ∀ p, p < 0x8000 → p < 0x2000 ∨ h ≤ p → back p = p

/-- The frames from `R` to `N` are mapped to themselves. -/
def Direct (R N : Nat) (back : Nat → Nat) : Prop :=
  ∀ f, R ≤ f → f < N → f < 0x8000 ∧ back f = f

/-- The next frame `N`, if there is one, is below 128 megabytes and not in the heap. -/
def FrameClear (T N h : Nat) : Prop := N < T → N < 0x8000 ∧ ¬(0x2000 ≤ N ∧ N < h)

/-- The next page `h` of the heap is not at a frame that was handed out. -/
def PageClear (R T N h : Nat) : Prop := ¬(R ≤ h ∧ h < N ∧ h < T)

section

variable {R T N h n : Nat} {back : Nat → Nat}

theorem Direct.alloc (hd : Direct R N back) (hid : Identity h back) (hclear : FrameClear T N h) :
    Direct R (min (N + 1) T) back := by
  intro f hR hf
  by_cases hlt : f < N
  · exact hd f hR hlt
  · obtain rfl : f = N := by omega
    obtain ⟨hlow, hheap⟩ := hclear (by omega)
    exact ⟨hlow, hid f hlow (by omega)⟩

theorem Identity.grown (hid : Identity h back) (hlow : 0x2000 ≤ h) :
    Identity (h + n) (grown T N h n back) := by
  intro p hp hout
  rw [Mm.grown, if_neg (by omega)]
  exact hid p hp (by omega)

/-- The heap grows by pages, each clear of the frames handed out until then. -/
theorem Direct.grown (hd : Direct R N back) (hid : Identity h back) (hlow : 0x2000 ≤ h)
    (hclear : ∀ i < n, FrameClear T (N + i) (h + i) ∧ PageClear R T (N + i) (h + i)) :
    Direct R (min (N + n) T) (grown T N h n back) := by
  intro f hRf hf
  have hpage : h ≤ f → f < h + n → f = N + (f - h) ∨ N + (f - h) < f := by
    intro hle hlt
    have := (hclear (f - h) (by omega)).2
    unfold PageClear at this
    omega
  have hframe : N ≤ f → f < 0x8000 ∧ ¬(0x2000 ≤ f ∧ f < h + (f - N)) := by
    intro hle
    have := (hclear (f - N) (by omega)).1
    rw [FrameClear, show N + (f - N) = f by omega] at this
    exact this (by omega)
  by_cases hnew : h ≤ f ∧ f < h + n
  · -- a new page that is at a new frame is mapped to it: pages and frames march in step
    have hNf : N ≤ f := by
      have := hpage hnew.1 hnew.2
      omega
    have hstep : N + (f - h) = f := by
      have := hpage hnew.1 hnew.2
      have := hframe hNf
      omega
    refine ⟨(hframe hNf).1, ?_⟩
    rw [Mm.grown, if_pos hnew, hstep, if_pos (by omega)]
  · rw [Mm.grown, if_neg hnew]
    by_cases hold : f < N
    · exact hd f hRf hold
    · obtain ⟨hlow', hheap⟩ := hframe (by omega)
      exact ⟨hlow', hid f hlow' (by omega)⟩

end

/-! ## The heap and the map together -/

/-- The kernel's memory with its heap, which ends at page `h`. -/
structure Mapped (R T N h : Nat) (v : Vmm) (back : Nat → Nat) : Prop extends
    Paged R T N v.m back where
  heapEnd : v.heapEnd = h * 4096
  limit : v.heapLimit = heapMax
  low : 0x2000 ≤ h
  high : h ≤ 0x8000
  identity : Identity h back

section

variable {R T N h : Nat} {v v' : Vmm} {back : Nat → Nat}

theorem Mapped.congr (hm : Mapped R T N h v back) (hmem : v'.m = v.m)
    (hend : v'.heapEnd = v.heapEnd) (hlimit : v'.heapLimit = v.heapLimit) :
    Mapped R T N h v' back :=
  ⟨hmem ▸ hm.toPaged, hend.trans hm.heapEnd, hlimit.trans hm.limit, hm.low, hm.high, hm.identity⟩

theorem Mapped.alloc (hm : Mapped R T N h v back) :
    Mapped R T (min (N + 1) T) h { v with m := (allocFrame v.m).2 } back :=
  ⟨hm.toPaged.alloc.2, hm.heapEnd, hm.limit, hm.low, hm.high, hm.identity⟩

theorem Mapped.expand (hm : Mapped R T N h v back) (need : Nat) :
    Mapped R T (min (N + min (pagesFor need) (0x8000 - h)) T)
      (h + min (pagesFor need) (0x8000 - h)) (expand v need)
      (grown T N h (min (pagesFor need) (0x8000 - h)) back) := by
  have hhigh := hm.high
  have hlow := hm.low
  rw [expand_eq hm.heapEnd hm.limit hhigh]
  exact ⟨hm.toPaged.growPages (by omega), rfl, hm.limit, by omega, by omega,
    hm.identity.grown hlow⟩

/-- The pages by which `kmalloc` grows the heap. -/
def Vmm.growth (v : Vmm) (size : Nat) : Nat :=
  match v.fit size with
  | some (_, false) =>
    if size = 0 then 0
    else min (pagesFor (growBytes size)) ((v.heapLimit - v.heapEnd) / 4096)
  | _ => 0

/-- `kmalloc` leaves memory alone, or grows the heap. -/
theorem kmalloc_cases {size ptr : Nat} (hk : kmalloc v size = some (ptr, v')) :
    (v.growth size = 0 ∧ v'.m = v.m ∧ v'.heapEnd = v.heapEnd ∧ v'.heapLimit = v.heapLimit) ∨
    (v.growth size = min (pagesFor (growBytes size)) ((v.heapLimit - v.heapEnd) / 4096) ∧
      v'.m = (expand v (growBytes size)).m ∧ v'.heapEnd = (expand v (growBytes size)).heapEnd ∧
      v'.heapLimit = v.heapLimit) := by
  rw [kmalloc] at hk
  split at hk
  case isTrue hsize =>
    cases hk
    refine .inl ⟨?_, rfl, rfl, rfl⟩
    rw [Vmm.growth]
    split
    · exact if_pos hsize
    · rfl
  case isFalse hsize =>
    split at hk
    · cases hk
    case h_2 b hfit =>
      cases hk
      exact .inl ⟨by rw [Vmm.growth, hfit], rfl, rfl, rfl⟩
    case h_3 b hfit =>
      have hgrowth : v.growth size =
          min (pagesFor (growBytes size)) ((v.heapLimit - v.heapEnd) / 4096) := by
        rw [Vmm.growth, hfit]
        exact if_neg hsize
      refine .inr ⟨hgrowth, ?_⟩
      simp only at hk
      split at hk
      · cases hk
        exact ⟨rfl, rfl, rfl⟩
      · cases hk
        exact ⟨rfl, rfl, rfl⟩

theorem kfree_m (v : Vmm) (ptr : Nat) : (kfree v ptr).m = v.m ∧
    (kfree v ptr).heapEnd = v.heapEnd ∧ (kfree v ptr).heapLimit = v.heapLimit := by
  rw [kfree]
  split
  · exact ⟨rfl, rfl, rfl⟩
  · simp only
    split
    · exact ⟨rfl, rfl, rfl⟩
    · split <;> exact ⟨rfl, rfl, rfl⟩

end

/-! ## Runs -/

/-- What happens behind `vmm_init`: heap memory is allocated and freed, and frames are
handed out. -/
inductive VmmOp
  | kmalloc (size : Nat)
  | kfree (ptr : Nat)
  | allocFrame

/-- The steps of the kernel's memory. -/
inductive VmmStep (v : Vmm) : VmmOp → Vmm → Prop
  | kmalloc {size ptr : Nat} {v' : Vmm} :
      kmalloc v size = some (ptr, v') → VmmStep v (.kmalloc size) v'
  | kfree {ptr : Nat} : VmmStep v (.kfree ptr) (kfree v ptr)
  | allocFrame : VmmStep v .allocFrame { v with m := (allocFrame v.m).2 }

/-- `pmm_init`, `hal_paging_init` and `vmm_init` on whatever is in memory. -/
def VmmBoot (memUpperKb kernelEnd : Nat) (v : Vmm) : Prop :=
  ∃ m : Memory, v = vmmInit (halPagingInit { m with pmm := pmmInit memUpperKb kernelEnd })

/-- The heap may grow by `n` pages from page `h` on when the next frame is `N`: each frame
handed out on the way is clear of the heap, and each page is clear of the frames. -/
def GrowClear (R T N h n : Nat) : Prop :=
  ∀ i < n, FrameClear T (N + i) (h + i) ∧ PageClear R T (N + i) (h + i)

/-- There is memory for the kernel's page tables, below 128 megabytes, and the first four
megabytes of the heap are clear of the frames. -/
def BootClear (memUpperKb kernelEnd : Nat) : Prop :=
  firstFrame kernelEnd + 33 ≤ framesOf memUpperKb ∧ firstFrame kernelEnd + 33 ≤ 0x8000 ∧
    GrowClear (firstFrame kernelEnd) (framesOf memUpperKb) (firstFrame kernelEnd + 33) 0x2000 1024

/-- The number of the frame that is handed out next. -/
def Vmm.nextFrame (v : Vmm) : Nat := (Mm.nextFrame v.m.pmm).getD v.m.pmm.totalFrames

/-- The frames that a step hands out are clear of the heap, and the pages by which it grows
the heap are clear of the frames. -/
def StepClear (kernelEnd : Nat) (v : Vmm) : VmmOp → Prop
  | .kmalloc size => GrowClear (firstFrame kernelEnd) v.m.pmm.totalFrames v.nextFrame
      (v.heapEnd / 4096) (v.growth size)
  | .kfree _ => True
  | .allocFrame => FrameClear v.m.pmm.totalFrames v.nextFrame (v.heapEnd / 4096)

variable {m : Memory}

section

variable {memUpperKb kernelEnd R T N h : Nat} {v v' : Vmm} {back : Nat → Nat}

theorem Mapped.nextFrame (hm : Mapped R T N h v back) : v.nextFrame = N := by
  have hle := hm.frames.le
  rw [Vmm.nextFrame, hm.frames.nextFrame, hm.frames.total]
  split
  case isTrue => rfl
  case isFalse hge => exact Nat.le_antisymm (not_lt.mp hge) hle

/-- `vmm_init` maps the first four megabytes of the heap. -/
theorem mapped_vmmInit (hp : Paged R T N m id) :
    Mapped R T (min (N + 1024) T) (0x2000 + 1024) (vmmInit m) (grown T N 0x2000 1024 id) := by
  have hm : Mapped R T N 0x2000
      { m := m, headers := fun _ ↦ none, heapEnd := heapStart, heapLimit := heapMax } id :=
    ⟨hp, rfl, rfl, le_rfl, by decide, fun _ _ _ ↦ rfl⟩
  have hpages : min (pagesFor 0x400000) (0x8000 - 0x2000) = 1024 := by decide
  have hexpand := hm.expand 0x400000
  rw [hpages] at hexpand
  exact hexpand.congr rfl rfl rfl

/-- The beginning, whatever the sizes are. -/
theorem mapped_boot (hroom : firstFrame kernelEnd + 33 ≤ framesOf memUpperKb)
    (hboot : VmmBoot memUpperKb kernelEnd v) :
    Mapped (firstFrame kernelEnd) (framesOf memUpperKb)
      (min (firstFrame kernelEnd + 33 + 1024) (framesOf memUpperKb)) (0x2000 + 1024) v
      (grown (framesOf memUpperKb) (firstFrame kernelEnd + 33) 0x2000 1024 id) := by
  obtain ⟨m, rfl⟩ := hboot
  have hpaged := paged_halPagingInit (m := { m with pmm := pmmInit memUpperKb kernelEnd })
    (frames_pmmInit (by omega)) hroom (framesOf_le _)
  exact mapped_vmmInit hpaged

theorem direct_boot (hclear : BootClear memUpperKb kernelEnd) :
    Direct (firstFrame kernelEnd) (min (firstFrame kernelEnd + 33 + 1024) (framesOf memUpperKb))
      (grown (framesOf memUpperKb) (firstFrame kernelEnd + 33) 0x2000 1024 id) := by
  obtain ⟨-, hlow, hgrow⟩ := hclear
  have hstart : Direct (firstFrame kernelEnd) (firstFrame kernelEnd + 33) id :=
    fun f _ hf ↦ ⟨by omega, rfl⟩
  exact hstart.grown (fun _ _ _ ↦ rfl) le_rfl hgrow

/-- **One step keeps the direct map.** -/
theorem Mapped.step (hm : Mapped (firstFrame kernelEnd) T N h v back)
    (hd : Direct (firstFrame kernelEnd) N back) {a : VmmOp} (hclear : StepClear kernelEnd v a)
    (hstep : VmmStep v a v') :
    ∃ N' h' back', Mapped (firstFrame kernelEnd) T N' h' v' back' ∧
      Direct (firstFrame kernelEnd) N' back' := by
  have hpage : v.heapEnd / 4096 = h := by
    rw [hm.heapEnd, frame_div]
  cases hstep with
  | @kmalloc size ptr _ hk =>
    rw [StepClear, hm.frames.total, hm.nextFrame, hpage] at hclear
    obtain ⟨-, hmem, hend, hlimit⟩ | ⟨hgrowth, hmem, hend, hlimit⟩ := kmalloc_cases hk
    · exact ⟨N, h, back, hm.congr hmem hend hlimit, hd⟩
    · have hpages : (v.heapLimit - v.heapEnd) / 4096 = 0x8000 - h := by
        rw [hm.limit, hm.heapEnd, heapMax]
        omega
      rw [hgrowth, hpages] at hclear
      refine ⟨_, _, _, (hm.expand (growBytes size)).congr hmem hend hlimit, ?_⟩
      exact hd.grown hm.identity hm.low hclear
  | @kfree ptr =>
    obtain ⟨hmem, hend, hlimit⟩ := kfree_m v ptr
    exact ⟨N, h, back, hm.congr hmem hend hlimit, hd⟩
  | allocFrame =>
    rw [StepClear, hm.frames.total, hm.nextFrame, hpage] at hclear
    exact ⟨_, h, back, hm.alloc, hd.alloc hm.identity hclear⟩

theorem mapped_run (hboot : BootClear memUpperKb kernelEnd)
    (h : Reach (VmmBoot memUpperKb kernelEnd) (Under (StepClear kernelEnd) VmmStep) v) :
    ∃ N h back, Mapped (firstFrame kernelEnd) (framesOf memUpperKb) N h v back ∧
      Direct (firstFrame kernelEnd) N back := by
  refine h.invariant (P := fun v ↦ ∃ N h back, Mapped (firstFrame kernelEnd)
    (framesOf memUpperKb) N h v back ∧ Direct (firstFrame kernelEnd) N back) (fun v hv ↦ ?_)
    fun v a v' hinv hs ↦ ?_
  · exact ⟨_, _, _, mapped_boot hboot.1 hv, direct_boot hboot⟩
  · obtain ⟨N, h, back, hm, hd⟩ := hinv
    exact hm.step hd hs.1 hs.2

end

/-! ## Where address spaces start

The functions on address spaces are first called behind `vmm_init`, and the state there is
one that their results start from. -/

theorem exact_mapInDir (h : m.pmm.Exact) (dir va pa flags : Nat) :
    (mapInDir m dir va pa flags).pmm.Exact := by
  change (tableFor m dir (pdIndex va) flags).2.pmm.Exact
  rw [tableFor]
  split
  · split <;> exact h
  · exact h.alloc

theorem exact_identityMap (h : m.pmm.Exact) (dir p n : Nat) :
    (identityMap m dir p n).pmm.Exact := by
  induction n generalizing m p with
  | zero => exact h
  | succ n ih => exact ih (exact_mapInDir h ..) _

theorem exact_expandLoop (h : m.pmm.Exact) (limit fuel need heapEnd : Nat) :
    (expandLoop limit fuel need heapEnd m).2.pmm.Exact := by
  induction fuel generalizing m need heapEnd with
  | zero => exact h
  | succ fuel ih =>
    rw [expandLoop]
    split
    · exact ih (exact_mapInDir (m := (allocFrame m).2) h.alloc ..) _ _
    · exact h

theorem exact_halPagingInit (h : m.pmm.Exact) : (halPagingInit m).pmm.Exact := by
  rw [halPagingInit]
  exact exact_identityMap h.alloc ..

theorem exact_vmmInit (h : m.pmm.Exact) : (vmmInit m).m.pmm.Exact := by
  rw [vmmInit]
  exact exact_expandLoop h ..

variable {v : Vmm}

/-- Behind `vmm_init`, address spaces can be created. -/
theorem start_vmmInit {memUpperKb kernelEnd : Nat}
    (hroom : firstFrame kernelEnd + 33 ≤ framesOf memUpperKb) (hpos : 0 < firstFrame kernelEnd)
    (hboot : VmmBoot memUpperKb kernelEnd v) : Start v.m := by
  have hm := mapped_boot hroom hboot
  have hframe : v.m.kernelDir / 4096 = firstFrame kernelEnd := by
    rw [hm.kernelDir, frame_div]
  refine ⟨hm.frames.total.trans_le hm.total, ?_, ?_, ?_, ?_⟩
  · obtain ⟨m, rfl⟩ := hboot
    exact exact_vmmInit (exact_halPagingInit (exact_pmmInit memUpperKb kernelEnd))
  · exact (hm.frames.used (by omega)).mpr (by omega)
  · rw [hframe]
    exact (hm.frames.used (by omega)).mpr (by omega)
  · rw [hm.kernelDir]
    exact Nat.mul_mod_left ..

/-! ## The result -/

/-- **The direct map.**  In every run in which no frame is handed out that lies in the heap or
above 128 megabytes, and the heap does not grow over a frame that was handed out: the kernel's
directory maps every frame that was handed out to itself. -/
theorem direct_map {memUpperKb kernelEnd : Nat} (hboot : BootClear memUpperKb kernelEnd) {v : Vmm}
    (h : Reach (VmmBoot memUpperKb kernelEnd) (Under (StepClear kernelEnd) VmmStep) v) (f : Nat)
    (hfree : (pmmInit memUpperKb kernelEnd).used f = false) (hused : v.m.pmm.used f = true) :
    halPagingResolve v.m (f * 4096) = f * 4096 := by
  obtain ⟨N, h, back, hm, hd⟩ := mapped_run hboot h
  obtain ⟨hlow, hhigh⟩ := pmmInit_used_eq_false hfree
  obtain ⟨hlt, hback⟩ := hd f hlow ((hm.frames.used hhigh).mp hused)
  rw [hm.toPaged.resolve hlt, hback]

/-- A machine with 64 megabytes of memory, whose kernel ends at two megabytes. -/
def sampleVmm : Vmm := vmmInit (halPagingInit { sampleMemory with pmm := pmmInit 64512 0x200000 })

theorem vmmBoot_sampleVmm : VmmBoot 64512 0x200000 sampleVmm := ⟨sampleMemory, rfl⟩

theorem firstFrame_sample : firstFrame 0x200000 = 0x300 := by decide

theorem framesOf_sample : framesOf 64512 = 0x4000 := by decide

theorem mapped_sampleVmm : Mapped 0x300 0x4000 0x721 0x2400 sampleVmm
    (grown 0x4000 0x321 0x2000 1024 id) := by
  have h := mapped_boot (by rw [firstFrame_sample, framesOf_sample]; decide) vmmBoot_sampleVmm
  rwa [firstFrame_sample, framesOf_sample] at h

/-- A frame has been handed out. -/
def sampleNext : Vmm := { sampleVmm with m := (allocFrame sampleVmm.m).2 }

/-- The heap grows behind that: the frame is mapped to itself. -/
theorem direct_map_grown :
    ∃ v, Reach (VmmBoot 64512 0x200000) (Under (StepClear 0x200000) VmmStep) v ∧
      sampleNext.heapEnd < v.heapEnd ∧ halPagingResolve v.m (0x721 * 4096) = 0x721 * 4096 := by
  have hboot : BootClear 64512 0x200000 := by
    rw [BootClear, firstFrame_sample, framesOf_sample]
    refine ⟨by decide, by decide, fun i hi ↦ ⟨fun _ ↦ ?_, ?_⟩⟩
    · omega
    · unfold PageClear
      omega
  have hfree : (pmmInit 64512 0x200000).used 0x721 = false := by
    rw [pmmInit, releaseFrames_used, firstFrame_sample, framesOf_sample]
    rfl
  have halloc : StepClear 0x200000 sampleVmm .allocFrame := by
    rw [StepClear, mapped_sampleVmm.frames.total, mapped_sampleVmm.nextFrame,
      mapped_sampleVmm.heapEnd]
    intro
    decide
  have hm : Mapped 0x300 0x4000 0x722 0x2400 sampleNext _ := mapped_sampleVmm.alloc
  have hgrows : (kmalloc sampleNext 0x400000).isSome = true ∧
      sampleNext.growth 0x400000 = 1026 ∧ pagesFor (growBytes 0x400000) = 1026 := by
    decide +kernel
  obtain ⟨hsome, hgrowth, hpages⟩ := hgrows
  obtain ⟨⟨ptr, v⟩, hk⟩ := Option.isSome_iff_exists.mp hsome
  have hclear : StepClear 0x200000 sampleNext (.kmalloc 0x400000) := by
    rw [StepClear, hm.frames.total, hm.nextFrame, hm.heapEnd, hgrowth, firstFrame_sample]
    refine fun i hi ↦ ⟨fun _ ↦ ?_, ?_⟩
    · omega
    · unfold PageClear
      omega
  have hrun : Reach (VmmBoot 64512 0x200000) (Under (StepClear 0x200000) VmmStep) v :=
    .step (.step (.init vmmBoot_sampleVmm) ⟨halloc, .allocFrame⟩) ⟨hclear, .kmalloc hk⟩
  obtain ⟨hzero, -⟩ | ⟨-, hmem, hend, hlimit⟩ := kmalloc_cases hk
  · omega
  · have hm' := (hm.expand (growBytes 0x400000)).congr hmem hend hlimit
    rw [hpages] at hm'
    refine ⟨v, hrun, ?_, direct_map hboot hrun 0x721 hfree
      ((hm'.frames.used (by decide)).mpr (by decide))⟩
    rw [hm.heapEnd, hm'.heapEnd]
    decide

/-- `n` frames are handed out. -/
def allocFrames : Nat → Vmm → Vmm
  | 0, v => v
  | n + 1, v => allocFrames n { v with m := (allocFrame v.m).2 }

theorem Mapped.allocFrames {R h : Nat} {back : Nat → Nat} (hm : Mapped R T N h v back) (n : Nat)
    (hn : N + n ≤ T) : Mapped R T (N + n) h (allocFrames n v) back := by
  induction n generalizing v N with
  | zero => exact hm
  | succ n ih =>
    have halloc := hm.alloc
    rw [Nat.min_eq_left (by omega)] at halloc
    have := ih halloc (by omega)
    rwa [Nat.add_assoc, Nat.add_comm 1 n] at this

theorem reach_allocFrames {init : Vmm → Prop} (h : Reach init VmmStep v) (n : Nat) :
    Reach init VmmStep (allocFrames n v) := by
  induction n generalizing v with
  | zero => exact h
  | succ n ih => exact ih (.step h .allocFrame)

/-- When 6368 frames have been handed out, the last one is the frame at `0x02000000`, and
this address is mapped to the first frame of the heap. -/
theorem heap_hides_frame :
    Reach (VmmBoot 64512 0x200000) VmmStep (allocFrames 6368 sampleVmm) ∧
    (pmmInit 64512 0x200000).used 0x2000 = false ∧
    (allocFrames 6368 sampleVmm).m.pmm.used 0x2000 = true ∧
    halPagingResolve (allocFrames 6368 sampleVmm).m (0x2000 * 4096) = 0x321 * 4096 := by
  have hm := mapped_sampleVmm.allocFrames 6368 (by decide)
  refine ⟨reach_allocFrames (.init vmmBoot_sampleVmm) 6368, ?_, ?_, ?_⟩
  · rw [pmmInit, releaseFrames_used, firstFrame_sample, framesOf_sample]
    rfl
  · exact (hm.frames.used (by decide)).mpr (by decide)
  · rw [hm.toPaged.resolve (by decide)]
    rfl

end FentoOS.Mm
