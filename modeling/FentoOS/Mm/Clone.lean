import FentoOS.Mm.AddressSpaces
import FentoOS.Mm.Frames

/-!
# What a clone is made of

`hal_addrspace_clone` walks the tables of one space while it allocates frames for another,
so what it reads must not be what it writes.  It writes to frames it has just been given
and, when the allocator has nothing left, to frame 0.  `Grows d` says this of a part of
the walk that may also write to frame `d`, the directory or table it is filling: every
other frame that was in use keeps its bytes.

So the tables and pages of the source are read as they were before the call, the number of
frames the call asks for is the number of frames the source consists of, and, if they were
all there, each page of the source has its copy.
-/

namespace FentoOS.Mm

open FentoOS.Lib

/-! ## Frames that keep their bytes -/

/-- Frames in use stay in use and keep their bytes, frame `d` and frame 0 excepted. -/
structure Grows (d : Nat) (m m' : Memory) : Prop where
  used : ∀ {f}, m.Used f → m'.Used f
  bytes : ∀ {x}, m.Used (x / 4096) → x / 4096 ≠ 0 → x / 4096 ≠ d → m'.mem x = m.mem x
  total : m'.pmm.totalFrames = m.pmm.totalFrames

/-- Frame `f` is in use, and it is neither frame `d` nor frame 0. -/
structure Intact (d : Nat) (m : Memory) (f : Nat) : Prop where
  used : m.Used f
  ne_zero : f ≠ 0
  ne : f ≠ d

variable {n : Nat}

section

variable {d e f : Nat} {m m' m'' : Memory}

theorem Grows.refl (d : Nat) (m : Memory) : Grows d m m := ⟨id, fun _ _ _ ↦ rfl, rfl⟩

theorem Intact.grows (h : Intact d m f) (hg : Grows e m m') : Intact d m' f :=
  ⟨hg.used h.used, h.ne_zero, h.ne⟩

/-- A part of the walk that works on a frame which was not in use before. -/
theorem Grows.trans (h : Grows d m m') (h' : Grows e m' m'') (he : e = d ∨ e = 0 ∨ ¬m.Used e) :
    Grows d m m'' := by
  refine ⟨fun hf ↦ h'.used (h.used hf), fun {x} hx h0 hd ↦ ?_, h'.total.trans h.total⟩
  have hne : x / 4096 ≠ e := by
    rintro heq
    rcases he with rfl | rfl | he
    · exact hd heq
    · exact h0 heq
    · exact he (heq ▸ hx)
  rw [h'.bytes (h.used hx) h0 hne, h.bytes hx h0 hd]

theorem Grows.keep (h : Grows d m m') {x : Nat} (hf : Intact d m f) (hx : x / 4096 = f) :
    m'.mem x = m.mem x := by
  subst hx
  exact h.bytes hf.used hf.ne_zero hf.ne

theorem Grows.byte (h : Grows d m m') (hf : Intact d m f) {j : Nat} (hj : j < 4096) :
    m'.mem (f * 4096 + j) = m.mem (f * 4096 + j) :=
  h.keep hf (by omega)

theorem Grows.entry (h : Grows d m m') (hf : Intact d m f) {k : Nat} (hk : k < 1024) :
    entry m'.mem (f * 4096) k = entry m.mem (f * 4096) k :=
  entry_congr (Nat.mul_mod_left ..) hk fun _ hx ↦ h.keep hf (hx.trans (frame_div f))

/-- The allocator's answer as a frame: a free one, or frame 0. -/
theorem allocFrame_frame (m : Memory) :
    ∃ f, (allocFrame m).1 = f * 4096 ∧ (f = 0 ∨ ¬m.Used f) := by
  obtain ⟨f, -, hfree, hf, -⟩ | ⟨-, hfail⟩ := allocFrame_cases m
  · exact ⟨f, hf, .inr hfree⟩
  · exact ⟨0, by rw [hfail], .inl rfl⟩

/-- A write to frame `d`, to frame 0 or to a frame that was not in use. -/
theorem Grows.write (h : Grows d m m') {mem' : Bytes} (ht : Touches n m'.mem mem')
    (hn : n = d ∨ n = 0 ∨ ¬m.Used n) : Grows d m { m' with mem := mem' } := by
  refine ⟨h.used, fun {x} hx h0 hd ↦ ?_, h.total⟩
  have hne : x / 4096 ≠ n := by
    rintro rfl
    rcases hn with rfl | hn | hn
    · exact hd rfl
    · exact h0 hn
    · exact hn hx
  exact (ht x hne).trans (h.bytes hx h0 hd)

theorem grows_allocFrame (d : Nat) (m : Memory) : Grows d m (allocFrame m).2 :=
  ⟨used_allocFrame, fun _ _ _ ↦ rfl, totalFrames_allocFrame m⟩

end

/-! ## Copies -/

/-- The entry `e'` of a table is a copy of the entry `e`: it names a frame that was free,
with the same flags and the same contents. -/
structure PageCopy (m m' : Memory) (e e' : Nat) : Prop where
  present : present e'
  fresh : ¬m.Used (e' / 4096) ∧ m'.Used (e' / 4096)
  flags : e' % 4096 = e % 4096
  bytes : ∀ {j}, j < 4096 → m'.mem (frameOf e' + j) = m.mem (frameOf e + j)

/-- The entry `e'` of a directory is a copy of the entry `e`: it names a table that was
free, with the same flags and copies of the pages. -/
structure TableCopy (m m' : Memory) (e e' : Nat) : Prop where
  present : present e'
  fresh : ¬m.Used (e' / 4096) ∧ m'.Used (e' / 4096)
  flags : e' % 4096 = e % 4096
  pages : ∀ {k}, k < 1024 → Mm.present (entry m.mem (frameOf e) k) →
    PageCopy m m' (entry m.mem (frameOf e) k) (entry m'.mem (frameOf e') k)
  empty : ∀ {k}, k < 1024 → ¬Mm.present (entry m.mem (frameOf e) k) →
    ¬Mm.present (entry m'.mem (frameOf e') k)

/-- A table whose frame, and the frames of whose pages, are read and not written. -/
structure TableIntact (d : Nat) (m : Memory) (t : Nat) : Prop extends Intact d m t where
  pages : ∀ {k}, k < 1024 → present (entry m.mem (t * 4096) k) →
    Intact d m (entry m.mem (t * 4096) k / 4096)

/-- A space whose frames are read and not written. -/
structure SpaceIntact (d : Nat) (m : Memory) (src : Nat) : Prop extends
    Intact d m (src / 4096) where
  aligned : src % 4096 = 0
  tables : ∀ {di}, 256 ≤ di → di < 1024 → present (entry m.mem src di) →
    TableIntact d m (entry m.mem src di / 4096)

section

variable {d t src e e' : Nat} {m m' m'' : Memory}

/-- What is not written is not written to another frame that was not in use, either. -/
theorem Intact.of_fresh {g : Nat} (h : Intact d m t) (hg : g = d ∨ g = 0 ∨ ¬m.Used g) :
    Intact g m t := by
  refine ⟨h.used, h.ne_zero, ?_⟩
  rintro rfl
  rcases hg with rfl | rfl | hg
  · exact h.ne rfl
  · exact h.ne_zero rfl
  · exact hg h.used

theorem TableIntact.of_fresh {g : Nat} (h : TableIntact d m t) (hg : Grows d m m')
    (hfresh : g = d ∨ g = 0 ∨ ¬m.Used g) : TableIntact g m' t where
  toIntact := (h.toIntact.of_fresh hfresh).grows hg
  pages := fun {k} hk hp ↦ by
    rw [hg.entry h.toIntact hk] at hp ⊢
    exact ((h.pages hk hp).of_fresh hfresh).grows hg

theorem TableIntact.grows (h : TableIntact d m t) (hg : Grows d m m') : TableIntact d m' t :=
  h.of_fresh hg (.inl rfl)

theorem SpaceIntact.entry (h : SpaceIntact d m src) (hg : Grows d m m') {di : Nat}
    (hdi : di < 1024) : entry m'.mem src di = entry m.mem src di := by
  rw [eq_mul_of_mod h.aligned]
  exact hg.entry h.toIntact hdi

theorem SpaceIntact.of_fresh {g : Nat} (h : SpaceIntact d m src) (hg : Grows d m m')
    (hfresh : g = d ∨ g = 0 ∨ ¬m.Used g) : SpaceIntact g m' src where
  toIntact := (h.toIntact.of_fresh hfresh).grows hg
  aligned := h.aligned
  tables := fun {di} hlo hdi hp ↦ by
    rw [h.entry hg hdi] at hp ⊢
    exact (h.tables hlo hdi hp).of_fresh hg hfresh

theorem Intact.of_not_used (hf : ¬m.Used t ∧ m'.Used t) (hzero : m.Used 0) (hd : m.Used d) :
    Intact d m' t := by
  refine ⟨hf.2, ?_, ?_⟩
  · rintro rfl
    exact hf.1 hzero
  · rintro rfl
    exact hf.1 hd

/-- What was copied is still a copy when the walk has gone on. -/
theorem PageCopy.later (h : PageCopy m m' e e') (hg : Grows d m' m'') (hzero : m.Used 0)
    (hd : m.Used d) : PageCopy m m'' e e' where
  present := h.present
  fresh := ⟨h.fresh.1, hg.used h.fresh.2⟩
  flags := h.flags
  bytes := fun {_} hj ↦ (hg.byte (.of_not_used h.fresh hzero hd) hj).trans (h.bytes hj)

/-- What is copied later is a copy of what was there before. -/
theorem PageCopy.earlier (h : PageCopy m' m'' e e') (hg : Grows d m m')
    (he : Intact d m (e / 4096)) : PageCopy m m'' e e' where
  present := h.present
  fresh := ⟨fun hu ↦ h.fresh.1 (hg.used hu), h.fresh.2⟩
  flags := h.flags
  bytes := fun {_} hj ↦ (h.bytes hj).trans (hg.byte he hj)

theorem TableCopy.later (h : TableCopy m m' e e') (hg : Grows d m' m'') (hzero : m.Used 0)
    (hd : m.Used d) : TableCopy m m'' e e' := by
  have hentry : ∀ {k}, k < 1024 → entry m''.mem (frameOf e') k = entry m'.mem (frameOf e') k :=
    hg.entry (.of_not_used h.fresh hzero hd)
  refine ⟨h.present, ⟨h.fresh.1, hg.used h.fresh.2⟩, h.flags, fun hk hp ↦ ?_, fun hk hp ↦ ?_⟩
  · rw [hentry hk]
    exact (h.pages hk hp).later hg hzero hd
  · rw [hentry hk]
    exact h.empty hk hp

theorem TableCopy.earlier (h : TableCopy m' m'' e e') (hg : Grows d m m')
    (he : TableIntact d m (e / 4096)) : TableCopy m m'' e e' := by
  have hentry : ∀ {k}, k < 1024 → entry m'.mem (frameOf e) k = entry m.mem (frameOf e) k :=
    hg.entry he.toIntact
  refine ⟨h.present, ⟨fun hu ↦ h.fresh.1 (hg.used hu), h.fresh.2⟩, h.flags, fun hk hp ↦ ?_,
    fun hk hp ↦ ?_⟩
  · have hcopy := h.pages hk (by rwa [hentry hk])
    rw [hentry hk] at hcopy
    exact hcopy.earlier hg (he.pages hk hp)
  · exact h.empty hk (by rwa [hentry hk])

end

/-! ## The inner loop -/

/-- The present entries of a table from `ti` on. -/
def pageCount (mem : Bytes) (table : Nat) : (ti n : Nat) → Nat
  | _, 0 => 0
  | ti, n + 1 =>
    (if present (entry mem table ti) then 1 else 0) + pageCount mem table (ti + 1) n

theorem pageCount_congr {mem mem' : Bytes} {table ti : Nat}
    (h : ∀ k, ti ≤ k → k < ti + n → entry mem' table k = entry mem table k) :
    pageCount mem' table ti n = pageCount mem table ti n := by
  induction n generalizing ti with
  | zero => rfl
  | succ n ih =>
    rw [pageCount, pageCount, h ti le_rfl (by omega),
      ih fun k hk hk' ↦ h k (by omega) (by omega)]

variable {t f e : Nat}

section

variable {m : Memory} {src dst ti n : Nat}

/-- One page is copied: the state behind the body of the inner loop. -/
def copyPage (m : Memory) (dstTable ti e : Nat) : Memory :=
  let r := allocFrame m
  setEntry { r.2 with mem := r.2.mem.memcpy r.1 r.2.mem (frameOf e) 4096 } dstTable ti
    (r.1 ||| e % 4096)

theorem clonePages_succ (m : Memory) (src dst ti n : Nat) : clonePages src dst ti (n + 1) m =
    clonePages src dst (ti + 1) n
      (if present (entry m.mem src ti) then copyPage m dst ti (entry m.mem src ti) else m) := by
  rw [clonePages]
  by_cases hp : present (entry m.mem src ti)
  · simp only [if_pos hp]
    rfl
  · simp only [if_neg hp]

theorem grows_copyPage (m : Memory) (dst : Nat) (hti : ti < 1024) (e : Nat) :
    Grows dst m (copyPage m (dst * 4096) ti e) := by
  obtain ⟨f, hf, hfree⟩ := allocFrame_frame m
  have hcopy : Touches f m.mem (m.mem.memcpy (allocFrame m).1 m.mem (frameOf e) 4096) := by
    rw [hf]
    exact touches_copy f _ _
  exact ((grows_allocFrame _ m).write hcopy (.inr hfree)).write (touches_word dst hti _) (.inl rfl)

theorem draws_copyPage (m : Memory) (dst ti e : Nat) :
    Memory.Draws 1 m (copyPage m dst ti e) :=
  (draws_allocFrame m).write _

/-- The inner loop asks for a frame for each page of the table. -/
theorem clonePages_frames (ht : Intact dst m t) (hn : ti + n ≤ 1024) :
    Grows dst m (clonePages (t * 4096) (dst * 4096) ti n m) ∧
      Memory.Draws (pageCount m.mem (t * 4096) ti n) m
        (clonePages (t * 4096) (dst * 4096) ti n m) := by
  induction n generalizing ti m with
  | zero => exact ⟨.refl _ m, .of_pmm rfl⟩
  | succ n ih =>
    rw [clonePages_succ, pageCount]
    split
    case isTrue hp =>
      have hg := grows_copyPage m dst (by omega : ti < 1024) (entry m.mem (t * 4096) ti)
      obtain ⟨hgrows, hdraws⟩ := ih (ht.grows hg) (by omega : ti + 1 + n ≤ 1024)
      rw [pageCount_congr fun k _ hk ↦ hg.entry ht (by omega)] at hdraws
      exact ⟨hg.trans hgrows (.inl rfl), (draws_copyPage ..).trans hdraws⟩
    case isFalse hp =>
      rw [Nat.zero_add]
      exact ih ht (by omega)

theorem word_mod {x : Nat} (hx : x < 4096) : (f * 4096 ||| x) % 4096 = x := by
  rw [word_eq_add hx]
  omega

/-- An allocation that does not fail, and the entry that is made of the frame. -/
theorem allocFrame_names (hp : present e) (htotal : m.pmm.totalFrames ≤ 2 ^ 20)
    (hoom : (allocFrame m).2.pmm.oom = false) :
    ∃ f, (allocFrame m).1 = f * 4096 ∧ ¬m.Used f ∧ (allocFrame m).2.Used f ∧
      Names (f * 4096 ||| e % 4096) f := by
  obtain ⟨f, hlt, hfree, heq⟩ := pmmAllocFrame_cases hoom
  refine ⟨f, by rw [allocFrame, heq], ?_, ?_,
    names_word (hlt.trans_le htotal) (Nat.mod_lt _ (by decide)) (present_mod hp)⟩
  · rw [Memory.Used, hfree]
    exact Bool.false_ne_true
  · rw [Memory.Used, allocFrame, heq]
    exact Function.update_self ..

/-- One page is copied, and the allocation does not fail. -/
theorem pageCopy_copyPage (hp : present e) (htotal : m.pmm.totalFrames ≤ 2 ^ 20)
    (hdst : m.Used dst) (hti : ti < 1024)
    (hoom : (copyPage m (dst * 4096) ti e).pmm.oom = false) :
    PageCopy m (copyPage m (dst * 4096) ti e) e
        (entry (copyPage m (dst * 4096) ti e).mem (dst * 4096) ti) ∧
      ∀ {k}, k < 1024 → k ≠ ti → entry (copyPage m (dst * 4096) ti e).mem (dst * 4096) k =
        entry m.mem (dst * 4096) k := by
  obtain ⟨f, hr, hnot, hused, hv⟩ := allocFrame_names hp htotal hoom
  have hne : dst ≠ f := by
    rintro rfl
    exact hnot hdst
  have hmem : (copyPage m (dst * 4096) ti e).mem =
      (m.mem.memcpy (f * 4096) m.mem (frameOf e) 4096).put32 (dst * 4096 + 4 * ti)
        (f * 4096 ||| e % 4096) := by
    rw [← hr]
    rfl
  have hent : entry (copyPage m (dst * 4096) ti e).mem (dst * 4096) ti = f * 4096 ||| e % 4096 := by
    rw [hmem]
    exact entry_put32_same hv.lt
  refine ⟨?_, fun {k} hk hkt ↦ ?_⟩
  · rw [hent]
    refine ⟨hv.present, ?_, word_mod (Nat.mod_lt _ (by decide)), fun {j} hj ↦ ?_⟩
    · rw [hv.frame]
      exact ⟨hnot, hused⟩
    · rw [frameOf, hv.frame, hmem, touches_word dst hti _ _ (by omega),
        Bytes.memcpy_of_mem _ _ (by omega) (by omega), Nat.add_sub_cancel_left]
  · rw [hmem, entry_put32_of_ne hkt]
    exact (touches_copy f _ _).word hne hk

/-- The inner loop, if no allocation fails: each page of the table has its copy. -/
theorem clonePages_copies (ht : TableIntact dst m t) (hzero : m.Used 0)
    (htotal : m.pmm.totalFrames ≤ 2 ^ 20) (hdst : m.Used dst) (hn : ti + n ≤ 1024)
    (hoom : (clonePages (t * 4096) (dst * 4096) ti n m).pmm.oom = false) {k : Nat} (hk : k < 1024) :
      (ti ≤ k ∧ k < ti + n ∧ present (entry m.mem (t * 4096) k) ∧
        PageCopy m (clonePages (t * 4096) (dst * 4096) ti n m) (entry m.mem (t * 4096) k)
          (entry (clonePages (t * 4096) (dst * 4096) ti n m).mem (dst * 4096) k)) ∨
      (¬(ti ≤ k ∧ k < ti + n ∧ present (entry m.mem (t * 4096) k)) ∧
        entry (clonePages (t * 4096) (dst * 4096) ti n m).mem (dst * 4096) k =
          entry m.mem (dst * 4096) k) := by
  induction n generalizing ti m with
  | zero => exact .inr ⟨by omega, rfl⟩
  | succ n ih =>
    rw [clonePages_succ] at hoom ⊢
    by_cases hp : present (entry m.mem (t * 4096) ti)
    · rw [if_pos hp] at hoom ⊢
      have hg := grows_copyPage m dst (by omega : ti < 1024) (entry m.mem (t * 4096) ti)
      obtain ⟨hcopy, hkeep⟩ := pageCopy_copyPage hp htotal hdst (by omega) (oom_clonePages hoom)
      have hrest := (clonePages_frames (ht.grows hg).toIntact (by omega : ti + 1 + n ≤ 1024)).1
      have hih := ih (ht.grows hg) (hg.used hzero) (hg.total.symm ▸ htotal) (hg.used hdst)
        (by omega : ti + 1 + n ≤ 1024) hoom
      rw [hg.entry ht.toIntact hk] at hih
      rcases hih with ⟨hlo, hhi, hpk, hpc⟩ | ⟨hno, hsame⟩
      · exact .inl ⟨by omega, by omega, hpk, hpc.earlier hg (ht.pages hk hpk)⟩
      · rw [hsame]
        by_cases hkt : k = ti
        · subst hkt
          exact .inl ⟨le_rfl, by omega, hp, hcopy.later hrest hzero hdst⟩
        · refine .inr ⟨fun hc ↦ hno ⟨by omega, by omega, hc.2.2⟩, hkeep hk hkt⟩
    · rw [if_neg hp] at hoom ⊢
      rcases ih ht hzero htotal hdst (by omega) hoom with ⟨hlo, hhi, hpk⟩ | ⟨hno, hsame⟩
      · exact .inl ⟨by omega, by omega, hpk⟩
      · refine .inr ⟨fun hc ↦ hno ⟨?_, by omega, hc.2.2⟩, hsame⟩
        rcases Nat.eq_or_lt_of_le hc.1 with rfl | hlt
        · exact absurd hc.2.2 hp
        · exact hlt

end

/-! ## The outer loop -/

/-- The tables of a directory from entry `di` on, and their pages. -/
def frameCount (mem : Bytes) (dir : Nat) : (di n : Nat) → Nat
  | _, 0 => 0
  | di, n + 1 =>
    (if present (entry mem dir di) then 1 + pageCount mem (frameOf (entry mem dir di)) 0 1024
      else 0) + frameCount mem dir (di + 1) n

theorem frameCount_eq_zero {mem : Bytes} {dir di : Nat}
    (h : ∀ {i}, di ≤ i → i < di + n → entry mem dir i = 0) : frameCount mem dir di n = 0 := by
  induction n generalizing di with
  | zero => rfl
  | succ n ih =>
    rw [frameCount, ih fun hlo hhi ↦ h (by omega) (by omega), h le_rfl (by omega)]
    rfl

/-- A table is allocated: the first half of the body of the outer loop. -/
def copyTable (m : Memory) (dst di e : Nat) : Memory :=
  let r := allocFrame m
  setEntry (zeroFrame r.2 r.1) dst di (r.1 ||| e % 4096)

variable {m' : Memory}

section

variable {m : Memory} {src dst di n : Nat}

/-- The body of the outer loop for a table. -/
def copyTablePages (m : Memory) (dst di e : Nat) : Memory :=
  clonePages (frameOf e) (allocFrame m).1 0 1024 (copyTable m dst di e)

theorem cloneTables_succ (m : Memory) (src dst di n : Nat) : cloneTables src dst di (n + 1) m =
    cloneTables src dst (di + 1) n (if present (entry m.mem src di) then
      copyTablePages m dst di (entry m.mem src di) else m) := by
  rw [cloneTables]
  by_cases hp : present (entry m.mem src di)
  · simp only [if_pos hp]
    rfl
  · simp only [if_neg hp]

theorem grows_copyTable (m : Memory) (hdst : dst % 4096 = 0) (hdi : di < 1024) (e : Nat) :
    Grows (dst / 4096) m (copyTable m dst di e) := by
  obtain ⟨f, hf, hfree⟩ := allocFrame_frame m
  have hclear : Touches f m.mem (m.mem.memset (allocFrame m).1 0 4096) := by
    rw [hf]
    exact touches_zero f
  exact ((grows_allocFrame _ m).write hclear (.inr hfree)).write (touches_put32 hdst hdi _)
    (.inl rfl)

/-- The body of the outer loop asks for a frame for the table and one for each page. -/
theorem copyTablePages_frames (he : TableIntact (dst / 4096) m (e / 4096)) (hdst : dst % 4096 = 0)
    (hdi : di < 1024) :
    Grows (dst / 4096) m (copyTablePages m dst di e) ∧
      Memory.Draws (1 + pageCount m.mem (frameOf e) 0 1024) m (copyTablePages m dst di e) := by
  obtain ⟨f, hf, hfree⟩ := allocFrame_frame m
  have hg := grows_copyTable m hdst hdi e
  obtain ⟨hgrows, hdraws⟩ := clonePages_frames (he.of_fresh hg (.inr hfree)).toIntact
    (le_rfl : 0 + 1024 ≤ 1024)
  rw [pageCount_congr fun k _ hk ↦ hg.entry he.toIntact (by omega)] at hdraws
  rw [copyTablePages, hf]
  exact ⟨hg.trans hgrows (.inr hfree), ((draws_allocFrame m).write _).trans hdraws⟩

theorem frameCount_congr {d : Nat} (h : SpaceIntact d m src) (hg : Grows d m m') (hlo : 256 ≤ di)
    (hn : di + n ≤ 1024) : frameCount m'.mem src di n = frameCount m.mem src di n := by
  induction n generalizing di with
  | zero => rfl
  | succ n ih =>
    rw [frameCount, frameCount, h.entry hg (by omega), ih (by omega) (by omega)]
    by_cases hp : present (entry m.mem src di)
    · have ht := h.tables hlo (by omega) hp
      rw [if_pos hp, if_pos hp, frameOf,
        pageCount_congr fun k _ hk ↦ hg.entry ht.toIntact (by omega)]
    · rw [if_neg hp, if_neg hp]

/-- The outer loop asks for as many frames as the space consists of. -/
theorem cloneTables_frames (h : SpaceIntact (dst / 4096) m src) (hdst : dst % 4096 = 0)
    (hlo : 256 ≤ di) (hn : di + n ≤ 1024) :
    Grows (dst / 4096) m (cloneTables src dst di n m) ∧
      Memory.Draws (frameCount m.mem src di n) m (cloneTables src dst di n m) := by
  induction n generalizing di m with
  | zero => exact ⟨.refl _ m, .of_pmm rfl⟩
  | succ n ih =>
    rw [cloneTables_succ, frameCount]
    split
    case isTrue hp =>
      obtain ⟨hg, hd⟩ := copyTablePages_frames (h.tables hlo (by omega) hp) hdst
        (by omega : di < 1024)
      obtain ⟨hgrows, hdraws⟩ := ih (h.of_fresh hg (.inl rfl)) (by omega)
        (by omega : di + 1 + n ≤ 1024)
      rw [frameCount_congr h hg (by omega) (by omega)] at hdraws
      exact ⟨hg.trans hgrows (.inl rfl), hd.trans hdraws⟩
    case isFalse hp =>
      rw [Nat.zero_add]
      exact ih h (by omega) (by omega)

/-- The directory that is filled. -/
structure Target (m : Memory) (dst : Nat) : Prop where
  aligned : dst % 4096 = 0
  used : m.Used (dst / 4096)
  ne_zero : dst / 4096 ≠ 0

theorem Target.grows (h : Target m dst) (hg : Grows (dst / 4096) m m') : Target m' dst :=
  ⟨h.aligned, hg.used h.used, h.ne_zero⟩

/-- A table is allocated and its pages are copied, and no allocation fails. -/
theorem tableCopy_copyTablePages (hp : present e) (he : TableIntact (dst / 4096) m (e / 4096))
    (hzero : m.Used 0) (htotal : m.pmm.totalFrames ≤ 2 ^ 20) (hdst : Target m dst) (hdi : di < 1024)
    (hoom : (copyTablePages m dst di e).pmm.oom = false) :
    TableCopy m (copyTablePages m dst di e) e (entry (copyTablePages m dst di e).mem dst di) ∧
      ∀ {i}, i < 1024 → i ≠ di →
        entry (copyTablePages m dst di e).mem dst i = entry m.mem dst i := by
  have hoom₁ : (copyTable m dst di e).pmm.oom = false := oom_clonePages hoom
  obtain ⟨f, hr, hnot, hused, hv⟩ := allocFrame_names hp htotal hoom₁
  have hne : dst / 4096 ≠ f := by
    rintro rfl
    exact hnot hdst.used
  have hg := grows_copyTable m hdst.aligned hdi e
  have hmem : (copyTable m dst di e).mem =
      (m.mem.memset (f * 4096) 0 4096).put32 (dst + 4 * di) (f * 4096 ||| e % 4096) := by
    rw [← hr]
    rfl
  have hsrc := he.of_fresh hg (.inr (.inr hnot))
  have hused₁ : (copyTable m dst di e).Used f := hused
  have hcp : copyTablePages m dst di e =
      clonePages (e / 4096 * 4096) (f * 4096) 0 1024 (copyTable m dst di e) := by
    rw [copyTablePages, hr]
    rfl
  rw [hcp] at hoom ⊢
  generalize copyTable m dst di e = m₁ at *
  have hent : entry m₁.mem dst di = f * 4096 ||| e % 4096 := by
    rw [hmem]
    exact entry_put32_same hv.lt
  have hother : ∀ {i}, i < 1024 → i ≠ di → entry m₁.mem dst i = entry m.mem dst i := by
    intro i hi hidi
    rw [hmem, entry_put32_of_ne hidi]
    exact (touches_zero f).entry hdst.aligned hne hi
  have hblank : ∀ {k}, k < 1024 → entry m₁.mem (f * 4096) k = 0 := by
    intro k hk
    have htouch : Touches (dst / 4096) (m.mem.memset (f * 4096) 0 4096) m₁.mem := by
      rw [hmem]
      exact touches_put32 hdst.aligned hdi _
    rw [htouch.word hne.symm hk]
    exact entry_memset hk
  have hrest := (clonePages_frames hsrc.toIntact (Nat.le_refl (0 + 1024))).1
  have hcopies := fun {k : Nat} (hk : k < 1024) ↦ clonePages_copies hsrc (hg.used hzero)
    (hg.total.symm ▸ htotal) hused₁ (Nat.le_refl (0 + 1024)) hoom hk
  have hdir : ∀ {i}, i < 1024 →
      entry (clonePages (e / 4096 * 4096) (f * 4096) 0 1024 m₁).mem dst i = entry m₁.mem dst i := by
    intro i hi
    rw [eq_mul_of_mod hdst.aligned]
    exact hrest.entry ⟨hg.used hdst.used, hdst.ne_zero, hne⟩ hi
  refine ⟨?_, fun hi hne ↦ (hdir hi).trans (hother hi hne)⟩
  rw [hdir hdi, hent]
  have hframe : frameOf (f * 4096 ||| e % 4096) = f * 4096 := by rw [frameOf, hv.frame]
  have hentry : ∀ {k}, k < 1024 →
      entry m₁.mem (e / 4096 * 4096) k = entry m.mem (e / 4096 * 4096) k :=
    fun hk ↦ hg.entry he.toIntact hk
  refine ⟨hv.present, ?_, word_mod (Nat.mod_lt _ (by decide)), fun {k} hk hpk ↦ ?_,
    fun {k} hk hpk ↦ ?_⟩
  · rw [hv.frame]
    exact ⟨hnot, hrest.used hused₁⟩
  · rw [hframe]
    rcases hcopies hk with ⟨-, -, -, hpc⟩ | ⟨hno, -⟩
    · rw [hentry hk] at hpc
      exact hpc.earlier hg (he.pages hk hpk)
    · exact absurd ⟨Nat.zero_le _, by omega, (hentry hk).symm ▸ hpk⟩ hno
  · rw [hframe]
    rcases hcopies hk with ⟨-, -, hpk', -⟩ | ⟨-, hsame⟩
    · exact absurd ((hentry hk) ▸ hpk') hpk
    · rw [hsame, hblank hk]
      exact Nat.zero_ne_one

/-- The outer loop, if no allocation fails: each table of the space has its copy. -/
theorem cloneTables_copies (h : SpaceIntact (dst / 4096) m src) (hzero : m.Used 0)
    (htotal : m.pmm.totalFrames ≤ 2 ^ 20) (hdst : Target m dst) (hlo : 256 ≤ di)
    (hn : di + n ≤ 1024) (hoom : (cloneTables src dst di n m).pmm.oom = false) {i : Nat}
    (hi : i < 1024) :
    (di ≤ i ∧ i < di + n ∧ present (entry m.mem src i) ∧
      TableCopy m (cloneTables src dst di n m) (entry m.mem src i)
        (entry (cloneTables src dst di n m).mem dst i)) ∨
    (¬(di ≤ i ∧ i < di + n ∧ present (entry m.mem src i)) ∧
      entry (cloneTables src dst di n m).mem dst i = entry m.mem dst i) := by
  induction n generalizing di m with
  | zero => exact .inr ⟨by omega, rfl⟩
  | succ n ih =>
    rw [cloneTables_succ] at hoom ⊢
    by_cases hp : present (entry m.mem src di)
    · rw [if_pos hp] at hoom ⊢
      have ht := h.tables hlo (by omega) hp
      obtain ⟨hg, -⟩ := copyTablePages_frames ht hdst.aligned (by omega : di < 1024)
      obtain ⟨hcopy, hkeep⟩ := tableCopy_copyTablePages hp ht hzero htotal hdst (by omega)
        (oom_cloneTables hoom)
      have h' := h.of_fresh hg (.inl rfl)
      have hrest := (cloneTables_frames h' hdst.aligned (by omega)
        (by omega : di + 1 + n ≤ 1024)).1
      have hih := ih h' (hg.used hzero) (hg.total.symm ▸ htotal) (hdst.grows hg)
        (by omega) (by omega : di + 1 + n ≤ 1024) hoom
      rw [h.entry hg hi] at hih
      rcases hih with ⟨hle, hlt, hpi, hpc⟩ | ⟨hno, hsame⟩
      · exact .inl ⟨by omega, by omega, hpi, hpc.earlier hg (h.tables (by omega) hi hpi)⟩
      · rw [hsame]
        by_cases hid : i = di
        · subst hid
          exact .inl ⟨le_rfl, by omega, hp, hcopy.later hrest hzero hdst.used⟩
        · exact .inr ⟨fun hc ↦ hno ⟨by omega, by omega, hc.2.2⟩, hkeep hi hid⟩
    · rw [if_neg hp] at hoom ⊢
      rcases ih h hzero htotal hdst (by omega) (by omega) hoom with ⟨hle, hlt, hpi⟩ | ⟨hno, hsame⟩
      · exact .inl ⟨by omega, by omega, hpi⟩
      · refine .inr ⟨fun hc ↦ hno ⟨?_, by omega, hc.2.2⟩, hsame⟩
        rcases Nat.eq_or_lt_of_le hc.1 with rfl | hlt
        · exact absurd hc.2.2 hp
        · exact hlt

/-! ## The whole clone -/

/-- The frames that a clone of the space asks for: for its directory, its tables and its
pages. -/
def cloneNeeds (m : Memory) (src : Nat) : Nat := 1 + frameCount m.mem src 256 768

/-- What is needed of memory to clone the space `src`. -/
structure Cloneable (m : Memory) (src : Nat) : Prop where
  total : m.pmm.totalFrames ≤ 2 ^ 20
  zero : m.Used 0
  kernelAligned : m.kernelDir % 4096 = 0
  kernelUsed : m.Used (m.kernelDir / 4096)
  source : SpaceIntact 0 m src

theorem clone_of_empty (hempty : freeSet m.pmm = ∅) :
    halAddrspaceClone m src = (0, (allocFrame m).2) := by
  obtain ⟨f, hlt, hfree, -, -⟩ | ⟨-, hfail⟩ := allocFrame_cases m
  · have hmem := mem_free.mpr ⟨hlt, hfree⟩
    rw [hempty] at hmem
    cases hmem
  · rw [halAddrspaceClone, halAddrspaceCreate, if_pos hfail, if_pos rfl]

/-- A new directory for the clone. -/
theorem Cloneable.create (h : Cloneable m src) (hne : freeSet m.pmm ≠ ∅) :
    ∃ f, ¬m.Used f ∧ (halAddrspaceCreate m).1 = f * 4096 ∧ f ≠ 0 ∧
      Grows 0 m (halAddrspaceCreate m).2 ∧ Target (halAddrspaceCreate m).2 (f * 4096) ∧
      (∀ {i}, i < 256 →
        entry (halAddrspaceCreate m).2.mem (f * 4096) i = entry m.mem m.kernelDir i) ∧
      ∀ {i}, 256 ≤ i → i < 1024 → entry (halAddrspaceCreate m).2.mem (f * 4096) i = 0 := by
  obtain ⟨f, hlt, hfree, hf, hused⟩ | ⟨hempty, -⟩ := allocFrame_cases m
  · have hf0 : f ≠ 0 := by
      rintro rfl
      exact hfree h.zero
    have hK : m.kernelDir / 4096 ≠ f := by
      rintro rfl
      exact hfree h.kernelUsed
    obtain ⟨mem', heq, htouch, hlow, hhigh⟩ := halAddrspaceCreate_frame hf hf0 h.kernelAligned hK
    rw [heq]
    refine ⟨f, hfree, rfl, hf0, ?_, ⟨Nat.mul_mod_left .., ?_, ?_⟩, hlow, hhigh⟩
    · exact (grows_allocFrame 0 m).write htouch (.inr (.inr hfree))
    · rw [frame_div]
      exact hused
    · rwa [frame_div]
  · exact absurd hempty hne

/-- The source is not what the clone is written to. -/
theorem Cloneable.intact (h : Cloneable m src) (hf : ¬m.Used f) (hg : Grows 0 m m') :
    SpaceIntact (f * 4096 / 4096) m' src := by
  rw [frame_div]
  exact h.source.of_fresh hg (.inr (.inr hf))

/-- A clone that finds a first frame asks for as many frames as the source consists of, and
writes to no frame that was in use, frame 0 excepted. -/
theorem Cloneable.frames (h : Cloneable m src) (hne : freeSet m.pmm ≠ ∅) :
    (halAddrspaceClone m src).1 ≠ 0 ∧ Grows 0 m (halAddrspaceClone m src).2 ∧
      Memory.Draws (cloneNeeds m src) m (halAddrspaceClone m src).2 := by
  obtain ⟨f, hfree, hf, hf0, hg, htarget, -, -⟩ := h.create hne
  have hf0' : (halAddrspaceCreate m).1 ≠ 0 := by
    rw [hf]
    exact Nat.mul_ne_zero hf0 (by decide)
  rw [halAddrspaceClone, if_neg hf0', hf]
  obtain ⟨hgrows, hdraws⟩ := cloneTables_frames (h.intact hfree hg) htarget.aligned le_rfl
    (Nat.le_refl (256 + 768))
  rw [frameCount_congr h.source hg le_rfl le_rfl] at hdraws
  refine ⟨Nat.mul_ne_zero hf0 (by decide), hg.trans hgrows (.inr (.inr ?_)),
    (draws_halAddrspaceCreate m).trans hdraws⟩
  rwa [frame_div]

/-- **A clone is a copy**, if no allocation fails: each table of the source has its copy in the
new directory, and there are no others. -/
theorem Cloneable.copies (h : Cloneable m src)
    (hoom : (halAddrspaceClone m src).2.pmm.oom = false) :
    (halAddrspaceClone m src).1 % 4096 = 0 ∧
      (∀ {i}, i < 256 → entry (halAddrspaceClone m src).2.mem (halAddrspaceClone m src).1 i =
        entry m.mem m.kernelDir i) ∧
      ∀ {i}, 256 ≤ i → i < 1024 →
        (present (entry m.mem src i) → TableCopy m (halAddrspaceClone m src).2
          (entry m.mem src i)
          (entry (halAddrspaceClone m src).2.mem (halAddrspaceClone m src).1 i)) ∧
        (¬present (entry m.mem src i) →
          entry (halAddrspaceClone m src).2.mem (halAddrspaceClone m src).1 i = 0) := by
  have hne : freeSet m.pmm ≠ ∅ := by
    intro hempty
    obtain ⟨f, hlt, hfree, -⟩ := pmmAllocFrame_cases (oom_create (oom_clone hoom))
    have hmem := mem_freeSet.mpr ⟨hlt, hfree⟩
    rw [hempty] at hmem
    cases hmem
  obtain ⟨f, hfree, hf, hf0, hg, htarget, hlow, hhigh⟩ := h.create hne
  have hf0' : (halAddrspaceCreate m).1 ≠ 0 := by
    rw [hf]
    exact Nat.mul_ne_zero hf0 (by decide)
  rw [halAddrspaceClone, if_neg hf0', hf] at hoom ⊢
  have hcopies := fun {i : Nat} (hi : i < 1024) ↦ cloneTables_copies (h.intact hfree hg)
    (hg.used h.zero) (hg.total.symm ▸ h.total) htarget le_rfl (Nat.le_refl (256 + 768)) hoom hi
  refine ⟨htarget.aligned, fun {i} hi ↦ ?_, fun {i} hlo hi ↦ ?_⟩
  · rcases hcopies (by omega : i < 1024) with ⟨hle, -⟩ | ⟨-, hsame⟩
    · omega
    · exact hsame.trans (hlow hi)
  · have hsrc := h.source.entry hg hi
    have hcopy := hcopies hi
    rw [hsrc] at hcopy
    rcases hcopy with ⟨-, -, hp, hcopy⟩ | ⟨hno, hsame⟩
    · exact ⟨fun _ ↦ hcopy.earlier hg (h.source.tables hlo hi hp), fun hnp ↦ absurd hp hnp⟩
    · exact ⟨fun hp ↦ absurd ⟨hlo, hi, hp⟩ hno, fun _ ↦ hsame.trans (hhigh hlo hi)⟩

end

end FentoOS.Mm
