import FentoOS.Fs.Image

/-!
# What a write leaves behind

`minixfs_write` stops early when a block can get no zone.  Whether it can is decided by the
disk before the call: the blocks of the request fit if they are blocks a file can have and
there are as many free zones as slots to be filled for them.

If the loop runs to its end the size is brought up to date, otherwise it is not.  So a write
that stops early beyond the old end of the file reports bytes that the size does not cover,
and a write of no bytes moves the end to where it was asked to write.
-/

namespace FentoOS.Fs

open FentoOS.Lib Function

section

variable {fs : Minixfs} {ino : Nat} {f : File}

/-- What `minixfs_write` does to a sound file system. -/
theorem Sound.minixfsWrite (h : Sound fs) (hf : fs.volume ino = some f) (hdir : ¬f.attr.isDir)
    (src : Bytes) (count : Nat) {offset : Nat} (hoffset : offset < 2 ^ 32) :
    ∃ k f' fs', minixfsWrite fs ino src count offset = (sint32 k, fs') ∧
      Wrote src count offset 0 f k f' ∧ Sound fs' ∧ fs'.sb = fs.sb ∧ fs'.mounted = fs.mounted ∧
      (∃ S, Spent fs.sb ino fs.view S fs'.view) ∧
      (∀ x s, fs.volume.Live x → fs.view.zone x s ≠ 0 → fs'.view.zone x s = fs.view.zone x s) ∧
      (0 < k → Fits fs.view ino (offset / 1024) ((offset + k - 1) / 1024 + 1)) ∧
      (k = count ∧ fs'.volume =
          update fs.volume ino (some (f'.growTo (wrap32 (offset + count)))) ∨
        k < count ∧ fs'.volume = update fs.volume ino (some f') ∧
          (k = 0 ∨ (offset + k) % 1024 = 0) ∧
          ¬Fits fs.view ino (offset / 1024) ((offset + k) / 1024 + 1)) := by
  have hl : fs.volume.Live ino := ⟨f, hf⟩
  obtain ⟨v', k, f', hwrote, hret, hsb, hmounted, himap, hzones, hkept, hend⟩ :=
    h.stores.minixfsWrite hf hdir
      (Spent.supplies fs.sb fs.volume.Live ino fs.view (offset / 1024)) src count hoffset
      (Spent.refl h.good.padded)
  have hexact : ∀ {f'' : File} (x : Nat), IsIno fs.sb x → v'.imap x = true →
      Volume.Live (update fs.volume ino (some f'')) x := by
    intro f'' x hx hset
    rw [Volume.live_update hf, Minixfs.live_iff]
    exact ⟨hx, himap ▸ hset⟩
  -- the blocks that were written have got zones
  have hfits : ∀ {S live}, Spent fs.sb ino fs.view S v' → Owned fs.sb live v' → live ino →
      0 < k → Fits fs.view ino (offset / 1024) ((offset + k - 1) / 1024 + 1) := by
    intro S live hspent ho hl' hpos
    have hlimit := (hwrote.limit hoffset).resolve_left hpos.ne'
    exact hspent.fits ho hl' (by omega) fun b hlo hhi ↦ hzones hpos b hlo (by omega)
  generalize Fs.minixfsWrite fs ino src count offset = r at hret hsb hmounted hend ⊢
  obtain ⟨ret, fs'⟩ := r
  obtain rfl : ret = sint32 k := hret
  simp only at hsb hmounted hend
  rw [← hsb] at hend hexact
  refine ⟨k, f', fs', rfl, hwrote, ?_⟩
  rcases hend with ⟨hk, ⟨b, hb⟩, hs⟩ | ⟨hstop, hs⟩
  · obtain ⟨hview, hvolume⟩ := hs.volume_eq hexact
    have ho := hs.good.owned
    rw [hsb] at ho hb
    exact ⟨hs.sound (hsb ▸ h.width) hexact, hsb, hmounted, ⟨_, hview.symm ▸ hb⟩,
      fun x s hx hz ↦ hview ▸ hkept hx hz, hfits hb ho ⟨_, update_self ..⟩, .inl ⟨hk, hvolume⟩⟩
  · obtain ⟨hview, hvolume⟩ := hs.volume_eq hexact
    have hspent := hstop.supply
    have ho := hs.good.owned
    rw [hsb] at ho hspent
    have hl' : Volume.Live (update fs.volume ino (some f')) ino :=
      ⟨f', update_self ..⟩
    exact ⟨hs.sound (hsb ▸ h.width) hexact, hsb, hmounted, ⟨_, hview.symm ▸ hspent⟩,
      fun x s hx hz ↦ hview ▸ hkept hx hz, hfits hspent ho hl', .inr ⟨hstop.lt, hvolume,
      hstop.aligned, hspent.not_fits ho hl' (by omega) hstop.no_zone hstop.why⟩⟩

/-- The file after a write, as far as reading goes. -/
theorem Wrote.growTo_size {src : Bytes} {count offset k : Nat} {f' : File}
    (h : Wrote src count offset 0 f k f') (size : Nat) :
    (f'.growTo size).attr.iSize = max f.attr.iSize size ∧
      (f'.growTo size).byte = f'.byte := by
  unfold File.growTo
  rw [h.attr]
  split
  · exact ⟨(max_eq_right (le_of_lt ‹_›)).symm, rfl⟩
  · rw [h.attr]
    exact ⟨(max_eq_left (not_lt.mp ‹_›)).symm, rfl⟩

/-- A write that returns its count has put the bytes of the buffer in their place, and has
changed nothing else but the size. -/
theorem complete_write (h : Sound fs) (hf : fs.volume ino = some f) (hdir : ¬f.attr.isDir)
    {src : Bytes} {count offset : Nat} {fs' : Minixfs} (hpos : 0 < count) (hcount : count < 2 ^ 32)
    (hoffset : offset < 2 ^ 32)
    (hres : minixfsWrite fs ino src count offset = (sint32 count, fs')) :
    (∀ out count' offset', offset' + count' < 2 ^ 31 →
      (minixfsRead fs' ino out count' offset').1 =
          (min count' (max f.attr.iSize (offset + count) - offset') : Nat) ∧
        ∀ j < min count' (max f.attr.iSize (offset + count) - offset'),
          (offset ≤ offset' + j → offset' + j < offset + count →
            (minixfsRead fs' ino out count' offset').2 j = src (offset' + j - offset)) ∧
          (¬(offset ≤ offset' + j ∧ offset' + j < offset + count) → offset' + j < f.attr.iSize →
            (minixfsRead fs' ino out count' offset').2 j =
              (minixfsRead fs ino out count' offset').2 j)) ∧
      minixfsSize fs' ino = max f.attr.iSize (offset + count) ∧
      ∀ ino' ≠ ino, fs'.volume ino' = fs.volume ino' := by
  obtain ⟨k, f', fs'', hres', hwrote, hsound, -, -, -, -, -, hend⟩ :=
    h.minixfsWrite hf hdir src count hoffset
  obtain ⟨hret, rfl⟩ := Prod.mk.inj (hres'.symm.trans hres)
  have hk : k = count :=
    sint32_inj (lt_of_le_of_lt (hwrote.le.2 (Nat.zero_le _)) hcount) hcount hret
  subst hk
  obtain ⟨-, hvolume⟩ := hend.resolve_right fun hc ↦ lt_irrefl k hc.1
  have hlimit := maxBlocks_lt ((hwrote.limit hoffset).resolve_left hpos.ne')
  rw [wrap32_of_lt (hlimit.trans (by decide))] at hvolume
  obtain ⟨hsize, hbyte⟩ := hwrote.growTo_size (offset + k)
  have hf' : fs''.volume ino = some (f'.growTo (offset + k)) := by
    rw [hvolume, update_self]
  refine ⟨fun out count' offset' hlt ↦ ?_, ?_, fun ino' hne ↦ ?_⟩
  · have hnew := hsound.stores.minixfsRead hf' out (hlt.trans (by decide))
    have hold := h.stores.minixfsRead hf out (hlt.trans (by decide))
    rw [hsize, hbyte] at hnew
    rw [hnew, hold]
    refine ⟨sint32_of_lt (by omega), fun j hj ↦ ⟨fun hlo hhi ↦ ?_, fun hout hin ↦ ?_⟩⟩
    · refine (if_pos hj).trans ?_
      rw [hwrote.byte hoffset, if_pos ⟨hlo, hhi⟩]
    · refine (if_pos hj).trans ?_
      rw [hwrote.byte hoffset, Nat.add_zero, if_neg hout]
      exact (if_pos (by omega)).symm
  · rw [minixfsSize, (hsound.stores.readInode hf').1]
    exact (hsound.stores.size hf').trans hsize
  · rw [hvolume, update_of_ne hne]

end

/-! ## A file on the small disk -/

/-- The small disk with an empty file. -/
def sampleFileFs : Minixfs :=
  { sampleFs with
    disk := (writeInode sampleSb (allocInode sampleSb sampleDisk).2 2 (freshFile 0o644)).2 }

theorem sampleFile_stores : ∃ v, v.imap = update sampleFs.view.imap 2 true ∧
    Stores sampleFileFs.sb sampleFileFs.disk v
      (update sampleFs.volume 2 (some (File.empty (freshFile 0o644)))) := by
  have hwf := freshFile_wf 0o644
  have hfree : sampleFs.view.imap 2 = false := by decide
  rcases sample_sound.stores.allocInode hwf rfl rfl with ⟨hfull, -⟩ | ⟨ino, -, -, -, hino, hs⟩
  · rw [hfull 2] at hfree
    cases hfree
  · have htwo : (allocInode sampleSb sampleDisk).1 = 2 := by decide
    obtain rfl : 2 = ino := htwo.symm.trans hino
    exact ⟨_, rfl, hs⟩

theorem sampleFile_sound : Sound sampleFileFs ∧
    sampleFileFs.volume 2 = some (File.empty (freshFile 0o644)) := by
  obtain ⟨v, himap, hs⟩ := sampleFile_stores
  have hexact : ∀ ino, IsIno sampleFileFs.sb ino → v.imap ino = true → Volume.Live
      (update sampleFs.volume 2 (some (File.empty (freshFile 0o644)))) ino := by
    intro ino hino hset
    by_cases htwo : ino = 2
    · subst htwo
      exact ⟨_, update_self ..⟩
    · rw [himap, update_of_ne htwo] at hset
      obtain ⟨f, hf⟩ : sampleFs.volume.Live ino := Minixfs.live_iff.mpr ⟨hino, hset⟩
      exact ⟨f, (update_of_ne htwo ..).trans hf⟩
  refine ⟨hs.sound (by decide) hexact, ?_⟩
  rw [(hs.volume_eq hexact).2, update_self]

/-- Three bytes are written to the empty file. -/
theorem complete_write_three :
    minixfsSize (minixfsWrite sampleFileFs 2 (fun _ ↦ 7) 3 0).2 2 = 3 ∧
      (minixfsRead (minixfsWrite sampleFileFs 2 (fun _ ↦ 7) 3 0).2 2 Bytes.zero 8 1).1 = 2 := by
  have hres : minixfsWrite sampleFileFs 2 (fun _ ↦ 7) 3 0 =
      (sint32 3, (minixfsWrite sampleFileFs 2 (fun _ ↦ 7) 3 0).2) :=
    Prod.ext (by decide) rfl
  obtain ⟨hread, hsize, -⟩ := complete_write sampleFile_sound.1 sampleFile_sound.2 (by decide)
    (by decide) (by decide) (by decide) hres
  exact ⟨hsize, (hread Bytes.zero 8 1 (by decide)).1⟩

/-! ## Sizes -/

/-- A write stops early, beyond the end of the file: the blocks before the next fit and the
next does not. -/
def CutShort (v : View) (ino size count offset : Nat) : Prop :=
  ∃ n, 0 < n ∧ n < count ∧ (offset + n) % 1024 = 0 ∧ size < offset + n ∧
    Fits v ino (offset / 1024) ((offset + n) / 1024) ∧
    ¬Fits v ino (offset / 1024) ((offset + n) / 1024 + 1)

/-- When the write stops behind `n` bytes at a block that does not fit. -/
theorem cutShort_iff {v : View} {ino size count offset n : Nat} (hlt : n < count)
    (haligned : n = 0 ∨ (offset + n) % 1024 = 0)
    (hfits : 0 < n → Fits v ino (offset / 1024) ((offset + n - 1) / 1024 + 1))
    (hnot : ¬Fits v ino (offset / 1024) ((offset + n) / 1024 + 1)) :
    CutShort v ino size count offset ↔ 0 < n ∧ size < offset + n := by
  constructor
  · rintro ⟨n₀, hpos₀, -, hmod₀, hsize, hfits₀, hnot₀⟩
    have hle : (offset + n₀) / 1024 ≤ (offset + n) / 1024 :=
      not_lt.mp fun hc ↦ hnot (hfits₀.mono hc)
    have hpos : 0 < n := by
      refine Nat.pos_of_ne_zero fun hn ↦ hnot (hfits₀.mono ?_)
      omega
    have hge : (offset + n) / 1024 ≤ (offset + n₀) / 1024 :=
      not_lt.mp fun hc ↦ hnot₀ ((hfits hpos).mono (by omega))
    have hmod := haligned.resolve_left hpos.ne'
    exact ⟨hpos, by omega⟩
  · rintro ⟨hpos, hsize⟩
    have hmod := haligned.resolve_left hpos.ne'
    have hblock : (offset + n - 1) / 1024 + 1 = (offset + n) / 1024 := by omega
    exact ⟨n, hpos, hlt, hmod, hsize, hblock ▸ hfits hpos, hnot⟩

/-- What a write returns and leaves in the size agree, and what it has written can be read
back. -/
def Accounts (fs : Minixfs) (ino size : Nat) (src : Bytes) (count offset : Nat) : Prop :=
  ∃ (n : Nat) (fs' : Minixfs), minixfsWrite fs ino src count offset = ((n : Int), fs') ∧
    n ≤ count ∧ minixfsSize fs' ino = (if 0 < n then max size (offset + n) else size) ∧
    ∀ out, minixfsRead fs' ino out n offset =
      ((n : Int), fun j ↦ if j < n then src j else out j)

/-- The size of a file covers what a write to it has written, if and only if the write does not
stop beyond the end of the file, and does not ask for no bytes there. -/
theorem write_size_iff {fs : Minixfs} {ino : Nat} {f : File} (h : Sound fs)
    (hf : fs.volume ino = some f) (hdir : ¬f.attr.isDir) (src : Bytes) {count offset : Nat}
    (hoffset : offset < 2 ^ 32) :
    Accounts fs ino f.attr.iSize src count offset ↔
      (count = 0 → offset ≤ f.attr.iSize) ∧ ¬CutShort fs.view ino f.attr.iSize count offset := by
  obtain ⟨n, f', fs', hres, hwrote, hsound, -, -, -, -, hfits, hend⟩ :=
    h.minixfsWrite hf hdir src count hoffset
  have hlimit : 0 < n → offset + n < 2 ^ 31 := fun hpos ↦
    maxBlocks_lt ((hwrote.limit hoffset).resolve_left hpos.ne')
  have hret : sint32 n = n := by
    rcases Nat.eq_zero_or_pos n with rfl | hpos
    · rfl
    · exact sint32_of_lt (lt_of_le_of_lt (Nat.le_add_left n offset) (hlimit hpos))
  rw [hret] at hres
  -- the file that is stored in either case
  obtain ⟨f'', hf'', hbyte, hcond⟩ : ∃ f'', fs'.volume ino = some f'' ∧ f''.byte = f'.byte ∧
      ((f''.attr.iSize = if 0 < n then max f.attr.iSize (offset + n) else f.attr.iSize) ↔
        (count = 0 → offset ≤ f.attr.iSize) ∧
          ¬CutShort fs.view ino f.attr.iSize count offset) := by
    rcases hend with ⟨rfl, hvolume⟩ | ⟨hlt, hvolume, haligned, hnot⟩
    · obtain ⟨hsize, hbyte⟩ := hwrote.growTo_size (wrap32 (offset + n))
      refine ⟨_, by rw [hvolume, update_self], hbyte, ?_⟩
      rw [hsize]
      split
      case isTrue hpos =>
        rw [wrap32_of_lt ((hlimit hpos).trans (by decide))]
        refine iff_of_true rfl ⟨fun hc ↦ absurd hc hpos.ne', ?_⟩
        rintro ⟨n₀, -, hlt, -, -, -, hnot⟩
        exact hnot ((hfits hpos).mono (by omega))
      case isFalse hpos =>
        obtain rfl : n = 0 := Nat.eq_zero_of_not_pos hpos
        rw [Nat.add_zero, wrap32_of_lt hoffset, max_eq_left_iff]
        refine ⟨fun hle ↦ ⟨fun _ ↦ hle, ?_⟩, fun hc ↦ hc.1 rfl⟩
        rintro ⟨n₀, -, hlt, -⟩
        exact absurd hlt (Nat.not_lt_zero n₀)
    · refine ⟨f', by rw [hvolume, update_self], rfl, ?_⟩
      rw [hwrote.attr]
      have hcount : count = 0 → offset ≤ f.attr.iSize := fun hc ↦ by omega
      rw [and_iff_right hcount, cutShort_iff hlt haligned hfits hnot]
      split
      case isTrue hpos => rw [eq_comm, max_eq_left_iff, and_iff_right hpos, not_lt]
      case isFalse hpos => exact iff_of_true rfl fun hc ↦ hpos hc.1
  have hsize : minixfsSize fs' ino = f''.attr.iSize := by
    rw [minixfsSize, (hsound.stores.readInode hf'').1]
    exact hsound.stores.size hf''
  rw [← hcond]
  constructor
  · rintro ⟨n', fs₁, hres', -, hsize', -⟩
    obtain ⟨hn, rfl⟩ := Prod.mk.inj (hres.symm.trans hres')
    obtain rfl := Nat.cast_injective hn
    rw [← hsize, hsize']
  · intro hs
    refine ⟨n, fs', hres, hwrote.le.2 (Nat.zero_le _), hsize.trans hs, fun out ↦ ?_⟩
    rcases Nat.eq_zero_or_pos n with rfl | hpos
    · rw [hsound.stores.minixfsRead hf'' out (by omega), Nat.zero_min]
      rfl
    · have hmin : min n (f''.attr.iSize - offset) = n := by
        rw [hs, if_pos hpos]
        omega
      rw [hsound.stores.minixfsRead hf'' out ((hlimit hpos).trans (by decide)), hmin, hret, hbyte]
      refine Prod.ext rfl (funext fun j ↦ ?_)
      by_cases hj : j < n
      · simp only [if_pos hj, hwrote.byte hoffset]
        rw [if_pos (by omega), Nat.add_sub_cancel_left]
      · simp only [if_neg hj]

/-- A request inside one block is never cut short, and one for no bytes at the end of the file
asks for nothing beyond it. -/
theorem write_size_iff_five : Accounts sampleFileFs 2 0 (fun _ ↦ 7) 5 0 ∧
    Accounts sampleFileFs 2 0 (fun _ ↦ 7) 0 0 ∧ ¬Accounts sampleFileFs 2 0 (fun _ ↦ 7) 0 1 := by
  have hiff {count offset : Nat} (hoffset : offset < 2 ^ 32) :
      Accounts sampleFileFs 2 0 (fun _ ↦ 7) count offset ↔ _ :=
    write_size_iff sampleFile_sound.1 sampleFile_sound.2 (by decide) (fun _ ↦ 7) hoffset
  refine ⟨(hiff (by decide)).mpr ⟨fun hc ↦ absurd hc (by decide), ?_⟩,
    (hiff (by decide)).mpr ⟨fun _ ↦ le_rfl, ?_⟩, fun h ↦ ?_⟩
  · rintro ⟨n, h₁, h₂, h₃, -⟩
    omega
  · rintro ⟨n, -, h₂, -⟩
    omega
  · exact absurd (((hiff (by decide)).mp h).1 rfl) (by decide)

/-- Of two blocks the first is the last that a file can have: it is written, and the size stays
zero.  And no bytes written at position ten make a file of ten bytes. -/
theorem write_size_differs : Sound sampleFileFs ∧
    (minixfsWrite sampleFileFs 2 (fun _ ↦ 7) 2048 (1024 * 65798)).1 = 1024 ∧
    minixfsSize (minixfsWrite sampleFileFs 2 (fun _ ↦ 7) 2048 (1024 * 65798)).2 2 = 0 ∧
    (minixfsWrite sampleFileFs 2 (fun _ ↦ 7) 0 10).1 = 0 ∧
    minixfsSize sampleFileFs 2 = 0 ∧
    minixfsSize (minixfsWrite sampleFileFs 2 (fun _ ↦ 7) 0 10).2 2 = 10 :=
  ⟨sampleFile_sound.1, by decide, by decide, by decide, by decide,
    by decide⟩

end FentoOS.Fs
