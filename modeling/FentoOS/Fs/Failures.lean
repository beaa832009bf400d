import FentoOS.Fs.Truncate

/-!
# Calls that fail

`minixfs_creat` and `minixfs_mkdir` undo what they have done when the name cannot be entered:
they give the inode back.  They do not give back zones.  `dir_add` may have taken one for
a table, and `minixfs_mkdir` has one for the new directory.

Neither looks at what the parent is.  `dir_lookup` fails in a file that is no directory, as it
does for a new name, and `dir_add` then writes to that file.
-/

namespace FentoOS.Fs

open FentoOS.Lib

/-- Both maps and all files are the same. -/
structure Unchanged (fs fs' : Minixfs) : Prop where
  imap : fs'.view.imap = fs.view.imap
  zmap : fs'.view.zmap = fs.view.zmap
  volume : fs'.volume = fs.volume

theorem Unchanged.refl (fs : Minixfs) : Unchanged fs fs := ⟨rfl, rfl, rfl⟩

section

variable {g : Superblock} {live : Nat → Prop} {v w : View} {ino : Nat} {S : Slot → Prop} {f : File}

theorem Spent.zmap_eq (h : Spent g ino v S w)
    (hsame : ∀ t, v.zone ino t = 0 → w.zone ino t = 0) : w.zmap = v.zmap := by
  funext n
  refine Bool.eq_iff_iff.mpr ((h.zmap n).trans (or_iff_left ?_))
  rintro ⟨t, ht, hne, -⟩
  exact hne (hsame t ht)

theorem Spent.zmap_eq_of_full (h : Spent g ino v S w) (hfull : Full v.zmap) : w.zmap = v.zmap := by
  funext n
  rw [hfull n]
  exact (h.zmap n).mpr (.inl (hfull n))

theorem Padded.full (h : Padded g v) (hspare : spare v = 0) : Full v.zmap := by
  have hempty := (Set.ncard_eq_zero h.finite).mp hspare
  intro n
  by_contra hc
  have hn : n ∈ {n | v.zmap n = false} := Bool.eq_false_of_not_eq_true hc
  rw [hempty] at hn
  exact hn

/-- A file that finds no room for one more line has taken no zone, unless there were zones for
a part of the way to its next block. -/
theorem Spent.of_crowded (h : Spent g ino v f.nextSlots w) (hp : Padded g v)
    (ho : Owned g live w) (hl : live ino) (hc : Crowded f ino w) :
    w.zmap = v.zmap ∨ nblocks f.attr < maxBlocks ∧ 0 < spare v ∧
      spare v < missing v ino f.nextSlots := by
  cases hs : slotOf (nblocks f.attr) with
  | none =>
    refine .inl (h.zmap_eq fun t ht ↦ (h.kept t (.inl ?_)).trans ht)
    rintro ⟨b, s, hlo, hhi, hslot, -⟩
    obtain rfl : b = nblocks f.attr := le_antisymm (Nat.lt_succ_iff.mp hhi) hlo
    cases hs.symm.trans hslot
  | some s =>
    by_cases hspare : spare v = 0
    · exact .inl (h.zmap_eq_of_full (hp.full hspare))
    · have hnot := h.not_fits ho hl le_rfl hc.no_zone hc.why
      refine .inr ⟨lt_of_slotOf hs, Nat.pos_of_ne_zero hspare, ?_⟩
      by_contra hle
      exact hnot ⟨lt_of_slotOf hs, not_lt.mp hle⟩

end

/-! ## Failed calls change nothing -/

/-- A new name is to be entered in the file of `parent`, and all lines of it are in use. -/
structure Cramped (fs : Minixfs) (path : List UInt8) (parent : Nat) (f : File) : Prop where
  split : ∃ leaf, splitPath fs.sb fs.disk path = some (parent, leaf) ∧ leaf ≠ [] ∧
    (f.attr.isDir → f.find leaf = none)
  file : fs.volume parent = some f
  inode : ¬Full fs.view.imap
  taken : ∀ e < f.cap, f.ino e ≠ 0

section

variable {fs : Minixfs} {path leaf : List UInt8} {parent : Nat} {f : File}

theorem Target.cramped (ht : Target fs path parent leaf f) (h : WellFormed fs)
    (hnone : Fs.dirLookup fs.sb fs.disk parent leaf = none) (hinode : ¬Full fs.view.imap)
    (htaken : ∀ e < f.cap, f.ino e ≠ 0) : Cramped fs path parent f := by
  refine ⟨⟨leaf, ht.split, ht.ne, fun hdir ↦ ?_⟩, ht.file, hinode, htaken⟩
  rwa [h.sound.stores.dirLookup ht.file, if_pos hdir] at hnone

theorem Cramped.target (hc : Cramped fs path parent f) (h : WellFormed fs)
    (hpath : IsCString path) : ∃ leaf, Target fs path parent leaf f ∧
      Fs.dirLookup fs.sb fs.disk parent leaf = none := by
  obtain ⟨leaf, hsplit, hne, hfind⟩ := hc.split
  obtain ⟨hbelow, hleaf, hlen⟩ := h.splitPath hpath hsplit
  refine ⟨leaf, ⟨hsplit, hne, hbelow, hleaf, hlen, hc.file⟩, ?_⟩
  rw [h.sound.stores.dirLookup hc.file]
  split
  · exact hfind ‹_›
  · rfl

/-- Inode numbers are no error codes. -/
theorem Sound.sint32_ino (h : Sound fs) {ino : Nat} (hino : IsIno fs.sb ino) :
    sint32 ino ≠ -1 := by
  rw [sint32_of_lt (h.ino_lt hino)]
  omega

/-- `minixfs_creat` fails where no inode is free or there is no room for the name. -/
theorem WellFormed.creat_fails (h : WellFormed fs) (ht : Target fs path parent leaf f)
    (hnone : Fs.dirLookup fs.sb fs.disk parent leaf = none)
    (hfull : Full fs.view.imap ∨ Crowded f parent fs.view) (mode : Nat) :
    (Fs.minixfsCreat fs path mode).1 = -1 := by
  rcases h.creat_new ht hnone mode with ⟨-, -, -, -, hres, -⟩ | ⟨ino, -, hvac, -, hfits, -⟩
  · exact hres
  · rcases hfull with himap | hc
    · exact absurd (himap ino) (hvac ▸ Bool.false_ne_true)
    · have hspent : Spent fs.sb parent fs.view f.nextSlots fs.view := .refl h.sound.good.padded
      exact absurd (hfits hc.taken)
        (hspent.not_fits h.sound.good.owned ⟨f, ht.file⟩ le_rfl hc.no_zone hc.why)

/-- `minixfs_mkdir` fails where no inode or no zone is free. -/
theorem WellFormed.mkdir_fails (h : WellFormed fs) (ht : Target fs path parent leaf f)
    (hnone : Fs.dirLookup fs.sb fs.disk parent leaf = none)
    (hfull : Full fs.view.imap ∨ Full fs.view.zmap) (mode : Nat) :
    (Fs.minixfsMkdir fs path mode).1 = -1 := by
  rcases h.mkdir_new ht hnone mode with ⟨hres, -⟩ | ⟨-, hzmap, -, ino, -, hvac, -⟩
  · exact hres
  · rcases hfull with himap | hz
    · exact absurd (himap ino) (hvac ▸ Bool.false_ne_true)
    · exact absurd hz hzmap

/-- A call of `minixfs_creat` that fails changes nothing, if and only if there are zones for all
of the way to the block behind the last line or for none of it. -/
theorem WellFormed.creat_atomic_iff (h : WellFormed fs) (hpath : IsCString path) (mode : Nat) :
    ((Fs.minixfsCreat fs path mode).1 = -1 → Unchanged fs (Fs.minixfsCreat fs path mode).2) ↔
      ∀ parent f, Cramped fs path parent f → nblocks f.attr < maxBlocks →
        spare fs.view = 0 ∨ missing fs.view parent f.nextSlots ≤ spare fs.view := by
  constructor
  · intro hun parent f hc hmax
    obtain ⟨leaf, ht, hnone⟩ := hc.target h hpath
    rcases h.creat_new ht hnone mode with
      ⟨v', -, hwhy, -, hres, -, hview, -⟩ | ⟨ino, -, -, -, hfits, -⟩
    · -- the call has stopped because no zone was left
      obtain ⟨-, hcrowded⟩ := hwhy.resolve_left fun hfull ↦ hc.inode hfull.1
      have hfull := hcrowded.why.resolve_right (slotOf_ne_none hmax)
      rw [← hview, (hun hres).zmap] at hfull
      exact .inl (spare_of_full hfull)
    · exact .inr (hfits hc.taken).2
  intro hroom hres
  rcases h.target hpath with ⟨parent, leaf, f, ht⟩ | hfail
  · cases hfound : Fs.dirLookup fs.sb fs.disk parent leaf with
    | some ino =>
      rw [ht.creat_found hfound]
      exact .refl fs
    | none =>
      rcases h.creat_new ht hfound mode with
        ⟨v', hspent, hwhy, himap, -, hsound, hview, hvolume⟩ | ⟨ino, hino, -, -, -, hnum, -⟩
      · refine ⟨by rw [hview, himap], ?_, hvolume⟩
        rw [hview]
        rcases hwhy with ⟨-, rfl⟩ | ⟨hinode, hcrowded⟩
        · rfl
        · have hsb : (Fs.minixfsCreat fs path mode).2.sb = fs.sb := by rw [ht.creat]
          have howned := hsound.good.owned
          rw [hsb, hview, hvolume] at howned
          rcases hspent.of_crowded h.sound.good.padded howned ⟨f, ht.file⟩ hcrowded with
            hsame | ⟨hmax, hpos, hmany⟩
          · exact hsame
          · have hc := ht.cramped h hfound hinode hcrowded.taken
            rcases hroom parent f hc hmax with hzero | hfew
            · exact absurd hzero (Nat.ne_of_gt hpos)
            · exact absurd hfew (not_le.mpr hmany)
      · exact absurd (hnum.symm.trans hres) (h.sound.sint32_ino hino)
  · rw [(hfail mode).1]
    exact .refl fs

/-- A call of `minixfs_mkdir` that fails changes nothing, if and only if there are zones for the
new directory and for all of that way or no zone at all. -/
theorem WellFormed.mkdir_atomic_iff (h : WellFormed fs) (hpath : IsCString path) (mode : Nat) :
    ((Fs.minixfsMkdir fs path mode).1 = -1 → Unchanged fs (Fs.minixfsMkdir fs path mode).2) ↔
      ∀ parent f, Cramped fs path parent f → spare fs.view = 0 ∨
        nblocks f.attr < maxBlocks ∧ missing fs.view parent f.nextSlots < spare fs.view := by
  constructor
  · intro hun parent f hc
    obtain ⟨leaf, ht, hnone⟩ := hc.target h hpath
    rcases h.mkdir_new ht hnone mode with
      ⟨hres, -, -, -, ⟨hfull, -⟩ | ⟨-, -, hless, -⟩⟩ | ⟨-, -, hroom, -⟩
    · exact .inl (spare_of_full (hfull.resolve_left hc.inode))
    · rw [spare, (hun hres).zmap] at hless
      exact absurd hless (lt_irrefl _)
    · exact .inr (hroom hc.taken)
  intro hroom hres
  rcases h.target hpath with ⟨parent, leaf, f, ht⟩ | hfail
  · cases hfound : Fs.dirLookup fs.sb fs.disk parent leaf with
    | some ino =>
      rw [ht.mkdir_found hfound]
      exact .refl fs
    | none =>
      rcases h.mkdir_new ht hfound mode with
        ⟨-, -, himap, hvolume, ⟨-, hzmap⟩ | ⟨hinode, htaken, hless, hnot⟩⟩ | ⟨hzero, -⟩
      · exact ⟨himap, hzmap, hvolume⟩
      · rcases hroom parent f (ht.cramped h hfound hinode htaken) with hzero | hyes
        · exact absurd hless (hzero ▸ Nat.not_lt_zero _)
        · exact absurd hyes hnot
      · rw [hzero] at hres
        cases hres
  · rw [(hfail mode).2]
    exact .refl fs

/-- A failed call of `minixfs_creat` or `minixfs_mkdir` changes neither the maps nor any file, if
and only if it does not run out of zones on its way: when the parent has no free line, there must
be no zone at all or enough of them. -/
theorem failed_creation_changes_nothing_iff (h : WellFormed fs) (hpath : IsCString path)
    (mode : Nat) :
    (((minixfsCreat fs path mode).1 = -1 → Unchanged fs (minixfsCreat fs path mode).2) ↔
      ∀ parent f, Cramped fs path parent f → nblocks f.attr < maxBlocks →
        spare fs.view = 0 ∨ missing fs.view parent f.nextSlots ≤ spare fs.view) ∧
    (((minixfsMkdir fs path mode).1 = -1 → Unchanged fs (minixfsMkdir fs path mode).2) ↔
      ∀ parent f, Cramped fs path parent f → spare fs.view = 0 ∨
        nblocks f.attr < maxBlocks ∧ missing fs.view parent f.nextSlots < spare fs.view) :=
  ⟨h.creat_atomic_iff hpath mode, h.mkdir_atomic_iff hpath mode⟩

end

/-! ### A file that takes all zones -/

/-- The small disk with `n` blocks of sevens in the file `/a`. -/
def sevensFs (n : Nat) : Minixfs := (minixfsWrite sampleNamedFs 2 (fun _ ↦ 7) (n * 1024) 0).2

theorem sevens_wellFormed (n : Nat) : WellFormed (sevensFs n) ∧ (sevensFs n).mounted = true ∧
    dirLookup (sevensFs n).sb (sevensFs n).disk 1 [97] = some 2 :=
  sampleNamed_write (fun _ ↦ 7) (n * 1024) (by decide)

theorem splitPath_ax {g : Superblock} {d : Disk} (h : dirLookup g d 1 [97] = some 2) :
    splitPath g d [47, 97, 47, 120] = some (2, [120]) := by
  have hnames : names [slash, 97, slash, 120] = [[97], [120]] := by decide
  refine (splitPath_eq (by decide : Clean [slash, 97, slash, 120])).trans ?_
  rw [hnames]
  simp [walkTo, walk, h]

theorem sevens_facts : ∀ n < 4, 2 ≤ n → IsIno (sevensFs n).sb 2 ∧
    (sevensFs n).sb.sZones - (sevensFs n).sb.sFirstdatazone = 4 ∧ (sevensFs n).view.imap 2 = true ∧
    (sevensFs n).view.imap 3 = false ∧ (∀ k ≤ 4, (sevensFs n).view.zmap k = decide (k ≠ n + 2)) ∧
    nblocks ((sevensFs n).view.file 2).attr = n ∧ ¬((sevensFs n).view.file 2).attr.isDir ∧
    (∀ e < 16 * n, ((sevensFs n).view.file 2).ino e ≠ 0) ∧ (sevensFs n).view.blockZone 2 n = 0 := by
  decide

section

variable {n : Nat} (hlo : 2 ≤ n) (hhi : n < 4)

include hlo hhi

theorem sevens_target : Target (sevensFs n) [47, 97, 47, 120] 2 [120] ((sevensFs n).view.file 2) ∧
    dirLookup (sevensFs n).sb (sevensFs n).disk 2 [120] = none := by
  obtain ⟨hino, -, himap, -, -, -, hdir, -⟩ := sevens_facts n hhi hlo
  obtain ⟨hwf, -, hlook⟩ := sevens_wellFormed n
  have hf : (sevensFs n).volume 2 = some ((sevensFs n).view.file 2) :=
    Minixfs.volume_eq_some.mpr ⟨hino, himap, rfl⟩
  have hsplit := splitPath_ax hlook
  obtain ⟨hbelow, hleaf, hlen⟩ := hwf.splitPath (by decide) hsplit
  refine ⟨⟨hsplit, by decide, hbelow, hleaf, hlen, hf⟩, ?_⟩
  rw [hwf.sound.stores.dirLookup hf, if_neg hdir]

theorem sevens_clear {k : Nat} (hk : (sevensFs n).view.zmap k = false) : k = n + 2 ∧ n = 2 := by
  obtain ⟨-, hzones, -, -, hzmap, -⟩ := sevens_facts n hhi hlo
  have hle := ((sevens_wellFormed n).1.sound.good.padded k hk).2
  rw [hzones] at hle
  rw [hzmap k hle] at hk
  obtain rfl : k = n + 2 := not_not.mp (of_decide_eq_false hk)
  exact ⟨rfl, by omega⟩

end

/-- With three blocks, `/a` has all zones, and nothing can be entered in it. -/
theorem sevens_crowded : Full (sevensFs 3).view.zmap ∧
    Crowded ((sevensFs 3).view.file 2) 2 (sevensFs 3).view := by
  have hfull : Full (sevensFs 3).view.zmap := by
    intro k
    by_contra hk
    have hclear := sevens_clear (by decide) (by decide) (Bool.eq_false_of_not_eq_true hk)
    exact absurd hclear.2 (by decide)
  obtain ⟨-, -, -, -, -, hblocks, -, htaken, hzone⟩ := sevens_facts 3 (by decide) (by decide)
  refine ⟨hfull, fun e he ↦ htaken e ?_, ?_, .inl hfull⟩
  · rwa [File.cap, hblocks] at he
  · rwa [hblocks]

theorem failed_creation_changes_nothing_iff_sevens :
    Unchanged (sevensFs 3) (minixfsCreat (sevensFs 3) [47, 97, 47, 120] 0o644).2 ∧
      Unchanged (sevensFs 3) (minixfsMkdir (sevensFs 3) [47, 97, 47, 120] 0o644).2 := by
  have hwf := (sevens_wellFormed 3).1
  obtain ⟨ht, hnone⟩ := sevens_target (n := 3) (by decide) (by decide)
  obtain ⟨hfull, hcrowded⟩ := sevens_crowded
  have hspare : spare (sevensFs 3).view = 0 := spare_of_full hfull
  have hpath : IsCString [47, 97, 47, 120] := by decide
  obtain ⟨hcreat, hmkdir⟩ := failed_creation_changes_nothing_iff hwf hpath 0o644
  exact ⟨hcreat.mpr (fun _ _ _ _ ↦ .inl hspare) (hwf.creat_fails ht hnone (.inr hcrowded) 0o644),
    hmkdir.mpr (fun _ _ _ ↦ .inl hspare) (hwf.mkdir_fails ht hnone (.inr hfull) 0o644)⟩

/-- With two blocks, `/a` leaves one zone.  The new directory takes it, then its name cannot be
entered in `/a`, and the zone stays marked. -/
theorem failed_mkdir_keeps_zone : WellFormed (sevensFs 2) ∧ (sevensFs 2).view.zmap 4 = false ∧
    (minixfsMkdir (sevensFs 2) [47, 97, 47, 120] 0o755).1 = -1 ∧
    (minixfsMkdir (sevensFs 2) [47, 97, 47, 120] 0o755).2.view.zmap 4 = true := by
  have hwf := (sevens_wellFormed 2).1
  obtain ⟨ht, hnone⟩ := sevens_target (n := 2) (by decide) (by decide)
  obtain ⟨-, -, -, himap, hzmap, hblocks, -, htaken, hzone⟩ :=
    sevens_facts 2 (by decide) (by decide)
  have hclear : (sevensFs 2).view.zmap 4 = false := hzmap 4 le_rfl
  have hspare : spare (sevensFs 2).view = 1 := by
    refine Set.ncard_eq_one.mpr ⟨4, Set.ext fun k ↦ ⟨fun hk ↦ ?_, ?_⟩⟩
    · exact (sevens_clear (by decide) (by decide) hk).1
    · rintro rfl
      exact hclear
  have hmissing : 0 < missing (sevensFs 2).view 2 ((sevensFs 2).view.file 2).nextSlots := by
    refine (Set.ncard_pos (Set.toFinite _)).mpr ⟨.top 2, ⟨2, .top 2, ?_⟩, hzone⟩
    rw [hblocks]
    exact ⟨le_rfl, by decide, rfl, List.mem_singleton_self _⟩
  have hlines : ∀ e < ((sevensFs 2).view.file 2).cap, ((sevensFs 2).view.file 2).ino e ≠ 0 := by
    intro e he
    rw [File.cap, hblocks] at he
    exact htaken e he
  refine ⟨hwf, hclear, ?_⟩
  rcases hwf.mkdir_new ht hnone 0o755 with
    ⟨hres, hsound, -, -, ⟨hfull, -⟩ | ⟨-, -, hless, -⟩⟩ | ⟨-, -, hroom, -⟩
  · rcases hfull with hfull | hfull
    · exact absurd (hfull 3) (himap ▸ Bool.false_ne_true)
    · exact absurd (hfull 4) (hclear ▸ Bool.false_ne_true)
  · rw [hspare, Nat.lt_one_iff] at hless
    exact ⟨hres, hsound.good.padded.full hless 4⟩
  · obtain ⟨-, hfew⟩ := hroom hlines
    omega

/-! ## Names in files that are no directories -/

theorem ne_nil_of_mem_names {path c : List UInt8} (h : c ∈ names path) : c ≠ [] := by
  obtain ⟨w, hw, rfl⟩ := List.mem_map.mp h
  have hne : w ≠ [] := of_decide_eq_true (List.mem_filter.mp hw).2
  intro hnil
  rcases List.take_eq_nil_iff.mp hnil with hzero | hw
  · cases hzero
  · exact hne hw

section

variable {fs : Minixfs} {path : List UInt8} {parent : Nat} {f : File}

theorem Cramped.eq {parent' : Nat} {f' : File} {leaf : List UInt8} (hc : Cramped fs path parent' f')
    (ht : Target fs path parent leaf f) : parent' = parent ∧ f' = f := by
  obtain ⟨leaf', hsplit, -⟩ := hc.split
  obtain ⟨rfl, -⟩ := Prod.mk.inj (Option.some.inj (hsplit.symm.trans ht.split))
  exact ⟨rfl, Option.some.inj (hc.file.symm.trans ht.file)⟩

/-- `minixfs_creat` refuses a name and changes nothing, if and only if the name is new and no
inode is free or the file has no room for it. -/
theorem WellFormed.creat_refuses_iff (h : WellFormed fs) (hpath : IsCString path)
    {leaf : List UInt8} (ht : Target fs path parent leaf f) (mode : Nat) :
    ((Fs.minixfsCreat fs path mode).1 = -1 ∧ Unchanged fs (Fs.minixfsCreat fs path mode).2) ↔
      Fs.dirLookup fs.sb fs.disk parent leaf = none ∧
        (Full fs.view.imap ∨ Crowded f parent fs.view) := by
  constructor
  · rintro ⟨hres, hun⟩
    cases hfound : Fs.dirLookup fs.sb fs.disk parent leaf with
    | some ino =>
      have hino := h.sound.good.owned.number
        (h.tree.live (h.dirLookup ht.below ht.cstring hfound))
      rw [ht.creat_found hfound] at hres
      exact absurd hres (h.sound.sint32_ino hino)
    | none =>
      refine ⟨rfl, ?_⟩
      rcases h.creat_new ht hfound mode with
        ⟨v', hspent, hwhy, -, -, -, hview, -⟩ | ⟨ino, hino, -, -, -, hnum, -⟩
      · rcases hwhy with ⟨hfull, -⟩ | ⟨-, hcrowded⟩
        · exact .inl hfull
        refine .inr ⟨hcrowded.taken, ?_, ?_⟩
        · -- a zone that was there before is still there
          by_contra hz
          obtain ⟨s, hs, heq⟩ := slotOf_of_blockZone hz
          have hnone := hcrowded.no_zone
          rw [heq] at hz
          rw [View.blockZone, hs] at hnone
          exact hz ((hspent.kept s (.inr hz)).symm.trans hnone)
        · rw [← hun.zmap, hview]
          exact hcrowded.why
      · exact absurd (hnum.symm.trans hres) (h.sound.sint32_ino hino)
  · rintro ⟨hnone, hfull⟩
    have hres := h.creat_fails ht hnone hfull mode
    refine ⟨hres, (h.creat_atomic_iff hpath mode).mpr (fun parent' f' hc hmax ↦ .inl ?_) hres⟩
    obtain ⟨rfl, rfl⟩ := hc.eq ht
    rcases hfull with himap | hcrowded
    · exact absurd himap hc.inode
    · exact spare_of_full (hcrowded.why.resolve_right (slotOf_ne_none hmax))

/-- `minixfs_mkdir` refuses a name and changes nothing, if and only if the name is not new, or no
inode or no zone is free. -/
theorem WellFormed.mkdir_refuses_iff (h : WellFormed fs) (hpath : IsCString path)
    {leaf : List UInt8} (ht : Target fs path parent leaf f) (mode : Nat) :
    ((Fs.minixfsMkdir fs path mode).1 = -1 ∧ Unchanged fs (Fs.minixfsMkdir fs path mode).2) ↔
      Fs.dirLookup fs.sb fs.disk parent leaf ≠ none ∨ Full fs.view.imap ∨ Full fs.view.zmap := by
  cases hfound : Fs.dirLookup fs.sb fs.disk parent leaf with
  | some ino =>
    rw [ht.mkdir_found hfound]
    exact iff_of_true ⟨rfl, .refl fs⟩ (.inl (Option.some_ne_none ino))
  | none =>
    rw [or_iff_right fun hc ↦ hc rfl]
    constructor
    · rintro ⟨hres, hun⟩
      rcases h.mkdir_new ht hfound mode with
        ⟨-, -, -, -, ⟨hfull, -⟩ | ⟨-, -, hless, -⟩⟩ | ⟨hzero, -⟩
      · exact hfull
      · rw [spare, hun.zmap] at hless
        exact absurd hless (lt_irrefl _)
      · rw [hzero] at hres
        cases hres
    · intro hfull
      have hres := h.mkdir_fails ht hfound hfull mode
      refine ⟨hres, (h.mkdir_atomic_iff hpath mode).mpr (fun parent' f' hc ↦ .inl ?_) hres⟩
      exact spare_of_full (hfull.resolve_left hc.inode)

/-- The last component of the path is to be looked up in `parent`. -/
def Leads (fs : Minixfs) (path : List UInt8) (parent : Nat) : Prop :=
  (startOf fs.sb fs.disk path).bind (walk fs.sb fs.disk · (names path).dropLast) = some parent

theorem splitPath_eq_some_iff (habs : path.head? = some slash) (hne : names path ≠ [])
    {leaf : List UInt8} : splitPath fs.sb fs.disk path = some (parent, leaf) ↔
      Leads fs path parent ∧ leaf = (names path).getLast hne := by
  rw [splitPath_eq_startOf habs, Leads]
  cases startOf fs.sb fs.disk path with
  | none => simp
  | some start =>
    rw [Option.bind_some, Option.bind_some, walkTo, List.getLast?_eq_getLast_of_ne_nil hne]
    simp [eq_comm]

/-- Where the components of a path lead. -/
theorem Leads.target (hleads : Leads fs path parent) (h : WellFormed fs) (hpath : IsCString path)
    (habs : path.head? = some slash) (hne : names path ≠ []) (hf : fs.volume parent = some f) :
    Target fs path parent ((names path).getLast hne) f := by
  have hsplit := (splitPath_eq_some_iff habs hne).mpr ⟨hleads, rfl⟩
  obtain ⟨hbelow, hleaf, hlen⟩ := h.splitPath hpath hsplit
  exact ⟨hsplit, ne_nil_of_mem_names (List.getLast_mem hne), hbelow, hleaf, hlen, hf⟩

/-- The calls look for a name in one file, or in none and fail. -/
theorem WellFormed.leads_or_fails (h : WellFormed fs) (hpath : IsCString path)
    (habs : path.head? = some slash) (hne : names path ≠ []) (mode : Nat) :
    (∃ p fp, Leads fs path p ∧ Target fs path p ((names path).getLast hne) fp) ∨
      (∀ p, ¬Leads fs path p) ∧ Fs.minixfsCreat fs path mode = (-1, fs) ∧
        Fs.minixfsMkdir fs path mode = (-1, fs) := by
  rcases h.target hpath with ⟨p, leaf, fp, ht⟩ | hfail
  · obtain ⟨hleads, rfl⟩ := (splitPath_eq_some_iff habs hne).mp ht.split
    exact .inl ⟨p, fp, hleads, ht⟩
  · by_cases hleads : ∃ p, Leads fs path p
    · obtain ⟨p, hleads⟩ := hleads
      have hsplit := (splitPath_eq_some_iff habs hne).mpr ⟨hleads, rfl⟩
      obtain ⟨fp, hfp⟩ := h.tree.live (h.splitPath hpath hsplit).1
      exact .inl ⟨p, fp, hleads, hleads.target h hpath habs hne hfp⟩
    · exact .inr ⟨fun p hp ↦ hleads ⟨p, hp⟩, hfail mode⟩

/-- **Names in files that are no directories.**  Let all components but the last lead to a file
that is no directory.  The calls refuse to create a name there and change nothing, if and only if
there is no room for it.  For a path that starts with two slashes it is not this file that counts,
but the one to which an entry of the root without a name leads, and `minixfs_open` opens the
root. -/
theorem names_only_in_directories_iff (h : WellFormed fs) (hmounted : fs.mounted = true)
    (hpath : IsCString path) (habs : path.head? = some slash) (hne : names path ≠ [])
    (hwalk : walk fs.sb fs.disk 1 (names path).dropLast = some parent)
    (hf : fs.volume parent = some f) (hfile : ¬f.attr.isDir) (mode : Nat) :
    (((minixfsCreat fs path mode).1 = -1 ∧ Unchanged fs (minixfsCreat fs path mode).2) ↔
      ∀ p fp, Leads fs path p → fs.volume p = some fp →
        dirLookup fs.sb fs.disk p ((names path).getLast hne) = none ∧
          (Full fs.view.imap ∨ Crowded fp p fs.view)) ∧
    (((minixfsMkdir fs path mode).1 = -1 ∧ Unchanged fs (minixfsMkdir fs path mode).2) ↔
      ∀ p, Leads fs path p → dirLookup fs.sb fs.disk p ((names path).getLast hne) ≠ none ∨
        Full fs.view.imap ∨ Full fs.view.zmap) ∧
    ∀ flags, flags &&& 0x100 ≠ 0 →
      (((minixfsOpen fs path flags mode).1 = -1 ∧ Unchanged fs (minixfsOpen fs path flags mode).2) ↔
        Clean path ∧ (Full fs.view.imap ∨ Crowded f parent fs.view)) := by
  have hnew : ∀ leaf, dirLookup fs.sb fs.disk parent leaf = none := fun leaf ↦ by
    rw [h.sound.stores.dirLookup hf, if_neg hfile]
  have hone := h.leads_or_fails hpath habs hne mode
  have hunique : ∀ {p q}, Leads fs path p → Leads fs path q → p = q := fun hp hq ↦
    Option.some.inj (hp.symm.trans hq)
  refine ⟨?_, ?_, fun flags hflags ↦ ?_⟩
  · rcases hone with ⟨p, fp, hleads, ht⟩ | ⟨hnone, hcreat, -⟩
    · rw [h.creat_refuses_iff hpath ht]
      constructor
      · intro hc q fq hq hfq
        obtain rfl := hunique hleads hq
        obtain rfl := Option.some.inj (ht.file.symm.trans hfq)
        exact hc
      · exact fun hall ↦ hall p fp hleads ht.file
    · rw [hcreat]
      exact iff_of_true ⟨rfl, .refl fs⟩ fun p _ hp ↦ absurd hp (hnone p)
  · rcases hone with ⟨p, fp, hleads, ht⟩ | ⟨hnone, -, hmkdir⟩
    · rw [h.mkdir_refuses_iff hpath ht]
      exact ⟨fun hc q hq ↦ hunique hleads hq ▸ hc, fun hall ↦ hall p hleads⟩
    · rw [hmkdir]
      exact iff_of_true ⟨rfl, .refl fs⟩ fun p hp ↦ absurd hp (hnone p)
  · obtain ⟨p, rfl⟩ : ∃ p, path = slash :: p := List.head?_eq_some_iff.mp habs
    by_cases hclean : Clean (slash :: p)
    · have hleads : Leads fs (slash :: p) parent := by rwa [Leads, startOf, if_pos hclean]
      have hzero : minixfsResolve fs (slash :: p) = 0 := by
        rw [minixfsResolve_eq hmounted hclean, ← List.dropLast_append_getLast hne, walk,
          List.foldlM_append]
        change ((walk _ _ _ _).bind _).getD 0 = 0
        rw [hwalk]
        change ((dirLookup fs.sb fs.disk parent _).bind _).getD 0 = 0
        rw [hnew]
        rfl
      rw [minixfsOpen, if_pos hzero, if_pos hflags, and_iff_right hclean,
        h.creat_refuses_iff hpath (hleads.target h hpath habs hne hf), and_iff_right (hnew _)]
    · refine iff_of_false (fun hc ↦ ?_) fun hc ↦ hclean hc.1
      have hroot := minixfsResolve_of_not_clean hmounted hclean
      have hone : (minixfsOpen fs (slash :: p) flags mode).1 = sint32 1 := by
        simp only [minixfsOpen, hroot, one_ne_zero, if_false]
        split <;> rfl
      exact absurd (hone.symm.trans hc.1) (by decide)

end

/-- Nothing is created in `/a` when its three blocks are full and all zones taken. -/
theorem names_only_in_directories_iff_sevens :
    (minixfsCreat (sevensFs 3) [47, 97, 47, 120] 0o644).1 = -1 ∧
      (minixfsMkdir (sevensFs 3) [47, 97, 47, 120] 0o644).1 = -1 ∧
      (minixfsOpen (sevensFs 3) [47, 97, 47, 120] 0x100 0o644).1 = -1 := by
  obtain ⟨hwf, hmounted, hlook⟩ := sevens_wellFormed 3
  obtain ⟨-, -, -, -, -, -, hdir, -⟩ := sevens_facts 3 (by decide) (by decide)
  obtain ⟨ht, hnone⟩ := sevens_target (n := 3) (by decide) (by decide)
  obtain ⟨hfull, hcrowded⟩ := sevens_crowded
  have hclean : Clean [47, 97, 47, 120] := by decide
  have hwalk : walk (sevensFs 3).sb (sevensFs 3).disk 1 (names [47, 97, 47, 120]).dropLast =
      some 2 := by
    have hnames : (names [47, 97, 47, 120]).dropLast = [[97]] := by decide
    rw [hnames, walk_cons, hlook]
    rfl
  obtain ⟨hcreat, hmkdir, hopen⟩ := names_only_in_directories_iff hwf hmounted (by decide) rfl
    (by decide) hwalk ht.file hdir 0o644
  refine ⟨(hcreat.mpr fun p fp hp hfp ↦ ?_).1, (hmkdir.mpr fun _ _ ↦ .inr (.inr hfull)).1,
    ((hopen 0x100 (by decide)).mpr ⟨hclean, .inr hcrowded⟩).1⟩
  rw [Leads, startOf, if_pos hclean, Option.bind_some, hwalk] at hp
  obtain rfl := Option.some.inj hp
  obtain rfl := Option.some.inj (ht.file.symm.trans hfp)
  exact ⟨hnone, .inr hcrowded⟩

/-- A name is entered in the empty file `/a`, which gets a block for it. -/
theorem creat_in_file : WellFormed sampleNamedFs ∧
    dirLookup sampleNamedFs.sb sampleNamedFs.disk 1 [97] = some 2 ∧
    ¬(sampleNamedFs.view.file 2).attr.isDir ∧ minixfsSize sampleNamedFs 2 = 0 ∧
    (minixfsCreat sampleNamedFs [47, 97, 47, 120] 0o644).1 = 3 ∧
    minixfsSize (minixfsCreat sampleNamedFs [47, 97, 47, 120] 0o644).2 2 = 1024 :=
  ⟨sampleNamed_wellFormed, sampleNamed_root.1, by decide, by decide,
    by decide, by decide⟩

end FentoOS.Fs
