import FentoOS.Fs.Remove
import FentoOS.Fs.Failures
import FentoOS.Lib.Run

/-!
# Runs of the file system

The calls that change a mounted file system, one after the other.  Each of them keeps the file
system well formed, and with it the zones of the inodes apart, as long as new names are
entered in directories.

`dir_add` does not look at what it is told to enter a name in.  A file that is no directory may
have holes, and on a full disk a hole stays one: the name is then written to block `0`, which
`map_block` takes for the table of every inode without a table.
-/

namespace FentoOS.Fs

open FentoOS.Lib Function

/-! ## Opening and changing permissions -/

section

variable {fs : Minixfs} {path : List UInt8} {ino : Nat} {f : File}

/-- `in.i_mode = (in.i_mode & S_IFMT) | (mode & 07777)`. -/
def Inode.chmod (i : Inode) (mode : Nat) : Inode :=
  { i with iMode := (i.iMode &&& 0o170000) ||| (mode &&& 0o7777) }

/-- The file with other permissions. -/
def File.chmod (f : File) (mode : Nat) : File := { f with attr := f.attr.chmod mode }

/-- New permissions leave the type of a file alone. -/
theorem Inode.type_chmod (i : Inode) (mode : Nat) :
    (i.chmod mode).iMode &&& 0o170000 = i.iMode &&& 0o170000 := by
  change ((i.iMode &&& 0o170000) ||| (mode &&& 0o7777)) &&& 0o170000 = _
  rw [Nat.and_or_distrib_right, Nat.and_assoc, Nat.and_assoc]
  exact (congrArg _ (Nat.and_zero mode)).trans (Nat.or_zero _)

theorem Inode.chmod_isDir (i : Inode) (mode : Nat) : (i.chmod mode).isDir ↔ i.isDir := by
  unfold Inode.isDir
  rw [i.type_chmod]

/-- The volume after one file has changed. -/
theorem Sound.of_changed (h : Sound fs) {d' : Disk} {v' : View} {f' : File}
    (himap : v'.imap = fs.view.imap) (hf : fs.volume ino = some f)
    (hs : Stores fs.sb d' v' (update fs.volume ino (some f'))) :
    Sound { fs with disk := d' } ∧
      ({ fs with disk := d' } : Minixfs).volume = update fs.volume ino (some f') := by
  obtain ⟨hsound, -, hvolume⟩ := hs.sound_disk h.width fun x hx hset ↦ by
    rw [Volume.live_update hf, Minixfs.live_iff]
    exact ⟨hx, himap ▸ hset⟩
  exact ⟨hsound, hvolume⟩

/-- `minixfs_chmod` of an inode in use. -/
theorem Sound.chmod (h : Sound fs) (hf : fs.volume ino = some f) (mode : Nat) :
    ∃ d', writeInode fs.sb fs.disk ino ((fs.view.inode ino).chmod mode) = (true, d') ∧
      Sound { fs with disk := d' } ∧ ({ fs with disk := d' } : Minixfs).volume =
        update fs.volume ino (some (f.chmod mode)) := by
  have hattr := (h.stores.readInode hf).2
  have hwf := h.stores.shows.wf ino
  have hwf' : ((fs.view.inode ino).chmod mode).Wf :=
    { hwf with mode := mode_lt (lt_of_le_of_lt Nat.and_le_left hwf.mode) mode }
  have hdir : ((fs.view.inode ino).chmod mode).isDir →
      f.attr.isDir ∧ ((fs.view.inode ino).chmod mode).iSize = f.attr.iSize := by
    rw [Inode.chmod_isDir, ← hattr]
    exact fun hdir ↦ ⟨hdir, rfl⟩
  obtain ⟨hok, hs⟩ :=
    h.stores.writeInode (i := (fs.view.inode ino).chmod mode) hf rfl hwf' hdir
  have himap : (fs.view.setInode ino ((fs.view.inode ino).chmod mode)).imap = fs.view.imap := rfl
  refine ⟨_, Prod.ext hok rfl, h.of_changed himap hf ?_⟩
  have hchmod : f.chmod mode = { f with attr := ((fs.view.inode ino).chmod mode).attr } := by
    unfold File.chmod
    rw [← hattr]
    rfl
  rw [hchmod]
  exact hs

/-- `minixfs_chmod` keeps the file system well formed. -/
theorem WellFormed.minixfsChmod (h : WellFormed fs) (hpath : IsCString path) (mode : Nat) :
    WellFormed (minixfsChmod fs path mode).2 := by
  unfold Fs.minixfsChmod
  by_cases hzero : Fs.minixfsResolve fs path = 0
  · simp only [if_pos hzero]
    exact h
  · obtain ⟨f, hf⟩ := h.tree.live (h.minixfsResolve hpath hzero)
    obtain ⟨d', hw, hsound, hvolume⟩ := h.sound.chmod hf mode
    simp only [if_neg hzero, (h.sound.stores.readInode hf).1]
    change WellFormed { fs with disk := (writeInode _ _ _ ((fs.view.inode _).chmod mode)).2 }
    rw [hw]
    refine ⟨hsound, ?_⟩
    rw [hvolume]
    exact h.tree.set hf (f.attr.chmod_isDir mode) (fun _ ↦ rfl) fun _ ↦ le_rfl

/-- The `O_TRUNC` part of `minixfs_open` keeps the file system well formed. -/
theorem WellFormed.truncate (h : WellFormed fs) (hf : fs.volume ino = some f) :
    WellFormed { fs with disk := truncate fs.sb fs.disk ino } := by
  by_cases hreg : f.attr.isReg
  · obtain ⟨v', -, hsound, -, hvolume⟩ := h.sound.truncate hf hreg
    refine ⟨hsound, ?_⟩
    rw [hvolume]
    exact h.tree.set hf Iff.rfl (fun hdir ↦ absurd hdir hreg.not_isDir) fun _ ↦ le_rfl
  · have hkept : Fs.truncate fs.sb fs.disk ino = fs.disk := by
      have hmode := congrArg Inode.iMode (h.sound.stores.readInode hf).2
      simp only [Fs.truncate, h.sound.stores.readInodeInto hf]
      exact if_neg fun hc ↦ hreg ((congrArg (fun m ↦ m &&& 0o170000) hmode).symm.trans hc)
    rw [hkept]
    exact h

/-- `minixfs_open` keeps the file system well formed, if what it creates it enters in a
directory. -/
theorem WellFormed.minixfsOpen (h : WellFormed fs) (hpath : IsCString path) {flags : Nat}
    (hdir : flags &&& 0x100 ≠ 0 → Fs.minixfsResolve fs path = 0 → ParentIsDir fs path)
    (mode : Nat) : WellFormed (minixfsOpen fs path flags mode).2 := by
  unfold Fs.minixfsOpen
  by_cases hzero : Fs.minixfsResolve fs path = 0
  · simp only [if_pos hzero]
    split
    · exact h.minixfsCreat hpath (hdir ‹_› hzero) mode
    · exact h
  · obtain ⟨f, hf⟩ := h.tree.live (h.minixfsResolve hpath hzero)
    simp only [if_neg hzero]
    split
    · exact h.truncate hf
    · exact h

end

/-! ## Runs -/

/-- The calls that change a file system. -/
inductive FsCall
  | minixfsCreat (path : List UInt8) (mode : Nat)
  | minixfsOpen (path : List UInt8) (flags mode : Nat)
  | minixfsWrite (ino : Nat) (src : Bytes) (count offset : Nat)
  | minixfsMkdir (path : List UInt8) (mode : Nat)
  | minixfsUnlink (path : List UInt8)
  | minixfsChmod (path : List UInt8) (mode : Nat)
  | minixfsRmdir (path : List UInt8)

/-- The path starts with a slash. -/
def Absolute (path : List UInt8) : Prop := path.head? = some slash ∧ IsCString path

instance (path : List UInt8) : Decidable (Absolute path) := inferInstanceAs (Decidable (_ ∧ _))

namespace FsCall

def run (fs : Minixfs) : FsCall → Int × Minixfs
  | minixfsCreat path mode => Fs.minixfsCreat fs path mode
  | minixfsOpen path flags mode => Fs.minixfsOpen fs path flags mode
  | minixfsWrite ino src count offset => Fs.minixfsWrite fs ino src count offset
  | minixfsMkdir path mode => Fs.minixfsMkdir fs path mode
  | minixfsUnlink path => Fs.minixfsUnlink fs path
  | minixfsChmod path mode => Fs.minixfsChmod fs path mode
  | minixfsRmdir path => Fs.minixfsRmdir fs path

/-- Paths are absolute, writes go to regular files in use, and `minixfs_rmdir` is not asked to
remove `.` or `..`. -/
def Admitted (fs : Minixfs) : FsCall → Prop
  | minixfsCreat path _ => Absolute path
  | minixfsOpen path _ _ => Absolute path
  | minixfsWrite ino _ _ offset => offset < 2 ^ 32 ∧ ∃ f, fs.volume ino = some f ∧ f.attr.isReg
  | minixfsMkdir path _ => Absolute path
  | minixfsUnlink path => Absolute path
  | minixfsChmod path _ => Absolute path
  | minixfsRmdir path => Absolute path ∧ ∀ parent leaf,
      splitPath fs.sb fs.disk path = some (parent, leaf) → Proper dot dotdot leaf

/-- What the call creates it enters in a directory. -/
def EntersDir (fs : Minixfs) : FsCall → Prop
  | minixfsCreat path _ => ParentIsDir fs path
  | minixfsOpen path flags _ =>
    flags &&& 0x100 ≠ 0 → minixfsResolve fs path = 0 → ParentIsDir fs path
  | minixfsMkdir path _ => ParentIsDir fs path
  | minixfsWrite _ _ _ _ | minixfsUnlink _ | minixfsChmod _ _ | minixfsRmdir _ => True

end FsCall

/-- A call, whatever it returns. -/
def FsStep (fs : Minixfs) (c : FsCall) (fs' : Minixfs) : Prop :=
  c.Admitted fs ∧ fs' = (c.run fs).2

/-- Each zone that an inode in use names exists, is marked, and is named in one place. -/
structure ZonesOwned (fs : Minixfs) : Prop where
  exists_marked : ∀ ino s, fs.volume.Live ino → fs.view.zone ino s ≠ 0 →
    IsZone fs.sb (fs.view.zone ino s) ∧
      fs.view.zmap (zoneBit fs.sb (fs.view.zone ino s)) = true
  once : ∀ ino s ino' s', fs.volume.Live ino → fs.volume.Live ino' → fs.view.zone ino s ≠ 0 →
    fs.view.zone ino s = fs.view.zone ino' s' → ino = ino' ∧ s = s'

section

variable {fs fs' : Minixfs} {c : FsCall}

theorem Sound.zonesOwned (h : Sound fs) : ZonesOwned fs where
  exists_marked := fun ino s hl hz ↦ h.good.owned.ledger.used (own_eq_some.mpr ⟨hl, rfl, hz⟩)
  once := fun ino s ino' s' hl hl' hz heq ↦ by
    have h₁ := own_eq_some.mpr ⟨hl, rfl, hz⟩
    have h₂ := own_eq_some.mpr ⟨hl', heq.symm, hz⟩
    exact Prod.mk.inj (h.good.owned.ledger.inj h₁ h₂)

/-- One call. -/
theorem WellFormed.step (h : WellFormed fs) (hstep : FsStep fs c fs') (hdir : c.EntersDir fs) :
    WellFormed fs' := by
  obtain ⟨hadm, rfl⟩ := hstep
  cases c with
  | minixfsCreat path mode => exact h.minixfsCreat hadm.2 hdir mode
  | minixfsOpen path flags mode => exact h.minixfsOpen hadm.2 hdir mode
  | minixfsWrite ino src count offset =>
    obtain ⟨hoffset, f, hf, hreg⟩ := hadm
    exact (h.minixfsWrite hf hreg.not_isDir src count hoffset).1
  | minixfsMkdir path mode => exact h.minixfsMkdir hadm.2 hdir mode
  | minixfsUnlink path => exact h.minixfsUnlink hadm.2
  | minixfsChmod path mode => exact h.minixfsChmod hadm.2 mode
  | minixfsRmdir path => exact h.minixfsRmdir hadm.1.2 hadm.2

/-- In every run of calls from a well-formed image, failing ones among them, that enter new names
in directories only, the inodes in use keep their zones apart. -/
theorem zones_stay_owned {fs₀ : Minixfs} (h₀ : WellFormed fs₀)
    (hrun : Reach (· = fs₀) (Under (fun fs c ↦ c.EntersDir fs) FsStep) fs) :
    WellFormed fs ∧ ZonesOwned fs := by
  have hwf : WellFormed fs := by
    refine hrun.invariant (P := WellFormed) ?_ ?_
    · rintro s rfl
      exact h₀
    · rintro s c s' hs ⟨hdir, hstep⟩
      exact hs.step hstep hdir
  exact ⟨hwf, hwf.sound.zonesOwned⟩

end

/-- On the small disk `/a` is created and three bytes are written to it. -/
theorem zones_stay_owned_three : sampleShortFs.view.zone 2 (.top 0) = 6 ∧
    WellFormed sampleShortFs ∧ ZonesOwned sampleShortFs := by
  obtain ⟨-, hreg, -⟩ := sampleNamed_direct
  have hcreat : FsStep sampleFs (.minixfsCreat [47, 97] 0o644) sampleNamedFs :=
    ⟨(by decide : Absolute [47, 97]), rfl⟩
  have hwrite : FsStep sampleNamedFs (.minixfsWrite 2 (fun _ ↦ 7) 3 0) sampleShortFs :=
    ⟨⟨by decide, _, sampleNamed_file, hreg⟩, rfl⟩
  have hdir : FsCall.EntersDir sampleFs (.minixfsCreat [47, 97] 0o644) := sample_parentIsDir
  have hdir' : FsCall.EntersDir sampleNamedFs (.minixfsWrite 2 (fun _ ↦ 7) 3 0) := trivial
  exact ⟨sampleShort_file.2.2.2.1, zones_stay_owned sample_wellFormed
    (.step (.step (.init rfl) ⟨hdir, hcreat⟩) ⟨hdir', hwrite⟩)⟩

/-! ## A name in a hole -/

section

variable {g : Superblock} {d : Disk} {v : View} {dir ino : Nat}

theorem Shows.allocZone_full (h : Shows g d v) (hfull : Full v.zmap) :
    Fs.allocZone g d = (0, d) := by
  have hset : ∀ {n}, ¬Vacant v.zmap n := fun hn ↦ Bool.false_ne_true (hn.1.symm.trans (hfull _))
  rcases h.allocZone fun n hn ↦ absurd hn hset with ⟨-, heq⟩ | ⟨z, -, hvac, -⟩
  · exact heq
  · exact absurd hvac hset

/-- On a full disk an empty slot of an inode stays empty. -/
theorem Shows.growInode_full (h : Shows g d v) (hfull : Full v.zmap) (hino : IsIno g ino) {k : Nat}
    (hz : (v.inode ino).iZone k = 0) :
    ∃ d', Fs.growInode g d (v.inode ino) k ino = (v.inode ino, d') ∧ Shows g d' v := by
  have hsame : (v.inode ino).setZone k 0 = v.inode ino := by
    rw [Inode.setZone, ← hz, update_eq_self]
  have hw := (h.writeInode hino (h.wf ino)).2
  have hview : v.setInode ino (v.inode ino) = v := by
    rw [View.setInode, update_eq_self]
  refine ⟨_, ?_, hview ▸ hw⟩
  simp only [Fs.growInode, h.allocZone_full hfull, hsame]

/-- `dir_add` to a file whose first block is a hole, on a full disk, writes to block `0`. -/
theorem Shows.dirAdd_hole (h : Shows g d v) (hfull : Full v.zmap) (hdir : IsIno g dir)
    (hblocks : nblocks (v.inode dir) ≠ 0) (hz : (v.inode dir).iZone 0 = 0)
    (hzero : v.data 0 = Bytes.zero) (name : List UInt8) (ino : Nat) :
    ∃ d', Fs.dirAdd g d dir name ino = (true, d') ∧
      Shows g d' (v.setData 0 (putDirent Bytes.zero 0 ino name)) := by
  obtain ⟨n, hn⟩ := Nat.exists_eq_succ_of_ne_zero hblocks
  obtain ⟨d', hgrow, hs⟩ := h.growInode_full hfull hdir hz
  have hmap : Fs.mapBlock g d (v.inode dir) 0 true dir = (0, v.inode dir, d') := by
    simp only [Fs.mapBlock, hz, hgrow]
    rfl
  have hread : Fs.readInto d' 0 = Bytes.zero := (hs.readInto (.inl rfl)).trans hzero
  have hfind : findFirst (fun k ↦ direntIno Bytes.zero k = 0) 0 16 = some 0 := by decide
  refine ⟨_, ?_, hs.blockWrite (.inl rfl) (putDirent Bytes.zero 0 ino name)⟩
  simp only [Fs.dirAdd, h.readInode hdir, hn, Fs.addFrom, hmap, hread, hfind]

/-- Then block `0` serves as the table of an inode without one. -/
theorem Shows.mapBlock_stray (h : Shows g d v) (hfull : Full v.zmap) (hino : IsIno g ino)
    (hz : (v.inode ino).iZone 7 = 0) (hstray : (v.data 0).get32 0 ≠ 0) :
    ∃ d', Fs.mapBlock g d (v.inode ino) 7 true ino = ((v.data 0).get32 0, v.inode ino, d') ∧
      Shows g d' v := by
  obtain ⟨d', hgrow, hs⟩ := h.growInode_full hfull hino hz
  refine ⟨d', ?_, hs⟩
  have hleaf : Fs.mapLeaf g d' (v.inode ino) 0 0 true =
      ((v.data 0).get32 0, v.inode ino, d') := by
    rw [Fs.mapLeaf, hs.readInto (.inl rfl)]
    exact if_neg fun hc ↦ hstray hc.1
  simp only [Fs.mapBlock, hz, hgrow]
  exact hleaf

/-- The end of `minixfs_write` changes nothing but the inode. -/
theorem Shows.growSize_frame (h : Shows g d v) (hino : IsIno g ino) (count offset : Nat) :
    ∃ i, Shows g (Fs.growSize g d ino count offset) (v.setInode ino i) := by
  simp only [Fs.growSize, h.readInodeInto hino]
  split
  · exact ⟨_, (h.writeInode hino ((h.wf ino).resize (Nat.mod_lt _ (by decide)))).2⟩
  · refine ⟨v.inode ino, ?_⟩
    rw [View.setInode, update_eq_self]
    exact h

variable {fs : Minixfs}

/-- `minixfs_creat` in a file whose first block is a hole, on a full disk. -/
theorem WellFormed.creat_hole (h : WellFormed fs) {path leaf : List UInt8} {f : File}
    (ht : Target fs path dir leaf f) (hdir : ¬f.attr.isDir) (hzmap : Full fs.view.zmap)
    (hblocks : nblocks (fs.view.inode dir) ≠ 0) (hz : (fs.view.inode dir).iZone 0 = 0)
    (hino : (Fs.allocInode fs.sb fs.disk).1 = ino) (hpos : ino ≠ 0) (mode : Nat) :
    ∃ fs', Fs.minixfsCreat fs path mode = (sint32 ino, fs') ∧ fs'.sb = fs.sb ∧
      Shows fs.sb fs'.disk (((fs.view.setImap ino true).setInode ino (freshFile mode)).setData 0
        (putDirent Bytes.zero 0 ino leaf)) := by
  have hnone : Fs.dirLookup fs.sb fs.disk dir leaf = none := by
    rw [h.sound.stores.dirLookup ht.file, if_neg hdir]
  rcases h.sound.stores.allocInode (freshFile_wf mode) rfl rfl with
    ⟨-, hres⟩ | ⟨ino', -, -, hfree, hres, hs⟩
  · rw [hres] at hino
    exact absurd hino.symm hpos
  obtain rfl : ino' = ino := hres.symm.trans hino
  have hne : dir ≠ ino' := by
    rintro rfl
    exact Option.some_ne_none f (ht.file.symm.trans hfree)
  have hother : ((fs.view.setImap ino' true).setInode ino' (freshFile mode)).inode dir =
      fs.view.inode dir := update_of_ne hne ..
  have hdir : IsIno fs.sb dir := h.sound.good.owned.number ⟨f, ht.file⟩
  obtain ⟨d', hadd, hs'⟩ := hs.shows.dirAdd_hole hzmap hdir (by rwa [hother]) (by rwa [hother])
    h.sound.good.owned.zero leaf ino'
  refine ⟨{ fs with disk := d' }, ?_, rfl, hs'⟩
  rw [ht.creat]
  simp only [Fs.creatIn, hnone, hino, hadd, if_neg hpos, if_true]

/-- A byte that is written behind the direct blocks then goes to the block that the first word of
block `0` names. -/
theorem Shows.write_stray (h : Shows fs.sb fs.disk v) (hfull : Full v.zmap) (hino : IsIno fs.sb ino)
    (hz : (v.inode ino).iZone 7 = 0) {z : Nat} (hstray : (v.data 0).get32 0 = z) (hpos : z ≠ 0)
    (hsize : z < fs.sb.sZones) (src : Bytes) :
    ∃ d', Shows fs.sb d' v ∧ Fs.minixfsWrite fs ino src 1 7168 = (1,
      { fs with
        disk := Fs.growSize fs.sb (d'.setBlock z ((Fs.readInto d' z).memcpy 0 src 0 1)) ino 1
          7168 }) := by
  obtain ⟨d', hmap, hs⟩ := h.mapBlock_stray hfull hino hz (hstray.symm ▸ hpos)
  rw [hstray] at hmap
  have hchunk : chunkAt 7168 1 0 = 1 := by decide
  have hblock : wrap32 (7168 + 0) / 1024 = 7 ∧ wrap32 (7168 + 0) % 1024 = 0 := by decide
  have hwrite : ∀ buf, Fs.blockWrite d' z buf = (true, d'.setBlock z buf) :=
    fun buf ↦ if_pos (hsize.trans_le hs.geometry.size)
  refine ⟨d', hs, ?_⟩
  simp only [Fs.minixfsWrite, h.readInode hino, Fs.writeLoop, hchunk, hblock, hmap, hwrite]
  simp only [Nat.zero_lt_one, if_true, if_neg hpos]
  rfl

/-- A block of the zone map is written as if it was a block of a file. -/
theorem Shows.setBlock_zmap (h : Shows g d v) (hmap : 0 < g.sZmapBlocks) (buf : Bytes) :
    ∃ w, Shows g (d.setBlock g.zmapStart buf) w ∧ w.inode = v.inode ∧ w.imap = v.imap ∧
      ∀ n < 8192, w.zmap n = buf.testBit n := by
  have hgeometry : Geometry g (d.setBlock g.zmapStart buf).size := h.geometry
  refine ⟨_, ⟨hgeometry, rfl, h.trace⟩, ?_, ?_, fun n hn ↦ ?_⟩
  · rw [h.geometry.view_inode (.inl (Nat.lt_add_of_pos_right hmap)), h.view]
  · rw [← h.view]
    exact mapBit_setBlock_of_notMem (.inr le_rfl) buf
  · change mapBit _ _ _ n = _
    rw [mapBit, if_pos (by omega), Nat.div_eq_of_lt hn, Nat.mod_eq_of_lt hn, Nat.add_zero]
    exact congrArg (Bytes.testBit · n) (update_self ..)

/-- If that is the first block of the zone map, a program has written the marks of the first
zones. -/
theorem Shows.write_zmap (h : Shows fs.sb fs.disk v) (hfull : Full v.zmap) (hino : IsIno fs.sb ino)
    (hz : (v.inode ino).iZone 7 = 0) (hstray : (v.data 0).get32 0 = fs.sb.zmapStart)
    (src : Bytes) : ∃ fs' w i, Fs.minixfsWrite fs ino src 1 7168 = (1, fs') ∧ fs'.sb = fs.sb ∧
      fs'.view = View.setInode w ino i ∧ w.inode = v.inode ∧ w.imap = v.imap ∧
      ∀ n < 8, w.zmap n = (src 0).toNat.testBit n := by
  have htable := h.geometry.table
  have hdata := h.geometry.data
  have hblocks : 0 < fs.sb.sZmapBlocks := by
    have := h.geometry.zmap
    omega
  have hstart : fs.sb.zmapStart < fs.sb.inodeStart := Nat.lt_add_of_pos_right hblocks
  have hpos : fs.sb.zmapStart ≠ 0 := by
    change 2 + _ ≠ 0
    omega
  obtain ⟨d', hs, hwrite⟩ := h.write_stray hfull hino hz hstray hpos (by omega) src
  obtain ⟨w, hw, hinode, himap, hzmap⟩ := hs.setBlock_zmap hblocks
    ((Fs.readInto d' fs.sb.zmapStart).memcpy 0 src 0 1)
  obtain ⟨i, hdone⟩ := hw.growSize_frame hino 1 7168
  refine ⟨_, w, i, hwrite, rfl, hdone.view, hinode, himap, fun n hn ↦ ?_⟩
  rw [hzmap n (by omega), Bytes.testBit, Nat.div_eq_of_lt hn, Nat.mod_eq_of_lt hn]
  rfl

end

/-- The file `/a` of a small full disk starts with a hole. -/
structure Holed (fs : Minixfs) : Prop where
  sb : fs.sb = sampleSb
  named : dirLookup fs.sb fs.disk 1 [97] = some 2
  used : fs.view.imap 1 = true ∧ fs.view.imap 2 = true
  next : (allocInode fs.sb fs.disk).1 = 3
  full : ∀ k ≤ 4, fs.view.zmap k = true
  root : (fs.view.inode 1).iZone 0 = 5
  file : (fs.view.file 2).attr.isReg ∧ nblocks (fs.view.inode 2) = 4
  hole : (fs.view.inode 2).iZone 0 = 0 ∧ (fs.view.inode 2).iZone 7 = 0

section

variable {fs : Minixfs} (h : WellFormed fs) (hh : Holed fs)

include h hh

theorem Holed.zmap_full : Full fs.view.zmap := by
  intro k
  by_contra hk
  have hle := (h.sound.good.padded k (Bool.eq_false_of_not_eq_true hk)).2
  rw [hh.sb] at hle
  exact hk (hh.full k hle)

theorem Holed.target : Target fs [47, 97, 47, 120] 2 [120] (fs.view.file 2) := by
  have hsplit := splitPath_ax hh.named
  have hino : IsIno fs.sb 2 := by
    rw [hh.sb]
    decide
  obtain ⟨hbelow, hleaf, hlen⟩ := h.splitPath (by decide) hsplit
  exact ⟨hsplit, by decide, hbelow, hleaf, hlen,
    Minixfs.volume_eq_some.mpr ⟨hino, hh.used.2, rfl⟩⟩

/-- The name `/a/x` is entered in the hole, and so in block `0`.  The next byte that is written
behind the direct blocks of `/a` goes to the zone map and unmarks the zone of the root
directory. -/
theorem Holed.frees_root : ∃ fs₁ fs₂, FsStep fs (.minixfsCreat [47, 97, 47, 120] 0o644) fs₁ ∧
    FsStep fs₁ (.minixfsWrite 2 (fun _ ↦ 0) 1 7168) fs₂ ∧ ¬ZonesOwned fs₂ := by
  obtain ⟨fs₁, hcreat, hsb₁, hs₁⟩ := h.creat_hole (hh.target h) hh.file.1.not_isDir
    (hh.zmap_full h) (by rw [hh.file.2]; decide) hh.hole.1 hh.next (by decide) 0o644
  set v := ((fs.view.setImap 3 true).setInode 3 (freshFile 0o644)).setData 0
    (putDirent Bytes.zero 0 3 [120]) with hv
  have hinode : ∀ {ino}, ino ≠ 3 → v.inode ino = fs.view.inode ino :=
    fun hne ↦ update_of_ne hne ..
  have himap : ∀ {ino}, ino ≠ 3 → v.imap ino = fs.view.imap ino :=
    fun hne ↦ update_of_ne hne ..
  rw [← hsb₁] at hs₁
  have hsb : fs₁.sb = sampleSb := hsb₁.trans hh.sb
  have hword : (v.data 0).get32 0 = fs₁.sb.zmapStart := by
    rw [hsb]
    change (putDirent Bytes.zero 0 3 [120]).get32 0 = 3
    decide
  have hino : IsIno fs₁.sb 1 ∧ IsIno fs₁.sb 2 ∧ zoneBit fs₁.sb 5 = 1 := by
    rw [hsb]
    decide
  obtain ⟨fs₂, w, i, hwrite, hsb₂, hview, hinode', himap', hzmap⟩ := hs₁.write_zmap
    (hh.zmap_full h) hino.2.1 (by rw [hinode (by decide), hh.hole.2]) hword fun _ ↦ 0
  have hfile : fs₁.volume 2 = some (fs₁.view.file 2) ∧ (fs₁.view.file 2).attr.isReg := by
    have hview₁ : fs₁.view = v := hs₁.view
    rw [Minixfs.volume_eq_some, hview₁, himap (by decide)]
    refine ⟨⟨hino.2.1, hh.used.2, rfl⟩, ?_⟩
    change (v.inode 2).isReg
    rw [hinode (by decide)]
    exact hh.file.1
  refine ⟨fs₁, fs₂, ⟨(by decide : Absolute [47, 97, 47, 120]), (congrArg Prod.snd hcreat).symm⟩,
    ⟨⟨by decide, _, hfile⟩, (congrArg Prod.snd hwrite).symm⟩, fun howned ↦ ?_⟩
  have hlive : fs₂.volume.Live 1 := by
    rw [Minixfs.live_iff, hsb₂, hview]
    refine ⟨hino.1, ?_⟩
    change w.imap 1 = true
    rw [himap', himap (by decide), hh.used.1]
  have hzone : fs₂.view.zone 1 (.top 0) = 5 := by
    rw [hview]
    change (update w.inode 2 i 1).iZone 0 = 5
    rw [update_of_ne (by decide), hinode', hinode (by decide), hh.root]
  have hfree : fs₂.view.zmap 1 = false := by
    rw [hview]
    exact hzmap 1 (by decide)
  have hmarked := (howned.exists_marked 1 (.top 0) hlive (by rw [hzone]; decide)).2
  rw [hzone, hsb₂, hino.2.2, hfree] at hmarked
  cases hmarked

end

/-- The file `/a` with three blocks behind a hole.  No zone is free. -/
def holeFs : Minixfs := (minixfsWrite sampleNamedFs 2 (fun _ ↦ 7) 3072 1024).2

theorem hole_holed : Holed holeFs := by
  obtain ⟨-, -, hlook⟩ := sampleNamed_write (fun _ ↦ 7) 3072 (by decide : 1024 < 2 ^ 32)
  have hall : holeFs.sb = sampleSb ∧ (holeFs.view.imap 1 = true ∧ holeFs.view.imap 2 = true) ∧
      (allocInode holeFs.sb holeFs.disk).1 = 3 ∧ (∀ k ≤ 4, holeFs.view.zmap k = true) ∧
      (holeFs.view.inode 1).iZone 0 = 5 ∧ ((holeFs.view.file 2).attr.isReg ∧
      nblocks (holeFs.view.inode 2) = 4) ∧ (holeFs.view.inode 2).iZone 0 = 0 ∧
      (holeFs.view.inode 2).iZone 7 = 0 := by
    decide
  obtain ⟨hsb, hused, hnext, hfull, hroot, hfile, hhole⟩ := hall
  exact ⟨hsb, hlook, hused, hnext, hfull, hroot, hfile, hhole⟩

/-- A name is entered in a hole of a file, and after the next write the zone of the root directory
is free. -/
theorem name_in_hole_frees_zone : WellFormed sampleNamedFs ∧ sampleNamedFs.mounted = true ∧
    ∃ fs₁ fs₂, FsStep sampleNamedFs (.minixfsWrite 2 (fun _ ↦ 7) 3072 1024) holeFs ∧
      FsStep holeFs (.minixfsCreat [47, 97, 47, 120] 0o644) fs₁ ∧
      FsStep fs₁ (.minixfsWrite 2 (fun _ ↦ 0) 1 7168) fs₂ ∧ ¬ZonesOwned fs₂ := by
  have hwf : WellFormed holeFs := (sampleNamed_write (fun _ ↦ 7) 3072 (by decide)).1
  obtain ⟨fs₁, fs₂, hcreat, hwrite, hbroken⟩ := hole_holed.frees_root hwf
  exact ⟨sampleNamed_wellFormed, by decide, fs₁, fs₂,
    ⟨⟨by decide, _, sampleNamed_file, sampleNamed_direct.2.1⟩, rfl⟩, hcreat, hwrite, hbroken⟩

end FentoOS.Fs
