import FentoOS.Fs.Remove
import FentoOS.Fs.Truncate

/-!
# What removing gives back

`minixfs_unlink` looks for zones in the direct slots and in the first table, and
`minixfs_rmdir` in the inode only.  Each gives back all zones of an inode that holds none
elsewhere, and leaves the other zones marked for good.

`minixfs_rmdir` finds the inode that it gives back by a lookup and the entry that it blanks
by its name.  With `.` or `..` for the last component of the path, another entry than the blanked
one names the inode too.
-/

namespace FentoOS.Fs

open FentoOS.Lib Function

/-- A call gives back the zones that the slots in `S` hold.  These are all zones of the inode if
and only if the other slots hold none. -/
theorem Owned.given_back_iff {g : Superblock} {live : Nat → Prop} {v : View} {ino : Nat}
    {S : Slot → Prop} {zmap : Nat → Bool} (ho : Owned g live v) (hl : live ino)
    (hzmap : ∀ n, zmap n = true ↔ v.zmap n = true ∧
      ∀ s, S s → v.zone ino s ≠ 0 → zoneBit g (v.zone ino s) ≠ n) :
    (∀ n, zmap n = true ↔ v.zmap n = true ∧
      ∀ s, v.zone ino s ≠ 0 → zoneBit g (v.zone ino s) ≠ n) ↔
      ∀ s, v.zone ino s ≠ 0 → S s := by
  constructor
  · intro hall s hz
    by_contra hS
    have hmarked := ho.marked hl hz
    -- no other slot holds the zone, so its bit stays
    have hset := (hzmap _).mpr ⟨hmarked.2, fun s' hS' hz' heq ↦ ?_⟩
    · exact ((hall _).mp hset).2 s hz rfl
    · have hzone := zoneBit_inj (ho.marked hl hz').1 hmarked.1 heq
      obtain ⟨-, rfl⟩ := ho.inj hl hl hz hzone
      exact hS hS'
  · intro hS n
    refine (hzmap n).trans (and_congr_right fun _ ↦ ?_)
    exact ⟨fun hn s hz ↦ hn s (hS s hz) hz, fun hn s _ hz ↦ hn s hz⟩

/-! ## Files -/

section

variable {fs : Minixfs} {path leaf : List UInt8} {parent ino : Nat} {fx : File}

/-- What `minixfs_unlink` of the last link does to the two maps. -/
theorem WellFormed.unlink_maps (h : WellFormed fs) (hpath : IsCString path)
    (hsplit : Fs.splitPath fs.sb fs.disk path = some (parent, leaf))
    (hlook : Fs.dirLookup fs.sb fs.disk parent leaf = some ino) (hx : fs.volume ino = some fx)
    (hreg : fx.attr.isReg) (hone : fx.attr.iNlinks = 1) :
    (Fs.minixfsUnlink fs path).1 = 0 ∧
      (Fs.minixfsUnlink fs path).2.view.imap = update fs.view.imap ino false ∧
      ∀ n, (Fs.minixfsUnlink fs path).2.view.zmap n = true ↔ fs.view.zmap n = true ∧
        ∀ s, Slot.Shallow s → fs.view.zone ino s ≠ 0 →
          zoneBit fs.sb (fs.view.zone ino s) ≠ n := by
  obtain ⟨hleaf, hlen, hp, hb, f, fx', hf, hdir, hfind, hx'⟩ := h.found hpath hsplit hlook
  obtain rfl := Option.some.inj (hx.symm.trans hx')
  have hne : parent ≠ ino := by
    rintro rfl
    obtain rfl := Option.some.inj (hf.symm.trans hx)
    exact hreg.not_isDir hdir
  obtain ⟨e, f', v', -, -, himap, hzmap, hs⟩ := h.sound.stores.unlinkAt_last hf hdir hx
    hreg.not_isDir (by rw [hone]) hleaf hfind
  obtain ⟨-, hview, -⟩ := h.sound.of_removed himap hne hs
  have hres : Fs.minixfsUnlink fs path =
      (0, { fs with disk := unlinkAt fs.sb fs.disk parent leaf ino (fs.view.inode ino) }) := by
    simp only [Fs.minixfsUnlink, hsplit, hlook, h.sound.stores.readInodeInto hx]
    refine if_neg fun hc ↦ hreg.not_isDir ?_
    rw [← (h.sound.stores.readInode hx).2]
    exact hc
  rw [hres]
  refine ⟨rfl, ?_, fun n ↦ ?_⟩
  · rw [hview, himap]
  · rw [hview]
    exact hzmap n

/-- `minixfs_unlink` of the last link of a regular file gives back the inode and every zone of
the file, and nothing else, if and only if the file has no second table. -/
theorem unlink_reclaims_iff (h : WellFormed fs) (hpath : IsCString path)
    (hsplit : splitPath fs.sb fs.disk path = some (parent, leaf))
    (hlook : dirLookup fs.sb fs.disk parent leaf = some ino) (hx : fs.volume ino = some fx)
    (hreg : fx.attr.isReg) (hone : fx.attr.iNlinks = 1) (hninth : fs.view.zone ino (.top 9) = 0) :
    ((minixfsUnlink fs path).1 = 0 ∧
      (minixfsUnlink fs path).2.view.imap = Function.update fs.view.imap ino false ∧
      ∀ n, (minixfsUnlink fs path).2.view.zmap n = true ↔ fs.view.zmap n = true ∧
        ∀ s, fs.view.zone ino s ≠ 0 → zoneBit fs.sb (fs.view.zone ino s) ≠ n) ↔
      fs.view.zone ino (.top 8) = 0 := by
  obtain ⟨hok, himap, hzmap⟩ := h.unlink_maps hpath hsplit hlook hx hreg hone
  have ho := h.sound.good.owned
  rw [and_iff_right hok, and_iff_right himap, ho.given_back_iff ⟨fx, hx⟩ hzmap]
  constructor
  · intro hshallow
    by_contra hz
    exact absurd (hshallow _ hz) (by decide : ¬(8 : Nat) < 8)
  · intro hdbl s hz
    have hr := ho.readable ⟨fx, hx⟩
    cases s with
    | top k =>
      change k.val < 8
      by_contra hk
      have hcases : k = 8 ∨ k = 9 := by omega
      rcases hcases with rfl | rfl
      · exact hz hdbl
      · exact hz hninth
    | ind j => trivial
    | dbl j => exact hr.zone_path hz (by simp [Slot.path]) hdbl
    | sng j k => exact hr.zone_path hz (by simp [Slot.path]) hdbl

end

theorem splitPath_a (g : Superblock) (d : Disk) : splitPath g d [47, 97] = some (1, [97]) := rfl

/-- The file of three bytes is removed, and its zone is free again. -/
theorem unlink_reclaims_iff_three : sampleShortFs.view.zmap 2 = true ∧
    (minixfsUnlink sampleShortFs [47, 97]).1 = 0 ∧
    (minixfsUnlink sampleShortFs [47, 97]).2.view.imap 2 = false ∧
    (minixfsUnlink sampleShortFs [47, 97]).2.view.zmap 2 = false := by
  obtain ⟨himap, hreg, hone, h₀, -, h₈, h₉, hbit⟩ := sampleShort_file
  obtain ⟨hwf, -, hlook⟩ := sampleNamed_write (fun _ ↦ 7) 3 (by decide : 0 < 2 ^ 32)
  change WellFormed sampleShortFs at hwf
  have hx : sampleShortFs.volume 2 = some (sampleShortFs.view.file 2) :=
    Minixfs.volume_eq_some.mpr ⟨by decide, himap, rfl⟩
  obtain ⟨hok, hinode, hzmap⟩ := (unlink_reclaims_iff hwf (by decide) (splitPath_a _ _) hlook hx
    hreg hone h₉).mpr h₈
  have hz : sampleShortFs.view.zone 2 (.top 0) ≠ 0 := by rw [h₀]; decide
  rw [← h₀] at hbit
  refine ⟨by decide, hok, (congrFun hinode 2).trans (update_self ..), ?_⟩
  exact Bool.eq_false_of_not_eq_true fun hset ↦ ((hzmap 2).mp hset).2 _ hz hbit

/-- The small disk with a byte in block 263 of `/a`. -/
def sampleDeepFs : Minixfs := (minixfsWrite sampleNamedFs 2 (fun _ ↦ 7) 1 (263 * 1024)).2

theorem sampleDeep_file : sampleDeepFs.view.imap 2 = true ∧
    (sampleDeepFs.view.file 2).attr.isReg ∧ (sampleDeepFs.view.file 2).attr.iNlinks = 1 ∧
    sampleDeepFs.view.zone 2 (.top 8) = 6 ∧ zoneBit sampleDeepFs.sb 6 = 2 := by
  decide

/-- The file is removed, and its second table stays marked. -/
theorem unlink_leaves_table : WellFormed sampleDeepFs ∧
    sampleDeepFs.view.zone 2 (.top 8) = 6 ∧ zoneBit sampleDeepFs.sb 6 = 2 ∧
    dirLookup sampleDeepFs.sb sampleDeepFs.disk 1 [97] = some 2 ∧
    (minixfsUnlink sampleDeepFs [47, 97]).1 = 0 ∧
    (minixfsUnlink sampleDeepFs [47, 97]).2.view.imap 2 = false ∧
    (minixfsUnlink sampleDeepFs [47, 97]).2.view.zmap 2 = true := by
  have hoffset : 263 * 1024 < 2 ^ 32 := by decide
  obtain ⟨hwf, -, hlook⟩ := sampleNamed_write (fun _ ↦ 7) 1 hoffset
  change WellFormed sampleDeepFs at hwf
  obtain ⟨himap, hreg', hone, hzone, hbit⟩ := sampleDeep_file
  have hx : sampleDeepFs.volume 2 = some (sampleDeepFs.view.file 2) :=
    Minixfs.volume_eq_some.mpr ⟨by decide, himap, rfl⟩
  obtain ⟨hok, himap', hzmap⟩ :=
    hwf.unlink_maps (by decide) (splitPath_a _ _) hlook hx hreg' hone
  refine ⟨hwf, hzone, hbit, hlook, hok, by rw [himap', update_self], ?_⟩
  have hl : sampleDeepFs.volume.Live 2 := ⟨_, hx⟩
  have hz : sampleDeepFs.view.zone 2 (.top 8) ≠ 0 := by rw [hzone]; decide
  have hmarked := hwf.sound.good.owned.marked hl hz
  rw [hzmap, ← hbit, ← hzone]
  refine ⟨hmarked.2, fun s hs hz' heq ↦ ?_⟩
  have hzone' := zoneBit_inj (hwf.sound.good.owned.marked hl hz').1 hmarked.1 heq
  obtain ⟨-, rfl⟩ := hwf.sound.good.owned.inj hl hl hz hzone'
  exact absurd hs (by decide : ¬(8 : Nat) < 8)

/-! ## Directories -/

section

variable {g : Superblock} {d : Disk} {v : View} {parent ino : Nat} {live : Nat → Prop}

/-- `dir_remove` writes to a data zone at most, and that is one of the directory. -/
theorem Shows.dirRemove_maps (h : Shows g d v) (hr : Readable g v parent) (name : List UInt8) :
    ∃ v', Shows g (Fs.dirRemove g d parent name) v' ∧ v'.imap = v.imap ∧ v'.zmap = v.zmap ∧
      v'.inode = v.inode ∧ ∀ {v₀ ino S live}, Released g ino S v₀ v → Owned g live v₀ →
        live parent → ∀ x, live x → x ≠ parent → v'.file x = v₀.file x := by
  rw [Fs.dirRemove, h.readInode hr.number]
  rcases h.removeFrom hr name 0 (nblocks (v.inode parent)) with ⟨-, heq⟩ | ⟨e, -, hz, hs⟩
  · refine ⟨v, ?_, rfl, rfl, rfl, fun hrel _ _ x _ _ ↦ hrel.file_eq x⟩
    simp only [heq]
    exact h
  · refine ⟨_, hs, rfl, rfl, rfl, fun {v₀ ino S live} hrel ho hl x hx hne ↦ ?_⟩
    obtain ⟨imap, zmap, inode, data⟩ := v
    obtain rfl : inode = v₀.inode := hrel.inode
    obtain rfl : data = v₀.data := hrel.data
    exact (ho.file_write hl hz _ hx).trans (update_of_ne hne ..)

/-- What `minixfs_rmdir` does to the two maps and to other files, whatever the parent is. -/
theorem Shows.rmdirAt_maps (h : Shows g d v) (ho : Owned g live v) (hl : live ino)
    (hlp : live parent) (leaf : List UInt8) :
    ∃ v', Shows g (rmdirAt g d parent leaf ino (v.inode ino)) v' ∧
      v'.imap = update v.imap ino false ∧
      (∀ n, v'.zmap n = true ↔ v.zmap n = true ∧
        ∀ s, (∃ k, s = .top k) → v.zone ino s ≠ 0 → zoneBit g (v.zone ino s) ≠ n) ∧
      ∀ x, live x → x ≠ parent → v'.file x = v.file x := by
  have hr := ho.readable hl
  have hp := ho.readable hlp
  obtain ⟨v₁, hs₁, hrel⟩ := h.freeTops hr le_rfl
  obtain ⟨v₂, hs₂, himap₂, hzmap₂, -, hfile₂⟩ := hs₁.dirRemove_maps (hrel.readable hp) leaf
  have hs₃ := hs₂.freeInode hr.number
  have hwf := hs₃.wf parent
  have hs₄ := (hs₃.writeInode hp.number
    (i := { (v₂.setImap ino false).inode parent with
      iNlinks := ((v₂.setImap ino false).inode parent).iNlinks - 1 })
    { hwf with nlinks := (Nat.sub_le _ 1).trans_lt hwf.nlinks }).2
  rw [rmdirAt, updateNlinks, hs₃.readInodeInto hp.number]
  refine ⟨_, hs₄, ?_, fun n ↦ ?_, fun x hx hne ↦ ?_⟩
  · change update v₂.imap ino false = _
    rw [himap₂, hrel.imap]
  · change v₂.zmap n = true ↔ _
    rw [hzmap₂, hrel.zmap]
    refine and_congr_right fun _ ↦ ⟨?_, ?_⟩
    · rintro hn s ⟨k, rfl⟩ hz
      exact hn _ ⟨k, k.isLt, rfl⟩ hz
    · rintro hn s ⟨k, -, rfl⟩ hz
      exact hn _ ⟨k, rfl⟩ hz
  · rw [file_setInode _ (by rfl), update_of_ne hne]
    exact hfile₂ hrel ho hlp x hx hne

end

section

variable {fs : Minixfs} {path leaf : List UInt8} {parent ino : Nat}

/-- What a call of `minixfs_rmdir` that succeeds does to the two maps and to other files. -/
theorem WellFormed.rmdir_maps (h : WellFormed fs) (hpath : IsCString path)
    (hsplit : Fs.splitPath fs.sb fs.disk path = some (parent, leaf))
    (hlook : Fs.dirLookup fs.sb fs.disk parent leaf = some ino)
    (hok : (Fs.minixfsRmdir fs path).1 = 0) :
    (Fs.minixfsRmdir fs path).2.view.imap = update fs.view.imap ino false ∧
      (∀ n, (Fs.minixfsRmdir fs path).2.view.zmap n = true ↔ fs.view.zmap n = true ∧
        ∀ s, (∃ k, s = .top k) → fs.view.zone ino s ≠ 0 →
          zoneBit fs.sb (fs.view.zone ino s) ≠ n) ∧
      ∀ x, x ≠ parent → x ≠ ino → (Fs.minixfsRmdir fs path).2.volume x = fs.volume x := by
  obtain ⟨-, -, -, -, f, fx, hf, -, -, hx⟩ := h.found hpath hsplit hlook
  obtain ⟨v', hs, himap, hzmap, hfile⟩ := h.sound.stores.shows.rmdirAt_maps h.sound.good.owned
    ⟨fx, hx⟩ ⟨f, hf⟩ leaf
  have hdone : (Fs.minixfsRmdir fs path).2 =
      { fs with disk := rmdirAt fs.sb fs.disk parent leaf ino (fs.view.inode ino) } := by
    simp only [Fs.minixfsRmdir, hsplit, hlook, h.sound.stores.readInodeInto hx] at hok ⊢
    split at hok
    · cases hok
    · rw [if_neg ‹_›]
      split at hok
      · cases hok
      · rw [if_neg ‹_›]
  have hview : (Fs.minixfsRmdir fs path).2.view = v' := by
    rw [hdone]
    exact hs.view
  rw [hview]
  refine ⟨himap, hzmap, fun x hxp hxi ↦ Option.ext fun fy ↦ ?_⟩
  have himap' : v'.imap x = fs.view.imap x := by rw [himap, update_of_ne hxi]
  rw [Minixfs.volume_eq_some, Minixfs.volume_eq_some, hview, himap', hdone]
  refine and_congr_right fun hino ↦ and_congr_right fun hset ↦ ?_
  rw [hfile x (Minixfs.live_iff.mpr ⟨hino, hset⟩) hxp]

/-- `minixfs_rmdir` gives back the inode and every zone of the directory, and nothing else, if and
only if the directory's tables name no zone. -/
theorem rmdir_reclaims_iff (h : WellFormed fs) (hpath : IsCString path)
    (hsplit : splitPath fs.sb fs.disk path = some (parent, leaf))
    (hlook : dirLookup fs.sb fs.disk parent leaf = some ino)
    (hok : (minixfsRmdir fs path).1 = 0) :
    ((minixfsRmdir fs path).2.view.imap = Function.update fs.view.imap ino false ∧
      ∀ n, (minixfsRmdir fs path).2.view.zmap n = true ↔ fs.view.zmap n = true ∧
        ∀ s, fs.view.zone ino s ≠ 0 → zoneBit fs.sb (fs.view.zone ino s) ≠ n) ↔
      (∀ j, fs.view.zone ino (.ind j) = 0) ∧ ∀ j, fs.view.zone ino (.dbl j) = 0 := by
  obtain ⟨himap, hzmap, -⟩ := h.rmdir_maps hpath hsplit hlook hok
  obtain ⟨-, -, -, -, f, fx, -, -, -, hx⟩ := h.found hpath hsplit hlook
  have ho := h.sound.good.owned
  rw [and_iff_right himap, ho.given_back_iff ⟨fx, hx⟩ hzmap]
  constructor
  · intro htop
    refine ⟨fun j ↦ not_not.mp fun hz ↦ ?_, fun j ↦ not_not.mp fun hz ↦ ?_⟩
    · obtain ⟨k, heq⟩ := htop _ hz
      cases heq
    · obtain ⟨k, heq⟩ := htop _ hz
      cases heq
  · rintro ⟨hind, hdbl⟩ s hz
    have hr := ho.readable ⟨fx, hx⟩
    cases s with
    | top k => exact ⟨k, rfl⟩
    | ind j => exact absurd (hind j) hz
    | dbl j => exact absurd (hdbl j) hz
    | sng j k => exact absurd (hdbl j) (hr.zone_path hz (by simp [Slot.path]))

end

/-- The directory that `/.` names is the root directory, which has one block. -/
theorem rmdir_reclaims_iff_root :
    (minixfsRmdir sampleFs [47, 46]).2.view.imap = Function.update sampleFs.view.imap 1 false ∧
      ∀ n, (minixfsRmdir sampleFs [47, 46]).2.view.zmap n = true ↔
        sampleFs.view.zmap n = true ∧ ∀ s, sampleFs.view.zone 1 s ≠ 0 →
          zoneBit sampleFs.sb (sampleFs.view.zone 1 s) ≠ n := by
  have hsplit : splitPath sampleFs.sb sampleFs.disk [47, 46] = some (1, [46]) := rfl
  have hlook : dirLookup sampleFs.sb sampleFs.disk 1 [46] = some 1 := by decide
  have hok : (minixfsRmdir sampleFs [47, 46]).1 = 0 := by decide
  exact (rmdir_reclaims_iff sample_wellFormed (by decide) hsplit hlook hok).mpr
    ⟨fun j ↦ sample_zone (.ind j), fun j ↦ sample_zone (.dbl j)⟩

/-- A disk of fifteen blocks, all zones of which are in use: the root directory has one, and the
directory `/d`, which has been emptied after it had filled seven blocks, has the other nine. -/
def emptiedSb : Superblock := { sampleSb with sZones := 15 }

def emptiedRoot : Inode := { sampleRoot with iNlinks := 3 }

def emptiedDir : Inode :=
  { Inode.zero with
    iMode := 0o040755, iNlinks := 2, iSize := 8192, iZone := fun k ↦ if k < 8 then k + 6 else 0 }

def emptiedFs : Minixfs where
  sb := emptiedSb
  mounted := true
  disk :=
    { size := 15
      block
        | 2 => fun j ↦ if j = 0 then 7 else if j = 1 then 0 else if j = 2 then 254 else 255
        | 3 => fun _ ↦ 255
        | 4 => Inode.put (Inode.put Bytes.zero 0 emptiedRoot) 1 emptiedDir
        | 5 => putDirent (putDirent (putDirent Bytes.zero 0 1 dot) 1 1 dotdot) 2 2 [100]
        | 6 => putDirent (putDirent Bytes.zero 0 2 dot) 1 1 dotdot
        | 13 => Bytes.put32 Bytes.zero 0 14
        | _ => Bytes.zero
      junk := Bytes.zero
      trace := [] }

theorem emptied_inode : emptiedFs.view.inode 1 = emptiedRoot ∧
    emptiedFs.view.inode 2 = emptiedDir := by
  have hroot : emptiedRoot.Wf := { sampleRoot_wf with nlinks := by decide }
  have hdir : emptiedDir.Wf := by
    constructor
    case zone =>
      intro k
      simp only [emptiedDir]
      split <;> omega
    case zone_none =>
      intro k hk
      exact if_neg (by omega)
    all_goals decide
  refine ⟨?_, Inode.get_put _ 1 hdir⟩
  exact (Inode.get_put_of_ne _ emptiedDir (by decide)).trans (Inode.get_put _ 0 hroot)

/-- The two directories share the zones. -/
def emptiedOwner (z : Nat) : Nat × Slot :=
  if z = 5 then (1, .top 0) else if z = 14 then (2, .ind 0) else (2, .top (Fin.ofNat 10 (z - 6)))

theorem emptied_zone (ino : Nat) (hino : ino = 1 ∨ ino = 2) (s : Slot)
    (hz : emptiedFs.view.zone ino s ≠ 0) : (5 ≤ emptiedFs.view.zone ino s ∧
      emptiedFs.view.zone ino s < 15) ∧ (ino, s) = emptiedOwner (emptiedFs.view.zone ino s) := by
  have hword : ∀ j, emptiedFs.view.word 0 j = 0 := fun _ ↦ rfl
  obtain ⟨h₁, h₂⟩ := emptied_inode
  rcases hino with rfl | rfl
  · cases s with
    | top k =>
      simp only [View.zone, h₁] at hz ⊢
      revert k
      decide
    | ind j =>
      simp only [View.zone, h₁] at hz
      exact absurd (hword j) hz
    | dbl j =>
      simp only [View.zone, h₁] at hz
      exact absurd (hword j) hz
    | sng j k =>
      simp only [View.zone, h₁] at hz
      exact absurd (hword k) hz
  · cases s with
    | top k =>
      simp only [View.zone, h₂] at hz ⊢
      revert k
      decide
    | ind j =>
      simp only [View.zone, h₂] at hz ⊢
      revert j
      decide +kernel
    | dbl j =>
      simp only [View.zone, h₂] at hz
      exact absurd (hword j) hz
    | sng j k =>
      simp only [View.zone, h₂] at hz
      exact absurd (hword k) hz

theorem emptied_live {ino : Nat} : emptiedFs.volume.Live ino ↔ ino = 1 ∨ ino = 2 := by
  rw [Minixfs.live_iff]
  constructor
  · rintro ⟨⟨hlo, hhi⟩, hset⟩
    have hall : ∀ n ≤ 16, 1 ≤ n → emptiedFs.view.imap n = true → n = 1 ∨ n = 2 := by decide
    exact hall ino hhi hlo hset
  · rintro (rfl | rfl)
    · decide
    · decide

theorem emptied_zmap (n : Nat) : emptiedFs.view.zmap n = true := by
  by_contra hc
  have hlow : ∀ k < 8 * 0, (emptiedFs.disk.block 3).testBit k = false → False :=
    fun k hk ↦ absurd hk (Nat.not_lt_zero k)
  exact mapBit_of_full hlow (fun _ _ ↦ rfl) (Bool.eq_false_of_not_eq_true hc)

theorem emptied_owned : Owned emptiedSb emptiedFs.volume.Live emptiedFs.view := by
  have hown : ∀ {o z}, own emptiedFs.volume.Live emptiedFs.view o = some z →
      (5 ≤ z ∧ z < 15) ∧ o = emptiedOwner z := by
    rintro ⟨ino, s⟩ z ho
    obtain ⟨hl, rfl, hz⟩ := own_eq_some.mp ho
    exact emptied_zone ino (emptied_live.mp hl) s hz
  refine ⟨⟨fun ho ↦ ?_, fun h₁ h₂ ↦ (hown h₁).2.trans (hown h₂).2.symm⟩, rfl, fun hl ↦ ?_⟩
  · exact ⟨(hown ho).1, emptied_zmap _⟩
  · exact (Minixfs.live_iff.mp hl).1

theorem emptied_solid {ino : Nat} (h : ino = 1 ∨ ino = 2) : Solid emptiedFs.view ino := by
  obtain ⟨h₁, h₂⟩ := emptied_inode
  rcases h with rfl | rfl
  · have hall : ∀ b < nblocks emptiedRoot, emptiedFs.view.blockZone 1 b ≠ 0 := by decide
    refine ⟨fun hb ↦ hall _ ?_, by rw [h₁]; rfl⟩
    rwa [h₁] at hb
  · have hall : ∀ b < nblocks emptiedDir, emptiedFs.view.blockZone 2 b ≠ 0 := by decide
    refine ⟨fun hb ↦ hall _ ?_, by rw [h₂]; rfl⟩
    rwa [h₂] at hb

theorem emptied_sound : Sound emptiedFs where
  geometry := by constructor <;> decide
  width := by decide
  trace := by rintro e ⟨⟩
  good :=
    { owned := emptied_owned
      padded := fun n hn ↦ absurd (emptied_zmap n) (hn ▸ Bool.false_ne_true)
      numbered := by
        intro n hn
        have hlow : ∀ k < 8 * 3, (emptiedFs.disk.block 2).testBit k = false →
            IsIno emptiedSb k := by decide
        refine mapBit_of_full hlow ?_ hn
        intro j hj
        change (if j = 0 then (7 : UInt8) else if j = 1 then 0 else if j = 2 then 254
          else 255) = 255
        rw [if_neg (by omega), if_neg (by omega), if_neg (by omega)]
      used := fun hl ↦ (Minixfs.live_iff.mp hl).2
      file := fun hf ↦ (Minixfs.volume_eq_some.mp hf).2.2
      solid := fun hf _ ↦ emptied_solid (emptied_live.mp ⟨_, hf⟩) }

theorem emptied_file {ino : Nat} (h : ino = 1 ∨ ino = 2) :
    emptiedFs.volume ino = some (emptiedFs.view.file ino) ∧
      (emptiedFs.view.file ino).attr.isDir := by
  obtain ⟨f, hf⟩ := emptied_live.mpr h
  obtain ⟨-, -, rfl⟩ := Minixfs.volume_eq_some.mp hf
  refine ⟨hf, ?_⟩
  obtain ⟨h₁, h₂⟩ := emptied_inode
  rcases h with rfl | rfl
  · change (emptiedFs.view.inode 1).isDir
    rw [h₁]
    decide
  · change (emptiedFs.view.inode 2).isDir
    rw [h₂]
    decide

/-- The entries of the two directories. -/
theorem emptied_entry (e : Nat) :
    (emptiedFs.view.file 1).entry e = (if e = 0 then some (dot, 1) else if e = 1 then
      some (dotdot, 1) else if e = 2 then some ([100], 2) else none) ∧
    (emptiedFs.view.file 2).entry e = (if e = 0 then some (dot, 2) else if e = 1 then
      some (dotdot, 1) else none) := by
  obtain ⟨h₁, h₂⟩ := emptied_inode
  have hcap₁ : (emptiedFs.view.file 1).cap = 16 := by
    change 16 * nblocks (emptiedFs.view.inode 1) = 16
    rw [h₁]
    rfl
  have hcap₂ : (emptiedFs.view.file 2).cap = 128 := by
    change 16 * nblocks (emptiedFs.view.inode 2) = 128
    rw [h₂]
    rfl
  constructor
  · by_cases he : e < 16
    · revert e
      decide
    · rw [File.entry_of_cap_le (by omega), if_neg (by omega), if_neg (by omega), if_neg (by omega)]
  · by_cases he : e < 128
    · revert e
      decide +kernel
    · rw [File.entry_of_cap_le (by omega), if_neg (by omega), if_neg (by omega)]

theorem emptied_wellFormed : WellFormed emptiedFs := by
  obtain ⟨hf₁, hdir₁⟩ := emptied_file (.inl rfl)
  obtain ⟨hf₂, hdir₂⟩ := emptied_file (.inr rfl)
  have hline₁ := Volume.line_dir hf₁ hdir₁
  have hline₂ := Volume.line_dir hf₂ hdir₂
  have hnone : ∀ y, y ≠ 2 → y ≠ 1 → emptiedFs.volume y = none := by
    intro y h₂ h₁
    by_contra hc
    exact (emptied_live.mp (Option.ne_none_iff_exists'.mp hc)).elim h₁ h₂
  refine ⟨emptied_sound, ?_⟩
  -- the directory has joined the root directory
  have hjoin : Joined 1 dot dotdot (Hierarchy.single 1 dot dotdot) 1 2 [100] 2
      emptiedFs.volume.hierarchy := by
    constructor
    · exact .root
    · exact rfl
    · exact (by decide : ¬(2 : Nat) = 1)
    · rfl
    · exact ⟨by decide, by decide⟩
    · funext e
      rw [hline₁, (emptied_entry e).1, update_apply]
      simp only [Hierarchy.single, if_true]
      by_cases he : e = 2
      · subst he
        rfl
      · rw [if_neg he, if_neg he]
    · intro y h₂ h₁
      funext e
      rw [Volume.line_none (hnone y h₂ h₁)]
      exact (if_neg h₁).symm
    · intro e k y hl
      rw [hline₂, (emptied_entry e).2] at hl
      split at hl
      · cases hl
        exact .inl ⟨rfl, rfl⟩
      · split at hl
        · cases hl
          exact .inr ⟨rfl, rfl⟩
        · cases hl
    · exact fun _ ↦ ⟨0, by rw [hline₂]; exact (emptied_entry 0).2⟩
    · exact fun _ ↦ ⟨1, by rw [hline₂]; exact (emptied_entry 1).2⟩
    · intro y h₂
      constructor
      · rintro ⟨f, hf, -⟩
        exact (emptied_live.mp ⟨f, hf⟩).resolve_right h₂
      · rintro rfl
        exact ⟨_, hf₁, hdir₁⟩
    · rintro y (rfl | rfl)
      · exact ⟨_, hf₁⟩
      · exact ⟨_, hf₂⟩
    · exact fun y _ _ ↦ Nat.zero_le _
    · rw [Volume.links_eq hf₂]
      change 1 ≤ (emptiedFs.view.inode 2).iNlinks
      rw [emptied_inode.2]
      decide
  exact Lib.Tree.join (Hierarchy.tree_single (by decide)) hjoin

/-- The directory is removed, and the block that its table names stays marked. -/
theorem rmdir_leaves_block : WellFormed emptiedFs ∧
    emptiedFs.view.zone 2 (.ind 0) = 14 ∧ zoneBit emptiedFs.sb 14 = 10 ∧
    dirLookup emptiedFs.sb emptiedFs.disk 1 [100] = some 2 ∧
    (minixfsRmdir emptiedFs [47, 100]).1 = 0 ∧
    (minixfsRmdir emptiedFs [47, 100]).2.view.imap 2 = false ∧
    (minixfsRmdir emptiedFs [47, 100]).2.view.zmap 10 = true := by
  have hsplit : splitPath emptiedFs.sb emptiedFs.disk [47, 100] = some (1, [100]) := rfl
  have hlook : dirLookup emptiedFs.sb emptiedFs.disk 1 [100] = some 2 := by decide
  have hok : (minixfsRmdir emptiedFs [47, 100]).1 = 0 := by decide
  obtain ⟨himap, hzmap, -⟩ := emptied_wellFormed.rmdir_maps (by decide) hsplit hlook hok
  have hzone : emptiedFs.view.zone 2 (.ind 0) = 14 := by decide
  refine ⟨emptied_wellFormed, hzone, by decide, hlook, hok, ?_, ?_⟩
  · rw [himap, update_self]
  · rw [hzmap]
    refine ⟨emptied_zmap 10, ?_⟩
    rintro s ⟨k, rfl⟩
    rw [View.zone, emptied_inode.2]
    revert k
    decide

section

variable {fs : Minixfs} {path : List UInt8}

/-! ## Names -/

/-- The root is in use, and so is every inode that an entry names that can be reached. -/
def NoneDangles (fs : Minixfs) : Prop :=
  fs.view.imap 1 = true ∧ ∀ dir f, fs.volume.Reached dir → fs.volume dir = some f →
    f.attr.isDir → ∀ e name ino, f.entry e = some (name, ino) → fs.view.imap ino = true

theorem WellFormed.noneDangles (h : WellFormed fs) : NoneDangles fs := by
  refine ⟨(Minixfs.live_iff.mp (h.tree.live .root)).2, ?_⟩
  intro dir f hreach hf hdir e name ino hentry
  rw [← Volume.line_dir hf hdir] at hentry
  exact (Minixfs.live_iff.mp (Lib.Tree.live_of_reached h.tree (.step hreach hentry))).2

/-- The last component of the path is `.` or `..`, and leads to an empty directory. -/
def EmptyDots (fs : Minixfs) (path : List UInt8) : Prop :=
  ∃ parent leaf ino fx, splitPath fs.sb fs.disk path = some (parent, leaf) ∧
    (leaf = dot ∨ leaf = dotdot) ∧ dirLookup fs.sb fs.disk parent leaf = some ino ∧
    fs.volume ino = some fx ∧ fx.Bare

/-- An empty directory that `..` names is the root.  One that `.` names is the parent. -/
theorem WellFormed.emptyDots (h : WellFormed fs) (hpath : IsCString path) {parent ino : Nat}
    {leaf : List UInt8} {fx : File} (hsplit : Fs.splitPath fs.sb fs.disk path = some (parent, leaf))
    (hleaf : leaf = dot ∨ leaf = dotdot)
    (hlook : Fs.dirLookup fs.sb fs.disk parent leaf = some ino) (hx : fs.volume ino = some fx)
    (hbare : fx.Bare) : fx.attr.isDir ∧ (ino = 1 ∨ parent = ino) := by
  obtain ⟨hcstring, hlen, hp, -, f, fx', hf, hdir, hfind, hx'⟩ := h.found hpath hsplit hlook
  obtain rfl := Option.some.inj (hx.symm.trans hx')
  obtain ⟨e, -, hentry⟩ := (File.find_eq_some hcstring).mp hfind
  rw [List.take_of_length_le hlen, ← Volume.line_dir hf hdir] at hentry
  rcases hleaf with rfl | rfl
  · obtain rfl := h.tree.here_eq hp hentry
    obtain rfl := Option.some.inj (hf.symm.trans hx)
    exact ⟨hdir, .inr rfl⟩
  · by_cases hroot : parent = 1
    · subst hroot
      obtain rfl := h.tree.root_up_eq hentry
      obtain rfl := Option.some.inj (hf.symm.trans hx)
      exact ⟨hdir, .inl rfl⟩
    · -- the directory above has an entry for the parent, so it is not empty
      obtain ⟨y, e', hy⟩ := hp.naming hroot
      obtain rfl := h.tree.up_eq ⟨e', hy⟩ hroot hentry
      obtain ⟨-, k, hk, hline⟩ := hy
      have hdirx : fx.attr.isDir :=
        (Volume.isDir_iff hx).mp (fs.volume.hierarchy.isDir_of_line hline)
      rw [Volume.line_dir hx hdirx] at hline
      exact absurd hk (hbare _ _ _ hline)

/-- An empty directory that `.` or `..` leads to is removed, and its other names stay. -/
theorem WellFormed.rmdir_dots_dangles (h : WellFormed fs) (hpath : IsCString path)
    (hdots : EmptyDots fs path) : ¬NoneDangles (Fs.minixfsRmdir fs path).2 := by
  obtain ⟨parent, leaf, ino, fx, hsplit, hleaf, hlook, hx, hbare⟩ := hdots
  rintro ⟨hroot, hnames⟩
  obtain ⟨hdir, hcases⟩ := h.emptyDots hpath hsplit hleaf hlook hx hbare
  have hok : (Fs.minixfsRmdir fs path).1 = 0 := by
    have hdir' := (h.readInodeInto_isDir hx).mpr hdir
    have hone : Fs.dirIsEmpty fs.sb fs.disk ino = 1 := by
      rw [h.sound.stores.dirIsEmpty hx, File.bare_iff.mp hbare]
      rfl
    simp only [Fs.minixfsRmdir, hsplit, hlook, hdir', not_true, if_false, hone]
    rfl
  obtain ⟨himap, -, hvolume⟩ := h.rmdir_maps hpath hsplit hlook hok
  have hclear : (Fs.minixfsRmdir fs path).2.view.imap ino = false := by rw [himap, update_self]
  by_cases hone : ino = 1
  · subst hone
    exact Bool.false_ne_true (hclear.symm.trans hroot)
  obtain rfl := hcases.resolve_left hone
  -- the proper entries that lead to the directory have stayed
  have hnot : ∀ e k y, fs.volume.hierarchy.line parent e = some (k, y) →
      ¬Proper dot dotdot k := by
    intro e k y hline
    rw [Volume.line_dir hx hdir] at hline
    exact hbare e k y hline
  have hline : ∀ {y e k x}, fs.volume.hierarchy.line y e = some (k, x) → Proper dot dotdot k →
      (Fs.minixfsRmdir fs path).2.volume y = fs.volume y := by
    intro y e k x hl hk
    have hne : y ≠ parent := by
      rintro rfl
      exact hnot _ _ _ hl hk
    exact hvolume y hne hne
  have hreach : ∀ {y}, fs.volume.Below y → (Fs.minixfsRmdir fs path).2.volume.Reached y := by
    intro y hy
    induction hy with
    | root => exact .root
    | step _ hl hk ih => exact .step ih (by rw [(Volume.node_congr (hline hl hk)).1]; exact hl)
  have hbelow : fs.volume.Below parent := (h.found hpath hsplit hlook).2.2.1
  obtain ⟨y, e, hy, k, hk, hl⟩ := hbelow.naming hone
  obtain ⟨fy, hfy, hdiry⟩ := fs.volume.hierarchy.isDir_of_line hl
  rw [Volume.line_dir hfy hdiry] at hl
  have hset := hnames y fy (hreach hy)
    ((hline (by rw [Volume.line_dir hfy hdiry]; exact hl) hk).trans hfy) hdiry e k parent hl
  exact Bool.false_ne_true (hclear.symm.trans hset)

/-- A directory with files is not removed by the name `.` or `..`. -/
theorem WellFormed.rmdir_dots_same (h : WellFormed fs) (hpath : IsCString path) {parent : Nat}
    {leaf : List UInt8} (hsplit : Fs.splitPath fs.sb fs.disk path = some (parent, leaf))
    (hdot : leaf = dot ∨ leaf = dotdot) (hdots : ¬EmptyDots fs path) :
    (Fs.minixfsRmdir fs path).2 = fs := by
  cases hlook : Fs.dirLookup fs.sb fs.disk parent leaf with
  | none => simp only [Fs.minixfsRmdir, hsplit, hlook]
  | some ino =>
    obtain ⟨-, -, -, -, f, fx, -, -, -, hx⟩ := h.found hpath hsplit hlook
    have hbare : ¬fx.Bare := fun hc ↦ hdots ⟨parent, leaf, ino, fx, hsplit, hdot, hlook, hx, hc⟩
    rw [File.bare_iff] at hbare
    have hzero : Fs.dirIsEmpty fs.sb fs.disk ino = 0 := by
      rw [h.sound.stores.dirIsEmpty hx, if_pos (Option.isSome_iff_ne_none.mpr hbare)]
    simp only [Fs.minixfsRmdir, hsplit, hlook, hzero, if_true]
    split <;> rfl

/-- **Removed directories leave no name behind**, if and only if the last component of the path
is not a `.` or `..` that leads to an empty directory. -/
theorem rmdir_leaves_no_dangling_name_iff (h : WellFormed fs) (hpath : IsCString path) :
    NoneDangles (minixfsRmdir fs path).2 ↔ ¬EmptyDots fs path := by
  refine ⟨fun hnames hdots ↦ h.rmdir_dots_dangles hpath hdots hnames, fun hdots ↦ ?_⟩
  refine WellFormed.noneDangles ?_
  by_cases hproper : ∀ parent leaf, splitPath fs.sb fs.disk path = some (parent, leaf) →
      Proper dot dotdot leaf
  · exact h.minixfsRmdir hpath hproper
  · simp only [not_forall] at hproper
    obtain ⟨parent, leaf, hsplit, hleaf⟩ := hproper
    have hdot : leaf = dot ∨ leaf = dotdot := by
      by_contra hc
      exact hleaf ⟨fun h₁ ↦ hc (.inl h₁), fun h₂ ↦ hc (.inr h₂)⟩
    rw [h.rmdir_dots_same hpath hsplit hdot hdots]
    exact h

end

/-- With `/a` in it, the root directory is not removed by the name `.`. -/
theorem rmdir_leaves_no_dangling_name_iff_dot :
    NoneDangles (minixfsRmdir sampleNamedFs [47, 46]).2 := by
  obtain ⟨-, hlook, hempty, -⟩ := sampleNamed_root
  refine (rmdir_leaves_no_dangling_name_iff sampleNamed_wellFormed (by decide)).mpr ?_
  rintro ⟨parent, leaf, ino, fx, hsplit, -, hino, hx, hbare⟩
  obtain ⟨rfl, rfl⟩ := Prod.mk.inj (Option.some.inj hsplit)
  obtain rfl := Option.some.inj (hlook.symm.trans hino)
  rw [sampleNamed_wellFormed.sound.stores.dirIsEmpty hx, File.bare_iff.mp hbare] at hempty
  cases hempty

/-- The root directory of the small disk is removed by the name `.`. -/
theorem rmdir_frees_root : WellFormed sampleFs ∧ (minixfsRmdir sampleFs [47, 46]).1 = 0 ∧
    (minixfsRmdir sampleFs [47, 46]).2.view.imap 1 = false :=
  ⟨sample_wellFormed, by decide, by decide⟩

end FentoOS.Fs
