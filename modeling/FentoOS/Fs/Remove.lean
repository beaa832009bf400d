import FentoOS.Fs.Create

/-!
# Removing files and directories

`minixfs_unlink` takes a link from a file and, with the last one, gives back its inode and the
zones that its direct slots and its first table name.  `minixfs_rmdir` gives back the inode
and the ten zones that an empty directory's inode names.  Both then blank the entry, which is
the first with the last component of the path for its name.

In the tree the two agree: that entry is the one that names the inode, as long as the last
component is neither `.` nor `..`.
-/

namespace FentoOS.Fs

open FentoOS.Lib Function

/-! ## Entries -/

section

variable {f : File} {e : Nat}

/-- `dir_is_empty` looks for proper entries. -/
theorem File.proper_iff (he : e < f.cap) :
    f.proper e = true ↔ ∃ k i, f.entry e = some (k, i) ∧ Proper dot dotdot k := by
  have hdot : strcmp (direntName (f.block (e / 16)) (e % 16)) dot = 0 ↔ f.name e = dot :=
    strcmp_eq_zero (by decide) (by decide)
  have hdotdot : strcmp (direntName (f.block (e / 16)) (e % 16)) dotdot = 0 ↔
      f.name e = dotdot :=
    strcmp_eq_zero (by decide) (by decide)
  have hproper : f.proper e = true ↔ f.ino e ≠ 0 ∧ f.name e ≠ dot ∧ f.name e ≠ dotdot := by
    unfold File.proper direntProper
    rw [decide_eq_true_iff, Ne, Ne, Ne, hdot, hdotdot]
    rfl
  rw [hproper]
  constructor
  · rintro ⟨hpos, h₁, h₂⟩
    exact ⟨f.name e, f.ino e, File.entry_eq_some.mpr ⟨he, hpos, rfl, rfl⟩, h₁, h₂⟩
  · rintro ⟨k, i, hentry, h₁, h₂⟩
    obtain ⟨-, hpos, rfl, rfl⟩ := File.entry_eq_some.mp hentry
    exact ⟨hpos, h₁, h₂⟩

/-- The directory has no proper entry. -/
def File.Bare (f : File) : Prop := ∀ e k i, f.entry e = some (k, i) → ¬Proper dot dotdot k

theorem File.bare_iff : f.Bare ↔ findFirst f.proper 0 f.cap = none := by
  rw [findFirst_eq_none]
  constructor
  · intro h e _ he
    rw [Nat.zero_add] at he
    refine Bool.eq_false_iff.mpr fun hproper ↦ ?_
    obtain ⟨k, i, hentry, hk⟩ := (File.proper_iff he).mp hproper
    exact h e k i hentry hk
  · intro h e k i hentry hk
    have he := (File.entry_eq_some.mp hentry).1
    have hproper := (File.proper_iff he).mpr ⟨k, i, hentry, hk⟩
    rw [h e (Nat.zero_le e) (by omega)] at hproper
    cases hproper

end

/-! ## On the volume -/

section

variable {g : Superblock} {d : Disk} {F : Volume} {v : View} {parent ino : Nat} {f fx : File}
  {leaf : List UInt8}

/-- `dir_remove` of a name that is found blanks the entry that names the inode. -/
theorem Stores.dirRemove_found (h : Stores g d v F) (hf : F parent = some f)
    (hleaf : IsCString leaf) (hfind : f.find leaf = some ino) :
    ∃ e f' v', f.entry e = some (leaf.take 60, ino) ∧ f.Removed e f' ∧ v'.imap = v.imap ∧
      v'.zmap = v.zmap ∧
      Stores g (Fs.dirRemove g d parent leaf) v' (update F parent (some f')) := by
  obtain ⟨e₀, hfirst₀, hentry⟩ := (File.find_eq_some hleaf).mp hfind
  rcases h.dirRemove hf hleaf with ⟨hnone, -⟩ | ⟨e, f', v', hfirst, hrem, himap, hzmap, hs⟩
  · rw [hnone] at hfind
    cases hfind
  · obtain rfl := hfirst₀.eq hfirst
    exact ⟨e₀, f', v', hentry, hrem, himap, hzmap, hs⟩

/-- `minixfs_unlink` of the last link of a file. -/
theorem Stores.unlinkAt_last (h : Stores g d v F) (hf : F parent = some f) (hdir : f.attr.isDir)
    (hx : F ino = some fx) (hreg : ¬fx.attr.isDir) (hlast : fx.attr.iNlinks - 1 = 0)
    (hleaf : IsCString leaf) (hfind : f.find leaf = some ino) :
    ∃ e f' v', f.entry e = some (leaf.take 60, ino) ∧ f.Removed e f' ∧
      v'.imap = update v.imap ino false ∧
      (∀ n, v'.zmap n = true ↔ v.zmap n = true ∧
        ∀ s, Slot.Shallow s → v.zone ino s ≠ 0 → zoneBit g (v.zone ino s) ≠ n) ∧
      Stores g (unlinkAt g d parent leaf ino (v.inode ino)) v'
        (update (update F ino none) parent (some f')) := by
  have hl : F.Live ino := ⟨fx, hx⟩
  have hne : parent ≠ ino := by
    rintro rfl
    obtain rfl := Option.some.inj (hf.symm.trans hx)
    exact hreg hdir
  have hnlinks : (v.inode ino).iNlinks - 1 = 0 := by
    have hattr := congrArg Inode.iNlinks (h.readInode hx).2
    exact (congrArg (· - 1) hattr).trans hlast
  obtain ⟨v₁, hs₁, hr⟩ := h.freeFileZones hl
    (i := { v.inode ino with iNlinks := (v.inode ino).iNlinks - 1 }) rfl
  have hs₂ := hs₁.freeInode (h.good.owned.number hl)
  rw [update_idem] at hs₂
  obtain ⟨e, f', v', hentry, hrem, himap, hzmap, hs₃⟩ := hs₂.dirRemove_found
    (by rw [update_of_ne hne, hf]) hleaf hfind
  refine ⟨e, f', v', hentry, hrem, ?_, ?_, ?_⟩
  · rw [himap, View.setImap_imap, hr.imap]
  · intro n
    rw [hzmap]
    exact hr.zmap n
  · simp only [unlinkAt, hnlinks, if_true]
    rw [hnlinks] at hs₃
    exact hs₃

/-- `minixfs_unlink` of a file that has further links. -/
theorem Stores.unlinkAt_more (h : Stores g d v F) (hf : F parent = some f) (hdir : f.attr.isDir)
    (hx : F ino = some fx) (hreg : ¬fx.attr.isDir) (hmore : fx.attr.iNlinks - 1 ≠ 0)
    (hleaf : IsCString leaf) (hfind : f.find leaf = some ino) :
    ∃ e f' v', f.entry e = some (leaf.take 60, ino) ∧ f.Removed e f' ∧ v'.imap = v.imap ∧
      Stores g (unlinkAt g d parent leaf ino (v.inode ino)) v'
        (update (update F ino (some (fx.setNlinks (fx.attr.iNlinks - 1)))) parent
          (some f')) := by
  have hne : parent ≠ ino := by
    rintro rfl
    obtain rfl := Option.some.inj (hf.symm.trans hx)
    exact hreg hdir
  have hattr := congrArg Inode.iNlinks (h.readInode hx).2
  have hnlinks : (v.inode ino).iNlinks - 1 ≠ 0 := fun hc ↦
    hmore ((congrArg (· - 1) hattr).symm.trans hc)
  obtain ⟨v₁, himap₁, -, hs₁⟩ := h.updateNlinks hx (· - 1) fun n hn ↦ (Nat.sub_le n 1).trans_lt hn
  obtain ⟨e, f', v', hentry, hrem, himap, -, hs₂⟩ := hs₁.dirRemove_found
    (by rw [update_of_ne hne, hf]) hleaf hfind
  refine ⟨e, f', v', hentry, hrem, himap.trans himap₁, ?_⟩
  simp only [unlinkAt, if_neg hnlinks]
  rw [Fs.updateNlinks, h.readInodeInto hx] at hs₂
  exact hs₂

/-- `minixfs_rmdir` of a directory with another parent. -/
theorem Stores.rmdirAt (h : Stores g d v F) (hf : F parent = some f) (hl : F.Live ino)
    (hne : parent ≠ ino) (hleaf : IsCString leaf) (hfind : f.find leaf = some ino) :
    ∃ e f' v', f.entry e = some (leaf.take 60, ino) ∧ f.Removed e f' ∧
      v'.imap = update v.imap ino false ∧
      Stores g (rmdirAt g d parent leaf ino (v.inode ino)) v'
        (update (update F ino none) parent
          (some (f'.setNlinks (f'.attr.iNlinks - 1)))) := by
  obtain ⟨v₁, hs₁, hr⟩ := h.freeTops hl
  obtain ⟨e, f', v₂, hentry, hrem, himap₂, -, hs₂⟩ := hs₁.dirRemove_found
    (by rw [update_of_ne hne, hf]) hleaf hfind
  have hs₃ := hs₂.freeInode (h.good.owned.number hl)
  have hcomm : update (update (update F ino none) parent (some f')) ino
      none = update (update F ino none) parent (some f') := by
    rw [update_comm hne.symm, update_idem]
  rw [hcomm] at hs₃
  obtain ⟨v', himap, -, hs₄⟩ := hs₃.updateNlinks (update_self ..) (· - 1) fun n hn ↦
    (Nat.sub_le n 1).trans_lt hn
  rw [update_idem] at hs₄
  refine ⟨e, f', v', hentry, hrem, ?_, hs₄⟩
  rw [himap, View.setImap_imap, himap₂, hr.imap]

end

/-! ## In the tree -/

section

variable {F : Volume} {parent x e : Nat} {f f' fp fx : File} {leaf : List UInt8}

/-- The entry of a file, or of a directory without proper entries, is blanked.  The file stays
with one link less, or goes with its last entry. -/
theorem Volume.Tree.remove (h : F.Tree) (hp : F.Below parent) (hf : F parent = some f)
    (hdir : f.attr.isDir) (hx : F x = some fx) (hne : parent ≠ x)
    (hentry : f.entry e = some (leaf, x)) (hproper : Proper dot dotdot leaf)
    (hrem : f.Removed e f') (hfp : fp.entry = f'.entry) (hfpd : fp.attr.isDir)
    (hbare : fx.attr.isDir → fx.Bare) {fx' : Option File}
    (hnode : (∃ fy, fx' = some fy ∧ ¬fx.attr.isDir ∧ ¬fy.attr.isDir ∧
        fx.attr.iNlinks ≤ fy.attr.iNlinks + 1) ∨
      (naming 1 dot dotdot F.hierarchy x).Subsingleton) :
    Volume.Tree (update (update F x fx') parent (some fp)) := by
  set F' := update (update F x fx') parent (some fp) with hF'
  have hparent : F' parent = some fp := update_self ..
  have hfile : F' x = fx' := by rw [hF', update_of_ne hne.symm, update_self]
  have hother : ∀ {y}, y ≠ x → y ≠ parent → F' y = F y := by
    intro y hyx hyp
    rw [hF', update_of_ne hyp, update_of_ne hyx]
  have hline := Volume.line_dir hf hdir
  refine Lib.Tree.part (p := parent) (x := x) (e := e) h ?_
  constructor
  case named => exact ⟨hp, leaf, hproper, by rw [hline]; exact hentry⟩
  case leaf =>
    intro e' k y hl
    by_cases hd : fx.attr.isDir
    · rw [Volume.line_dir hx hd] at hl
      exact hbare hd e' k y hl
    · rw [Volume.line_file hx hd] at hl
      cases hl
  case line => rw [Volume.line_dir hparent hfpd, hline, hfp, hrem.entry]
  case line_other => exact fun y hyx hyp ↦ (Volume.node_congr (hother hyx hyp)).1
  case isDir_other =>
    intro y hyx
    by_cases hyp : y = parent
    · subst hyp
      exact ⟨fun _ ↦ (Volume.isDir_iff hf).mpr hdir, fun _ ↦ (Volume.isDir_iff hparent).mpr hfpd⟩
    · exact (Volume.node_congr (hother hyx hyp)).2.1
  case live_other =>
    intro y hyx hy
    by_cases hyp : y = parent
    · subst hyp
      exact ⟨fp, hparent⟩
    · exact (Volume.node_congr (hother hyx hyp)).2.2.1.mpr hy
  case links_other =>
    intro y hyx hyd
    by_cases hyp : y = parent
    · subst hyp
      exact absurd ((Volume.isDir_iff hf).mpr hdir) hyd
    · exact (Volume.node_congr (hother hyx hyp)).2.2.2.ge
  case node =>
    refine hnode.imp_left ?_
    rintro ⟨fy, rfl, hdx, hdy, hlinks⟩
    refine ⟨?_, ?_, fun _ ↦ ⟨fy, hfile⟩, ?_, ?_⟩
    · funext e'
      rw [Volume.line_file hfile hdy, Volume.line_file hx hdx]
    · rw [Volume.isDir_iff hfile, Volume.isDir_iff hx]
      exact iff_of_false hdy hdx
    · rw [Volume.isDir_iff hx]
      exact hdx
    · rw [Volume.links_eq hx, Volume.links_eq hfile]
      exact hlinks

end

section

variable {fs : Minixfs} {path leaf : List UInt8} {parent ino : Nat} {f fx : File}

/-- The volume after an inode has been given back. -/
theorem Sound.of_removed (h : Sound fs) {d' : Disk} {v' : View} {fp : File}
    (hino : v'.imap = update fs.view.imap ino false) (hne : parent ≠ ino)
    (hs : Stores fs.sb d' v'
      (update (update fs.volume ino none) parent (some fp))) :
    Sound { fs with disk := d' } ∧ ({ fs with disk := d' } : Minixfs).view = v' ∧
      ({ fs with disk := d' } : Minixfs).volume =
        update (update fs.volume ino none) parent (some fp) := by
  refine hs.sound_disk h.width fun y hy hset ↦ ?_
  by_cases hyp : y = parent
  · subst hyp
    exact ⟨fp, update_self ..⟩
  · by_cases hyx : y = ino
    · subst hyx
      rw [hino, update_self] at hset
      cases hset
    · rw [hino, update_of_ne hyx] at hset
      obtain ⟨f, hf⟩ := Minixfs.live_iff.mpr ⟨hy, hset⟩
      exact ⟨f, by rw [update_of_ne hyp, update_of_ne hyx, hf]⟩

/-- The volume after two files have changed. -/
theorem Sound.of_kept (h : Sound fs) {d' : Disk} {v' : View} {fx' fp : File}
    (himap : v'.imap = fs.view.imap) (hx : fs.volume.Live ino) (hp : fs.volume.Live parent)
    (hs : Stores fs.sb d' v'
      (update (update fs.volume ino (some fx')) parent (some fp))) :
    Sound { fs with disk := d' } ∧ ({ fs with disk := d' } : Minixfs).volume =
      update (update fs.volume ino (some fx')) parent (some fp) := by
  have hset : v'.imap = update fs.view.imap ino true := by
    rw [himap, ← (Minixfs.live_iff.mp hx).2, update_eq_self]
  obtain ⟨hsound, -, hvolume⟩ := h.of_created hset hp hs
  exact ⟨hsound, hvolume⟩

/-- What a lookup that succeeds says about the two inodes. -/
theorem WellFormed.found (h : WellFormed fs) (hpath : IsCString path)
    (hsplit : Fs.splitPath fs.sb fs.disk path = some (parent, leaf))
    (hlook : Fs.dirLookup fs.sb fs.disk parent leaf = some ino) :
    IsCString leaf ∧ leaf.length ≤ 60 ∧ fs.volume.Below parent ∧ fs.volume.Below ino ∧
      ∃ f fx, fs.volume parent = some f ∧ f.attr.isDir ∧ f.find leaf = some ino ∧
        fs.volume ino = some fx := by
  obtain ⟨hp, hleaf, hlen⟩ := h.splitPath hpath hsplit
  have hb := h.dirLookup hp hleaf hlook
  obtain ⟨f, hf⟩ := h.tree.live hp
  obtain ⟨fx, hx⟩ := h.tree.live hb
  rw [h.sound.stores.dirLookup hf] at hlook
  split at hlook
  · exact ⟨hleaf, hlen, hp, hb, f, fx, hf, ‹_›, hlook, hx⟩
  · cases hlook

theorem WellFormed.readInodeInto_isDir (h : WellFormed fs) (hx : fs.volume ino = some fx) :
    (readInodeInto fs.sb fs.disk ino).isDir ↔ fx.attr.isDir := by
  rw [h.sound.stores.readInodeInto hx, ← (h.sound.stores.readInode hx).2]
  rfl

/-- `.` and `..` name directories. -/
theorem WellFormed.proper_of_file (h : WellFormed fs) (hp : fs.volume.Below parent)
    (hf : fs.volume parent = some f) (hdir : f.attr.isDir) (hx : fs.volume ino = some fx)
    (hreg : ¬fx.attr.isDir) {e : Nat} (hentry : f.entry e = some (leaf, ino)) :
    Proper dot dotdot leaf := by
  rw [← Volume.line_dir hf hdir] at hentry
  have hnot : ¬fs.volume.hierarchy.IsDir ino := fun hc ↦ hreg ((Volume.isDir_iff hx).mp hc)
  constructor
  · rintro rfl
    obtain rfl := h.tree.here_eq hp hentry
    exact hnot ((Volume.isDir_iff hf).mpr hdir)
  · rintro rfl
    by_cases hroot : parent = 1
    · subst hroot
      obtain rfl := h.tree.root_up_eq hentry
      exact hnot h.tree.root_dir
    · obtain ⟨y, e', hy⟩ := hp.naming hroot
      obtain rfl := h.tree.up_eq ⟨e', hy⟩ hroot hentry
      obtain ⟨-, k, -, hline⟩ := hy
      exact hnot (fs.volume.hierarchy.isDir_of_line hline)

/-- `minixfs_unlink` keeps the file system well formed. -/
theorem WellFormed.minixfsUnlink (h : WellFormed fs) (hpath : IsCString path) :
    WellFormed (minixfsUnlink fs path).2 := by
  unfold Fs.minixfsUnlink
  cases hsplit : Fs.splitPath fs.sb fs.disk path with
  | none => exact h
  | some pl =>
    obtain ⟨parent, leaf⟩ := pl
    cases hlook : Fs.dirLookup fs.sb fs.disk parent leaf with
    | none => simp only [hlook]; exact h
    | some ino =>
      obtain ⟨hleaf, hlen, hp, hb, f, fx, hf, hdir, hfind, hx⟩ := h.found hpath hsplit hlook
      simp only [hlook]
      by_cases hreg : fx.attr.isDir
      · rw [if_pos ((h.readInodeInto_isDir hx).mpr hreg)]
        exact h
      · rw [if_neg fun hc ↦ hreg ((h.readInodeInto_isDir hx).mp hc),
          h.sound.stores.readInodeInto hx]
        have hne : parent ≠ ino := by
          rintro rfl
          obtain rfl := Option.some.inj (hf.symm.trans hx)
          exact hreg hdir
        have hroot : ino ≠ 1 := by
          rintro rfl
          exact hreg ((Volume.isDir_iff hx).mp h.tree.root_dir)
        by_cases hlast : fx.attr.iNlinks - 1 = 0
        · obtain ⟨e, f', v', hentry, hrem, himap, -, hs⟩ :=
            h.sound.stores.unlinkAt_last hf hdir hx hreg hlast hleaf hfind
          obtain ⟨hsound, -, hvolume⟩ := h.sound.of_removed himap hne hs
          refine ⟨hsound, ?_⟩
          rw [List.take_of_length_le hlen] at hentry
          rw [hvolume]
          refine h.tree.remove hp hf hdir hx hne hentry
            (h.proper_of_file hp hf hdir hx hreg hentry) hrem rfl (by rw [hrem.attr]; exact hdir)
            (fun hc ↦ absurd hc hreg) (.inr ?_)
          -- at most one entry names the file
          have hcount := h.tree.links hroot fun hc ↦ hreg ((Volume.isDir_iff hx).mp hc)
          rw [Volume.links_eq hx] at hcount
          refine Set.encard_le_one_iff_subsingleton.mp (hcount.trans ?_)
          exact Nat.cast_le_one.mpr (Nat.sub_eq_zero_iff_le.mp hlast)
        · obtain ⟨e, f', v', hentry, hrem, himap, hs⟩ :=
            h.sound.stores.unlinkAt_more hf hdir hx hreg hlast hleaf hfind
          obtain ⟨hsound, hvolume⟩ := h.sound.of_kept himap ⟨fx, hx⟩ ⟨f, hf⟩ hs
          refine ⟨hsound, ?_⟩
          rw [List.take_of_length_le hlen] at hentry
          rw [hvolume]
          refine h.tree.remove hp hf hdir hx hne hentry
            (h.proper_of_file hp hf hdir hx hreg hentry) hrem rfl (by rw [hrem.attr]; exact hdir)
            (fun hc ↦ absurd hc hreg) (.inl ⟨_, rfl, hreg, hreg, ?_⟩)
          change _ ≤ fx.attr.iNlinks - 1 + 1
          omega

/-- `minixfs_rmdir` keeps the file system well formed, unless the last component of the path is
`.` or `..`. -/
theorem WellFormed.minixfsRmdir (h : WellFormed fs) (hpath : IsCString path)
    (hproper : ∀ parent leaf, Fs.splitPath fs.sb fs.disk path = some (parent, leaf) →
      Proper dot dotdot leaf) : WellFormed (minixfsRmdir fs path).2 := by
  unfold Fs.minixfsRmdir
  cases hsplit : Fs.splitPath fs.sb fs.disk path with
  | none => exact h
  | some pl =>
    obtain ⟨parent, leaf⟩ := pl
    cases hlook : Fs.dirLookup fs.sb fs.disk parent leaf with
    | none => simp only [hlook]; exact h
    | some ino =>
      obtain ⟨hleaf, hlen, hp, hb, f, fx, hf, hdir, hfind, hx⟩ := h.found hpath hsplit hlook
      simp only [hlook]
      by_cases hd : fx.attr.isDir
      · rw [if_neg (not_not_intro ((h.readInodeInto_isDir hx).mpr hd)),
          h.sound.stores.dirIsEmpty hx]
        cases hempty : findFirst fx.proper 0 fx.cap with
        | some e =>
          simp only [Option.isSome_some, if_true]
          exact h
        | none =>
          have hbare := File.bare_iff.mpr hempty
          have hk := hproper parent leaf hsplit
          simp only [Option.isSome_none, Bool.false_eq_true, if_false, one_ne_zero,
            h.sound.stores.readInodeInto hx]
          obtain ⟨e₀, -, hentry₀⟩ := (File.find_eq_some hleaf).mp hfind
          rw [List.take_of_length_le hlen] at hentry₀
          have hne : parent ≠ ino := by
            rintro rfl
            obtain rfl := Option.some.inj (hf.symm.trans hx)
            exact hbare e₀ leaf parent hentry₀ hk
          obtain ⟨e, f', v', hentry, hrem, himap, hs⟩ :=
            h.sound.stores.rmdirAt hf ⟨fx, hx⟩ hne hleaf hfind
          obtain ⟨hsound, -, hvolume⟩ := h.sound.of_removed himap hne hs
          refine ⟨hsound, ?_⟩
          rw [List.take_of_length_le hlen] at hentry
          have hroot : ino ≠ 1 := by
            refine Lib.Tree.ne_root (p := parent) (e := e) h.tree
              ⟨hp, leaf, hk, by rw [Volume.line_dir hf hdir]; exact hentry⟩ ?_
            intro e' k y hl
            rw [Volume.line_dir hx hd] at hl
            exact hbare e' k y hl
          have hfp : (f'.setNlinks (f'.attr.iNlinks - 1)).entry = f'.entry := rfl
          rw [hvolume]
          refine h.tree.remove hp hf hdir hx hne hentry hk hrem hfp ?_ (fun _ ↦ hbare)
            (.inr (h.tree.single hroot ((Volume.isDir_iff hx).mpr hd)))
          change ({ f'.attr with iNlinks := _ } : Inode).isDir
          rw [hrem.attr]
          exact hdir
      · rw [if_pos fun hc ↦ hd ((h.readInodeInto_isDir hx).mp hc)]
        exact h

end

end FentoOS.Fs
