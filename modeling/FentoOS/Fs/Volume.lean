import FentoOS.Fs.Directory

/-!
# The files on a disk

A `Volume` assigns a file to each inode number in use.  `Stores g d v F` says that
the disk `d`, which shows `v`, stores the volume `F`: the inodes in use hold their zones
without overlap, the padding of both maps is set, directories have no holes, and each
inode's file is the one that `F` says.  An inode may be marked in the inode map and have
no file yet, or no longer, while an operation is under way.

From here on the operations of the file system are functions on volumes: what they do
to a disk is stated as what they do to the volume it stores.  The view goes along for
what is to be said about the two maps.
-/

namespace FentoOS.Fs

open FentoOS.Lib Function

/-- The files of the inodes in use. -/
abbrev Volume := Nat → Option File

/-- The inode is in use. -/
def Volume.Live (F : Volume) (ino : Nat) : Prop := ∃ f, F ino = some f

/-- A view of the volume `F`. -/
structure Good (g : Superblock) (F : Volume) (v : View) : Prop where
  owned : Owned g F.Live v
  padded : Padded g v
  numbered : ∀ {n}, v.imap n = false → IsIno g n
  used : ∀ {ino}, F.Live ino → v.imap ino = true
  file : ∀ {ino f}, F ino = some f → v.file ino = f
  solid : ∀ {ino f}, F ino = some f → f.attr.isDir → Solid v ino

/-- The disk shows `v` and stores the volume `F`. -/
structure Stores (g : Superblock) (d : Disk) (v : View) (F : Volume) : Prop where
  shows : Shows g d v
  good : Good g F v

variable {i : Inode} {dir n x : Nat} {name : List UInt8}

section

variable {g : Superblock} {d : Disk} {F : Volume} {v v' : View} {ino ino' : Nat} {f f' : File}

theorem Volume.live_update (hf : F ino = some f) (f' : File) :
    Volume.Live (update F ino (some f')) = F.Live := by
  funext x
  apply propext
  unfold Volume.Live
  by_cases hx : x = ino
  · subst hx
    simp [hf]
  · rw [update_of_ne hx]

theorem Volume.live_of_forget (h : Volume.Live (update F ino none) ino') :
    F.Live ino' ∧ ino' ≠ ino := by
  obtain ⟨f, hf⟩ := h
  by_cases hx : ino' = ino
  · subst hx
    rw [update_self] at hf
    cases hf
  · rw [update_of_ne hx] at hf
    exact ⟨⟨f, hf⟩, hx⟩

theorem Good.live_file (h : Good g F v) (hl : F.Live ino) : F ino = some (v.file ino) := by
  obtain ⟨f, hf⟩ := hl
  rw [hf, h.file hf]

/-! ## Changing one file -/

/-- One file has changed. -/
theorem Good.touch (h : Good g F v) (hf : F ino = some f) (ht : Touched g F.Live ino v v')
    (hfile : v'.file ino = f') (hsolid : f'.attr.isDir → Solid v' ino) :
    Good g (update F ino (some f')) v' where
  owned := by
    rw [Volume.live_update hf]
    exact ht.owned
  padded := h.padded.mono ht.zmap
  numbered := by
    rw [ht.imap]
    exact h.numbered
  used := by
    rw [Volume.live_update hf, ht.imap]
    exact h.used
  file := by
    intro ino' f'' hf''
    by_cases hne : ino' = ino
    · subst hne
      rw [update_self] at hf''
      exact hfile.trans (Option.some.inj hf'')
    · rw [update_of_ne hne] at hf''
      rw [ht.file ⟨_, hf''⟩ hne]
      exact h.file hf''
  solid := by
    intro ino' f'' hf'' hdir
    by_cases hne : ino' = ino
    · subst hne
      rw [update_self] at hf''
      obtain rfl := Option.some.inj hf''
      exact hsolid hdir
    · rw [update_of_ne hne] at hf''
      refine (h.solid hf'' hdir).keep ht ⟨_, hf''⟩ ?_
      rw [ht.file ⟨_, hf''⟩ hne]

/-- `read_inode` of an inode in use. -/
theorem Stores.readInode (h : Stores g d v F) (hf : F ino = some f) :
    readInode g d ino = some (v.inode ino) ∧ (v.inode ino).attr = f.attr :=
  ⟨h.shows.readInode (h.good.owned.number ⟨f, hf⟩), congrArg File.attr (h.good.file hf)⟩

theorem Stores.size (h : Stores g d v F) (hf : F ino = some f) :
    (v.inode ino).iSize = f.attr.iSize := by
  have hsize := congrArg Inode.iSize (h.readInode hf).2
  exact hsize

theorem Stores.readInodeInto (h : Stores g d v F) (hf : F ino = some f) :
    readInodeInto g d ino = v.inode ino :=
  h.shows.readInodeInto (h.good.owned.number ⟨f, hf⟩)

/-- `write_inode` of an inode in use, with the zones it has. -/
theorem Stores.writeInode (h : Stores g d v F) (hf : F ino = some f)
    (hzone : i.iZone = (v.inode ino).iZone) (hwf : i.Wf)
    (hdir : i.isDir → f.attr.isDir ∧ i.iSize = f.attr.iSize) :
    (writeInode g d ino i).1 = true ∧
      Stores g (writeInode g d ino i).2 (v.setInode ino i)
        (update F ino (some { f with attr := i.attr })) := by
  have hino := h.good.owned.number ⟨f, hf⟩
  obtain ⟨hok, hs'⟩ := h.shows.writeInode hino hwf
  have ht := h.good.owned.touched_setInode hzone
  have hfile : (v.setInode ino i).file ino = { f with attr := i.attr } := by
    rw [file_setInode v hzone, update_self, h.good.file hf]
  refine ⟨hok, hs', h.good.touch hf ht hfile fun hd ↦ ?_⟩
  obtain ⟨hd', hsize⟩ := hdir hd
  have hsize' : i.iSize = (v.inode ino).iSize := hsize.trans (h.size hf).symm
  have hinode : (v.setInode ino i).inode ino = i := update_self ..
  refine ⟨fun {b} hb ↦ ?_, ?_⟩
  · rw [hinode, nblocks, hsize'] at hb
    rw [blockZone_setInode v hzone]
    exact (h.good.solid hf hd').zone hb
  · rw [hinode, hsize']
    exact (h.good.solid hf hd').size

/-- The file with another number of links. -/
def File.setNlinks (f : File) (n : Nat) : File := { f with attr := { f.attr with iNlinks := n } }

/-- The number of links of an inode in use is changed. -/
theorem Stores.updateNlinks (h : Stores g d v F) (hf : F ino = some f) (φ : Nat → Nat)
    (hφ : ∀ n < 2 ^ 16, φ n < 2 ^ 16) :
    ∃ v', v'.imap = v.imap ∧ v'.zmap = v.zmap ∧ Stores g (Fs.updateNlinks g d ino φ) v'
      (update F ino (some (f.setNlinks (φ f.attr.iNlinks)))) := by
  have hattr := (h.readInode hf).2
  have hwf := h.shows.wf ino
  rw [Fs.updateNlinks, h.readInodeInto hf]
  have hnew : ({ v.inode ino with iNlinks := φ (v.inode ino).iNlinks } : Inode).attr =
      (f.setNlinks (φ f.attr.iNlinks)).attr :=
    congrArg (fun i : Inode ↦ ({ i with iNlinks := φ i.iNlinks } : Inode)) hattr
  have hw := (h.writeInode hf (i := { v.inode ino with iNlinks := φ (v.inode ino).iNlinks }) rfl
    { hwf with nlinks := hφ _ hwf.nlinks } fun hd ↦ ⟨hattr ▸ hd, h.size hf⟩).2
  rw [hnew] at hw
  exact ⟨v.setInode ino _, rfl, rfl, hw⟩

/-! ## Directories -/

theorem Stores.dirLookup (h : Stores g d v F) (hf : F ino = some f) (name : List UInt8) :
    dirLookup g d ino name = if f.attr.isDir then f.find name else none := by
  rw [h.shows.dirLookup (h.good.owned.readable ⟨f, hf⟩), h.good.file hf]

/-- `dir_add` to a directory in use.  `P` is what the caller wants to know about the zones. -/
theorem Stores.dirAdd (h : Stores g d v F) (hf : F dir = some f) (hdir : f.attr.isDir)
    {S : Slot → Prop} {P : View → Prop} (hsup : Supply g F.Live dir S P) (hP : P v)
    (hS : ∀ s, slotOf (nblocks f.attr) = some s → ∀ t ∈ s.path, S t) (hname : IsCString name)
    (hpos : ino ≠ 0) (hlt : ino < 2 ^ 32) :
    ∃ v', v'.imap = v.imap ∧ P v' ∧
      (∀ {x s}, F.Live x → x ≠ dir → v'.zone x s = v.zone x s) ∧
      ((∃ f', f.Added name ino f' ∧ (Fs.dirAdd g d dir name ino).1 = true ∧
          ((∀ e < f.cap, f.ino e ≠ 0) ∨ v'.zmap = v.zmap) ∧
          Stores g (Fs.dirAdd g d dir name ino).2 v' (update F dir (some f'))) ∨
        (Fs.dirAdd g d dir name ino).1 = false ∧ Stores g (Fs.dirAdd g d dir name ino).2 v' F ∧
          Crowded f dir v') := by
  have hl : F.Live dir := ⟨f, hf⟩
  have hn : nblocks (v.inode dir) = nblocks f.attr := by
    rw [← nblocks_attr, (h.readInode hf).2]
  obtain ⟨v', hs', ht, hP', hsolid, hcases⟩ := h.shows.dirAdd hsup hl h.good.owned hP
    (by rwa [hn]) (h.good.solid hf hdir) hname hpos hlt
  rw [h.good.file hf] at hcases
  refine ⟨v', ht.imap, hP', fun hx hne ↦ ht.other hx hne, ?_⟩
  rcases hcases with ⟨hres, hadd, hzmap⟩ | ⟨hres, hsame, hcrowded⟩
  · exact .inl ⟨v'.file dir, hadd, hres, hzmap, hs', h.good.touch hf ht rfl fun _ ↦ hsolid⟩
  · have hkeep := h.good.touch hf ht hsame fun _ ↦ hsolid
    rw [← hf, update_eq_self] at hkeep
    exact .inr ⟨hres, ⟨hs', hkeep⟩, hcrowded⟩

/-- `dir_add` that fails, on any file in use. -/
theorem Stores.dirAdd_fails (h : Stores g d v F) (hf : F dir = some f) {S : Slot → Prop}
    {P : View → Prop} (hsup : Supply g F.Live dir S P) (hP : P v)
    (hS : ∀ s, slotOf (nblocks f.attr) = some s → ∀ t ∈ s.path, S t)
    (hfalse : (Fs.dirAdd g d dir name ino).1 = false) :
    ∃ v', v'.imap = v.imap ∧ P v' ∧ Stores g (Fs.dirAdd g d dir name ino).2 v' F ∧
      Crowded f dir v' := by
  have hl : F.Live dir := ⟨f, hf⟩
  have hn : nblocks (v.inode dir) = nblocks f.attr := by
    rw [← nblocks_attr, (h.readInode hf).2]
  obtain ⟨v', hs', ht, hP', hsame, hcrowded⟩ :=
    h.shows.dirAdd_fails h.good.owned hl h.good.padded hsup hP (by rwa [hn]) hfalse
  rw [h.good.file hf] at hcrowded hsame
  have hkeep := h.good.touch hf ht hsame fun hd ↦
    (h.good.solid hf hd).keep ht hl (by rw [hsame, h.good.file hf])
  rw [← hf, update_eq_self] at hkeep
  exact ⟨v', ht.imap, hP', ⟨hs', hkeep⟩, hcrowded⟩

theorem Stores.dirRemove (h : Stores g d v F) (hf : F dir = some f) (hname : IsCString name) :
    (f.find name = none ∧ Fs.dirRemove g d dir name = d) ∨
      ∃ e f' v', FirstWith f.entry (name.take 60) e ∧ f.Removed e f' ∧ v'.imap = v.imap ∧
        v'.zmap = v.zmap ∧
        Stores g (Fs.dirRemove g d dir name) v' (update F dir (some f')) := by
  have hl : F.Live dir := ⟨f, hf⟩
  rcases h.shows.dirRemove h.good.owned hl hname with
    ⟨hnone, heq⟩ | ⟨e, v', hfirst, hrem, hs', ht, -, hzmap⟩
  · rw [h.good.file hf] at hnone
    exact .inl ⟨(File.find_eq_none hname).mpr hnone, heq⟩
  · rw [h.good.file hf] at hfirst hrem
    refine .inr ⟨e, v'.file dir, v', hfirst, hrem, ht.imap, hzmap, hs',
      h.good.touch hf ht rfl fun hd ↦ ?_⟩
    rw [hrem.attr] at hd
    exact (h.good.solid hf hd).keep ht hl (by rw [hrem.attr, h.good.file hf])

theorem Stores.dirIsEmpty (h : Stores g d v F) (hf : F ino = some f) :
    dirIsEmpty g d ino = if (findFirst f.proper 0 f.cap).isSome then 0 else 1 := by
  have hl : F.Live ino := ⟨f, hf⟩
  rw [Fs.dirIsEmpty, (h.readInode hf).1]
  obtain rfl := h.good.file hf
  exact h.shows.emptyFrom (h.good.owned.readable hl) 0 (nblocks (v.inode ino))

/-! ## Inodes come and go -/

/-- A file without blocks. -/
def File.empty (i : Inode) : File where
  attr := i.attr
  block := fun _ ↦ Bytes.zero

/-- A fresh inode holds no zone. -/
theorem zone_fresh (hzero : v.data 0 = Bytes.zero) (hi : (v.inode ino).iZone = fun _ ↦ 0)
    (s : Slot) : v.zone ino s = 0 := by
  induction s using Slot.descend with
  | top k => exact congrFun hi k
  | child s p j hs ih => rw [v.zone_child ino hs, ih, View.word, hzero, Bytes.get32_zero]

theorem blockZone_fresh (h : ∀ s, v.zone ino s = 0) (fb : Nat) : v.blockZone ino fb = 0 := by
  unfold View.blockZone
  cases slotOf fb with
  | none => rfl
  | some s => exact h s

/-- An inode is marked and written without zones. -/
theorem Good.fresh (h : Good g F v) (hino : IsIno g ino) (hzone : i.iZone = fun _ ↦ 0)
    (hsize : i.iSize = 0) :
    Good g (update F ino (some (File.empty i))) ((v.setImap ino true).setInode ino i) := by
  set v' := (v.setImap ino true).setInode ino i with hv'
  have hself : v'.inode ino = i := update_self ..
  have hother : ∀ {x}, x ≠ ino → v'.inode x = v.inode x := fun hx ↦ update_of_ne hx ..
  have hnew : ∀ s, v'.zone ino s = 0 :=
    zone_fresh (v := v') h.owned.zero (by rw [hself, hzone])
  have hold : ∀ {x}, x ≠ ino → ∀ s, v'.zone x s = v.zone x s := by
    intro x hx s
    apply View.zone_congr
    · rw [hother hx]
    · intro p _
      rfl
  have hlive : ∀ {x}, Volume.Live (update F ino (some (File.empty i))) x → x ≠ ino →
      F.Live x := by
    rintro x ⟨f, hf⟩ hx
    rw [update_of_ne hx] at hf
    exact ⟨f, hf⟩
  have hfile : ∀ {x}, x ≠ ino → v'.file x = v.file x := by
    intro x hx
    refine File.ext (congrArg Inode.attr (hother hx)) (funext fun fb ↦ ?_)
    change v.data (v'.blockZone x fb) = v.data (v.blockZone x fb)
    unfold View.blockZone
    cases slotOf fb with
    | none => rfl
    | some s => exact congrArg v.data (hold hx s)
  constructor
  case owned =>
    refine h.owned.shrink (fun x hl ↦ ?_) (fun x s hl hz ↦ ?_) (fun x s hl hz ↦ ?_) h.owned.zero
    · by_cases hx : x = ino
      · exact hx ▸ hino
      · exact h.owned.number (hlive hl hx)
    · have hx : x ≠ ino := by
        rintro rfl
        exact hz (hnew s)
      exact ⟨hlive hl hx, hold hx s⟩
    · have hx : x ≠ ino := by
        rintro rfl
        exact hz (hnew s)
      rw [hold hx] at hz
      exact h.owned.marked (hlive hl hx) hz
  case padded => exact h.padded
  case numbered =>
    intro n hn
    by_cases hne : n = ino
    · exact hne ▸ hino
    · exact h.numbered ((update_of_ne hne ..).symm.trans hn)
  case used =>
    intro x hl
    by_cases hx : x = ino
    · subst hx
      exact update_self ..
    · exact (update_of_ne hx ..).trans (h.used (hlive hl hx))
  case file =>
    intro x f hf
    by_cases hx : x = ino
    · subst hx
      rw [update_self] at hf
      obtain rfl := Option.some.inj hf
      refine File.ext (congrArg Inode.attr hself) (funext fun fb ↦ ?_)
      change v.data (v'.blockZone x fb) = Bytes.zero
      rw [blockZone_fresh hnew, h.owned.zero]
    · rw [update_of_ne hx] at hf
      rw [hfile hx]
      exact h.file hf
  case solid =>
    intro x f hf hdir
    by_cases hx : x = ino
    · subst hx
      have hn : nblocks i = 0 := by
        rw [nblocks, hsize]
        rfl
      constructor
      · intro b hb
        rw [hself, hn] at hb
        exact absurd hb (Nat.not_lt_zero b)
      · rw [hself, hsize]
    · rw [update_of_ne hx] at hf
      have hsolid := h.solid hf hdir
      constructor
      · intro b hb
        rw [hother hx] at hb
        have hz := hsolid.zone hb
        obtain ⟨s, hs, heq⟩ := slotOf_of_blockZone hz
        rw [blockZone_slot hs, hold hx, ← heq]
        exact hz
      · rw [hother hx]
        exact hsolid.size

/-- A file type and permissions fit into `i_mode`. -/
theorem mode_lt {type : Nat} (h : type < 2 ^ 16) (mode : Nat) :
    type ||| (mode &&& 0o7777) < 2 ^ 16 :=
  Nat.or_lt_two_pow h (lt_of_le_of_lt Nat.and_le_right (by decide))

theorem freshFile_wf (mode : Nat) : (freshFile mode).Wf :=
  { Inode.zero_wf with mode := mode_lt (by decide) mode, nlinks := (by decide : 1 < 2 ^ 16) }

theorem freshDir_wf (mode : Nat) : (freshDir mode).Wf :=
  { Inode.zero_wf with mode := mode_lt (by decide) mode, nlinks := (by decide : 2 < 2 ^ 16) }

/-- `alloc_inode` and the `write_inode` behind it. -/
theorem Stores.allocInode (h : Stores g d v F) (hi : i.Wf) (hzone : i.iZone = fun _ ↦ 0)
    (hsize : i.iSize = 0) :
    (Full v.imap ∧ Fs.allocInode g d = (0, d)) ∨
      ∃ ino, IsIno g ino ∧ Vacant v.imap ino ∧ F ino = none ∧ (Fs.allocInode g d).1 = ino ∧
        Stores g (Fs.writeInode g (Fs.allocInode g d).2 ino i).2
          ((v.setImap ino true).setInode ino i)
          (update F ino (some (File.empty i))) := by
  rcases h.shows.allocInode fun n hn ↦ h.good.numbered hn.1 with
    hfull | ⟨ino, hino, hvac, hres, hs'⟩
  · exact .inl hfull
  · have hnone : F ino = none := by
      cases hF : F ino with
      | none => rfl
      | some f =>
        have hused := h.good.used ⟨f, hF⟩
        rw [hvac.1] at hused
        cases hused
    exact .inr ⟨ino, hino, hvac, hnone, hres, (hs'.writeInode hino hi).2,
      h.good.fresh hino hzone hsize⟩

/-- An inode is not looked at any more. -/
theorem Good.forget (h : Good g F v) (ino : Nat) : Good g (update F ino none) v where
  owned := h.owned.congr (fun _ hl ↦ (Volume.live_of_forget hl).1) (fun _ _ _ ↦ rfl) rfl
    h.owned.zero
  padded := h.padded
  numbered := h.numbered
  used := fun hl ↦ h.used (Volume.live_of_forget hl).1
  file := by
    intro ino' f hf
    obtain ⟨-, hne⟩ := Volume.live_of_forget ⟨f, hf⟩
    rw [update_of_ne hne] at hf
    exact h.file hf
  solid := by
    intro ino' f hf hdir
    obtain ⟨-, hne⟩ := Volume.live_of_forget ⟨f, hf⟩
    rw [update_of_ne hne] at hf
    exact h.solid hf hdir

/-- `free_inode`. -/
theorem Stores.freeInode (h : Stores g d v F) (hino : IsIno g ino) :
    Stores g (freeInode g d ino) (v.setImap ino false) (update F ino none) := by
  have hgood := h.good.forget ino
  refine ⟨h.shows.freeInode hino, ?_⟩
  constructor
  case owned => exact hgood.owned.congr (fun _ ↦ id) (fun _ _ _ ↦ rfl) rfl hgood.owned.zero
  case padded => exact hgood.padded
  case numbered =>
    intro n hn
    by_cases hne : n = ino
    · exact hne ▸ hino
    · exact h.good.numbered ((update_of_ne hne ..).symm.trans hn)
  case used =>
    intro x hl
    exact (update_of_ne (Volume.live_of_forget hl).2 ..).trans (hgood.used hl)
  case file => exact hgood.file
  case solid =>
    intro x f hf hdir
    exact ⟨(hgood.solid hf hdir).zone, (hgood.solid hf hdir).size⟩

/-! ## Releasing zones -/

/-- The zones in the slots `S` of `ino` have been unmarked, and nothing else has changed. -/
structure Released (g : Superblock) (ino : Nat) (S : Slot → Prop) (v v' : View) : Prop where
  imap : v'.imap = v.imap
  inode : v'.inode = v.inode
  data : v'.data = v.data
  zmap : ∀ n, v'.zmap n = true ↔
    v.zmap n = true ∧ ∀ s, S s → v.zone ino s ≠ 0 → zoneBit g (v.zone ino s) ≠ n

section Release

variable {S S' : Slot → Prop}

theorem Released.zone_eq (h : Released g ino S v v') (x : Nat) (s : Slot) :
    v'.zone x s = v.zone x s := by
  apply View.zone_congr
  · rw [h.inode]
  · intro p _
    rw [h.data]

theorem Released.refl (v : View) : Released g ino (fun _ ↦ False) v v :=
  ⟨rfl, rfl, rfl, fun _ ↦ ⟨fun hn ↦ ⟨hn, fun _ hc ↦ hc.elim⟩, And.left⟩⟩

theorem Released.trans {v'' : View} (h : Released g ino S v v') (h' : Released g ino S' v' v'') :
    Released g ino (fun s ↦ S s ∨ S' s) v v'' where
  imap := h'.imap.trans h.imap
  inode := h'.inode.trans h.inode
  data := h'.data.trans h.data
  zmap := by
    intro n
    rw [h'.zmap, h.zmap]
    simp only [h.zone_eq]
    constructor
    · rintro ⟨⟨hn, h₁⟩, h₂⟩
      exact ⟨hn, fun s hs ↦ hs.elim (h₁ s) (h₂ s)⟩
    · rintro ⟨hn, h₁⟩
      exact ⟨⟨hn, fun s hs ↦ h₁ s (.inl hs)⟩, fun s hs ↦ h₁ s (.inr hs)⟩

/-- Of the slots only those matter that hold a zone. -/
theorem Released.congr (h : Released g ino S v v')
    (hS : ∀ s, v.zone ino s ≠ 0 → (S' s ↔ S s)) : Released g ino S' v v' where
  imap := h.imap
  inode := h.inode
  data := h.data
  zmap := by
    intro n
    rw [h.zmap]
    refine and_congr_right fun _ ↦ forall_congr' fun s ↦ ?_
    constructor
    · exact fun hs hs' hz ↦ hs ((hS s hz).mp hs') hz
    · exact fun hs hs' hz ↦ hs ((hS s hz).mpr hs') hz

theorem Released.file_eq (h : Released g ino S v v') (x : Nat) : v'.file x = v.file x := by
  refine File.ext (by change (v'.inode x).attr = _; rw [h.inode]; rfl) (funext fun fb ↦ ?_)
  change v'.data (v'.blockZone x fb) = v.data (v.blockZone x fb)
  have hzone : v'.blockZone x fb = v.blockZone x fb := by
    unfold View.blockZone
    cases slotOf fb with
    | none => rfl
    | some s => exact h.zone_eq x s
  rw [hzone, h.data]

/-- A bit that is clear afterwards was clear before or belongs to a zone that was released. -/
theorem Released.cases (h : Released g ino S v v') (hn : v'.zmap n = false) :
    v.zmap n = false ∨ ∃ s, S s ∧ v.zone ino s ≠ 0 ∧ zoneBit g (v.zone ino s) = n := by
  by_contra hnot
  obtain ⟨hset, hother⟩ := not_or.mp hnot
  have := (h.zmap n).mpr ⟨Bool.eq_true_of_not_eq_false hset,
    fun s hS hz hbit ↦ hother ⟨s, hS, hz, hbit⟩⟩
  rw [hn] at this
  cases this

/-- The zones of the other inodes stay marked. -/
theorem Released.marked (h : Released g ino S v v') {live : Nat → Prop} (ho : Owned g live v)
    (hl : live ino) {s : Slot} (hx : live x) (hother : x = ino → ¬S s) (hz : v.zone x s ≠ 0) :
    Marked g v' (v.zone x s) := by
  obtain ⟨hzone, hset⟩ := ho.marked hx hz
  refine ⟨hzone, (h.zmap _).mpr ⟨hset, fun s' hS hz' hbit ↦ ?_⟩⟩
  have hzone' := (ho.marked hl hz').1
  obtain ⟨rfl, rfl⟩ := ho.inj hl hx hz' (zoneBit_inj hzone hzone' hbit.symm)
  exact hother rfl hS

theorem Released.readable (h : Released g ino S v v') (hr : Readable g v x) : Readable g v' x := by
  refine ⟨hr.number, fun s ↦ ?_, by rw [h.data]; exact hr.zero⟩
  rw [h.zone_eq]
  exact hr.range s

theorem Released.padded (h : Released g ino S v v') (hr : Readable g v ino) (hp : Padded g v) :
    Padded g v' := by
  intro n hn
  rcases h.cases hn with hn | ⟨s, -, hz, rfl⟩
  · exact hp n hn
  · obtain ⟨hlo, hhi⟩ := (hr.range s).resolve_left hz
    unfold zoneBit
    omega

theorem Released.solid (h : Released g ino S v v') (hs : Solid v x) : Solid v' x := by
  constructor
  · intro b hb
    rw [h.inode] at hb
    have hz := hs.zone hb
    obtain ⟨s, hslot, heq⟩ := slotOf_of_blockZone hz
    rw [blockZone_slot hslot, h.zone_eq, ← heq]
    exact hz
  · rw [h.inode]
    exact hs.size

/-- Zones of an inode that is not looked at any more may be unmarked. -/
theorem Good.release (h : Good g F v) (hl : F.Live ino) (hr : Released g ino S v v') :
    Good g (update F ino none) v' := by
  have hgood := h.forget ino
  constructor
  case owned =>
    refine hgood.owned.shrink (fun x hx ↦ hgood.owned.number hx)
      (fun x s hx _ ↦ ⟨hx, hr.zone_eq x s⟩) (fun x s hx hz ↦ ?_)
      (by rw [hr.data]; exact h.owned.zero)
    obtain ⟨hlx, hne⟩ := Volume.live_of_forget hx
    rw [hr.zone_eq] at hz
    exact hr.marked h.owned hl hlx (fun heq ↦ absurd heq hne) hz
  case padded => exact hr.padded (h.owned.readable hl) h.padded
  case numbered =>
    rw [hr.imap]
    exact h.numbered
  case used =>
    rw [hr.imap]
    exact hgood.used
  case file =>
    intro x f hf
    rw [hr.file_eq]
    exact hgood.file hf
  case solid =>
    intro x f hf hdir
    exact hr.solid (hgood.solid hf hdir)

theorem Shows.freeZone_released (hs : Shows g d v) {s : Slot}
    (hzone : IsZone g (v.zone ino s)) :
    ∃ v', Shows g (Fs.freeZone g d (v.zone ino s)) v' ∧ Released g ino (· = s) v v' := by
  refine ⟨_, hs.freeZone hzone, rfl, rfl, rfl, fun n ↦ ?_⟩
  change update v.zmap (zoneBit g (v.zone ino s)) false n = true ↔ _
  by_cases hn : n = zoneBit g (v.zone ino s)
  · subst hn
    rw [update_self]
    constructor
    · intro hc
      cases hc
    · rintro ⟨-, hc⟩
      by_cases hz : v.zone ino s = 0
      · have hfirst := hs.geometry.table
        rw [hz] at hzone
        have hpos : 0 < g.sFirstdatazone := by
          unfold Superblock.inodeStart Superblock.zmapStart Superblock.imapStart at hfirst
          omega
        exact absurd rfl (hzone.pos hpos)
      · exact absurd rfl (hc s rfl hz)
  · rw [update_of_ne hn]
    constructor
    · rintro hset
      refine ⟨hset, ?_⟩
      rintro s' rfl - hc
      exact hn hc.symm
    · exact And.left

/-- The loop that frees the zones an inode or a table names. -/
theorem Shows.freeZones (hs : Shows g d v) (hr : Readable g v ino) (zone : Nat → Nat)
    (slot : Nat → Slot) {k : Nat} (hheld : ∀ j, k ≤ j → j < k + n → zone j = v.zone ino (slot j)) :
    ∃ v', Shows g (freeZones g d zone k n) v' ∧
      Released g ino (fun s ↦ ∃ j, k ≤ j ∧ j < k + n ∧ s = slot j) v v' := by
  induction n generalizing k d v with
  | zero =>
    refine ⟨v, hs, (Released.refl v).congr fun s _ ↦ ?_⟩
    refine iff_of_false ?_ id
    rintro ⟨j, h₁, h₂, -⟩
    omega
  | succ n ih =>
    have hk := hheld k le_rfl (by omega)
    rw [Fs.freeZones, hk]
    by_cases hz : v.zone ino (slot k) = 0
    · rw [if_pos hz]
      obtain ⟨v', hs', hr'⟩ := ih (k := k + 1) hs hr fun j hj hjn ↦ hheld j (by omega) (by omega)
      refine ⟨v', hs', hr'.congr fun s hsz ↦ ?_⟩
      constructor
      · rintro ⟨j, h₁, h₂, rfl⟩
        have hjk : j ≠ k := by
          rintro rfl
          exact hsz hz
        exact ⟨j, by omega, by omega, rfl⟩
      · rintro ⟨j, h₁, h₂, rfl⟩
        exact ⟨j, by omega, by omega, rfl⟩
    · rw [if_neg hz]
      obtain ⟨v₁, hs₁, hr₁⟩ := hs.freeZone_released ((hr.range (slot k)).resolve_left hz)
      obtain ⟨v₂, hs₂, hr₂⟩ := ih (k := k + 1) hs₁ (hr₁.readable hr) fun j hj hjn ↦ by
        rw [hr₁.zone_eq]
        exact hheld j (by omega) (by omega)
      refine ⟨v₂, hs₂, (hr₁.trans hr₂).congr fun s _ ↦ ?_⟩
      constructor
      · rintro ⟨j, h₁, h₂, rfl⟩
        by_cases hjk : j = k
        · exact .inl (hjk ▸ rfl)
        · exact .inr ⟨j, by omega, by omega, rfl⟩
      · rintro (rfl | ⟨j, h₁, h₂, rfl⟩)
        · exact ⟨k, le_rfl, by omega, rfl⟩
        · exact ⟨j, by omega, by omega, rfl⟩

/-- The zones that the inode itself names are freed. -/
theorem Shows.freeTops (hs : Shows g d v) (hr : Readable g v ino) (hn : n ≤ 10) :
    ∃ v', Shows g (Fs.freeZones g d (v.inode ino).iZone 0 n) v' ∧
      Released g ino (fun s ↦ ∃ k : Fin 10, k < n ∧ s = .top k) v v' := by
  obtain ⟨v', hs', hr'⟩ := hs.freeZones hr (v.inode ino).iZone
    (fun j ↦ .top (Fin.ofNat 10 j)) (k := 0) (n := n) fun j _ hj ↦ by
      have hval : (Fin.ofNat 10 j).val = j := Nat.mod_eq_of_lt (by omega)
      change _ = (v.inode ino).iZone (Fin.ofNat 10 j).val
      rw [hval]
  refine ⟨v', hs', hr'.congr fun s _ ↦ ?_⟩
  constructor
  · rintro ⟨k, hk, rfl⟩
    exact ⟨k, Nat.zero_le _, by omega, congrArg Slot.top (Fin.ext (Nat.mod_eq_of_lt k.2).symm)⟩
  · rintro ⟨j, -, hj, rfl⟩
    refine ⟨Fin.ofNat 10 j, ?_, rfl⟩
    change j % 10 < n
    omega

/-- The slots whose zones `minixfs_unlink` frees. -/
def Slot.Shallow : Slot → Prop
  | top k => k.val < 8
  | ind _ => True
  | dbl _ => False
  | sng _ _ => False

/-- The zones that `minixfs_unlink` looks for are freed. -/
theorem Shows.freeFileZones (hs : Shows g d v) (hr : Readable g v ino)
    (hi : i.iZone = (v.inode ino).iZone) :
    ∃ v', Shows g (freeFileZones g d i) v' ∧ Released g ino Slot.Shallow v v' := by
  obtain ⟨v₁, hs₁, hr₁⟩ := hs.freeTops hr (n := 7) (by decide)
  have htop : (v.inode ino).iZone 7 = v.zone ino (.top 7) := rfl
  have hseven : ∀ k : Fin 10, v.zone ino (.top k) ≠ 0 → k.val < 8 → ¬k.val < 7 → k = 7 :=
    fun k _ h₁ h₂ ↦ Fin.ext (by change k.val = 7; omega)
  simp only [Fs.freeFileZones, hi, htop]
  by_cases hz : v.zone ino (.top 7) = 0
  · rw [if_pos hz]
    refine ⟨v₁, hs₁, hr₁.congr fun s hsz ↦ ?_⟩
    cases s with
    | top k =>
      constructor
      · intro hk
        refine ⟨k, ?_, rfl⟩
        by_contra hlt
        exact hsz ((hseven k hsz hk hlt) ▸ hz)
      · rintro ⟨k', hk', heq⟩
        obtain rfl := Slot.top.inj heq
        exact Nat.lt_succ_of_lt hk'
    | ind j =>
      refine absurd ?_ hsz
      rw [v.zone_child ino (s := .ind j) rfl, hz, View.word, hr.zero, Bytes.get32_zero]
    | dbl j =>
      refine iff_of_false id ?_
      rintro ⟨_, _, hc⟩
      cases hc
    | sng j k =>
      refine iff_of_false id ?_
      rintro ⟨_, _, hc⟩
      cases hc
  · rw [if_neg hz]
    have hzone := (hr.range (.top 7)).resolve_left hz
    have hread : Fs.readInto (Fs.freeZones g d (v.inode ino).iZone 0 7) (v.zone ino (.top 7)) =
        v.slot ino (.top 7) := by
      rw [hs₁.readInto (.inr hzone), hr₁.data]
      rfl
    rw [hread]
    obtain ⟨v₂, hs₂, hr₂⟩ := hs₁.freeZones (hr₁.readable hr)
      (fun k ↦ (v.slot ino (.top 7)).get32 (4 * k)) (fun j ↦ .ind (Fin.ofNat 256 j))
      (k := 0) (n := 256) fun j _ hj ↦ by
        have hval : (Fin.ofNat 256 j).val = j := Nat.mod_eq_of_lt (by omega)
        rw [hr₁.zone_eq, v.zone_child ino (s := .ind (Fin.ofNat 256 j)) rfl, hval]
        rfl
    have hr' := hr₁.trans hr₂
    have hzone₂ : IsZone g (v₂.zone ino (.top 7)) := (hr'.zone_eq ..).symm ▸ hzone
    obtain ⟨v₃, hs₃, hr₃⟩ := hs₂.freeZone_released hzone₂
    rw [hr'.zone_eq] at hs₃
    refine ⟨v₃, hs₃, (hr'.trans hr₃).congr fun s hsz ↦ ?_⟩
    cases s with
    | top k =>
      constructor
      · intro hk
        by_cases hlt : k.val < 7
        · exact .inl (.inl ⟨k, hlt, rfl⟩)
        · exact .inr (congrArg Slot.top (hseven k hsz hk hlt))
      · rintro ((⟨k', hk', heq⟩ | ⟨j, -, -, heq⟩) | heq)
        · obtain rfl := Slot.top.inj heq
          exact Nat.lt_succ_of_lt hk'
        · cases heq
        · obtain rfl := Slot.top.inj heq
          change (7 : Nat) < 8
          decide
    | ind j =>
      refine iff_of_true trivial (.inl (.inr ⟨j, Nat.zero_le _, by omega, ?_⟩))
      exact congrArg Slot.ind (Fin.ext (Nat.mod_eq_of_lt j.2).symm)
    | dbl j =>
      refine iff_of_false id ?_
      rintro ((⟨_, _, hc⟩ | ⟨_, _, _, hc⟩) | hc) <;> cases hc
    | sng j k =>
      refine iff_of_false id ?_
      rintro ((⟨_, _, hc⟩ | ⟨_, _, _, hc⟩) | hc) <;> cases hc

end Release

/-- The loop of `minixfs_rmdir` that frees the zones of the directory. -/
theorem Stores.freeTops (h : Stores g d v F) (hl : F.Live ino) :
    ∃ v', Stores g (Fs.freeZones g d (v.inode ino).iZone 0 10) v' (update F ino none) ∧
      Released g ino (fun s ↦ ∃ k : Fin 10, s = .top k) v v' := by
  obtain ⟨v', hs', hr⟩ := h.shows.freeTops (h.good.owned.readable hl) le_rfl
  refine ⟨v', ⟨hs', h.good.release hl hr⟩, hr.congr fun s _ ↦ ?_⟩
  constructor
  · rintro ⟨k, rfl⟩
    exact ⟨k, k.2, rfl⟩
  · rintro ⟨k, -, rfl⟩
    exact ⟨k, rfl⟩

theorem Stores.freeFileZones (h : Stores g d v F) (hl : F.Live ino)
    (hi : i.iZone = (v.inode ino).iZone) :
    ∃ v', Stores g (Fs.freeFileZones g d i) v' (update F ino none) ∧
      Released g ino Slot.Shallow v v' := by
  obtain ⟨v', hs', hr⟩ := h.shows.freeFileZones (h.good.owned.readable hl) hi
  exact ⟨v', ⟨hs', h.good.release hl hr⟩, hr⟩

end

end FentoOS.Fs
