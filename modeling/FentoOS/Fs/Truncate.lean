import FentoOS.Fs.Contents
import FentoOS.Fs.Create

/-!
# Truncation

`minixfs_open` with `O_TRUNC` frees the seven direct zones of a file, clears their slots and
sets the size to zero.  The other slots keep their zones.  What a file held there is
beyond its end for the moment, and part of it again as soon as the file has grown.

So the file behaves as a new one if it held nothing but direct zones.  This is stated about
runs of writes, to this file and to others, that are carried out in full.
-/

namespace FentoOS.Fs

open FentoOS.Lib Function

/-- The slots that truncation clears. -/
def Slot.Direct (s : Slot) : Prop := ∃ k : Fin 10, k.val < 7 ∧ s = .top k

/-- The file that is left. -/
def File.truncated (f : File) : File where
  attr := f.attr.resize 0
  block := fun b ↦ if b < 7 then Bytes.zero else f.block b

section

variable {g : Superblock} {d : Disk} {F : Volume} {v v' : View} {ino : Nat} {f : File}

/-- The inode is written with its direct zones cleared. -/
def View.truncate (v : View) (ino : Nat) : View := v.setInode ino (truncated (v.inode ino))

theorem View.truncate_other (v : View) {x : Nat} (hx : x ≠ ino) :
    (v.truncate ino).inode x = v.inode x ∧ ∀ s, (v.truncate ino).zone x s = v.zone x s :=
  ⟨update_of_ne hx .., zone_setInode_of_ne v _ hx⟩

theorem View.truncate_zone (v : View) (s : Slot) :
    (s.Direct → (v.truncate ino).zone ino s = 0) ∧
      (¬s.Direct → (v.truncate ino).zone ino s = v.zone ino s) := by
  have hinode : (v.truncate ino).inode ino = truncated (v.inode ino) := update_self ..
  constructor
  · rintro ⟨k, hk, rfl⟩
    rw [View.zone, hinode]
    exact if_pos hk
  · intro hs
    cases s with
    | top k =>
      rw [View.zone, hinode]
      exact if_neg fun hk ↦ hs ⟨k, hk, rfl⟩
    | ind j => rw [View.zone, hinode]; rfl
    | dbl j => rw [View.zone, hinode]; rfl
    | sng j k => rw [View.zone, hinode]; rfl

theorem slotOf_direct {b : Nat} {s : Slot} (h : slotOf b = some s) : s.Direct ↔ b < 7 := by
  rcases slotOf_cases b with ⟨hb, heq⟩ | ⟨hb, _, heq⟩ | ⟨hb, -, _, heq⟩ | ⟨-, -, -, heq⟩
  · cases heq.symm.trans h
    exact ⟨fun _ ↦ hb, fun _ ↦ ⟨_, hb, rfl⟩⟩
  · cases heq.symm.trans h
    exact ⟨fun ⟨_, _, hs⟩ ↦ Slot.noConfusion hs, fun hc ↦ absurd hc hb⟩
  · cases heq.symm.trans h
    exact ⟨fun ⟨_, _, hs⟩ ↦ Slot.noConfusion hs, fun hc ↦ absurd hc hb⟩
  · cases heq.symm.trans h

theorem View.truncate_blockZone (v : View) (b : Nat) :
    (v.truncate ino).blockZone ino b = if b < 7 then 0 else v.blockZone ino b := by
  unfold View.blockZone
  cases hs : slotOf b with
  | none => exact (ite_self 0).symm
  | some s =>
    rw [Option.elim_some, Option.elim_some]
    by_cases hb : b < 7
    · rw [if_pos hb]
      exact (v.truncate_zone s).1 ((slotOf_direct hs).mpr hb)
    · rw [if_neg hb]
      exact (v.truncate_zone s).2 fun hd ↦ hb ((slotOf_direct hs).mp hd)

theorem View.truncate_file (v : View) (hzero : v.data 0 = Bytes.zero) :
    (v.truncate ino).file ino = (v.file ino).truncated := by
  have hinode : (v.truncate ino).inode ino = truncated (v.inode ino) := update_self ..
  refine File.ext (congrArg Inode.attr hinode) (funext fun b ↦ ?_)
  change v.data ((v.truncate ino).blockZone ino b) = if b < 7 then Bytes.zero else v.block ino b
  rw [v.truncate_blockZone]
  split
  · exact hzero
  · rfl

/-- The direct zones of a file are unmarked and its slots cleared. -/
theorem Good.truncate (h : Good g F v) (hf : F ino = some f) (hreg : ¬f.attr.isDir)
    (hr : Released g ino Slot.Direct v v') :
    Good g (update F ino (some f.truncated)) (v'.truncate ino) := by
  have hl : F.Live ino := ⟨f, hf⟩
  have hother : ∀ {x}, x ≠ ino → (v'.truncate ino).file x = v.file x := by
    intro x hx
    obtain ⟨hinode, hzone⟩ := v'.truncate_other hx
    rw [← hr.file_eq x]
    refine File.ext (congrArg Inode.attr hinode) (funext fun b ↦ ?_)
    change v'.data ((v'.truncate ino).blockZone x b) = v'.data (v'.blockZone x b)
    unfold View.blockZone
    cases slotOf b with
    | none => rfl
    | some s => exact congrArg v'.data (hzone s)
  -- what is still in a slot was there before, and the slot is none of the cleared ones
  have hheld : ∀ x s, (v'.truncate ino).zone x s ≠ 0 →
      (v'.truncate ino).zone x s = v.zone x s ∧ (x = ino → ¬s.Direct) := by
    intro x s hz
    by_cases hx : x = ino
    · subst hx
      by_cases hs : s.Direct
      · exact absurd ((v'.truncate_zone s).1 hs) hz
      · exact ⟨((v'.truncate_zone s).2 hs).trans (hr.zone_eq x s), fun _ ↦ hs⟩
    · exact ⟨((v'.truncate_other hx).2 s).trans (hr.zone_eq x s), fun hc ↦ absurd hc hx⟩
  constructor
  case owned =>
    rw [Volume.live_update hf]
    refine h.owned.shrink (fun _ hx ↦ h.owned.number hx) (fun x s hx hz ↦ ⟨hx, (hheld x s hz).1⟩)
      (fun x s hx hz ↦ ?_) (by change v'.data 0 = _; rw [hr.data]; exact h.owned.zero)
    obtain ⟨heq, hs⟩ := hheld x s hz
    rw [heq] at hz
    exact hr.marked h.owned hl hx hs hz
  case padded => exact hr.padded (h.owned.readable hl) h.padded
  case numbered =>
    change ∀ {n}, v'.imap n = false → _
    rw [hr.imap]
    exact h.numbered
  case used =>
    change ∀ {ino}, _ → v'.imap ino = true
    rw [Volume.live_update hf, hr.imap]
    exact h.used
  case file =>
    intro x f' hf'
    by_cases hx : x = ino
    · subst hx
      rw [update_self] at hf'
      rw [v'.truncate_file (by rw [hr.data]; exact h.owned.zero), hr.file_eq, h.file hf]
      exact Option.some.inj hf'
    · rw [update_of_ne hx] at hf'
      rw [hother hx]
      exact h.file hf'
  case solid =>
    intro x f' hf' hdir
    by_cases hx : x = ino
    · subst hx
      rw [update_self] at hf'
      obtain rfl := Option.some.inj hf'
      exact absurd hdir hreg
    · rw [update_of_ne hx] at hf'
      obtain ⟨hinode, hzone⟩ := v'.truncate_other hx
      have hs := hr.solid (h.solid hf' hdir)
      refine ⟨fun {b} hb ↦ ?_, by rw [hinode]; exact hs.size⟩
      rw [hinode] at hb
      have hz := hs.zone hb
      obtain ⟨s, hslot, heq⟩ := slotOf_of_blockZone hz
      rw [blockZone_slot hslot, hzone, ← heq]
      exact hz

/-- The `O_TRUNC` part of `minixfs_open`, on a regular file. -/
theorem Stores.truncate (h : Stores g d v F) (hf : F ino = some f) (hreg : f.attr.isReg) :
    ∃ v', Released g ino Slot.Direct v v' ∧
      Stores g (Fs.truncate g d ino) (v'.truncate ino)
        (update F ino (some f.truncated)) := by
  have hl : F.Live ino := ⟨f, hf⟩
  have hattr := (h.readInode hf).2
  have hreg' : (v.inode ino).isReg := by
    have hmode := congrArg Inode.iMode hattr
    exact (congrArg (fun m ↦ m &&& 0o170000) hmode).trans hreg
  obtain ⟨v', hs, hr⟩ := h.shows.freeTops (h.good.owned.readable hl) (n := 7) (by decide)
  have hwf : (truncated (v'.inode ino)).Wf :=
    { hs.wf ino with
      size := (by decide : 0 < 2 ^ 32)
      zone := fun k ↦ by
        change (if k < 7 then 0 else (v'.inode ino).iZone k) < 2 ^ 32
        split
        · decide
        · exact (hs.wf ino).zone k
      zone_none := fun k hk ↦ by
        change (if k < 7 then 0 else (v'.inode ino).iZone k) = 0
        split
        · rfl
        · exact (hs.wf ino).zone_none k hk }
  refine ⟨v', hr, ?_, h.good.truncate hf hreg.not_isDir hr⟩
  have hw := (hs.writeInode (h.good.owned.number hl) hwf).2
  have htrunc : Fs.truncate g d ino = (Fs.writeInode g (Fs.freeZones g d (v.inode ino).iZone 0 7)
      ino (truncated (v.inode ino))).2 := by
    simp only [Fs.truncate, h.readInodeInto hf]
    exact if_pos hreg'
  rw [htrunc, ← congrFun hr.inode ino]
  rw [← congrFun hr.inode ino] at hw
  exact hw

end

/-! ## Writing in the tree -/

section

variable {fs : Minixfs} {ino : Nat} {f : File}

/-- `minixfs_write` to a file in use that is no directory keeps the file system well formed, and
what is found in the directories. -/
theorem WellFormed.minixfsWrite (h : WellFormed fs) (hf : fs.volume ino = some f)
    (hdir : ¬f.attr.isDir) (src : Bytes) (count : Nat) {offset : Nat} (hoffset : offset < 2 ^ 32) :
    WellFormed (minixfsWrite fs ino src count offset).2 ∧
      (minixfsWrite fs ino src count offset).2.mounted = fs.mounted ∧
      ∀ dir ≠ ino, (minixfsWrite fs ino src count offset).2.volume dir = fs.volume dir := by
  obtain ⟨k, f', fs', hres, hwrote, hsound, -, hmounted, -, -, -, hend⟩ :=
    h.sound.minixfsWrite hf hdir src count hoffset
  have hchanged : ∃ f'', fs'.volume = update fs.volume ino (some f'') ∧
      (f''.attr.isDir ↔ f.attr.isDir) ∧ f''.attr.iNlinks = f.attr.iNlinks := by
    rcases hend with ⟨-, hvolume⟩ | ⟨-, hvolume, -⟩
    · refine ⟨_, hvolume, ?_⟩
      unfold File.growTo
      split
      · rw [← hwrote.attr]
        exact ⟨Iff.rfl, rfl⟩
      · rw [hwrote.attr]
        exact ⟨Iff.rfl, rfl⟩
    · refine ⟨_, hvolume, ?_⟩
      rw [hwrote.attr]
      exact ⟨Iff.rfl, rfl⟩
  obtain ⟨f'', hvolume, hisDir, hlinks⟩ := hchanged
  rw [hres]
  refine ⟨⟨hsound, ?_⟩, hmounted, fun dir hne ↦ ?_⟩
  · rw [hvolume]
    exact h.tree.set hf hisDir (fun hc ↦ absurd hc hdir) fun _ ↦ hlinks.ge
  · rw [hvolume, update_of_ne hne]

end

/-! ## Runs of writes -/

/-- A call of `minixfs_write`. -/
structure WriteReq where
  ino : Nat
  src : Bytes
  count : Nat
  offset : Nat

/-- The call writes the byte at `p` of the file of `ino`. -/
def WriteReq.Covers (r : WriteReq) (ino p : Nat) : Prop :=
  r.ino = ino ∧ r.offset ≤ p ∧ p < r.offset + r.count

/-- Calls to write to regular files that each return their full count. -/
inductive FullWrites : Minixfs → List WriteReq → Minixfs → Prop
  | nil {fs : Minixfs} : FullWrites fs [] fs
  | cons {fs fs' fs'' : Minixfs} {r : WriteReq} {rs : List WriteReq} {f : File}
      (hf : fs.volume r.ino = some f) (hreg : f.attr.isReg) (hcount : r.count < 2 ^ 32)
      (hoffset : r.offset < 2 ^ 32)
      (hres : minixfsWrite fs r.ino r.src r.count r.offset = (sint32 r.count, fs'))
      (hrun : FullWrites fs' rs fs'') : FullWrites fs (r :: rs) fs''

/-- What writes leave alone: the bytes they do not cover, and the slots that hold zones.  A bit
that has become set is that of a zone in a slot that has been filled. -/
structure Kept (fs : Minixfs) (rs : List WriteReq) (fs' : Minixfs) : Prop where
  sound : Sound fs'
  sb : fs'.sb = fs.sb
  file : ∀ {x f}, fs.volume x = some f → ∃ f', fs'.volume x = some f' ∧
    ∀ p, (∀ r ∈ rs, ¬r.Covers x p) → f'.byte p = f.byte p
  zone : ∀ {x s}, fs.volume.Live x → fs.view.zone x s ≠ 0 → fs'.view.zone x s = fs.view.zone x s
  zmap : ∀ {n}, fs'.view.zmap n = true → fs.view.zmap n = true ∨
    ∃ x s, fs.volume.Live x ∧ fs.view.zone x s = 0 ∧ fs'.view.zone x s ≠ 0 ∧
      zoneBit fs.sb (fs'.view.zone x s) = n

section

variable {fs fs' fs'' : Minixfs} {ino : Nat} {f : File} {rs rs' : List WriteReq}

theorem Kept.refl (h : Sound fs) : Kept fs [] fs where
  sound := h
  sb := rfl
  file := fun hf ↦ ⟨_, hf, fun _ _ ↦ rfl⟩
  zone := fun _ _ ↦ rfl
  zmap := .inl

theorem Kept.live (h : Kept fs rs fs') {x : Nat} (hx : fs.volume.Live x) : fs'.volume.Live x := by
  obtain ⟨f, hf⟩ := hx
  obtain ⟨f', hf', -⟩ := h.file hf
  exact ⟨f', hf'⟩

theorem Kept.trans (h : Kept fs rs fs') (h' : Kept fs' rs' fs'')
    (hlive : ∀ x, fs'.volume.Live x → fs.volume.Live x) : Kept fs (rs ++ rs') fs'' where
  sound := h'.sound
  sb := h'.sb.trans h.sb
  file := by
    intro x f hf
    obtain ⟨f', hf', hbyte⟩ := h.file hf
    obtain ⟨f'', hf'', hbyte'⟩ := h'.file hf'
    refine ⟨f'', hf'', fun p hp ↦ ?_⟩
    rw [hbyte' p fun r hr ↦ hp r (List.mem_append_right rs hr),
      hbyte p fun r hr ↦ hp r (List.mem_append_left rs' hr)]
  zone := by
    intro x s hx hz
    have heq := h.zone hx hz
    rw [h'.zone (h.live hx) (by rw [heq]; exact hz), heq]
  zmap := by
    intro n hn
    rcases h'.zmap hn with hset | ⟨x, s, hx, hz, hz', hbit⟩
    · rcases h.zmap hset with hset | ⟨x, s, hx, hz, hz', hbit⟩
      · exact .inl hset
      · have heq := h'.zone (h.live hx) hz'
        exact .inr ⟨x, s, hx, hz, by rw [heq]; exact hz', by rw [heq]; exact hbit⟩
    · refine .inr ⟨x, s, hlive x hx, ?_, hz', by rw [← h.sb]; exact hbit⟩
      by_contra hne
      rw [← h.zone (hlive x hx) hne] at hne
      exact hne hz

/-- One write that returns its count. -/
theorem Sound.kept_write (h : Sound fs) {r : WriteReq} (hf : fs.volume r.ino = some f)
    (hreg : f.attr.isReg) (hcount : r.count < 2 ^ 32) (hoffset : r.offset < 2 ^ 32)
    (hres : Fs.minixfsWrite fs r.ino r.src r.count r.offset = (sint32 r.count, fs')) :
    Kept fs [r] fs' ∧ ∀ x, fs'.volume.Live x → fs.volume.Live x := by
  obtain ⟨k, f', fs₁, hres', hwrote, hsound, hsb, -, ⟨S, hspent⟩, hkept, -, hend⟩ :=
    h.minixfsWrite hf hreg.not_isDir r.src r.count hoffset
  obtain ⟨hret, rfl⟩ := Prod.mk.inj (hres'.symm.trans hres)
  have hk : k = r.count :=
    sint32_inj (lt_of_le_of_lt (hwrote.le.2 (Nat.zero_le _)) hcount) hcount hret
  obtain ⟨-, hvolume⟩ := hend.resolve_right fun hc ↦ hc.1.ne hk
  have hlive : fs₁.volume.Live = fs.volume.Live := by
    rw [hvolume]
    exact Volume.live_update hf _
  refine ⟨⟨hsound, hsb, ?_, fun hx hz ↦ hkept _ _ hx hz, ?_⟩, fun x hx ↦ hlive ▸ hx⟩
  · intro x f'' hf''
    by_cases hx : x = r.ino
    · subst hx
      obtain rfl := Option.some.inj (hf.symm.trans hf'')
      refine ⟨_, by rw [hvolume, update_self], fun p hp ↦ ?_⟩
      have hout : ¬(r.offset + 0 ≤ p ∧ p < r.offset + k) := by
        rw [hk]
        exact fun hc ↦ hp r (List.mem_singleton.mpr rfl) ⟨rfl, hc⟩
      rw [(hwrote.growTo_size _).2, hwrote.byte hoffset, if_neg hout]
    · exact ⟨f'', by rw [hvolume, update_of_ne hx, hf''], fun _ _ ↦ rfl⟩
  · intro n hn
    rcases (hspent.zmap n).mp hn with hset | ⟨t, hz, hz', hbit⟩
    · exact .inl hset
    · exact .inr ⟨r.ino, t, ⟨f, hf⟩, hz, hz', hbit⟩

/-- Runs of writes. -/
theorem Sound.kept (h : Sound fs) (hrun : FullWrites fs rs fs') : Kept fs rs fs' := by
  induction hrun with
  | nil => exact .refl h
  | cons hf hreg hcount hoffset hres _ ih =>
    obtain ⟨hkept, hlive⟩ := h.kept_write hf hreg hcount hoffset hres
    exact hkept.trans (ih hkept.sound) hlive

/-! ## Opening with `O_TRUNC` -/

theorem Sound.truncate (h : Sound fs) (hf : fs.volume ino = some f) (hreg : f.attr.isReg) :
    ∃ v', Released fs.sb ino Slot.Direct fs.view v' ∧
      Sound { fs with disk := truncate fs.sb fs.disk ino } ∧
      ({ fs with disk := truncate fs.sb fs.disk ino } : Minixfs).view = v'.truncate ino ∧
      ({ fs with disk := truncate fs.sb fs.disk ino } : Minixfs).volume =
        update fs.volume ino (some f.truncated) := by
  obtain ⟨v', hr, hs⟩ := h.stores.truncate hf hreg
  have hexact : ∀ x, IsIno fs.sb x → (v'.truncate ino).imap x = true →
      Volume.Live (update fs.volume ino (some f.truncated)) x := by
    intro x hx hset
    rw [Volume.live_update hf, Minixfs.live_iff]
    exact ⟨hx, hr.imap ▸ hset⟩
  exact ⟨v', hr, hs.sound_disk h.width hexact⟩

/-- The slots of an inode that holds nothing but direct zones. -/
theorem Readable.direct (hr : Readable fs.sb fs.view ino) (h₇ : fs.view.zone ino (.top 7) = 0)
    (h₈ : fs.view.zone ino (.top 8) = 0) (h₉ : fs.view.zone ino (.top 9) = 0) {s : Slot}
    (hz : fs.view.zone ino s ≠ 0) : s.Direct := by
  cases s with
  | top k =>
    refine ⟨k, ?_, rfl⟩
    by_contra hk
    have hcases : k = 7 ∨ k = 8 ∨ k = 9 := by omega
    rcases hcases with rfl | rfl | rfl
    · exact hz h₇
    · exact hz h₈
    · exact hz h₉
  | ind j => exact absurd h₇ (hr.zone_path hz (by simp [Slot.path]))
  | dbl j => exact absurd h₈ (hr.zone_path hz (by simp [Slot.path]))
  | sng j k => exact absurd h₈ (hr.zone_path hz (by simp [Slot.path]))

theorem minixfsOpen_truncate {path : List UInt8} {flags mode : Nat} (hnum : IsIno fs.sb ino)
    (hino : minixfsResolve fs path = ino) (hflags : flags &&& 0x200 ≠ 0) :
    (minixfsOpen fs path flags mode).2 = { fs with disk := Fs.truncate fs.sb fs.disk ino } := by
  unfold minixfsOpen
  rw [hino, if_neg (Nat.one_le_iff_ne_zero.mp hnum.1), if_pos hflags]

variable {path : List UInt8} {flags : Nat}

/-- A zone that a slot of the inode behind the direct ones holds stays there, and stays
marked. -/
theorem Sound.open_keeps_table (h : Sound fs) (hino : minixfsResolve fs path = ino)
    (hf : fs.volume ino = some f) (hreg : f.attr.isReg) (hflags : flags &&& 0x200 ≠ 0) (mode : Nat)
    {k : Fin 10} (hk : 7 ≤ k.val) (hz : fs.view.zone ino (.top k) ≠ 0) :
    (minixfsOpen fs path flags mode).2.view.zone ino (.top k) = fs.view.zone ino (.top k) ∧
      (minixfsOpen fs path flags mode).2.view.zmap (zoneBit fs.sb (fs.view.zone ino (.top k))) =
        true := by
  have hl : fs.volume.Live ino := ⟨f, hf⟩
  rw [minixfsOpen_truncate (h.good.owned.number hl) hino hflags]
  obtain ⟨v', hr, -, hview, -⟩ := h.truncate hf hreg
  have hdirect : ¬Slot.Direct (.top k) := by
    rintro ⟨k', hk', heq⟩
    obtain rfl := Slot.top.inj heq
    exact absurd hk' (not_lt.mpr hk)
  rw [hview]
  exact ⟨((v'.truncate_zone _).2 hdirect).trans (hr.zone_eq ino _),
    (hr.marked h.good.owned hl hl (fun _ ↦ hdirect) hz).2⟩

/-- The file behaves as a new one, whatever is written from the state `fs₁` on: bytes that have
not been written since are zero, and its former zones are free unless a slot that was empty has
got them. -/
def Forgets (fs fs₁ : Minixfs) (ino : Nat) : Prop :=
  ∀ rs fs', FullWrites fs₁ rs fs' →
    (∀ out count offset, offset + count < 2 ^ 32 → ∀ j < count,
      offset + j < minixfsSize fs' ino → (∀ r ∈ rs, ¬r.Covers ino (offset + j)) →
      (minixfsRead fs' ino out count offset).2 j = 0) ∧
    ∀ s, fs.view.zone ino s ≠ 0 →
      fs'.view.zmap (zoneBit fs.sb (fs.view.zone ino s)) = false ∨
        ∃ x t, fs'.volume.Live x ∧ fs₁.view.zone x t = 0 ∧
          fs'.view.zone x t = fs.view.zone ino s

/-- A file behaves as a new one after it has been opened with `O_TRUNC`, if and only if it held
nothing but direct zones. -/
theorem truncation_forgets_iff (h : Sound fs) (hino : minixfsResolve fs path = ino)
    (hf : fs.volume ino = some f) (hreg : f.attr.isReg)
    (hninth : fs.view.zone ino (.top 9) = 0) (hflags : flags &&& 0x200 ≠ 0) (mode : Nat) :
    Forgets fs (minixfsOpen fs path flags mode).2 ino ↔
      fs.view.zone ino (.top 7) = 0 ∧ fs.view.zone ino (.top 8) = 0 := by
  constructor
  · -- without any write, a zone behind the direct ones is still there
    intro hforget
    have hnone : ∀ k : Fin 10, 7 ≤ k.val → fs.view.zone ino (.top k) = 0 := by
      intro k hk
      by_contra hz
      obtain ⟨-, hset⟩ := h.open_keeps_table hino hf hreg hflags mode hk hz
      rcases (hforget [] _ .nil).2 _ hz with hclear | ⟨x, t, -, hzero, heq⟩
      · exact Bool.false_ne_true (hclear.symm.trans hset)
      · exact hz (heq.symm.trans hzero)
    exact ⟨hnone 7 le_rfl, hnone 8 (by decide)⟩
  intro hnone rs fs' hrun
  have hl : fs.volume.Live ino := ⟨f, hf⟩
  have hread := h.good.owned.readable hl
  rw [minixfsOpen_truncate hread.number hino hflags] at hrun ⊢
  obtain ⟨v', hr, hsound, hview, hvolume⟩ := h.truncate hf hreg
  have hkept := hsound.kept hrun
  constructor
  · intro out count offset hwrap j hj hsize hcover
    obtain ⟨f', hf', hbyte⟩ := hkept.file (x := ino) (f := f.truncated)
      (by rw [hvolume, update_self])
    have hsize' : minixfsSize fs' ino = f'.attr.iSize := by
      rw [minixfsSize, (hkept.sound.stores.readInode hf').1]
      exact hkept.sound.stores.size hf'
    have hlt : j < min count (f'.attr.iSize - offset) := by omega
    rw [hkept.sound.stores.minixfsRead hf' out hwrap]
    refine (if_pos hlt).trans ?_
    rw [hbyte _ hcover]
    -- no block of the file has kept a zone
    change (if (offset + j) / 1024 < 7 then Bytes.zero else f.block ((offset + j) / 1024)) _ = 0
    split
    · rfl
    · have hzone : fs.view.blockZone ino ((offset + j) / 1024) = 0 := by
        by_contra hz
        obtain ⟨s, hs, heq⟩ := slotOf_of_blockZone hz
        rw [heq] at hz
        exact absurd ((slotOf_direct hs).mp (hread.direct hnone.1 hnone.2 hninth hz)) ‹_›
      have hblock := hread.block_of_no_zone hzone
      rw [← h.good.file hf]
      exact congrFun hblock _
  · intro s hz
    have hmarked := h.good.owned.marked hl hz
    have hdirect := hread.direct hnone.1 hnone.2 hninth hz
    by_cases hset : fs'.view.zmap (zoneBit fs.sb (fs.view.zone ino s)) = true
    · rcases hkept.zmap hset with hold | ⟨x, t, hx, hzero, hne, hbit⟩
      · rw [hview] at hold
        exact absurd rfl (((hr.zmap _).mp hold).2 s hdirect hz)
      · refine .inr ⟨x, t, hkept.live hx, hzero, ?_⟩
        have ho := hkept.sound.good.owned.marked (hkept.live hx) hne
        rw [hkept.sb] at ho
        exact zoneBit_inj ho.1 hmarked.1 hbit
    · exact .inl (Bool.eq_false_iff.mpr hset)

end

/-! ## An empty file and a longer one -/

/-- The small disk with the empty file `/a`. -/
def sampleNamedFs : Minixfs := (minixfsCreat sampleFs [47, 97] 0o644).2

theorem sample_parentIsDir : ParentIsDir sampleFs [47, 97] := by
  intro parent leaf f hsplit _ hf
  have hroot : splitPath sampleSb sampleDisk [47, 97] = some (1, [97]) := by decide
  obtain ⟨rfl, rfl⟩ := Prod.mk.inj (Option.some.inj (hroot.symm.trans hsplit))
  obtain rfl := Option.some.inj (sample_root.symm.trans hf)
  exact sample_root_isDir

theorem sampleNamed_wellFormed : WellFormed sampleNamedFs :=
  sample_wellFormed.minixfsCreat (by decide) sample_parentIsDir 0o644

theorem sampleNamed_file : sampleNamedFs.volume 2 = some (sampleNamedFs.view.file 2) :=
  Minixfs.volume_eq_some.mpr ⟨by decide, by decide, rfl⟩

theorem sampleNamed_root : dirLookup sampleNamedFs.sb sampleNamedFs.disk 1 [97] = some 2 ∧
    dirLookup sampleNamedFs.sb sampleNamedFs.disk 1 [46] = some 1 ∧
    dirIsEmpty sampleNamedFs.sb sampleNamedFs.disk 1 = 0 ∧
    (sampleNamedFs.view.file 2).attr.iNlinks = 1 := by
  decide

theorem sampleNamed_direct : minixfsResolve sampleNamedFs [47, 97] = 2 ∧
    (sampleNamedFs.view.file 2).attr.isReg ∧ sampleNamedFs.view.zone 2 (.top 7) = 0 ∧
    sampleNamedFs.view.zone 2 (.top 8) = 0 ∧ sampleNamedFs.view.zone 2 (.top 9) = 0 := by
  decide

/-- Writing to `/a` keeps its name. -/
theorem sampleNamed_write (src : Bytes) (count : Nat) {offset : Nat} (hoffset : offset < 2 ^ 32) :
    WellFormed (minixfsWrite sampleNamedFs 2 src count offset).2 ∧
      (minixfsWrite sampleNamedFs 2 src count offset).2.mounted = true ∧
      dirLookup (minixfsWrite sampleNamedFs 2 src count offset).2.sb
        (minixfsWrite sampleNamedFs 2 src count offset).2.disk 1 [97] = some 2 := by
  obtain ⟨-, hreg, -⟩ := sampleNamed_direct
  obtain ⟨hwf, hmounted, hsame⟩ := sampleNamed_wellFormed.minixfsWrite sampleNamed_file
    hreg.not_isDir src count hoffset
  refine ⟨hwf, hmounted, ?_⟩
  -- the root directory is the same, and so is what is found there
  obtain ⟨f, hf⟩ := sampleNamed_wellFormed.tree.live .root
  have hlook := sampleNamed_root.1
  rw [sampleNamed_wellFormed.sound.stores.dirLookup hf] at hlook
  rw [hwf.sound.stores.dirLookup ((hsame 1 (by decide)).trans hf)]
  exact hlook

theorem sampleNamed_resolve (src : Bytes) (count : Nat) {offset : Nat}
    (hoffset : offset < 2 ^ 32) :
    minixfsResolve (minixfsWrite sampleNamedFs 2 src count offset).2 [47, 97] = 2 := by
  obtain ⟨-, hmounted, hlook⟩ := sampleNamed_write src count hoffset
  have hnames : names [slash, 97] = [[97]] := by decide
  refine (minixfsResolve_eq hmounted (by decide : Clean [slash, 97])).trans ?_
  rw [hnames, walk_cons, hlook]
  rfl

/-- The small disk with three bytes in `/a`. -/
def sampleShortFs : Minixfs := (minixfsWrite sampleNamedFs 2 (fun _ ↦ 7) 3 0).2

theorem sampleShort_file : sampleShortFs.view.imap 2 = true ∧
    (sampleShortFs.view.file 2).attr.isReg ∧ (sampleShortFs.view.file 2).attr.iNlinks = 1 ∧
    sampleShortFs.view.zone 2 (.top 0) = 6 ∧ sampleShortFs.view.zone 2 (.top 7) = 0 ∧
    sampleShortFs.view.zone 2 (.top 8) = 0 ∧ sampleShortFs.view.zone 2 (.top 9) = 0 ∧
    zoneBit sampleShortFs.sb 6 = 2 := by
  decide

/-- The file of three bytes has been opened with `O_TRUNC`. -/
def sampleTruncatedFs : Minixfs :=
  { sampleShortFs with disk := truncate sampleShortFs.sb sampleShortFs.disk 2 }

theorem sampleTruncated_file : IsIno sampleTruncatedFs.sb 2 ∧
    sampleTruncatedFs.view.imap 2 = true ∧ (sampleTruncatedFs.view.file 2).attr.isReg ∧
    (sampleTruncatedFs.view.file 2).attr.iSize = 0 ∧ sampleTruncatedFs.view.zmap 2 = false := by
  decide

/-- One free zone is enough for the first block of a file. -/
theorem Padded.fits_first {g : Superblock} {v : View} {n : Nat} (h : Padded g v)
    (hn : v.zmap n = false) (ino : Nat) : Fits v ino 0 1 := by
  have hsub : {t | slotsFor 0 1 t ∧ v.zone ino t = 0} ⊆ {.top 0} := fun t ht ↦
    Set.mem_singleton_iff.mpr (slotsFor_first ht.1)
  have hspare : 0 < spare v := (Set.ncard_pos h.finite).mpr ⟨n, hn⟩
  refine ⟨by decide, le_trans (Set.ncard_le_ncard hsub) ?_⟩
  rw [Set.ncard_singleton]
  exact hspare

/-- A byte is written at position two of the file that has been opened.  The byte in front of it,
which was a seven, is zero. -/
theorem truncation_forgets_iff_three : (minixfsRead sampleShortFs 2 Bytes.zero 3 0).2 1 = 7 ∧
    ∃ fs', FullWrites (minixfsOpen sampleShortFs [47, 97] 0x200 0).2 [⟨2, fun _ ↦ 9, 1, 2⟩] fs' ∧
      minixfsSize fs' 2 = 3 ∧ (minixfsRead fs' 2 Bytes.zero 3 0).2 1 = 0 := by
  obtain ⟨himap, hreg, -, -, h₇, h₈, h₉, -⟩ := sampleShort_file
  obtain ⟨hino', himap', hreg', hsize', hclear⟩ := sampleTruncated_file
  have hwf : WellFormed sampleShortFs := (sampleNamed_write (fun _ ↦ 7) 3 (by decide)).1
  have hresolve : minixfsResolve sampleShortFs [47, 97] = 2 :=
    sampleNamed_resolve (fun _ ↦ 7) 3 (by decide)
  have hf : sampleShortFs.volume 2 = some (sampleShortFs.view.file 2) :=
    Minixfs.volume_eq_some.mpr ⟨by decide, himap, rfl⟩
  have hopen : (minixfsOpen sampleShortFs [47, 97] 0x200 0).2 = sampleTruncatedFs :=
    minixfsOpen_truncate (by decide) hresolve (by decide)
  have hforget := (truncation_forgets_iff hwf.sound hresolve hf hreg h₉
    (by decide : 0x200 &&& 0x200 ≠ 0) 0).mpr ⟨h₇, h₈⟩
  rw [hopen] at hforget
  obtain ⟨-, -, hsound, -⟩ := hwf.sound.truncate hf hreg
  change Sound sampleTruncatedFs at hsound
  have hf' : sampleTruncatedFs.volume 2 = some (sampleTruncatedFs.view.file 2) :=
    Minixfs.volume_eq_some.mpr ⟨hino', himap', rfl⟩
  rw [hopen]
  generalize sampleTruncatedFs = fs₁ at *
  obtain ⟨k, f', fs', hres, hwrote, hsound', -, -, -, -, -, hend⟩ :=
    hsound.minixfsWrite hf' hreg'.not_isDir (fun _ ↦ 9) 1 (by decide : 2 < 2 ^ 32)
  have hk := hwrote.le.2 (Nat.zero_le _)
  have hone : k = 1 := by
    rcases hend with ⟨hone, -⟩ | ⟨hlt, -, -, hnot⟩
    · exact hone
    · obtain rfl : k = 0 := Nat.lt_one_iff.mp hlt
      exact absurd (hsound.good.padded.fits_first hclear 2) hnot
  subst hone
  obtain ⟨-, hvolume⟩ := hend.resolve_right fun hc ↦ lt_irrefl 1 hc.1
  have hsize : minixfsSize fs' 2 = 3 := by
    have hf'' : fs'.volume 2 = some (f'.growTo (wrap32 (2 + 1))) := by rw [hvolume, update_self]
    rw [minixfsSize, (hsound'.stores.readInode hf'').1]
    refine (hsound'.stores.size hf'').trans ((hwrote.growTo_size _).1.trans ?_)
    rw [hsize']
    rfl
  have hrun : FullWrites fs₁ [⟨2, fun _ ↦ 9, 1, 2⟩] fs' :=
    .cons hf' hreg' (by decide) (by decide) hres .nil
  refine ⟨by decide +kernel, fs', hrun, hsize, ?_⟩
  refine (hforget _ _ hrun).1 Bytes.zero 3 0 (by decide) 1 (by decide) (by rw [hsize]; decide) ?_
  intro r hr hc
  obtain rfl := List.mem_singleton.mp hr
  exact absurd hc.2.1 (by decide : ¬2 ≤ 0 + 1)

/-- The small disk with a byte in the eighth block of `/a`. -/
def sampleLongFs : Minixfs := (minixfsWrite sampleNamedFs 2 (fun _ ↦ 7) 1 (7 * 1024)).2

theorem sampleLong_wellFormed : WellFormed sampleLongFs ∧
    minixfsResolve sampleLongFs [47, 97] = 2 := by
  have hoffset : 7 * 1024 < 2 ^ 32 := by decide
  exact ⟨(sampleNamed_write (fun _ ↦ 7) 1 hoffset).1, sampleNamed_resolve (fun _ ↦ 7) 1 hoffset⟩

theorem sampleLong_file : sampleLongFs.view.imap 2 = true ∧
    (sampleLongFs.view.file 2).attr.isReg ∧ sampleLongFs.view.zone 2 (.top 7) = 6 ∧
    zoneBit sampleLongFs.sb 6 = 2 := by
  decide

/-- With the file of eight blocks opened for truncation, its table is still there and marked. -/
theorem truncation_keeps_indirect : WellFormed sampleLongFs ∧
    minixfsResolve sampleLongFs [47, 97] = 2 ∧ sampleLongFs.view.zone 2 (.top 7) = 6 ∧
    zoneBit sampleLongFs.sb 6 = 2 ∧
    FullWrites (minixfsOpen sampleLongFs [47, 97] 0x200 0).2 []
      (minixfsOpen sampleLongFs [47, 97] 0x200 0).2 ∧
    (minixfsOpen sampleLongFs [47, 97] 0x200 0).2.view.zone 2 (.top 7) = 6 ∧
    (minixfsOpen sampleLongFs [47, 97] 0x200 0).2.view.zmap 2 = true := by
  obtain ⟨hwf, hino⟩ := sampleLong_wellFormed
  obtain ⟨himap, hreg, hzone, hbit⟩ := sampleLong_file
  have hf : sampleLongFs.volume 2 = some (sampleLongFs.view.file 2) :=
    Minixfs.volume_eq_some.mpr ⟨by decide, himap, rfl⟩
  have hflags : 0x200 &&& 0x200 ≠ 0 := by decide
  obtain ⟨hkept, hset⟩ := hwf.sound.open_keeps_table hino hf hreg hflags 0 (k := 7) le_rfl
    (by rw [hzone]; decide)
  rw [hzone] at hkept hset
  rw [hbit] at hset
  exact ⟨hwf, hino, hzone, hbit, .nil, hkept, hset⟩

end FentoOS.Fs
