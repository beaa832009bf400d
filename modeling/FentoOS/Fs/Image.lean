import FentoOS.Fs.DirMap
import FentoOS.Fs.Read
import FentoOS.Fs.Write

/-!
# Mounted images

The volume of a mounted file system consists of the files of the inodes that exist and
are marked in the inode map.  `Sound` is what the code needs to keep these files apart:
the layout fits the device and its fields, the bits of both maps that stand for nothing are set,
block `0` is zero, the zones of the inodes in use are marked and held once, and directories have no
holes.

The history of the device is no part of what is on it.  `Sound` asks that it records
nothing outside of the layout; a device that has just been mounted has none.
-/

namespace FentoOS.Fs

open FentoOS.Lib

/-- What a mounted file system shows. -/
def Minixfs.view (fs : Minixfs) : View := Fs.view fs.sb fs.disk

/-- The files of the inodes that exist and are marked. -/
def Minixfs.volume (fs : Minixfs) : Volume := fun ino ↦
  if IsIno fs.sb ino ∧ fs.view.imap ino = true then some (fs.view.file ino) else none

/-- The zones of the inodes in use are kept apart. -/
structure Sound (fs : Minixfs) : Prop where
  geometry : Geometry fs.sb fs.disk.size
  width : fs.sb.sImapBlocks < 2 ^ 16
  trace : ∀ e ∈ fs.disk.trace, e.Ok fs.sb
  good : Good fs.sb fs.volume fs.view

section

variable {fs : Minixfs} {ino : Nat} {f : File}

theorem Minixfs.volume_eq_some : fs.volume ino = some f ↔
    IsIno fs.sb ino ∧ fs.view.imap ino = true ∧ fs.view.file ino = f := by
  unfold Minixfs.volume
  constructor
  · intro h
    split at h
    · exact ⟨‹_ ∧ _›.1, ‹_ ∧ _›.2, Option.some.inj h⟩
    · cases h
  · rintro ⟨h₁, h₂, rfl⟩
    exact if_pos ⟨h₁, h₂⟩

theorem Minixfs.live_iff : fs.volume.Live ino ↔ IsIno fs.sb ino ∧ fs.view.imap ino = true := by
  constructor
  · rintro ⟨f, hf⟩
    obtain ⟨h₁, h₂, -⟩ := Minixfs.volume_eq_some.mp hf
    exact ⟨h₁, h₂⟩
  · rintro ⟨h₁, h₂⟩
    exact ⟨_, Minixfs.volume_eq_some.mpr ⟨h₁, h₂, rfl⟩⟩

theorem Sound.stores (h : Sound fs) : Stores fs.sb fs.disk fs.view fs.volume :=
  ⟨⟨h.geometry, rfl, h.trace⟩, h.good⟩

variable {v : View} {F : Volume}

/-- The volume a disk stores is the volume of the file system, if all marked inodes have a
file in it. -/
theorem Stores.volume_eq (h : Stores fs.sb fs.disk v F)
    (hexact : ∀ ino, IsIno fs.sb ino → v.imap ino = true → F.Live ino) :
    fs.view = v ∧ fs.volume = F := by
  have hview : fs.view = v := h.shows.view
  refine ⟨hview, funext fun ino ↦ ?_⟩
  unfold Minixfs.volume
  rw [hview]
  by_cases hlive : F.Live ino
  · rw [if_pos ⟨h.good.owned.number hlive, h.good.used hlive⟩, h.good.live_file hlive]
  · rw [if_neg fun hc ↦ hlive (hexact ino hc.1 hc.2)]
    cases hF : F ino with
    | none => rfl
    | some f => exact absurd ⟨f, hF⟩ hlive

theorem Stores.sound (h : Stores fs.sb fs.disk v F) (hwidth : fs.sb.sImapBlocks < 2 ^ 16)
    (hexact : ∀ ino, IsIno fs.sb ino → v.imap ino = true → F.Live ino) : Sound fs := by
  obtain ⟨hview, hvolume⟩ := h.volume_eq hexact
  refine ⟨h.shows.geometry, hwidth, h.shows.trace, ?_⟩
  rw [hview, hvolume]
  exact h.good

/-- The same with another disk. -/
theorem Stores.sound_disk {d' : Disk} (h : Stores fs.sb d' v F)
    (hwidth : fs.sb.sImapBlocks < 2 ^ 16)
    (hexact : ∀ ino, IsIno fs.sb ino → v.imap ino = true → F.Live ino) :
    Sound { fs with disk := d' } ∧ ({ fs with disk := d' } : Minixfs).view = v ∧
      ({ fs with disk := d' } : Minixfs).volume = F := by
  have h' : Stores ({ fs with disk := d' } : Minixfs).sb ({ fs with disk := d' } : Minixfs).disk v
    F := h
  exact ⟨h'.sound hwidth hexact, h'.volume_eq hexact⟩

/-- A disk that still stores the volume. -/
theorem Sound.of_stores (h : Sound fs) {d' : Disk} (hs : Stores fs.sb d' v fs.volume)
    (himap : v.imap = fs.view.imap) :
    Sound { fs with disk := d' } ∧ ({ fs with disk := d' } : Minixfs).view = v ∧
      ({ fs with disk := d' } : Minixfs).volume = fs.volume :=
  hs.sound_disk h.width fun _ hino hset ↦ Minixfs.live_iff.mpr ⟨hino, himap ▸ hset⟩

/-- An inode number is the same as `int`. -/
theorem Sound.ino_lt (h : Sound fs) (hino : IsIno fs.sb ino) : ino < 2 ^ 31 := by
  have hmap := h.geometry.imap
  have hwidth := h.width
  have hle := hino.2
  omega

/-! ## Reading -/

/-- What `minixfs_read` finds at a position is the byte of the file. -/
theorem Shows.fileByte {g : Superblock} {d : Disk} (h : Shows g d v) (hr : Readable g v ino)
    (pos : Nat) : fileByte g d (v.inode ino) ino pos = (v.file ino).byte pos := by
  rw [Fs.fileByte, h.mapBlock_read hr, h.readInto_block hr]
  change _ = v.block ino (pos / 1024) (pos % 1024)
  split
  case isTrue hz => rw [hr.block_of_no_zone hz]; rfl
  case isFalse => rfl

/-- `minixfs_read` copies the bytes up to the end of the file. -/
theorem Stores.minixfsRead (h : Stores fs.sb fs.disk v F) (hf : F ino = some f) (out : Bytes)
    {count offset : Nat} (hwrap : offset + count < 2 ^ 32) :
    minixfsRead fs ino out count offset =
      (sint32 (min count (f.attr.iSize - offset)),
        fun j ↦ if j < min count (f.attr.iSize - offset) then f.byte (offset + j) else out j) := by
  have hl : F.Live ino := ⟨f, hf⟩
  have hi := (h.readInode hf).1
  have hsize := h.size hf
  by_cases hend : f.attr.iSize ≤ offset
  · have hzero : min count (f.attr.iSize - offset) = 0 := by omega
    rw [minixfsRead_end hi (hsize ▸ hend), hzero]
    simp only [Nat.not_lt_zero, if_false]
    rfl
  · have hmin : min count (f.attr.iSize - offset) =
        if wrap32 (offset + count) > (v.inode ino).iSize then (v.inode ino).iSize - offset
        else count := by
      rw [wrap32_of_lt hwrap, hsize]
      split <;> omega
    rw [minixfsRead_eq hi (by omega) hmin]
    refine congrArg (Prod.mk _) (funext fun j ↦ ?_)
    split
    · rw [h.shows.fileByte (h.good.owned.readable hl), h.good.file hf,
        wrap32_of_lt (by omega : offset + j < 2 ^ 32)]
    · rfl

end

/-! ## The small disk -/

theorem sample_live {ino : Nat} (h : sampleFs.volume.Live ino) : ino = 1 := by
  obtain ⟨⟨hlo, hhi⟩, hset⟩ := Minixfs.live_iff.mp h
  have hall : ∀ n ≤ 16, 1 ≤ n → sampleFs.view.imap n = true → n = 1 := by decide
  exact hall ino hhi hlo hset

theorem sample_numbered {n : Nat} (h : sampleFs.view.imap n = false) : IsIno sampleSb n := by
  have hlow : ∀ k < 8 * 3, (sampleDisk.block 2).testBit k = false → IsIno sampleSb k := by
    decide
  refine mapBit_of_full hlow ?_ h
  intro j hj
  change (if j = 0 then (3 : UInt8) else if j = 1 then 0 else if j = 2 then 254 else 255) = 255
  rw [if_neg (by omega), if_neg (by omega), if_neg (by omega)]

theorem sample_sound : Sound sampleFs where
  geometry := sample_shows.geometry
  width := by decide
  trace := sample_shows.trace
  good :=
    { owned := sample_owned fun _ ↦ sample_live
      padded := sample_padded
      numbered := sample_numbered
      used := fun hl ↦ (Minixfs.live_iff.mp hl).2
      file := fun hf ↦ (Minixfs.volume_eq_some.mp hf).2.2
      solid := by
        intro ino f hf _
        obtain rfl := sample_live ⟨f, hf⟩
        exact sample_solid }

end FentoOS.Fs
