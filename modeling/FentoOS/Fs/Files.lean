import FentoOS.Fs.Growth

/-!
# Files

A `File` is what an inode stands for when the zones are forgotten: the other fields
of the inode, and the contents of each block.  A block without a zone reads as
zeroes.

`Touched g live ino v v'` is the frame of everything the code does to one file: the
files of the other inodes are what they were, and no slot has lost its zone.  Filling
slots, writing a block and writing the inode are instances, and the file of `ino`
changes in each case as its name says.
-/

namespace FentoOS.Fs

open FentoOS.Lib Function

/-- An inode without its zones, and the contents of the blocks. -/
@[ext]
structure File where
  attr : Inode
  block : Nat → Bytes

namespace File

def setBlock (f : File) (fb : Nat) (buf : Bytes) : File :=
  { f with block := Function.update f.block fb buf }

@[simp] theorem setBlock_block (f : File) (fb : Nat) (buf : Bytes) :
    (f.setBlock fb buf).block = update f.block fb buf := rfl

end File

/-- The contents of a block of a file. -/
def View.block (v : View) (ino fb : Nat) : Bytes := v.data (v.blockZone ino fb)

def View.file (v : View) (ino : Nat) : File where
  attr := (v.inode ino).attr
  block := v.block ino

/-- Nothing but the file of `ino` has changed, and no slot has lost its zone. -/
structure Touched (g : Superblock) (live : Nat → Prop) (ino : Nat) (v v' : View) : Prop where
  owned : Owned g live v'
  imap : v'.imap = v.imap
  zmap : ∀ {n}, v.zmap n = true → v'.zmap n = true
  zone : ∀ {ino' s}, live ino' → v.zone ino' s ≠ 0 → v'.zone ino' s = v.zone ino' s
  other : ∀ {ino' s}, live ino' → ino' ≠ ino → v'.zone ino' s = v.zone ino' s
  file : ∀ {ino'}, live ino' → ino' ≠ ino → v'.file ino' = v.file ino'

section

variable {g : Superblock} {live : Nat → Prop} {d : Disk} {v v' v'' : View} {ino ino' fb : Nat}

theorem Touched.refl (h : Owned g live v) : Touched g live ino v v where
  owned := h
  imap := rfl
  zmap := id
  zone := fun _ _ ↦ rfl
  other := fun _ _ ↦ rfl
  file := fun _ _ ↦ rfl

theorem Touched.trans (h : Touched g live ino v v') (h' : Touched g live ino v' v'') :
    Touched g live ino v v'' where
  owned := h'.owned
  imap := h'.imap.trans h.imap
  zmap := fun hn ↦ h'.zmap (h.zmap hn)
  zone := fun hl hz ↦ by
    have heq := h.zone hl hz
    exact (h'.zone hl (heq.symm ▸ hz)).trans heq
  other := fun hl hne ↦ (h'.other hl hne).trans (h.other hl hne)
  file := fun hl hne ↦ (h'.file hl hne).trans (h.file hl hne)

/-- A block that has a zone keeps it. -/
theorem Touched.blockZone (h : Touched g live ino v v') (hl : live ino')
    (hz : v.blockZone ino' fb ≠ 0) : v'.blockZone ino' fb = v.blockZone ino' fb := by
  unfold View.blockZone at hz ⊢
  cases hs : slotOf fb with
  | none => rfl
  | some s =>
    rw [hs] at hz
    exact h.zone hl hz

theorem blockZone_slot {s : Slot} (h : slotOf fb = some s) (v : View) (ino : Nat) :
    v.blockZone ino fb = v.zone ino s := by
  rw [View.blockZone, h]
  rfl

theorem blockZone_congr {v' : View} {ino' : Nat} (h : ∀ s, v'.zone ino' s = v.zone ino s)
    (fb : Nat) :
    v'.blockZone ino' fb = v.blockZone ino fb := by
  unfold View.blockZone
  cases slotOf fb with
  | none => rfl
  | some s => exact h s

theorem Readable.blockZone_range (h : Readable g v ino) (fb : Nat) :
    v.blockZone ino fb = 0 ∨ IsZone g (v.blockZone ino fb) := by
  unfold View.blockZone
  cases slotOf fb with
  | none => exact .inl rfl
  | some s => exact h.range s

theorem slotOf_of_blockZone (hz : v.blockZone ino fb ≠ 0) :
    ∃ s, slotOf fb = some s ∧ v.blockZone ino fb = v.zone ino s := by
  cases hs : slotOf fb with
  | none =>
    rw [View.blockZone, hs] at hz
    exact absurd rfl hz
  | some s => exact ⟨s, rfl, blockZone_slot hs v ino⟩

/-- What a client may rely on when slots have been filled: no file has changed. -/
theorem Grown.file_eq (h : Grown g live ino v v') (ho : Owned g live v) (hl : live ino') :
    v'.file ino' = v.file ino' := by
  refine File.ext (h.attr ino') (funext fun fb ↦ ?_)
  change v'.data (v'.blockZone ino' fb) = v.data (v.blockZone ino' fb)
  unfold View.blockZone
  cases hs : slotOf fb with
  | none => exact h.owned.zero.trans ho.zero.symm
  | some s => exact h.slot hl (slotOf_isData hs)

theorem Grown.touched (h : Grown g live ino v v') (ho : Owned g live v) :
    Touched g live ino v v' where
  owned := h.owned
  imap := h.imap
  zmap := h.zmap
  zone := h.zone
  other := h.other
  file := fun hl _ ↦ h.file_eq ho hl

/-! ## Writing a block -/

section Write

variable (h : Owned g live v) (hl : live ino) (hz : v.blockZone ino fb ≠ 0) (buf : Bytes)

include h hl hz

theorem Owned.file_write (hl' : live ino') :
    (v.setData (v.blockZone ino fb) buf).file ino' =
      update v.file ino ((v.file ino).setBlock fb buf) ino' := by
  obtain ⟨s, hs, heq⟩ := slotOf_of_blockZone hz
  have hdata := slotOf_isData hs
  rw [heq] at hz ⊢
  have hblock : ∀ fb', (v.setData (v.zone ino s) buf).block ino' fb' =
      if ino' = ino ∧ fb' = fb then buf else v.block ino' fb' := by
    intro fb'
    unfold View.block View.blockZone
    cases hs' : slotOf fb' with
    | none =>
      have hne : ¬(ino' = ino ∧ fb' = fb) := by
        rintro ⟨-, rfl⟩
        rw [hs] at hs'
        cases hs'
      rw [if_neg hne]
      exact update_of_ne hz.symm ..
    | some s' =>
      refine (h.slot_setData hl hz hdata buf hl' s').trans (if_congr ?_ rfl rfl)
      refine and_congr_right fun _ ↦ ⟨?_, ?_⟩
      · rintro rfl
        exact slotOf_inj hs' hs
      · rintro rfl
        exact Option.some.inj (hs'.symm.trans hs)
  by_cases hino : ino' = ino
  · subst hino
    rw [update_self]
    refine File.ext rfl (funext fun fb' ↦ ?_)
    refine (hblock fb').trans ?_
    by_cases hfb : fb' = fb
    · subst hfb
      rw [if_pos ⟨rfl, rfl⟩, File.setBlock_block, update_self]
    · rw [if_neg fun hc ↦ hfb hc.2, File.setBlock_block, update_of_ne hfb]
      rfl
  · rw [update_of_ne hino]
    refine File.ext rfl (funext fun fb' ↦ ?_)
    exact (hblock fb').trans (if_neg fun hc ↦ hino hc.1)

theorem Owned.touched_write : Touched g live ino v (v.setData (v.blockZone ino fb) buf) := by
  obtain ⟨s, hs, heq⟩ := slotOf_of_blockZone hz
  have hdata := slotOf_isData hs
  have hz' : v.zone ino s ≠ 0 := heq ▸ hz
  have hzone : ∀ {ino' s'}, live ino' →
      (v.setData (v.blockZone ino fb) buf).zone ino' s' = v.zone ino' s' := by
    intro ino' s' hl'
    rw [heq]
    exact h.zone_setData hl hz' hdata buf hl' s'
  refine ⟨heq ▸ h.setData hl hz' hdata buf, rfl, id, fun hl' _ ↦ hzone hl', fun hl' _ ↦ hzone hl',
    fun hl' hne ↦ ?_⟩
  rw [h.file_write hl hz buf hl', update_of_ne hne]

theorem Owned.zone_write (s : Slot) :
    (v.setData (v.blockZone ino fb) buf).zone ino s = v.zone ino s := by
  obtain ⟨s', hs', heq⟩ := slotOf_of_blockZone hz
  rw [heq]
  exact h.zone_setData hl (heq ▸ hz) (slotOf_isData hs') buf hl s

end Write

/-! ## Writing the inode -/

theorem blockZone_setInode (v : View) {i : Inode} (hi : i.iZone = (v.inode ino).iZone)
    (ino' fb : Nat) : (v.setInode ino i).blockZone ino' fb = v.blockZone ino' fb :=
  blockZone_congr (zone_setInode v hi ino') fb

theorem file_setInode (v : View) {i : Inode} (hi : i.iZone = (v.inode ino).iZone) (ino' : Nat) :
    (v.setInode ino i).file ino' =
      update v.file ino { v.file ino with attr := i.attr } ino' := by
  have hblock : (v.setInode ino i).block ino' = v.block ino' := by
    funext fb
    rw [View.block, blockZone_setInode v hi]
    rfl
  by_cases hino : ino' = ino
  · subst hino
    rw [update_self]
    exact File.ext (congrArg Inode.attr (update_self ..)) hblock
  · rw [update_of_ne hino]
    exact File.ext (congrArg Inode.attr (update_of_ne hino ..)) hblock

theorem Owned.touched_setInode (h : Owned g live v) {i : Inode}
    (hi : i.iZone = (v.inode ino).iZone) : Touched g live ino v (v.setInode ino i) where
  owned := h.setInode hi
  imap := rfl
  zmap := id
  zone := fun _ _ ↦ zone_setInode v hi ..
  other := fun _ _ ↦ zone_setInode v hi ..
  file := fun _ hne ↦ by rw [file_setInode v hi, update_of_ne hne]

end

end FentoOS.Fs
