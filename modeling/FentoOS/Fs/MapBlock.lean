import FentoOS.Fs.Image

/-!
# `map_block` as an update

Seen from outside, a file is a map from block numbers to zones: what `map_block` returns without
`alloc`.  With `alloc` it changes this map in one place at most.  The tables it fills on its way
down are not part of the map, and if the disk is full on the way the tables that have been
allocated are empty, so the map is what it was.

The proof follows the slots: `Followed` says what holds of every slot while only slots on the way
to the block are filled, and `Shows.mapBlock` carries it along.
-/

namespace FentoOS.Fs

open FentoOS.Lib

/-- The inode is in use. -/
def Allocated (g : Superblock) (v : View) (ino : Nat) : Prop := IsIno g ino ∧ v.imap ino = true

/-- Zone ownership on a disk: the zones in the slots of the inodes in use exist, are marked and
are each in one slot only.  The maps are padded and block `0` is zero. -/
structure ZoneInvariant (g : Superblock) (d : Disk) : Prop where
  geometry : Geometry g d.size
  trace : ∀ e ∈ d.trace, e.Ok g
  zero : d.block 0 = Bytes.zero
  padded : Padded g (view g d)
  marked : ∀ ino s, Allocated g (view g d) ino → (view g d).zone ino s ≠ 0 →
    Marked g (view g d) ((view g d).zone ino s)
  once : ∀ ino s ino' s', Allocated g (view g d) ino → Allocated g (view g d) ino' →
    (view g d).zone ino s ≠ 0 → (view g d).zone ino s = (view g d).zone ino' s' →
    ino = ino' ∧ s = s'

/-- What `map_block(in, fb, true, ino)` does to the map of a file when it returns `z`, and leaves
the inode `i'` in memory and the disk `d'`. -/
structure PointUpdate (g : Superblock) (d : Disk) (i : Inode) (ino fb z : Nat) (i' : Inode)
    (d' : Disk) : Prop where
  elsewhere : ∀ fb', fb' ≠ fb →
    (mapBlock g d' i' fb' false ino).1 = (mapBlock g d i fb' false ino).1
  here : (mapBlock g d' i' fb false ino).1 = z
  kept : (mapBlock g d i fb false ino).1 ≠ 0 → z = (mapBlock g d i fb false ino).1
  fresh : (mapBlock g d i fb false ino).1 = 0 → z ≠ 0 →
    IsZone g z ∧ (view g d).zmap (zoneBit g z) = false ∧ d'.block z = Bytes.zero
  failed : z = 0 → ∀ fb', (mapBlock g d' i' fb' false ino).1 = (mapBlock g d i fb' false ino).1
  why : z = 0 → Full (view g d').zmap ∨ 7 + 256 + 65536 ≤ fb
  copy : readInode g d' ino = some i'
  data : ∀ ino' fb' i₁, Allocated g (view g d) ino' → readInode g d ino' = some i₁ →
    (mapBlock g d i₁ fb' false ino').1 ≠ 0 →
    d'.block (mapBlock g d i₁ fb' false ino').1 = d.block (mapBlock g d i₁ fb' false ino').1

section

variable {g : Superblock} {d : Disk} {v v' : View} {live : Nat → Prop} {ino : Nat} {s : Slot}

theorem ZoneInvariant.shows (h : ZoneInvariant g d) : Shows g d (view g d) :=
  ⟨h.geometry, rfl, h.trace⟩

theorem Shows.block (h : Shows g d v) {z : Nat} (hz : z = 0 ∨ IsZone g z) :
    d.block z = v.data z := by
  rw [← h.view]
  exact (if_pos hz).symm

theorem ZoneInvariant.owned (h : ZoneInvariant g d) :
    Owned g (Allocated g (view g d)) (view g d) where
  ledger := by
    refine ⟨?_, ?_⟩
    · rintro ⟨ino, s⟩ z hz
      obtain ⟨hl, rfl, hne⟩ := own_eq_some.mp hz
      exact h.marked ino s hl hne
    · rintro ⟨ino, s⟩ ⟨ino', s'⟩ z hz hz'
      obtain ⟨hl, rfl, hne⟩ := own_eq_some.mp hz
      obtain ⟨hl', heq, -⟩ := own_eq_some.mp hz'
      obtain ⟨rfl, rfl⟩ := h.once ino s ino' s' hl hl' hne heq.symm
      rfl
  zero := h.zero
  number := And.left

/-- A sound file system has it. -/
theorem Sound.zoneInvariant {fs : Minixfs} (h : Sound fs) : ZoneInvariant fs.sb fs.disk where
  geometry := h.geometry
  trace := h.trace
  zero := h.good.owned.zero
  padded := h.good.padded
  marked := fun ino s hl hne ↦ h.good.owned.marked (Minixfs.live_iff.mpr hl) hne
  once := fun ino s ino' s' hl hl' hne heq ↦ by
    obtain ⟨rfl, rfl⟩ := h.good.owned.inj (Minixfs.live_iff.mpr hl) (Minixfs.live_iff.mpr hl') hne
      heq.symm
    exact ⟨rfl, rfl⟩

/-! ## The slots on the way -/

/-- From `v₀` on, only slots in `S` have been filled, each with a zone that was free in `v₀`. -/
structure Followed (g : Superblock) (ino : Nat) (S : Slot → Prop) (v₀ v : View) : Prop where
  padded : Padded g v
  zmap : ∀ {n}, v₀.zmap n = true → v.zmap n = true
  off : ∀ {s}, ¬S s → v.zone ino s = v₀.zone ino s
  on : ∀ s, v.zone ino s = v₀.zone ino s ∨
    IsZone g (v.zone ino s) ∧ v₀.zmap (zoneBit g (v.zone ino s)) = false

theorem Followed.refl {S : Slot → Prop} (h : Padded g v) : Followed g ino S v v :=
  ⟨h, id, fun _ ↦ rfl, fun _ ↦ .inl rfl⟩

theorem Followed.fill {S : Slot → Prop} {z : Nat} (h : Followed g ino S v v') (ho : Owned g live v')
    (hl : live ino) (hz : Fresh g v' z) (hopen : Open v' ino s) (hS : S s) :
    Followed g ino S v (v'.fill g ino s z) := by
  have hgrown := ho.grown_fill hl hz hopen
  have hzone : ∀ s', (v'.fill g ino s z).zone ino s' = if s' = s then z else v'.zone ino s' := by
    intro s'
    rw [ho.zone_fill hl hz hopen hl]
    simp only [true_and]
  refine ⟨h.padded.mono hgrown.zmap, fun hn ↦ hgrown.zmap (h.zmap hn), fun {s'} hs' ↦ ?_,
    fun s' ↦ ?_⟩
  · have hne : s' ≠ s := fun heq ↦ hs' (heq ▸ hS)
    rw [hzone, if_neg hne, h.off hs']
  · rw [hzone]
    by_cases hs' : s' = s
    · rw [if_pos hs']
      refine .inr ⟨hz.isZone, ?_⟩
      by_contra hset
      exact hz.not_marked ⟨hz.isZone, h.zmap (by simpa using hset)⟩
    · rw [if_neg hs']
      exact h.on s'

/-- `Followed` lasts as long as only slots in `S` are filled. -/
theorem Followed.supply (g : Superblock) (live : Nat → Prop) (ino : Nat) (S : Slot → Prop)
    (v : View) : Supply g live ino S (Followed g ino S v) where
  stocked := fun h _ _ n hn ↦ h.padded n hn.1
  fill := fun h ho hl hz hopen hS ↦ h.fill ho hl hz hopen hS
  congr := fun h hzone hzmap ↦
    { padded := h.padded.mono fun hn ↦ by rwa [hzmap]
      zmap := fun hn ↦ by rw [hzmap]; exact h.zmap hn
      off := fun hs ↦ (hzone _).trans (h.off hs)
      on := fun s ↦ by rw [hzone s]; exact h.on s }

/-- The only data slot on the way to a data slot is that slot. -/
theorem Slot.eq_of_mem_path {s t : Slot} (hs : ¬s.IsTable) (ht : t ∈ s.path) (hdata : ¬t.IsTable) :
    t = s := by
  cases s with
  | top k => exact List.mem_singleton.mp ht
  | ind j =>
    rcases List.mem_cons.mp ht with rfl | ht
    · exact absurd (.inl rfl) hdata
    · exact List.mem_singleton.mp ht
  | dbl j => exact absurd trivial hs
  | sng j k =>
    rcases List.mem_cons.mp ht with rfl | ht
    · exact absurd (.inr rfl) hdata
    rcases List.mem_cons.mp ht with rfl | ht
    · exact absurd trivial hdata
    · exact List.mem_singleton.mp ht

/-- The slots on the way to a block. -/
def OnPath (fb : Nat) (t : Slot) : Prop := ∃ s, slotOf fb = some s ∧ t ∈ s.path

theorem Followed.blockZone {fb fb' : Nat} (h : Followed g ino (OnPath fb) v v') (hne : fb' ≠ fb) :
    v'.blockZone ino fb' = v.blockZone ino fb' := by
  unfold View.blockZone
  cases hs' : slotOf fb' with
  | none => rfl
  | some s' =>
    refine h.off ?_
    rintro ⟨s, hs, hmem⟩
    obtain rfl := Slot.eq_of_mem_path (slotOf_isData hs) hmem (slotOf_isData hs')
    exact hne (slotOf_inj hs' hs)

/-- A block that has a zone keeps it and what is in it. -/
theorem Grown.blockZone {fb ino' : Nat} (h : Grown g live ino v v') (hl : live ino')
    (hne : v.blockZone ino' fb ≠ 0) : v'.blockZone ino' fb = v.blockZone ino' fb ∧
      v'.data (v.blockZone ino' fb) = v.data (v.blockZone ino' fb) := by
  obtain ⟨s, hs, -⟩ := slotOf_of_blockZone hne
  rw [blockZone_slot hs] at hne
  rw [blockZone_slot hs, blockZone_slot hs]
  have hdata := h.slot hl (slotOf_isData hs)
  rw [View.slot, h.zone hl hne] at hdata
  exact ⟨h.zone hl hne, hdata⟩

/-- A block that had no zone has got a free one, with zeros in it. -/
theorem Followed.blockZone_fresh {fb : Nat} {S : Slot → Prop} (h : Followed g ino S v v')
    (hg : Grown g live ino v v') (ho : Owned g live v) (hl : live ino)
    (hold : v.blockZone ino fb = 0) (hnew : v'.blockZone ino fb ≠ 0) :
    IsZone g (v'.blockZone ino fb) ∧ v.zmap (zoneBit g (v'.blockZone ino fb)) = false ∧
      v'.data (v'.blockZone ino fb) = Bytes.zero := by
  obtain ⟨s, hs, -⟩ := slotOf_of_blockZone hnew
  rw [blockZone_slot hs] at hold hnew ⊢
  rcases h.on s with heq | ⟨hzone, hfree⟩
  · exact absurd (heq.trans hold) hnew
  · have hdata := hg.slot hl (slotOf_isData hs)
    rw [View.slot, View.slot, hold, ho.zero] at hdata
    exact ⟨hzone, hfree, hdata⟩

end

/-! ## The whole call -/

/-- With `alloc`, `map_block` is an update of the file's map at one place: at every other block
the map stays, a block that has a zone keeps it, a block that had none gets a free zone of zeros,
and if it gets none nothing changes.  The inode on the disk is the one in memory, and no data
block of any inode changes. -/
theorem map_block_is_point_update {g : Superblock} {d : Disk} (h : ZoneInvariant g d) {ino : Nat}
    (hino : Allocated g (view g d) ino) {i : Inode} (hi : readInode g d ino = some i) (fb : Nat) :
    PointUpdate g d i ino fb (mapBlock g d i fb true ino).1 (mapBlock g d i fb true ino).2.1
      (mapBlock g d i fb true ino).2.2 := by
  have hshows := h.shows
  have hown := h.owned
  obtain rfl : (view g d).inode ino = i :=
    Option.some.inj ((hshows.readInode hino.1).symm.trans hi)
  obtain ⟨v', hmade, hres, hwhy⟩ := hshows.mapBlock fb hown hino
    (Followed.supply g (Allocated g (view g d)) ino (OnPath fb) (view g d)) (Followed.refl h.padded)
    fun s hs t ht ↦ ⟨s, hs, ht⟩
  have hfollow := hmade.supply
  have hgrown := hmade.grown
  -- what `map_block` reads before and after
  have hread : ∀ fb', (mapBlock g d ((view g d).inode ino) fb' false ino).1 =
      (view g d).blockZone ino fb' := hshows.mapBlock_read (hown.readable hino)
  have hread' : ∀ fb', (mapBlock g (mapBlock g d ((view g d).inode ino) fb true ino).2.2
      (mapBlock g d ((view g d).inode ino) fb true ino).2.1 fb' false ino).1 =
      v'.blockZone ino fb' := by
    rw [hmade.inode]
    exact hmade.shows.mapBlock_read (hgrown.owned.readable hino)
  refine ⟨fun fb' hne ↦ ?_, ?_, ?_, ?_, fun hzero fb' ↦ ?_, fun hzero ↦ ?_, ?_, ?_⟩
  · rw [hread, hread', hfollow.blockZone hne]
  · rw [hread', hres]
  · rw [hread, hres]
    exact fun hne ↦ (hgrown.blockZone hino hne).1
  · rw [hread, hres]
    intro hold hnew
    obtain ⟨hzone, hfree, hdata⟩ := hfollow.blockZone_fresh hgrown hown hino hold hnew
    exact ⟨hzone, hfree, (hmade.shows.block (.inr hzone)).trans hdata⟩
  · rw [hread, hread']
    rw [hres] at hzero
    by_cases hfb : fb' = fb
    · rw [hfb, hzero]
      by_contra hne
      exact hne (hzero ▸ (hgrown.blockZone hino (Ne.symm hne)).1)
    · exact hfollow.blockZone hfb
  · rw [hmade.shows.view]
    rcases hwhy with hne | hfull | hnone
    · exact absurd (hres.symm.trans hzero) hne
    · exact .inl hfull
    · exact .inr (not_lt.mp fun hlt ↦ slotOf_ne_none hlt hnone)
  · rw [hmade.shows.readInode hino.1, hmade.inode]
  · intro ino' fb' i₁ hl hi₁ hne
    obtain rfl : (view g d).inode ino' = i₁ :=
      Option.some.inj ((hshows.readInode hl.1).symm.trans hi₁)
    rw [hshows.mapBlock_read (hown.readable hl)] at hne ⊢
    have hrange := (hown.readable hl).blockZone_range fb'
    rw [hmade.shows.block hrange, hshows.block hrange, (hgrown.blockZone hl hne).2]

/-- Block 300 of the root directory of the small disk. -/
theorem map_block_is_point_update_root : ∃ i, readInode sampleSb sampleDisk 1 = some i ∧
    readInode sampleSb (mapBlock sampleSb sampleDisk i 300 true 1).2.2 1 =
      some (mapBlock sampleSb sampleDisk i 300 true 1).2.1 := by
  have hread := sample_shows.readInode (by decide : IsIno sampleSb 1)
  exact ⟨_, hread, (map_block_is_point_update sample_sound.zoneInvariant
    ⟨by decide, by decide⟩ hread 300).copy⟩

end FentoOS.Fs
