import FentoOS.Fs.Blocks

/-!
# Growing a file

`map_block` with `alloc` makes sure that a block of a file has a zone.  On the way
down from the inode it fills every empty slot it meets, and if the disk is full it
goes on with zone `0`.  Because block `0` is zero and the allocator fails again at
every further attempt, going on does no harm: the zero block is read as an empty
table and written back as it was.

`Grown g live ino v v'` says what a client may rely on when slots of `ino` have
been filled: nothing any file contains has changed.

Whether the allocator returns zones that exist depends on the image.  `Supply`
states it as a property `P` of views that lasts as long as only the slots in `S`
are filled; on an image whose maps are padded it is `Padded`.
-/

namespace FentoOS.Fs

open FentoOS.Lib Function

/-- Slots of `ino` have been filled. -/
structure Grown (g : Superblock) (live : Nat → Prop) (ino : Nat) (v v' : View) : Prop where
  owned : Owned g live v'
  imap : v'.imap = v.imap
  zmap : ∀ {n}, v.zmap n = true → v'.zmap n = true
  attr : ∀ ino', (v'.inode ino').attr = (v.inode ino').attr
  zone : ∀ {ino' s}, live ino' → v.zone ino' s ≠ 0 → v'.zone ino' s = v.zone ino' s
  other : ∀ {ino' s}, live ino' → ino' ≠ ino → v'.zone ino' s = v.zone ino' s
  slot : ∀ {ino' s}, live ino' → ¬s.IsTable → v'.slot ino' s = v.slot ino' s

variable {z fb : Nat}

section

variable {g : Superblock} {live : Nat → Prop} {d : Disk} {v v' v'' : View} {ino : Nat} {s p : Slot}
  {j : Fin 256}

theorem Grown.refl (h : Owned g live v) : Grown g live ino v v where
  owned := h
  imap := rfl
  zmap := id
  attr := fun _ ↦ rfl
  zone := fun _ _ ↦ rfl
  other := fun _ _ ↦ rfl
  slot := fun _ _ ↦ rfl

theorem Grown.trans (h : Grown g live ino v v') (h' : Grown g live ino v' v'') :
    Grown g live ino v v'' where
  owned := h'.owned
  imap := h'.imap.trans h.imap
  zmap := fun hn ↦ h'.zmap (h.zmap hn)
  attr := fun ino' ↦ (h'.attr ino').trans (h.attr ino')
  zone := fun hl hz ↦ by
    have heq := h.zone hl hz
    exact (h'.zone hl (heq.symm ▸ hz)).trans heq
  other := fun hl hne ↦ (h'.other hl hne).trans (h.other hl hne)
  slot := fun hl hs ↦ (h'.slot hl hs).trans (h.slot hl hs)

theorem Owned.grown_fill (h : Owned g live v) (hl : live ino) (hz : Fresh g v z)
    (hopen : Open v ino s) : Grown g live ino v (v.fill g ino s z) where
  owned := h.fill hl hz hopen
  imap := fill_imap v
  zmap := by
    intro n hn
    rw [fill_zmap]
    by_cases heq : n = zoneBit g z
    · subst heq
      exact update_self ..
    · rw [update_of_ne heq]
      exact hn
  attr := fill_attr v
  zone := by
    intro ino' s' hl' hz'
    have hne : ¬(ino' = ino ∧ s' = s) := by
      rintro ⟨rfl, rfl⟩
      exact hz' hopen.empty
    rw [h.zone_fill hl hz hopen hl', if_neg hne]
  other := by
    intro ino' s' hl' hne
    rw [h.zone_fill hl hz hopen hl', if_neg fun hc ↦ hne hc.1]
  slot := fun hl' hs' ↦ h.slot_fill hl hz hopen hl' hs'

/-! ## Supply -/

/-- While only slots in `S` of `ino` are filled, from a view with `P` on, the zones that the
allocator returns exist. -/
structure Supply (g : Superblock) (live : Nat → Prop) (ino : Nat) (S : Slot → Prop)
    (P : View → Prop) : Prop where
  stocked : ∀ {v s}, P v → S s → v.zone ino s = 0 → Stocked g v
  fill : ∀ {v s z}, P v → Owned g live v → live ino → Fresh g v z → Open v ino s → S s →
    P (v.fill g ino s z)
  congr : ∀ {v v'}, P v → (∀ s, v'.zone ino s = v.zone ino s) → v'.zmap = v.zmap → P v'

/-- The bits of the zone map that belong to no zone are set. -/
def Padded (g : Superblock) (v : View) : Prop :=
  ∀ n, v.zmap n = false → 1 ≤ n ∧ n ≤ g.sZones - g.sFirstdatazone

theorem Padded.mono (h : Padded g v) (hzmap : ∀ {n}, v.zmap n = true → v'.zmap n = true) :
    Padded g v' := by
  intro n hn
  apply h
  by_contra hc
  rw [hzmap (Bool.not_eq_false _ ▸ hc)] at hn
  cases hn

/-- A padded map never runs out of zones that exist. -/
theorem Padded.supply (g : Superblock) (live : Nat → Prop) (ino : Nat) (S : Slot → Prop) :
    Supply g live ino S (Padded g) where
  stocked := fun h _ _ n hn ↦ h n hn.1
  fill := fun h ho hl hz hopen _ ↦ h.mono (ho.grown_fill hl hz hopen).zmap
  congr := fun h _ hzmap ↦ h.mono fun hn ↦ by rwa [hzmap]

/-! ## One slot -/

/-- The slot has been made sure of: it holds a zone, or it has been filled, or the disk is
full. -/
inductive Ensured (g : Superblock) (v : View) (ino : Nat) (s : Slot) : View → Prop
  | present (h : v.zone ino s ≠ 0) : Ensured g v ino s v
  | full (h : Full v.zmap) : Ensured g v ino s v
  | filled {z : Nat} (hz : Fresh g v z) (hopen : Open v ino s) :
      Ensured g v ino s (v.fill g ino s z)

theorem Ensured.grown (h : Ensured g v ino s v') (ho : Owned g live v) (hl : live ino) :
    Grown g live ino v v' := by
  cases h with
  | present | full => exact .refl ho
  | filled hz hopen => exact ho.grown_fill hl hz hopen

theorem Ensured.supply {S : Slot → Prop} {P : View → Prop} (h : Ensured g v ino s v')
    (ho : Owned g live v) (hl : live ino) (hsup : Supply g live ino S P) (hS : S s) (hP : P v) :
    P v' := by
  cases h with
  | present | full => exact hP
  | filled hz hopen => exact hsup.fill hP ho hl hz hopen hS

theorem Ensured.zone_or_full (h : Ensured g v ino s v') (ho : Owned g live v) (hl : live ino) :
    v'.zone ino s ≠ 0 ∨ Full v'.zmap := by
  cases h with
  | present hz => exact .inl hz
  | full hfull => exact .inr hfull
  | filled hz hopen =>
    rw [ho.zone_fill hl hz hopen hl, if_pos ⟨rfl, rfl⟩]
    exact .inl hz.pos

theorem Vacant.not_marked (h : Vacant v.zmap (zoneBit g z)) : ¬Marked g v z := by
  rintro ⟨-, hset⟩
  rw [h.1] at hset
  cases hset

theorem Shows.fresh (h : Shows g d v) (hz : IsZone g z) (hvac : Vacant v.zmap (zoneBit g z)) :
    Fresh g v z where
  isZone := hz
  not_marked := hvac.not_marked
  pos := by
    have h₁ := h.geometry.table
    have h₂ := hz.1
    unfold Superblock.inodeStart Superblock.zmapStart Superblock.imapStart at h₁
    omega
  lt := hz.2.trans h.geometry.zones

theorem setZone_self (i : Inode) {k : Nat} (h : i.iZone k = 0) : i.setZone k 0 = i := by
  have hzone : update i.iZone k 0 = i.iZone := by
    rw [← h]
    exact update_eq_self ..
  rw [Inode.setZone, hzone]

theorem View.setInode_self (v : View) (ino : Nat) : v.setInode ino (v.inode ino) = v := by
  rw [View.setInode, update_eq_self]

theorem View.poke_self (v : View) {p j : Nat} (h : v.word p j = 0) : v.poke p j 0 = v := by
  have hdata : (v.data p).put32 (4 * j) 0 = v.data p := by
    conv_lhs => rw [← h]
    exact Bytes.put32_get32 ..
  rw [View.poke, hdata, View.setData, update_eq_self]

/-- An empty slot of the inode is made sure of. -/
theorem Shows.growInode (h : Shows g d v) (hino : IsIno g ino) (hs : Stocked g v) {k : Fin 10}
    (hempty : v.zone ino (.top k) = 0) :
    ∃ v', Ensured g v ino (.top k) v' ∧ Shows g (growInode g d (v.inode ino) k ino).2 v' ∧
      (growInode g d (v.inode ino) k ino).1 = v'.inode ino := by
  simp only [Fs.growInode]
  rcases h.allocZone hs with ⟨hfull, heq⟩ | ⟨z, hz, hvac, heq, h'⟩
  · refine ⟨v, .full hfull, ?_, ?_⟩
    · rw [heq, setZone_self _ hempty]
      have hw := (h.writeInode hino (h.wf ino)).2
      rwa [v.setInode_self] at hw
    · rw [heq, setZone_self _ hempty]
  · have hfresh := h.fresh hz hvac
    refine ⟨v.fill g ino (.top k) z, .filled hfresh ⟨hempty, nofun⟩, ?_, ?_⟩
    · rw [heq]
      exact (h'.writeInode hino ((h.wf ino).setZone k.isLt hfresh.lt)).2
    · rw [heq]
      exact (update_self ino _ v.inode).symm

/-- An empty slot in a table is made sure of.  If there is no table, the disk is full. -/
theorem Shows.growBlock (h : Shows g d v) (ho : Owned g live v) (hl : live ino)
    (hs : Stocked g v) (hp : s.parent = some (p, j)) (hempty : v.zone ino s = 0)
    (hpar : v.zone ino p ≠ 0 ∨ Full v.zmap) :
    ∃ v', Ensured g v ino s v' ∧ v'.inode = v.inode ∧
      Shows g (growBlock g d (v.zone ino p) (v.slot ino p) j).2 v' ∧
      (growBlock g d (v.zone ino p) (v.slot ino p) j).1 = v'.zone ino s := by
  simp only [Fs.growBlock]
  rcases h.allocZone hs with ⟨hfull, heq⟩ | ⟨z, hz, hvac, heq, h'⟩
  · refine ⟨v, .full hfull, rfl, ?_, ?_⟩
    · rw [heq]
      have hw := h.blockWrite (ho.data_range hl p) ((v.slot ino p).put32 (4 * j) 0)
      rw [v.zone_child ino hp] at hempty
      change Shows g _ (v.poke (v.zone ino p) j 0) at hw
      rwa [v.poke_self hempty] at hw
    · rw [heq, hempty]
  · have hfresh := h.fresh hz hvac
    have hpar' : v.zone ino p ≠ 0 := by
      rcases hpar with hpar | hfull
      · exact hpar
      · exact absurd (hfull _) (hvac.1 ▸ Bool.false_ne_true)
    have hopen : Open v ino s := ⟨hempty, fun hp' ↦ by cases hp.symm.trans hp'; exact hpar'⟩
    have hdata : v.slot ino p = (v.take g z).data (v.zone ino p) :=
      (update_of_ne (ho.ne_of_not_marked hl hfresh.pos hfresh.not_marked) ..).symm
    refine ⟨v.fill g ino s z, .filled hfresh hopen, ?_, ?_, ?_⟩
    · rw [View.fill, View.attach_child _ _ hp]
      rfl
    · rw [heq, View.fill, View.attach_child _ _ hp, ho.zone_take hfresh hl, hdata]
      exact h'.blockWrite (ho.data_range hl p) _
    · rw [heq, ho.zone_fill hl hfresh hopen hl, if_pos ⟨rfl, rfl⟩]

/-! ## A block of a file -/

/-- The zone of a block of a file. -/
def View.blockZone (v : View) (ino fb : Nat) : Nat := (slotOf fb).elim 0 (v.zone ino)

/-- The slots on the way from the inode to a slot. -/
def Slot.path : Slot → List Slot
  | .top k => [.top k]
  | .ind j => [.top 7, .ind j]
  | .dbl j => [.top 8, .dbl j]
  | .sng j k => [.top 8, .dbl j, .sng j k]

section MapBlock

variable {S : Slot → Prop} {P : View → Prop}

/-! `map_block` by the slot of the block. -/

theorem mapBlock_none (h : slotOf fb = none) (d : Disk) (i : Inode) (alloc : Bool) (ino : Nat) :
    mapBlock g d i fb alloc ino = (0, i, d) := by
  rcases slotOf_cases fb with ⟨_, heq⟩ | ⟨-, _, heq⟩ | ⟨-, -, _, heq⟩ | ⟨h₁, h₂, h₃, -⟩
  · cases heq.symm.trans h
  · cases heq.symm.trans h
  · cases heq.symm.trans h
  · rw [mapBlock, if_neg h₁, if_neg h₂, if_pos (not_lt.mp h₃)]

theorem mapBlock_top {k : Fin 10} (h : slotOf fb = some (.top k)) (d : Disk) (i : Inode)
    (alloc : Bool) (ino : Nat) : mapBlock g d i fb alloc ino =
      if i.iZone k = 0 ∧ alloc then
        ((growInode g d i k ino).1.iZone k, (growInode g d i k ino).1, (growInode g d i k ino).2)
      else (i.iZone k, i, d) := by
  rcases slotOf_cases fb with ⟨h₁, heq⟩ | ⟨-, _, heq⟩ | ⟨-, -, _, heq⟩ | ⟨-, -, -, heq⟩
  · cases heq.symm.trans h
    rw [mapBlock, if_pos h₁]
  · cases heq.symm.trans h
  · cases heq.symm.trans h
  · cases heq.symm.trans h

theorem mapBlock_ind {j : Fin 256} (h : slotOf fb = some (.ind j)) (d : Disk) (i : Inode)
    (alloc : Bool) (ino : Nat) : mapBlock g d i fb alloc ino =
      if i.iZone 7 = 0 then
        if alloc then
          mapLeaf g (growInode g d i 7 ino).2 (growInode g d i 7 ino).1
            ((growInode g d i 7 ino).1.iZone 7) j alloc
        else (0, i, d)
      else mapLeaf g d i (i.iZone 7) j alloc := by
  rcases slotOf_cases fb with ⟨_, heq⟩ | ⟨h₁, h₂, heq⟩ | ⟨-, -, _, heq⟩ | ⟨-, -, -, heq⟩
  · cases heq.symm.trans h
  · cases heq.symm.trans h
    rw [mapBlock, if_neg h₁, if_pos h₂]
  · cases heq.symm.trans h
  · cases heq.symm.trans h

theorem mapBlock_sng {j k : Fin 256} (h : slotOf fb = some (.sng j k)) (d : Disk) (i : Inode)
    (alloc : Bool) (ino : Nat) : mapBlock g d i fb alloc ino =
      if i.iZone 8 = 0 then
        if alloc then
          mapDouble g (growInode g d i 8 ino).2 (growInode g d i 8 ino).1 j k alloc
        else (0, i, d)
      else mapDouble g d i j k alloc := by
  rcases slotOf_cases fb with ⟨_, heq⟩ | ⟨-, _, heq⟩ | ⟨h₁, h₂, h₃, heq⟩ | ⟨-, -, -, heq⟩
  · cases heq.symm.trans h
  · cases heq.symm.trans h
  · cases heq.symm.trans h
    rw [mapBlock, if_neg h₁, if_neg h₂, if_neg (not_le.mpr h₃)]
  · cases heq.symm.trans h

/-- What making sure of slots of `ino` leads to. -/
structure Made (g : Superblock) (live : Nat → Prop) (ino : Nat) (P : View → Prop) (v : View)
    (d' : Disk) (i' : Inode) (v' : View) : Prop where
  shows : Shows g d' v'
  inode : i' = v'.inode ino
  grown : Grown g live ino v v'
  supply : P v'

theorem Shows.mapLeaf (h : Shows g d v) (ho : Owned g live v) (hl : live ino)
    (hsup : Supply g live ino S P) (hP : P v) (hS : S s) (hp : s.parent = some (p, j))
    (hpar : v.zone ino p ≠ 0 ∨ Full v.zmap) :
    ∃ v', Made g live ino P v (mapLeaf g d (v.inode ino) (v.zone ino p) j true).2.2
        (mapLeaf g d (v.inode ino) (v.zone ino p) j true).2.1 v' ∧
      (mapLeaf g d (v.inode ino) (v.zone ino p) j true).1 = v'.zone ino s ∧
      (v'.zone ino s ≠ 0 ∨ Full v'.zmap) := by
  have hread : Fs.readInto d (v.zone ino p) = v.slot ino p := h.readInto (ho.data_range hl p)
  have hword : (v.slot ino p).get32 (4 * j) = v.zone ino s := (v.zone_child ino hp).symm
  simp only [Fs.mapLeaf, hread, hword, and_true]
  by_cases hempty : v.zone ino s = 0
  · obtain ⟨v', hens, hinode, hshows, hzone⟩ :=
      h.growBlock ho hl (hsup.stocked hP hS hempty) hp hempty hpar
    rw [if_pos hempty]
    refine ⟨v', ⟨hshows, ?_, hens.grown ho hl, hens.supply ho hl hsup hS hP⟩, hzone,
      hens.zone_or_full ho hl⟩
    rw [hinode]
  · rw [if_neg hempty]
    exact ⟨v, ⟨h, rfl, .refl ho, hP⟩, rfl, .inl hempty⟩

theorem Shows.mapDouble (h : Shows g d v) (ho : Owned g live v) (hl : live ino)
    (hsup : Supply g live ino S P) (hP : P v) {j k : Fin 256} (hS₁ : S (.dbl j))
    (hS₂ : S (.sng j k)) (hpar : v.zone ino (.top 8) ≠ 0 ∨ Full v.zmap) :
    ∃ v', Made g live ino P v (mapDouble g d (v.inode ino) j k true).2.2
        (mapDouble g d (v.inode ino) j k true).2.1 v' ∧
      (mapDouble g d (v.inode ino) j k true).1 = v'.zone ino (.sng j k) ∧
      (v'.zone ino (.sng j k) ≠ 0 ∨ Full v'.zmap) := by
  have htop : (v.inode ino).iZone 8 = v.zone ino (.top 8) := rfl
  have hread : Fs.readInto d (v.zone ino (.top 8)) = v.slot ino (.top 8) :=
    h.readInto (ho.data_range hl (.top 8))
  have hword : (v.slot ino (.top 8)).get32 (4 * j) = v.zone ino (.dbl j) := rfl
  simp only [Fs.mapDouble, htop, hread, hword, if_true]
  by_cases hempty : v.zone ino (.dbl j) = 0
  · obtain ⟨v₁, hens, hinode, hshows, hzone⟩ :=
      h.growBlock (j := j) ho hl (hsup.stocked hP hS₁ hempty) rfl hempty hpar
    have hg := hens.grown ho hl
    obtain ⟨v₂, hm, hres, hor⟩ := hshows.mapLeaf (s := .sng j k) hg.owned hl hsup
      (hens.supply ho hl hsup hS₁ hP) hS₂ rfl (hens.zone_or_full ho hl)
    rw [← hzone, hinode] at hm hres
    rw [if_pos hempty]
    exact ⟨v₂, ⟨hm.shows, hm.inode, hg.trans hm.grown, hm.supply⟩, hres, hor⟩
  · rw [if_neg hempty]
    exact h.mapLeaf ho hl hsup hP hS₂ rfl (.inl hempty)

/-- An empty slot of the inode is made sure of, as a step of `map_block`. -/
theorem Shows.mapTop (h : Shows g d v) (ho : Owned g live v) (hl : live ino)
    (hsup : Supply g live ino S P) (hP : P v) {k : Fin 10} (hS : S (.top k))
    (hempty : v.zone ino (.top k) = 0) :
    ∃ v', Made g live ino P v (Fs.growInode g d (v.inode ino) k ino).2
        (Fs.growInode g d (v.inode ino) k ino).1 v' ∧
      (v'.zone ino (.top k) ≠ 0 ∨ Full v'.zmap) := by
  obtain ⟨v', hens, hshows, hinode⟩ :=
    h.growInode (ho.number hl) (hsup.stocked hP hS hempty) hempty
  exact ⟨v', ⟨hshows, hinode, hens.grown ho hl, hens.supply ho hl hsup hS hP⟩,
    hens.zone_or_full ho hl⟩

/-- `map_block` with `alloc` makes sure of the slots on the way to a block, and returns the
zone of the block. -/
theorem Shows.mapBlock (h : Shows g d v) (fb : Nat) (ho : Owned g live v) (hl : live ino)
    (hsup : Supply g live ino S P) (hP : P v)
    (hS : ∀ s, slotOf fb = some s → ∀ t ∈ s.path, S t) :
    ∃ v', Made g live ino P v (mapBlock g d (v.inode ino) fb true ino).2.2
        (mapBlock g d (v.inode ino) fb true ino).2.1 v' ∧
      (mapBlock g d (v.inode ino) fb true ino).1 = v'.blockZone ino fb ∧
      (v'.blockZone ino fb ≠ 0 ∨ Full v'.zmap ∨ slotOf fb = none) := by
  unfold View.blockZone
  cases hs : slotOf fb with
  | none =>
    rw [mapBlock_none hs]
    exact ⟨v, ⟨h, rfl, .refl ho, hP⟩, rfl, .inr (.inr rfl)⟩
  | some s =>
    have hpath := hS s hs
    cases s with
    | top k =>
      have htop : (v.inode ino).iZone k = v.zone ino (.top k) := rfl
      rw [mapBlock_top hs, htop]
      by_cases hempty : v.zone ino (.top k) = 0
      · obtain ⟨v', hm, hor⟩ := h.mapTop ho hl hsup hP (hpath _ (by simp [Slot.path])) hempty
        rw [if_pos ⟨hempty, rfl⟩]
        refine ⟨v', hm, ?_, hor.imp_right .inl⟩
        simp only [hm.inode]
        rfl
      · rw [if_neg fun hc ↦ hempty hc.1]
        exact ⟨v, ⟨h, rfl, .refl ho, hP⟩, rfl, .inl hempty⟩
    | ind j =>
      have htop : (v.inode ino).iZone 7 = v.zone ino (.top 7) := rfl
      have hS₁ : S (.top 7) := hpath _ (by simp [Slot.path])
      have hS₂ : S (.ind j) := hpath _ (by simp [Slot.path])
      rw [mapBlock_ind hs, htop]
      by_cases hempty : v.zone ino (.top 7) = 0
      · obtain ⟨v₁, hm₁, hor₁⟩ := h.mapTop ho hl hsup hP hS₁ hempty
        have hinode : (Fs.growInode g d (v.inode ino) 7 ino).1 = v₁.inode ino := hm₁.inode
        obtain ⟨v', hm, hres, hor⟩ := hm₁.shows.mapLeaf (s := .ind j) hm₁.grown.owned hl hsup
          hm₁.supply hS₂ rfl hor₁
        rw [if_pos hempty, if_pos rfl, hinode]
        exact ⟨v', ⟨hm.shows, hm.inode, hm₁.grown.trans hm.grown, hm.supply⟩, hres,
          hor.imp_right .inl⟩
      · obtain ⟨v', hm, hres, hor⟩ :=
          h.mapLeaf (s := .ind j) ho hl hsup hP hS₂ rfl (.inl hempty)
        rw [if_neg hempty]
        exact ⟨v', hm, hres, hor.imp_right .inl⟩
    | dbl j => exact absurd trivial (slotOf_isData hs)
    | sng j k =>
      have htop : (v.inode ino).iZone 8 = v.zone ino (.top 8) := rfl
      have hS₁ : S (.top 8) := hpath _ (by simp [Slot.path])
      have hS₂ : S (.dbl j) := hpath _ (by simp [Slot.path])
      have hS₃ : S (.sng j k) := hpath _ (by simp [Slot.path])
      rw [mapBlock_sng hs, htop]
      by_cases hempty : v.zone ino (.top 8) = 0
      · obtain ⟨v₁, hm₁, hor₁⟩ := h.mapTop ho hl hsup hP hS₁ hempty
        have hinode : (Fs.growInode g d (v.inode ino) 8 ino).1 = v₁.inode ino := hm₁.inode
        obtain ⟨v', hm, hres, hor⟩ := hm₁.shows.mapDouble hm₁.grown.owned hl hsup
          hm₁.supply hS₂ hS₃ hor₁
        rw [if_pos hempty, if_pos rfl, hinode]
        exact ⟨v', ⟨hm.shows, hm.inode, hm₁.grown.trans hm.grown, hm.supply⟩, hres,
          hor.imp_right .inl⟩
      · obtain ⟨v', hm, hres, hor⟩ := h.mapDouble ho hl hsup hP hS₂ hS₃ (.inl hempty)
        rw [if_neg hempty]
        exact ⟨v', hm, hres, hor.imp_right .inl⟩

/-- Where there is nothing to allocate, `map_block` returns the zone of the block and leaves the
disk alone. -/
theorem Shows.mapBlock_eq (h : Shows g d v) (hr : Readable g v ino) {alloc : Bool}
    (hz : alloc = true → v.blockZone ino fb ≠ 0) :
    Fs.mapBlock g d (v.inode ino) fb alloc ino = (v.blockZone ino fb, v.inode ino, d) := by
  have hnone : ∀ j, v.word 0 j = 0 := by
    intro j
    rw [View.word, hr.zero, Bytes.get32_zero]
  have hleaf : ∀ {s p : Slot} {j : Fin 256}, s.parent = some (p, j) →
      (alloc = true → v.zone ino s ≠ 0) →
      Fs.mapLeaf g d (v.inode ino) (v.zone ino p) j alloc = (v.zone ino s, v.inode ino, d) := by
    intro s p j hp hs
    have hread : Fs.readInto d (v.zone ino p) = v.slot ino p := h.readInto (hr.range p)
    have hword : (v.slot ino p).get32 (4 * j) = v.zone ino s := (v.zone_child ino hp).symm
    simp only [Fs.mapLeaf, hread, hword]
    exact if_neg fun hc ↦ hs hc.2 hc.1
  unfold View.blockZone at hz ⊢
  cases hs : slotOf fb with
  | none => rw [mapBlock_none hs, Option.elim_none]
  | some s =>
    rw [hs, Option.elim_some] at hz
    rw [Option.elim_some]
    cases s with
    | top k => rw [mapBlock_top hs, if_neg fun hc ↦ hz hc.2 hc.1]; rfl
    | ind j =>
      have htop : (v.inode ino).iZone 7 = v.zone ino (.top 7) := rfl
      have hchild : v.zone ino (.ind j) = v.word (v.zone ino (.top 7)) j := rfl
      rw [mapBlock_ind hs, htop]
      by_cases hempty : v.zone ino (.top 7) = 0
      · have hzero : v.zone ino (.ind j) = 0 := by rw [hchild, hempty, hnone]
        rw [if_pos hempty, if_neg fun ha ↦ hz ha hzero, hzero]
      · rw [if_neg hempty]
        exact hleaf (s := .ind j) rfl hz
    | dbl j => exact absurd trivial (slotOf_isData hs)
    | sng j k =>
      have htop : (v.inode ino).iZone 8 = v.zone ino (.top 8) := rfl
      have hread : Fs.readInto d (v.zone ino (.top 8)) = v.slot ino (.top 8) :=
        h.readInto (hr.range (.top 8))
      have hword : (v.slot ino (.top 8)).get32 (4 * j) = v.zone ino (.dbl j) := rfl
      have hchild₁ : v.zone ino (.dbl j) = v.word (v.zone ino (.top 8)) j := rfl
      have hchild₂ : v.zone ino (.sng j k) = v.word (v.zone ino (.dbl j)) k := rfl
      rw [mapBlock_sng hs, htop]
      by_cases hempty : v.zone ino (.top 8) = 0
      · have hzero : v.zone ino (.sng j k) = 0 := by rw [hchild₂, hchild₁, hempty, hnone, hnone]
        rw [if_pos hempty, if_neg fun ha ↦ hz ha hzero, hzero]
      · simp only [if_neg hempty, Fs.mapDouble, htop, hread, hword]
        by_cases hdbl : v.zone ino (.dbl j) = 0
        · have hzero : v.zone ino (.sng j k) = 0 := by rw [hchild₂, hdbl, hnone]
          rw [if_pos hdbl, if_neg fun ha ↦ hz ha hzero, hzero]
        · rw [if_neg hdbl]
          exact hleaf (s := .sng j k) rfl hz

/-- `map_block` without `alloc` returns the zone of the block. -/
theorem Shows.mapBlock_read (h : Shows g d v) (hr : Readable g v ino) (fb : Nat) :
    (Fs.mapBlock g d (v.inode ino) fb false ino).1 = v.blockZone ino fb := by
  rw [h.mapBlock_eq hr fun hc ↦ absurd hc Bool.false_ne_true]

end MapBlock

end

end FentoOS.Fs
