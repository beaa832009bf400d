import FentoOS.Fs.Zone

/-!
# What a disk shows

The code sees the disk through four windows: the bits of the inode map, the bits
of the zone map, the slots of the inode table and the blocks that hold data.
`view` collects them, and `Shows g d v` says that a disk with the layout `g` shows
`v`.  The layout keeps the four apart, so each primitive of the lowest layer
changes the view in one place: this module replaces reading and writing blocks by
equations on views, and the modules above never look at a block again.

The history of the disk goes along: as long as the disk shows anything, the
allocators have only returned numbers inside the layout.
-/

namespace FentoOS.Fs

open FentoOS.Lib Function

/-! ## Layout -/

/-- The parts of the disk lie one behind the other, the maps are large enough, and the device
holds it all. -/
structure Geometry (g : Superblock) (size : Nat) : Prop where
  table : g.inodeStart + (g.sNinodes + 15) / 16 ≤ g.sFirstdatazone
  data : g.sFirstdatazone ≤ g.sZones
  size : g.sZones ≤ size
  zones : g.sZones < 2 ^ 32
  imap : g.sNinodes < 8192 * g.sImapBlocks
  zmap : g.sZones - g.sFirstdatazone < 8192 * g.sZmapBlocks

/-- The number of an inode. -/
def IsIno (g : Superblock) (ino : Nat) : Prop := 1 ≤ ino ∧ ino ≤ g.sNinodes

/-- The number of a zone. -/
def IsZone (g : Superblock) (z : Nat) : Prop := g.sFirstdatazone ≤ z ∧ z < g.sZones

instance (g : Superblock) (ino : Nat) : Decidable (IsIno g ino) :=
  inferInstanceAs (Decidable (_ ∧ _))

instance (g : Superblock) (z : Nat) : Decidable (IsZone g z) :=
  inferInstanceAs (Decidable (_ ∧ _))

/-- The bit of the zone map that belongs to a zone. -/
def zoneBit (g : Superblock) (z : Nat) : Nat := z - g.sFirstdatazone + 1

/-- An event inside the layout. -/
def Event.Ok (g : Superblock) : Event → Prop
  | .allocInode ino => ino ≤ g.sNinodes
  | .allocZone z => z < g.sZones
  | .writeInode b => b < g.sFirstdatazone

/-! ## Views -/

/-- What a disk shows. -/
@[ext]
structure View where
  imap : Nat → Bool
  zmap : Nat → Bool
  inode : Nat → Inode
  data : Nat → Bytes

namespace View

def setInode (v : View) (ino : Nat) (i : Inode) : View :=
  { v with inode := Function.update v.inode ino i }

def setData (v : View) (z : Nat) (buf : Bytes) : View :=
  { v with data := Function.update v.data z buf }

def setImap (v : View) (n : Nat) (b : Bool) : View :=
  { v with imap := Function.update v.imap n b }

def setZmap (v : View) (n : Nat) (b : Bool) : View :=
  { v with zmap := Function.update v.zmap n b }

@[simp] theorem setInode_inode (v : View) (ino : Nat) (i : Inode) :
    (v.setInode ino i).inode = update v.inode ino i := rfl
@[simp] theorem setData_data (v : View) (z : Nat) (buf : Bytes) :
    (v.setData z buf).data = update v.data z buf := rfl
@[simp] theorem setImap_imap (v : View) (n : Nat) (b : Bool) :
    (v.setImap n b).imap = update v.imap n b := rfl

end View

/-- Bit `n` of the map of `blocks` blocks from `start` on.  Bits past its end count as set. -/
def mapBit (d : Disk) (start blocks n : Nat) : Bool :=
  if n < 8192 * blocks then (d.block (start + n / 8192)).testBit (n % 8192) else true

def view (g : Superblock) (d : Disk) : View where
  imap := mapBit d g.imapStart g.sImapBlocks
  zmap := mapBit d g.zmapStart g.sZmapBlocks
  inode := fun ino ↦
    if IsIno g ino then Inode.get (d.block (inodeBlock g ino)) ((ino - 1) % 16) else Inode.zero
  data := fun z ↦ if z = 0 ∨ IsZone g z then d.block z else Bytes.zero

/-- The disk has the layout `g` and shows `v`, and nothing outside of the layout has been
handed out. -/
structure Shows (g : Superblock) (d : Disk) (v : View) : Prop where
  geometry : Geometry g d.size
  view : view g d = v
  trace : ∀ e ∈ d.trace, e.Ok g

variable {ino z start blocks blk n : Nat} {buf : Bytes} {b : Bool}

section

variable {g : Superblock} {d : Disk} {v : View}

theorem Shows.log (h : Shows g d v) {e : Event} (he : e.Ok g) : Shows g (d.log e) v := by
  refine ⟨h.geometry, h.view, fun e' he' ↦ ?_⟩
  rcases List.mem_append.mp he' with he' | he'
  · exact h.trace e' he'
  · obtain rfl := List.mem_singleton.mp he'
    exact he

theorem Geometry.inodeBlock_lt (h : Geometry g d.size) (hino : IsIno g ino) :
    g.inodeStart ≤ inodeBlock g ino ∧ inodeBlock g ino < g.sFirstdatazone := by
  obtain ⟨h₁, h₂⟩ := hino
  have ht := h.table
  unfold inodeBlock
  omega

/-! ## Reading -/

theorem Shows.readInode (h : Shows g d v) (hino : IsIno g ino) :
    readInode g d ino = some (v.inode ino) := by
  obtain ⟨-, hlt⟩ := h.geometry.inodeBlock_lt hino
  have hsize : inodeBlock g ino < d.size :=
    hlt.trans_le (h.geometry.data.trans h.geometry.size)
  have h1 : ¬ino < 1 := not_lt.mpr hino.1
  rw [Fs.readInode, if_neg h1, blockRead, if_pos hsize, ← h.view]
  simp only [Fs.view, if_pos hino, Option.map_some]

theorem Shows.readInodeInto (h : Shows g d v) (hino : IsIno g ino) :
    readInodeInto g d ino = v.inode ino := by
  rw [Fs.readInodeInto, h.readInode hino, Option.getD_some]

theorem Geometry.size_pos (h : Geometry g d.size) : 0 < d.size := by
  have h₁ := h.table
  have h₂ := h.data
  have h₃ := h.size
  unfold Superblock.inodeStart Superblock.zmapStart Superblock.imapStart at h₁
  omega

theorem Geometry.data_lt (h : Geometry g d.size) (hz : z = 0 ∨ IsZone g z) : z < d.size := by
  rcases hz with rfl | hz
  · exact h.size_pos
  · exact hz.2.trans_le h.size

theorem Shows.readInto (h : Shows g d v) (hz : z = 0 ∨ IsZone g z) : readInto d z = v.data z := by
  have hlt : z < d.size := h.geometry.data_lt hz
  rw [Fs.readInto, blockRead, if_pos hlt, ← h.view]
  simp only [Fs.view, if_pos hz, Option.getD_some]

/-- The inodes of a view have fields that fit. -/
theorem Shows.wf (h : Shows g d v) (ino : Nat) : (v.inode ino).Wf := by
  rw [← h.view]
  simp only [Fs.view]
  split
  · exact Inode.get_wf _ _
  · exact Inode.zero_wf

/-! ## Changing a block -/

theorem mapBit_setBlock_of_notMem (h : blk < start ∨ start + blocks ≤ blk) (buf : Bytes) :
    mapBit (d.setBlock blk buf) start blocks = mapBit d start blocks := by
  funext n
  unfold mapBit
  split
  case isTrue hn =>
    have hne : start + n / 8192 ≠ blk := by omega
    rw [Disk.setBlock_block, update_of_ne hne]
  case isFalse => rfl

/-- A block of a map in which one bit has been changed. -/
theorem mapBit_setBlock (hn : n < 8192 * blocks)
    (hbuf : ∀ i, buf.testBit i =
      if i = n % 8192 then b else (d.block (start + n / 8192)).testBit i) :
    mapBit (d.setBlock (start + n / 8192) buf) start blocks =
      update (mapBit d start blocks) n b := by
  funext m
  by_cases hmn : m = n
  · subst hmn
    rw [update_self, mapBit, if_pos hn, Disk.setBlock_block, update_self, hbuf,
      if_pos rfl]
  · rw [update_of_ne hmn]
    unfold mapBit
    split
    case isTrue =>
      rw [Disk.setBlock_block]
      by_cases hblk : m / 8192 = n / 8192
      · have hbit : m % 8192 ≠ n % 8192 := by omega
        rw [hblk, update_self, hbuf, if_neg hbit]
      · have hne : start + m / 8192 ≠ start + n / 8192 := by omega
        rw [update_of_ne hne]
    case isFalse => rfl

theorem Geometry.view_inode (h : Geometry g d.size)
    (hblk : blk < g.inodeStart ∨ g.sFirstdatazone ≤ blk) (buf : Bytes) :
    (Fs.view g (d.setBlock blk buf)).inode = (Fs.view g d).inode := by
  funext ino
  simp only [Fs.view]
  split
  case isTrue hino =>
    obtain ⟨hlo, hhi⟩ := h.inodeBlock_lt hino
    have hne : inodeBlock g ino ≠ blk := by omega
    rw [Disk.setBlock_block, update_of_ne hne]
  case isFalse => rfl

theorem view_data (hpos : blk ≠ 0) (hblk : blk < g.sFirstdatazone) (buf : Bytes) :
    (Fs.view g (d.setBlock blk buf)).data = (Fs.view g d).data := by
  funext z
  simp only [Fs.view]
  split
  case isTrue hz =>
    have hne : z ≠ blk := by
      rintro rfl
      rcases hz with hz | hz
      · exact hpos hz
      · exact absurd hz.1 (not_le.mpr hblk)
    rw [Disk.setBlock_block, update_of_ne hne]
  case isFalse => rfl

theorem Geometry.inodeStart_le (h : Geometry g d.size) : g.inodeStart ≤ g.sFirstdatazone :=
  (Nat.le_add_right ..).trans h.table

theorem view_zmap (h : Geometry g d.size) (hn : n < 8192 * g.sZmapBlocks)
    (hbuf : ∀ i, buf.testBit i =
      if i = n % 8192 then b else (d.block (g.zmapStart + n / 8192)).testBit i) :
    Fs.view g (d.setBlock (g.zmapStart + n / 8192) buf) = (Fs.view g d).setZmap n b := by
  have hlt : g.zmapStart + n / 8192 < g.inodeStart := by
    unfold Superblock.inodeStart
    omega
  have hge : g.imapStart + g.sImapBlocks ≤ g.zmapStart + n / 8192 := Nat.le_add_right ..
  have hpos : g.zmapStart + n / 8192 ≠ 0 := by
    unfold Superblock.zmapStart Superblock.imapStart
    omega
  apply View.ext
  · exact mapBit_setBlock_of_notMem (.inr hge) buf
  · exact mapBit_setBlock hn hbuf
  · exact h.view_inode (.inl hlt) buf
  · exact view_data hpos (hlt.trans_le h.inodeStart_le) buf

theorem view_imap (h : Geometry g d.size) (hn : n < 8192 * g.sImapBlocks)
    (hbuf : ∀ i, buf.testBit i =
      if i = n % 8192 then b else (d.block (g.imapStart + n / 8192)).testBit i) :
    Fs.view g (d.setBlock (g.imapStart + n / 8192) buf) = (Fs.view g d).setImap n b := by
  have hlt : g.imapStart + n / 8192 < g.zmapStart := by
    unfold Superblock.zmapStart
    omega
  have hle : g.zmapStart ≤ g.inodeStart := Nat.le_add_right ..
  have hpos : g.imapStart + n / 8192 ≠ 0 := by
    unfold Superblock.imapStart
    omega
  apply View.ext
  · exact mapBit_setBlock hn hbuf
  · exact mapBit_setBlock_of_notMem (.inl hlt) buf
  · exact h.view_inode (.inl (hlt.trans_le hle)) buf
  · exact view_data hpos (hlt.trans_le (hle.trans h.inodeStart_le)) buf

/-! ## Writing -/

/-- A block outside of the maps and of the inode table is written. -/
theorem Shows.blockWrite (h : Shows g d v) (hz : z = 0 ∨ IsZone g z) (buf : Bytes) :
    Shows g (blockWrite d z buf).2 (v.setData z buf) := by
  have hlt : z < d.size := h.geometry.data_lt hz
  rw [Fs.blockWrite, if_pos hlt]
  have hstart := h.geometry.inodeStart_le
  refine ⟨h.geometry, ?_, h.trace⟩
  rw [← h.view]
  have hout : z < g.imapStart ∨ g.inodeStart ≤ z := by
    rcases hz with rfl | hz
    · exact .inl Nat.zero_lt_two
    · exact .inr (hstart.trans hz.1)
  have hz' : z < g.imapStart ∨ g.sFirstdatazone ≤ z := by
    rcases hz with rfl | hz
    · exact .inl Nat.zero_lt_two
    · exact .inr hz.1
  have himap : g.imapStart + g.sImapBlocks ≤ g.inodeStart := Nat.le_add_right ..
  apply View.ext
  · exact mapBit_setBlock_of_notMem (hout.imp_right himap.trans) buf
  · refine mapBit_setBlock_of_notMem (hout.imp_left fun hlt ↦ ?_) buf
    exact hlt.trans_le (Nat.le_add_right ..)
  · refine h.geometry.view_inode (hz'.imp_left fun hlt ↦ ?_) buf
    exact hlt.trans_le ((Nat.le_add_right ..).trans himap)
  · funext x
    by_cases hx : x = z
    · subst hx
      simp only [Fs.view, if_pos hz, View.setData, Disk.setBlock_block, update_self]
    · simp only [Fs.view, View.setData, Disk.setBlock_block, update_of_ne hx]

/-- An inode is written. -/
theorem Shows.writeInode (h : Shows g d v) (hino : IsIno g ino) {i : Inode} (hi : i.Wf) :
    (writeInode g d ino i).1 = true ∧
      Shows g (writeInode g d ino i).2 (v.setInode ino i) := by
  obtain ⟨hlo, hhi⟩ := h.geometry.inodeBlock_lt hino
  have hsize : inodeBlock g ino < d.size :=
    hhi.trans_le (h.geometry.data.trans h.geometry.size)
  have h1 : ¬ino < 1 := not_lt.mpr hino.1
  rw [Fs.writeInode, if_neg h1, blockRead, if_pos hsize]
  simp only [Fs.blockWrite, Disk.log_size, hsize, if_true, true_and]
  have hzmap : g.zmapStart + g.sZmapBlocks ≤ inodeBlock g ino := hlo
  have himap : g.imapStart + g.sImapBlocks ≤ inodeBlock g ino := (Nat.le_add_right ..).trans hlo
  refine ⟨h.geometry, ?_, fun e he ↦ ?_⟩
  · rw [← h.view]
    apply View.ext
    · exact mapBit_setBlock_of_notMem (.inr himap) _
    · exact mapBit_setBlock_of_notMem (.inr hzmap) _
    · funext ino'
      by_cases hne : ino' = ino
      · subst hne
        simp only [Fs.view, if_pos hino, View.setInode, Disk.setBlock_block,
          update_self]
        exact Inode.get_put _ _ hi
      · simp only [Fs.view, View.setInode, update_of_ne hne]
        split
        case isFalse => rfl
        case isTrue hino' =>
          rw [Disk.setBlock_block]
          by_cases hblk : inodeBlock g ino' = inodeBlock g ino
          · -- the two inodes lie in one block, in different slots
            have hslot : (ino' - 1) % 16 ≠ (ino - 1) % 16 := by
              have h₁ := hino.1
              have h₂ := hino'.1
              unfold inodeBlock at hblk
              omega
            rw [hblk, update_self]
            exact Inode.get_put_of_ne _ _ hslot
          · rw [update_of_ne hblk]
            rfl
    · exact view_data (by unfold Superblock.imapStart at himap; omega) hhi _
  · rcases List.mem_append.mp he with he | he
    · exact h.trace e he
    · obtain rfl := List.mem_singleton.mp he
      exact hhi

/-! ## Bitmaps -/

/-- The first clear bit of a map. -/
def Vacant (bits : Nat → Bool) (n : Nat) : Prop := bits n = false ∧ ∀ m < n, bits m = true

/-- A map without a clear bit. -/
def Full (bits : Nat → Bool) : Prop := ∀ n, bits n = true

theorem bitmapScan_spec (d : Disk) {b : Nat} (hsize : start + b + n ≤ d.size) :
    ((∀ m, 8192 * b ≤ m → m < 8192 * (b + n) →
        (d.block (start + m / 8192)).testBit (m % 8192) = true) ∧
      bitmapScan d start b n = (none, d)) ∨
    ∃ m, 8192 * b ≤ m ∧ m < 8192 * (b + n) ∧
      (d.block (start + m / 8192)).testBit (m % 8192) = false ∧
      (∀ k, 8192 * b ≤ k → k < m → (d.block (start + k / 8192)).testBit (k % 8192) = true) ∧
      bitmapScan d start b n = (some m, d.setBlock (start + m / 8192)
        ((d.block (start + m / 8192)).setBit (m % 8192))) := by
  induction n generalizing b with
  | zero => exact .inl ⟨fun m h₁ h₂ ↦ by omega, rfl⟩
  | succ n ih =>
    have hlt : start + b < d.size := by omega
    have hread : blockRead d (start + b) = some (d.block (start + b)) := if_pos hlt
    rw [bitmapScan, hread]
    dsimp only
    generalize hf : findFirst (fun i ↦ !(d.block (start + b)).testBit i) 0 8192 = r
    cases r with
    | none =>
      have hall := findFirst_eq_none.mp hf
      have hset : ∀ m, 8192 * b ≤ m → m < 8192 * (b + 1) →
          (d.block (start + m / 8192)).testBit (m % 8192) = true := by
        intro m h₁ h₂
        have hm : m / 8192 = b := by omega
        have := hall (m % 8192) (Nat.zero_le _) (by omega)
        rw [hm]
        simpa using this
      rcases ih (by omega : start + (b + 1) + n ≤ d.size) with
        ⟨hnone, heq⟩ | ⟨m, h₁, h₂, h₃, h₄, heq⟩
      · refine .inl ⟨fun m h₁ h₂ ↦ ?_, heq⟩
        by_cases hm : m < 8192 * (b + 1)
        · exact hset m h₁ hm
        · exact hnone m (by omega) (by omega)
      · refine .inr ⟨m, by omega, by omega, h₃, fun k hk hkm ↦ ?_, heq⟩
        by_cases hk' : k < 8192 * (b + 1)
        · exact hset k hk hk'
        · exact h₄ k (by omega) hkm
    | some i =>
      obtain ⟨-, hi, hclear, hleast⟩ := findFirst_eq_some hf
      have hdiv : (b * 8192 + i) / 8192 = b := by omega
      have hmod : (b * 8192 + i) % 8192 = i := by omega
      refine .inr ⟨b * 8192 + i, by omega, by omega, ?_, fun k hk hkm ↦ ?_, ?_⟩
      · rw [hdiv, hmod]
        simpa using hclear
      · have hkdiv : k / 8192 = b := by omega
        have := hleast (k % 8192) (Nat.zero_le _) (by omega)
        rw [hkdiv]
        simpa using this
      · simp only [Fs.blockWrite, hlt, if_true, hdiv, hmod]

/-- The scan of a whole map. -/
theorem bitmapFindFree_spec (d : Disk) (hsize : start + blocks ≤ d.size) :
    (Full (mapBit d start blocks) ∧ bitmapFindFree d start blocks = (none, d)) ∨
    ∃ n, Vacant (mapBit d start blocks) n ∧ n < 8192 * blocks ∧
      bitmapFindFree d start blocks = (some n, d.setBlock (start + n / 8192)
        ((d.block (start + n / 8192)).setBit (n % 8192))) := by
  rcases bitmapScan_spec d (b := 0) (n := blocks) (by omega : start + 0 + blocks ≤ d.size) with
    ⟨hall, heq⟩ | ⟨n, -, hn, hclear, hleast, heq⟩
  · refine .inl ⟨fun m ↦ ?_, heq⟩
    unfold mapBit
    split
    case isTrue hm => exact hall m (Nat.zero_le _) (by omega)
    case isFalse => rfl
  · refine .inr ⟨n, ⟨?_, fun m hm ↦ ?_⟩, by omega, heq⟩
    · rw [mapBit, if_pos (by omega)]
      exact hclear
    · rw [mapBit, if_pos (by omega)]
      exact hleast m (Nat.zero_le _) hm

theorem testBit_setBit_eq (buf : Bytes) (n i : Nat) :
    (buf.setBit n).testBit i = if i = n then true else buf.testBit i := by
  rw [Bytes.testBit_setBit]
  by_cases h : i = n <;> simp [h]

theorem testBit_clearBit_eq (buf : Bytes) (n i : Nat) :
    (buf.clearBit n).testBit i = if i = n then false else buf.testBit i := by
  rw [Bytes.testBit_clearBit]
  by_cases h : i = n <;> simp [h]

/-! ## Zones -/

/-- Whichever zone the allocator would return next exists. -/
def Stocked (g : Superblock) (v : View) : Prop :=
  ∀ n, Vacant v.zmap n → 1 ≤ n ∧ n ≤ g.sZones - g.sFirstdatazone

theorem Geometry.zoneBit_lt (h : Geometry g d.size) (hz : IsZone g z) :
    zoneBit g z < 8192 * g.sZmapBlocks := by
  obtain ⟨h₁, h₂⟩ := hz
  have h₃ := h.zmap
  unfold zoneBit
  omega

theorem Geometry.zmap_le (h : Geometry g d.size) : g.zmapStart + g.sZmapBlocks ≤ d.size :=
  h.inodeStart_le.trans (h.data.trans h.size)

theorem Geometry.imap_le (h : Geometry g d.size) : g.imapStart + g.sImapBlocks ≤ d.size :=
  (Nat.le_add_right ..).trans h.zmap_le

theorem zoneBit_inj {z' : Nat} (hz : IsZone g z) (hz' : IsZone g z')
    (h : zoneBit g z = zoneBit g z') : z = z' := by
  obtain ⟨h₁, -⟩ := hz
  obtain ⟨h₂, -⟩ := hz'
  unfold zoneBit at h
  omega

/-- A zone is handed out: its bit is set and its block is zero. -/
def View.take (g : Superblock) (v : View) (z : Nat) : View :=
  (v.setZmap (zoneBit g z) true).setData z Bytes.zero

theorem allocZone_of_found {d' : Disk}
    (h : bitmapFindFree d g.zmapStart g.sZmapBlocks = (some n, d')) :
    allocZone g d = (wrap32 (n + g.sFirstdatazone + (2 ^ 32 - 1)),
      (Fs.blockWrite (d'.log (.allocZone (wrap32 (n + g.sFirstdatazone + (2 ^ 32 - 1)))))
        (wrap32 (n + g.sFirstdatazone + (2 ^ 32 - 1))) Bytes.zero).2) := by
  rw [Fs.allocZone, h]

/-- `alloc_zone` returns a free zone, the first one, or the map is full and nothing changes. -/
theorem Shows.allocZone (h : Shows g d v) (hs : Stocked g v) :
    (Full v.zmap ∧ allocZone g d = (0, d)) ∨
    ∃ z, IsZone g z ∧ Vacant v.zmap (zoneBit g z) ∧ (allocZone g d).1 = z ∧
      Shows g (allocZone g d).2 (v.take g z) := by
  have hzmap : mapBit d g.zmapStart g.sZmapBlocks = v.zmap := by rw [← h.view]; rfl
  rcases bitmapFindFree_spec d h.geometry.zmap_le with ⟨hfull, heq⟩ | ⟨n, hn, hlt, heq⟩
  · rw [hzmap] at hfull
    exact .inl ⟨hfull, by rw [Fs.allocZone, heq]⟩
  · rw [hzmap] at hn
    obtain ⟨h₁, h₂⟩ := hs n hn
    have hzones := h.geometry.zones
    have hdata := h.geometry.data
    have hzone : wrap32 (n + g.sFirstdatazone + (2 ^ 32 - 1)) = g.sFirstdatazone + n - 1 := by
      unfold wrap32
      omega
    have hz : IsZone g (g.sFirstdatazone + n - 1) := by
      unfold IsZone
      omega
    have hbit : zoneBit g (g.sFirstdatazone + n - 1) = n := by
      unfold zoneBit
      omega
    have h' : Shows g (d.setBlock (g.zmapStart + n / 8192)
        ((d.block (g.zmapStart + n / 8192)).setBit (n % 8192))) (v.setZmap n true) := by
      refine ⟨h.geometry, ?_, h.trace⟩
      rw [← h.view]
      exact view_zmap h.geometry hlt fun i ↦ testBit_setBit_eq ..
    rw [allocZone_of_found heq, hzone]
    refine .inr ⟨g.sFirstdatazone + n - 1, hz, by rwa [hbit], rfl, ?_⟩
    rw [View.take, hbit]
    have hok : (Event.allocZone (g.sFirstdatazone + n - 1)).Ok g := hz.2
    exact (h'.log hok).blockWrite (.inr hz) Bytes.zero

theorem Shows.bitmapClear_zmap (h : Shows g d v) (hz : IsZone g z) :
    Shows g (bitmapClear d g.zmapStart (zoneBit g z)) (v.setZmap (zoneBit g z) false) := by
  have hbit := h.geometry.zoneBit_lt hz
  have hle := h.geometry.zmap_le
  have hlt : g.zmapStart + zoneBit g z / 8192 < d.size := by omega
  rw [bitmapClear, blockRead, if_pos hlt]
  simp only [Fs.blockWrite, if_pos hlt]
  refine ⟨h.geometry, ?_, h.trace⟩
  rw [← h.view]
  exact view_zmap h.geometry hbit fun i ↦ testBit_clearBit_eq ..

theorem Shows.freeZone (h : Shows g d v) (hz : IsZone g z) :
    Shows g (freeZone g d z) (v.setZmap (zoneBit g z) false) := by
  rw [Fs.freeZone, if_neg (not_lt.mpr hz.1)]
  exact h.bitmapClear_zmap hz

/-! ## Inodes -/

/-- Whichever inode the allocator would return next exists. -/
def Numbered (g : Superblock) (v : View) : Prop := ∀ n, Vacant v.imap n → IsIno g n

/-- `alloc_inode` returns a free inode, the first one, or the map is full and nothing
changes. -/
theorem Shows.allocInode (h : Shows g d v) (hs : Numbered g v) :
    (Full v.imap ∧ allocInode g d = (0, d)) ∨
    ∃ ino, IsIno g ino ∧ Vacant v.imap ino ∧ (allocInode g d).1 = ino ∧
      Shows g (allocInode g d).2 (v.setImap ino true) := by
  have himap : mapBit d g.imapStart g.sImapBlocks = v.imap := by rw [← h.view]; rfl
  rw [Fs.allocInode]
  rcases bitmapFindFree_spec d h.geometry.imap_le with ⟨hfull, heq⟩ | ⟨n, hn, hlt, heq⟩
  · rw [himap] at hfull
    exact .inl ⟨hfull, by rw [heq]⟩
  · rw [himap] at hn
    have hino := hs n hn
    have h' : Shows g (d.setBlock (g.imapStart + n / 8192)
        ((d.block (g.imapStart + n / 8192)).setBit (n % 8192))) (v.setImap n true) := by
      refine ⟨h.geometry, ?_, h.trace⟩
      rw [← h.view]
      exact view_imap h.geometry hlt fun i ↦ testBit_setBit_eq ..
    rw [heq]
    have hok : (Event.allocInode n).Ok g := hino.2
    exact .inr ⟨n, hino, hn, rfl, h'.log hok⟩

theorem Shows.freeInode (h : Shows g d v) (hino : IsIno g ino) :
    Shows g (freeInode g d ino) (v.setImap ino false) := by
  have hbit : ino < 8192 * g.sImapBlocks := hino.2.trans_lt h.geometry.imap
  have hle := h.geometry.imap_le
  have hlt : g.imapStart + ino / 8192 < d.size := by omega
  rw [Fs.freeInode, bitmapClear, blockRead, if_pos hlt]
  simp only [Fs.blockWrite, if_pos hlt]
  refine ⟨h.geometry, ?_, h.trace⟩
  rw [← h.view]
  exact view_imap h.geometry hbit fun i ↦ testBit_clearBit_eq ..

end

end FentoOS.Fs
