import FentoOS.Lib.Bytes

/-!
# The MINIX v3 on-disk structures

The packed structures of `include/minixfs.h`, read out of and written into the
bytes of a block: the superblock, the inode table's slots and the directory
entries.  A block has 1024 bytes and holds 16 inodes, 16 directory entries or
256 zone numbers.

A field that is stored is cut to its width, so a structure comes back from the
disk as it was written exactly when its fields fit.  `Inode.Wf` says that they
do, and every inode read from a disk satisfies it.
-/

namespace FentoOS.Fs

open FentoOS.Lib

/-! ## The superblock -/

/-- The fields of `struct minix3_superblock` that the kernel reads. -/
structure Superblock where
  sNinodes : Nat
  sImapBlocks : Nat
  sZmapBlocks : Nat
  sFirstdatazone : Nat
  sZones : Nat
deriving DecidableEq, Repr

namespace Superblock

/-- `imap_start`. -/
def imapStart (_ : Superblock) : Nat := 2

/-- `zmap_start`. -/
def zmapStart (g : Superblock) : Nat := g.imapStart + g.sImapBlocks

/-- `inode_start`. -/
def inodeStart (g : Superblock) : Nat := g.zmapStart + g.sZmapBlocks

end Superblock

/-! ## Inodes -/

/-- `struct minix3_inode`.  Only the first ten entries of `iZone` exist. -/
@[ext]
structure Inode where
  iMode : Nat
  iNlinks : Nat
  iUid : Nat
  iGid : Nat
  iSize : Nat
  iAtime : Nat
  iMtime : Nat
  iCtime : Nat
  iZone : Nat → Nat

namespace Inode

/-- `memset(&in, 0, sizeof(in))`. -/
def zero : Inode where
  iMode := 0
  iNlinks := 0
  iUid := 0
  iGid := 0
  iSize := 0
  iAtime := 0
  iMtime := 0
  iCtime := 0
  iZone := fun _ ↦ 0

/-- `in->i_zone[k] = z`. -/
def setZone (i : Inode) (k z : Nat) : Inode := { i with iZone := Function.update i.iZone k z }

/-- `S_ISDIR(in.i_mode)`. -/
def isDir (i : Inode) : Prop := i.iMode &&& 0o170000 = 0o040000

/-- `S_ISREG(in.i_mode)`. -/
def isReg (i : Inode) : Prop := i.iMode &&& 0o170000 = 0o100000

instance (i : Inode) : Decidable i.isDir := inferInstanceAs (Decidable (_ = _))

instance (i : Inode) : Decidable i.isReg := inferInstanceAs (Decidable (_ = _))

variable {i : Inode}

theorem isReg.not_isDir (h : i.isReg) : ¬i.isDir := by
  intro hd
  have hboth : 0o100000 = 0o040000 := h.symm.trans hd
  exact absurd hboth (by decide)

/-- The fields fit their widths. -/
structure Wf (i : Inode) : Prop where
  mode : i.iMode < 2 ^ 16
  nlinks : i.iNlinks < 2 ^ 16
  uid : i.iUid < 2 ^ 16
  gid : i.iGid < 2 ^ 16
  size : i.iSize < 2 ^ 32
  atime : i.iAtime < 2 ^ 32
  mtime : i.iMtime < 2 ^ 32
  ctime : i.iCtime < 2 ^ 32
  zone : ∀ k, i.iZone k < 2 ^ 32
  zone_none : ∀ k, 10 ≤ k → i.iZone k = 0

theorem zero_wf : Wf zero := by
  constructor <;> simp [zero]

theorem Wf.setZone (h : i.Wf) {k z : Nat} (hk : k < 10) (hz : z < 2 ^ 32) :
    (i.setZone k z).Wf where
  mode := h.mode
  nlinks := h.nlinks
  uid := h.uid
  gid := h.gid
  size := h.size
  atime := h.atime
  mtime := h.mtime
  ctime := h.ctime
  zone := by
    intro j
    by_cases hj : j = k
    · subst hj; simpa [Inode.setZone] using hz
    · simpa [Inode.setZone, hj] using h.zone j
  zone_none := by
    intro j hj
    have hne : j ≠ k := by omega
    simpa [Inode.setZone, hne] using h.zone_none j hj

/-- `in.i_size = size`. -/
def resize (i : Inode) (size : Nat) : Inode := { i with iSize := size }

theorem Wf.resize (h : i.Wf) {size : Nat} (hsize : size < 2 ^ 32) : (i.resize size).Wf :=
  { h with size := hsize }

@[simp] theorem resize_iZone (i : Inode) (size : Nat) : (i.resize size).iZone = i.iZone := rfl

/-- `tab[off]`, for a block of the inode table. -/
def get (b : Bytes) (off : Nat) : Inode where
  iMode := b.get16 (64 * off)
  iNlinks := b.get16 (64 * off + 2)
  iUid := b.get16 (64 * off + 4)
  iGid := b.get16 (64 * off + 6)
  iSize := b.get32 (64 * off + 8)
  iAtime := b.get32 (64 * off + 12)
  iMtime := b.get32 (64 * off + 16)
  iCtime := b.get32 (64 * off + 20)
  iZone := fun k ↦ if k < 10 then b.get32 (64 * off + 24 + 4 * k) else 0

/-- Store the first `n` zone numbers of an inode from offset `at` on. -/
def putZones (b : Bytes) (start : Nat) (zone : Nat → Nat) : Nat → Bytes
  | 0 => b
  | n + 1 => (putZones b start zone n).put32 (start + 4 * n) (zone n)

/-- `tab[off] = *in`, for a block of the inode table. -/
def put (b : Bytes) (off : Nat) (i : Inode) : Bytes :=
  let b := b.put16 (64 * off) i.iMode
  let b := b.put16 (64 * off + 2) i.iNlinks
  let b := b.put16 (64 * off + 4) i.iUid
  let b := b.put16 (64 * off + 6) i.iGid
  let b := b.put32 (64 * off + 8) i.iSize
  let b := b.put32 (64 * off + 12) i.iAtime
  let b := b.put32 (64 * off + 16) i.iMtime
  let b := b.put32 (64 * off + 20) i.iCtime
  putZones b (64 * off + 24) i.iZone 10

theorem get_wf (b : Bytes) (off : Nat) : (get b off).Wf where
  mode := Bytes.get16_lt _ _
  nlinks := Bytes.get16_lt _ _
  uid := Bytes.get16_lt _ _
  gid := Bytes.get16_lt _ _
  size := Bytes.get32_lt _ _
  atime := Bytes.get32_lt _ _
  mtime := Bytes.get32_lt _ _
  ctime := Bytes.get32_lt _ _
  zone := by
    intro k
    simp only [get]
    split
    · exact Bytes.get32_lt _ _
    · omega
  zone_none := fun k hk ↦ if_neg (by omega)

variable {j : Nat}

theorem putZones_of_notMem (b : Bytes) (start : Nat) (zone : Nat → Nat) (n : Nat)
    (h : j < start ∨ start + 4 * n ≤ j) : putZones b start zone n j = b j := by
  induction n with
  | zero => rfl
  | succ n ih =>
    rw [putZones, Bytes.put32_of_notMem _ (by omega)]
    exact ih (by omega)

theorem get32_putZones (b : Bytes) (start : Nat) (zone : Nat → Nat) {n k : Nat} (hk : k < n) :
    (putZones b start zone n).get32 (start + 4 * k) = zone k % 2 ^ 32 := by
  induction n with
  | zero => omega
  | succ n ih =>
    rw [putZones]
    by_cases hkn : k = n
    · subst hkn
      exact Bytes.get32_put32_same _ _ _
    · rw [Bytes.get32_put32_of_disjoint _ (by omega)]
      exact ih (by omega)

theorem get16_putZones (b : Bytes) (start : Nat) (zone : Nat → Nat) (n : Nat) (h : j + 2 ≤ start) :
    (putZones b start zone n).get16 j = b.get16 j :=
  Bytes.get16_congr fun k _ _ ↦ putZones_of_notMem b start zone n (by omega)

theorem get32_putZones_of_le (b : Bytes) (start : Nat) (zone : Nat → Nat) (n : Nat)
    (h : j + 4 ≤ start) : (putZones b start zone n).get32 j = b.get32 j :=
  Bytes.get32_congr fun k _ _ ↦ putZones_of_notMem b start zone n (by omega)

/-- A slot of the inode table reads back as it was written. -/
theorem get_put (b : Bytes) (off : Nat) (h : i.Wf) : get (put b off i) off = i := by
  ext k
  case iZone =>
    simp only [get, put]
    by_cases hk : k < 10
    · rw [if_pos hk, get32_putZones _ _ _ hk, Nat.mod_eq_of_lt (h.zone k)]
    · rw [if_neg hk, h.zone_none k (by omega)]
  all_goals
    simp (disch := omega) only [get, put, get16_putZones, get32_putZones_of_le,
      Bytes.get16_put16_of_disjoint, Bytes.get16_put32_of_disjoint,
      Bytes.get32_put32_of_disjoint, Bytes.get32_put32_same, Bytes.get16_put16_same]
  · exact Nat.mod_eq_of_lt h.mode
  · exact Nat.mod_eq_of_lt h.nlinks
  · exact Nat.mod_eq_of_lt h.uid
  · exact Nat.mod_eq_of_lt h.gid
  · exact Nat.mod_eq_of_lt h.size
  · exact Nat.mod_eq_of_lt h.atime
  · exact Nat.mod_eq_of_lt h.mtime
  · exact Nat.mod_eq_of_lt h.ctime

/-- A slot depends only on its own 64 bytes. -/
theorem get_congr {b b' : Bytes} {off : Nat}
    (h : ∀ j, 64 * off ≤ j → j < 64 * off + 64 → b j = b' j) : get b off = get b' off := by
  ext k
  case iZone =>
    simp only [get]
    split
    · exact Bytes.get32_congr fun j _ _ ↦ h j (by omega) (by omega)
    · rfl
  all_goals
    first
    | exact Bytes.get16_congr fun j _ _ ↦ h j (by omega) (by omega)
    | exact Bytes.get32_congr fun j _ _ ↦ h j (by omega) (by omega)

theorem put_of_notMem (b : Bytes) (off : Nat) (i : Inode) (h : j < 64 * off ∨ 64 * off + 64 ≤ j) :
    put b off i j = b j := by
  simp only [put]
  rw [putZones_of_notMem _ _ _ _ (by omega), Bytes.put32_of_notMem _ (by omega),
    Bytes.put32_of_notMem _ (by omega), Bytes.put32_of_notMem _ (by omega),
    Bytes.put32_of_notMem _ (by omega), Bytes.put16_of_notMem _ (by omega),
    Bytes.put16_of_notMem _ (by omega), Bytes.put16_of_notMem _ (by omega),
    Bytes.put16_of_notMem _ (by omega)]

/-- Writing one slot of the inode table keeps the others. -/
theorem get_put_of_ne (b : Bytes) {off off' : Nat} (i : Inode) (h : off' ≠ off) :
    get (put b off i) off' = get b off' :=
  get_congr fun j _ _ ↦ put_of_notMem b off i (by omega)

end Inode

end FentoOS.Fs
