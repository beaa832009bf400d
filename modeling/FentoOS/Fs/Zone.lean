import FentoOS.Fs.Disk

/-!
# From file blocks to zones

`map_block` finds the zone of a block of a file: the first seven are named by
the inode, the next 256 by the indirect zone and the rest by the zones that the
double-indirect zone names.  Asked to allocate, it fills in what is missing on
the way, up to three zones, and goes on even when an allocation fails.
-/

namespace FentoOS.Fs

open FentoOS.Lib

/-- `in->i_zone[k] = alloc_zone(); write_inode(ino, in);` -/
def growInode (g : Superblock) (d : Disk) (i : Inode) (k ino : Nat) : Inode × Disk :=
  let r := allocZone g d
  let i := i.setZone k r.1
  (i, (writeInode g r.2 ino i).2)

/-- `ptrs[k] = alloc_zone(); block_write(zone, ptrs);`, with the new `ptrs[k]`. -/
def growBlock (g : Superblock) (d : Disk) (zone : Nat) (ptrs : Bytes) (k : Nat) : Nat × Disk :=
  let r := allocZone g d
  (r.1, (blockWrite r.2 zone (ptrs.put32 (4 * k) r.1)).2)

/-- The last step of `map_block` on a pointer block. -/
def mapLeaf (g : Superblock) (d : Disk) (i : Inode) (zone k : Nat) (alloc : Bool) :
    Nat × Inode × Disk :=
  let ptrs := readInto d zone
  if ptrs.get32 (4 * k) = 0 ∧ alloc then
    let r := growBlock g d zone ptrs k
    (r.1, i, r.2)
  else (ptrs.get32 (4 * k), i, d)

/-- The part of `map_block` behind the double-indirect zone, which `i` names. -/
def mapDouble (g : Superblock) (d : Disk) (i : Inode) (dblIdx sngIdx : Nat) (alloc : Bool) :
    Nat × Inode × Disk :=
  let dbl := readInto d (i.iZone 8)
  if dbl.get32 (4 * dblIdx) = 0 then
    if alloc then
      let r := growBlock g d (i.iZone 8) dbl dblIdx
      mapLeaf g r.2 i r.1 sngIdx alloc
    else (0, i, d)
  else mapLeaf g d i (dbl.get32 (4 * dblIdx)) sngIdx alloc

/-- `map_block`: the zone, the inode as the caller sees it afterwards, and the
disk. -/
def mapBlock (g : Superblock) (d : Disk) (i : Inode) (fileblock : Nat) (alloc : Bool)
    (ino : Nat) : Nat × Inode × Disk :=
  if fileblock < 7 then
    if i.iZone fileblock = 0 ∧ alloc then
      let r := growInode g d i fileblock ino
      (r.1.iZone fileblock, r.1, r.2)
    else (i.iZone fileblock, i, d)
  else if fileblock - 7 < 256 then
    if i.iZone 7 = 0 then
      if alloc then
        let r := growInode g d i 7 ino
        mapLeaf g r.2 r.1 (r.1.iZone 7) (fileblock - 7) alloc
      else (0, i, d)
    else mapLeaf g d i (i.iZone 7) (fileblock - 7) alloc
  else if (fileblock - 263) / 256 ≥ 256 then (0, i, d)
  else if i.iZone 8 = 0 then
    if alloc then
      let r := growInode g d i 8 ino
      mapDouble g r.2 r.1 ((fileblock - 263) / 256) ((fileblock - 263) % 256) alloc
    else (0, i, d)
  else mapDouble g d i ((fileblock - 263) / 256) ((fileblock - 263) % 256) alloc

end FentoOS.Fs
