import FentoOS.Fs.Layout
import FentoOS.Lib.Search
import FentoOS.Lib.Word

/-!
# Blocks, inodes and bitmaps

The lowest layer of `kernel/fs/minixfs.c`: whole blocks go to and from the
device, and inodes and bitmap bits are read and changed inside them.

The device is an array of blocks.  An access past its end fails; where the code
ignores that, the buffer it goes on with holds `junk`.  The device also carries
a history of the numbers the two allocators returned and of the blocks
`write_inode` wrote.  The code never reads it.
-/

namespace FentoOS.Fs

open FentoOS.Lib

/-- What the history of a device records. -/
inductive Event
  | allocInode (ino : Nat)
  | allocZone (zone : Nat)
  | writeInode (block : Nat)
deriving DecidableEq, Repr

/-- The block device. -/
structure Disk where
  size : Nat
  block : Nat → Bytes
  junk : Bytes
  trace : List Event

namespace Disk

def log (d : Disk) (e : Event) : Disk := { d with trace := d.trace ++ [e] }

def setBlock (d : Disk) (b : Nat) (buf : Bytes) : Disk :=
  { d with block := Function.update d.block b buf }

@[simp] theorem log_block (d : Disk) (e : Event) : (d.log e).block = d.block := rfl
@[simp] theorem log_size (d : Disk) (e : Event) : (d.log e).size = d.size := rfl
@[simp] theorem setBlock_block (d : Disk) (b : Nat) (buf : Bytes) :
    (d.setBlock b buf).block = Function.update d.block b buf := rfl
@[simp] theorem setBlock_size (d : Disk) (b : Nat) (buf : Bytes) :
    (d.setBlock b buf).size = d.size := rfl
@[simp] theorem setBlock_junk (d : Disk) (b : Nat) (buf : Bytes) :
    (d.setBlock b buf).junk = d.junk := rfl

end Disk

/-- `block_read`. -/
def blockRead (d : Disk) (b : Nat) : Option Bytes := if b < d.size then some (d.block b) else none

/-- The buffer after a `block_read` whose result is ignored. -/
def readInto (d : Disk) (b : Nat) : Bytes := (blockRead d b).getD d.junk

/-- `block_write`, and whether it succeeded. -/
def blockWrite (d : Disk) (b : Nat) (buf : Bytes) : Bool × Disk :=
  if b < d.size then (true, d.setBlock b buf) else (false, d)

/-! ## Inodes -/

/-- The block of the inode table that holds an inode. -/
def inodeBlock (g : Superblock) (ino : Nat) : Nat := g.inodeStart + (ino - 1) / 16

/-- `read_inode`. -/
def readInode (g : Superblock) (d : Disk) (ino : Nat) : Option Inode :=
  if ino < 1 then none
  else (blockRead d (inodeBlock g ino)).map fun buf ↦ Inode.get buf ((ino - 1) % 16)

/-- The inode after a `read_inode` whose result is ignored. -/
def readInodeInto (g : Superblock) (d : Disk) (ino : Nat) : Inode :=
  (readInode g d ino).getD (Inode.get d.junk 0)

/-- `write_inode`, and whether it succeeded. -/
def writeInode (g : Superblock) (d : Disk) (ino : Nat) (i : Inode) : Bool × Disk :=
  if ino < 1 then (false, d)
  else
    match blockRead d (inodeBlock g ino) with
    | none => (false, d)
    | some buf =>
      blockWrite (d.log (.writeInode (inodeBlock g ino))) (inodeBlock g ino)
        (Inode.put buf ((ino - 1) % 16) i)

/-! ## Bitmaps -/

/-- The outer loop of `bitmap_find_free`, with `n` blocks of the map left from
block `b` on. -/
def bitmapScan (d : Disk) (mapStart : Nat) : (b n : Nat) → Option Nat × Disk
  | _, 0 => (none, d)
  | b, n + 1 =>
    match blockRead d (mapStart + b) with
    | none => (none, d)
    | some buf =>
      match findFirst (fun i ↦ !buf.testBit i) 0 8192 with
      | none => bitmapScan d mapStart (b + 1) n
      | some i =>
        let r := blockWrite d (mapStart + b) (buf.setBit i)
        (if r.1 then some (b * 8192 + i) else none, r.2)

/-- `bitmap_find_free`. -/
def bitmapFindFree (d : Disk) (mapStart mapBlocks : Nat) : Option Nat × Disk :=
  bitmapScan d mapStart 0 mapBlocks

/-- `bitmap_clear`. -/
def bitmapClear (d : Disk) (mapStart num : Nat) : Disk :=
  match blockRead d (mapStart + num / 8192) with
  | none => d
  | some buf => (blockWrite d (mapStart + num / 8192) (buf.clearBit (num % 8192))).2

/-- `alloc_inode`. -/
def allocInode (g : Superblock) (d : Disk) : Nat × Disk :=
  match bitmapFindFree d g.imapStart g.sImapBlocks with
  | (none, d) => (0, d)
  | (some num, d) => (num, d.log (.allocInode num))

/-- `alloc_zone`. -/
def allocZone (g : Superblock) (d : Disk) : Nat × Disk :=
  match bitmapFindFree d g.zmapStart g.sZmapBlocks with
  | (none, d) => (0, d)
  | (some num, d) =>
    let zone := wrap32 (num + g.sFirstdatazone + (2 ^ 32 - 1))
    (zone, (blockWrite (d.log (.allocZone zone)) zone Bytes.zero).2)

/-- `free_inode`. -/
def freeInode (g : Superblock) (d : Disk) (ino : Nat) : Disk := bitmapClear d g.imapStart ino

/-- `free_zone`. -/
def freeZone (g : Superblock) (d : Disk) (zone : Nat) : Disk :=
  if zone < g.sFirstdatazone then d
  else bitmapClear d g.zmapStart (zone - g.sFirstdatazone + 1)

end FentoOS.Fs
