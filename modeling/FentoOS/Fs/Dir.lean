import FentoOS.Fs.Zone
import FentoOS.Lib.CString

/-!
# Directories

A directory is a file of 64-byte entries, each an inode number and a name of at
most 60 bytes; a zero inode number marks an unused entry.  The functions of
`kernel/fs/minixfs.c` that search, extend and shrink directories all run through
the blocks of the file and through the sixteen entries of each block.

The loops over blocks are written as recursions on the number of blocks left.
-/

namespace FentoOS.Fs

open FentoOS.Lib

/-! ## Entries -/

/-- `de[k].inode`. -/
def direntIno (buf : Bytes) (k : Nat) : Nat := buf.get32 (64 * k)

/-- `de[k].name`. -/
def direntName (buf : Bytes) (k : Nat) : Bytes := fun j ↦ buf (64 * k + 4 + j)

/-- `de[k].inode = ino; strncpy(de[k].name, name, MINIX_NAME_MAX);` -/
def putDirent (buf : Bytes) (k ino : Nat) (name : List UInt8) : Bytes :=
  strncpy (buf.put32 (64 * k) ino) (64 * k + 4) (cstr name) 60

/-- `de[k].inode = 0; memset(de[k].name, 0, MINIX_NAME_MAX);` -/
def clearDirent (buf : Bytes) (k : Nat) : Bytes :=
  (buf.put32 (64 * k) 0).memset (64 * k + 4) 0 60

/-- The entry is in use and has the name looked for. -/
def direntMatches (buf : Bytes) (name : List UInt8) (k : Nat) : Bool :=
  direntIno buf k ≠ 0 ∧ strncmp (direntName buf k) (cstr name) 60 = 0

/-- `strcmp(a, b)`, for a string `b` shorter than the array `a` points into. -/
def strcmp (a : Bytes) : List UInt8 → Int
  | [] => (a 0).toNat
  | c :: b => if a 0 ≠ 0 ∧ a 0 = c then strcmp a.next b else (a 0).toNat - c.toNat

/-- `"."`. -/
def dot : List UInt8 := [46]

/-- `".."`. -/
def dotdot : List UInt8 := [46, 46]

/-- The number of blocks a directory scan visits. -/
def nblocks (i : Inode) : Nat := wrap32 (i.iSize + 1023) / 1024

/-! ## Searching -/

/-- The loop of `dir_lookup`. -/
def lookupFrom (g : Superblock) (d : Disk) (dir : Nat) (i : Inode) (name : List UInt8) :
    (b n : Nat) → Option Nat
  | _, 0 => none
  | b, n + 1 =>
    let zone := (mapBlock g d i b false dir).1
    if zone = 0 then lookupFrom g d dir i name (b + 1) n
    else
      let buf := readInto d zone
      match findFirst (direntMatches buf name) 0 16 with
      | some k => some (direntIno buf k)
      | none => lookupFrom g d dir i name (b + 1) n

/-- `dir_lookup`. -/
def dirLookup (g : Superblock) (d : Disk) (dir : Nat) (name : List UInt8) : Option Nat :=
  match readInode g d dir with
  | none => none
  | some i => if i.isDir then lookupFrom g d dir i name 0 (nblocks i) else none

/-! ## Adding and removing -/

/-- The end of `dir_add`: a new block behind the last one. -/
def appendEntry (g : Superblock) (d : Disk) (dir : Nat) (i : Inode) (name : List UInt8)
    (ino b : Nat) : Bool × Disk :=
  let r := mapBlock g d i b true dir
  if r.1 = 0 then (false, r.2.2)
  else
    let d := (blockWrite r.2.2 r.1 (putDirent Bytes.zero 0 ino name)).2
    (true, (writeInode g d dir { r.2.1 with iSize := wrap32 ((b + 1) * 1024) }).2)

/-- The loop of `dir_add`. -/
def addFrom (g : Superblock) (dir : Nat) (name : List UInt8) (ino : Nat) :
    (b n : Nat) → Disk → Inode → Bool × Disk
  | b, 0, d, i => appendEntry g d dir i name ino b
  | b, n + 1, d, i =>
    let r := mapBlock g d i b true dir
    let buf := readInto r.2.2 r.1
    match findFirst (fun k ↦ direntIno buf k = 0) 0 16 with
    | some k => (true, (blockWrite r.2.2 r.1 (putDirent buf k ino name)).2)
    | none => addFrom g dir name ino (b + 1) n r.2.2 r.2.1

/-- `dir_add`, and whether it returned `0`. -/
def dirAdd (g : Superblock) (d : Disk) (dir : Nat) (name : List UInt8) (ino : Nat) :
    Bool × Disk :=
  match readInode g d dir with
  | none => (false, d)
  | some i => addFrom g dir name ino 0 (nblocks i) d i

/-- The loop of `dir_remove`. -/
def removeFrom (g : Superblock) (d : Disk) (dir : Nat) (i : Inode) (name : List UInt8) :
    (b n : Nat) → Disk
  | _, 0 => d
  | b, n + 1 =>
    let zone := (mapBlock g d i b false dir).1
    if zone = 0 then removeFrom g d dir i name (b + 1) n
    else
      let buf := readInto d zone
      match findFirst (direntMatches buf name) 0 16 with
      | some k => (blockWrite d zone (clearDirent buf k)).2
      | none => removeFrom g d dir i name (b + 1) n

/-- `dir_remove`.  Its callers ignore what it returns. -/
def dirRemove (g : Superblock) (d : Disk) (dir : Nat) (name : List UInt8) : Disk :=
  match readInode g d dir with
  | none => d
  | some i => removeFrom g d dir i name 0 (nblocks i)

/-! ## Testing for emptiness -/

/-- The entry is in use and is neither `.` nor `..`. -/
def direntProper (buf : Bytes) (k : Nat) : Bool :=
  direntIno buf k ≠ 0 ∧ strcmp (direntName buf k) dot ≠ 0 ∧ strcmp (direntName buf k) dotdot ≠ 0

/-- The loop of `dir_is_empty`. -/
def emptyFrom (g : Superblock) (d : Disk) (dir : Nat) (i : Inode) : (b n : Nat) → Int
  | _, 0 => 1
  | b, n + 1 =>
    let zone := (mapBlock g d i b false dir).1
    if zone = 0 then emptyFrom g d dir i (b + 1) n
    else
      match findFirst (direntProper (readInto d zone)) 0 16 with
      | some _ => 0
      | none => emptyFrom g d dir i (b + 1) n

/-- `dir_is_empty`. -/
def dirIsEmpty (g : Superblock) (d : Disk) (dir : Nat) : Int :=
  match readInode g d dir with
  | none => -1
  | some i => emptyFrom g d dir i 0 (nblocks i)

/-! ## Listing -/

/-- The loop of `minixfs_readdir`: the entry with number `index`, when `seen` have been seen
before block `b`. -/
def readdirFrom (g : Superblock) (d : Disk) (dir : Nat) (i : Inode) (index : Nat) :
    (b n seen : Nat) → Option (Nat × Bytes)
  | _, 0, _ => none
  | b, n + 1, seen =>
    let zone := (mapBlock g d i b false dir).1
    if zone = 0 then readdirFrom g d dir i index (b + 1) n seen
    else
      let buf := readInto d zone
      match findNth (fun k ↦ direntIno buf k ≠ 0) index 0 16 seen with
      | .inl k => some (direntIno buf k, direntName buf k)
      | .inr seen => readdirFrom g d dir i index (b + 1) n seen

end FentoOS.Fs
