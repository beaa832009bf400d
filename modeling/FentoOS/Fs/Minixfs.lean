import FentoOS.Fs.Dir

/-!
# The file system

The operations of `kernel/fs/minixfs.c` on paths and inodes.  A path is the list
of its bytes.  Offsets and counts are 32-bit patterns: the code computes
`offset + done` and `offset + count` in unsigned arithmetic whatever the sign of
`offset`.
-/

namespace FentoOS.Fs

open FentoOS.Lib

/-- The mounted file system. -/
structure Minixfs where
  sb : Superblock
  mounted : Bool
  disk : Disk

/-! ## Paths -/

/-- `'/'`. -/
def slash : UInt8 := 47

/-- The next component of a path, cut to `MINIX_NAME_MAX` bytes. -/
def component (p : List UInt8) : List UInt8 := (p.takeWhile (· ≠ slash)).take 60

/-- The path behind its next component and the slashes that follow it. -/
def behind (p : List UInt8) : List UInt8 := (p.dropWhile (· ≠ slash)).dropWhile (· = slash)

/-- The loop of `split_path`. -/
def splitFrom (g : Superblock) (d : Disk) : (fuel cur : Nat) → List UInt8 →
    Option (Nat × List UInt8)
  | 0, _, _ => none
  | fuel + 1, cur, p =>
    if behind p = [] then
      if component p = [] then some (1, []) else some (cur, component p)
    else
      match dirLookup g d cur (component p) with
      | none => none
      | some next => splitFrom g d fuel next (behind p)

/-- `split_path`: the parent directory and the last component. -/
def splitPath (g : Superblock) (d : Disk) : List UInt8 → Option (Nat × List UInt8)
  | [] => none
  | c :: p => if c ≠ slash then none else splitFrom g d (p.length + 1) 1 p

/-- The loop of `minixfs_resolve`. -/
def resolveFrom (g : Superblock) (d : Disk) : (fuel cur : Nat) → List UInt8 → Nat
  | 0, cur, _ => cur
  | fuel + 1, cur, p =>
    if p = [] then cur
    else if component p = [] then cur
    else
      match dirLookup g d cur (component p) with
      | none => 0
      | some next => resolveFrom g d fuel next (behind p)

/-- `minixfs_resolve`. -/
def minixfsResolve (fs : Minixfs) (path : List UInt8) : Nat :=
  if !fs.mounted then 0
  else if path = [slash] then 1
  else resolveFrom fs.sb fs.disk (path.length + 1) 1 path.tail

/-! ## Creating and opening -/

/-- The inode `minixfs_creat` writes. -/
def freshFile (mode : Nat) : Inode :=
  { Inode.zero with iMode := 0o100000 ||| (mode &&& 0o7777), iNlinks := 1 }

/-- `minixfs_creat` with its path split. -/
def creatIn (g : Superblock) (d : Disk) (parent : Nat) (leaf : List UInt8) (mode : Nat) :
    Int × Disk :=
  match dirLookup g d parent leaf with
  | some existing => (sint32 existing, d)
  | none =>
    let r := allocInode g d
    if r.1 = 0 then (-1, r.2)
    else
      let d := (writeInode g r.2 r.1 (freshFile mode)).2
      let a := dirAdd g d parent leaf r.1
      if a.1 then (sint32 r.1, a.2) else (-1, freeInode g a.2 r.1)

/-- `minixfs_creat`. -/
def minixfsCreat (fs : Minixfs) (path : List UInt8) (mode : Nat) : Int × Minixfs :=
  match splitPath fs.sb fs.disk path with
  | none => (-1, fs)
  | some (parent, leaf) =>
    if leaf = [] then (-1, fs)
    else
      let r := creatIn fs.sb fs.disk parent leaf mode
      (r.1, { fs with disk := r.2 })

/-- Free the zones `i_zone[k]`, …, `i_zone[k + n - 1]` that are in use. -/
def freeZones (g : Superblock) (d : Disk) (zone : Nat → Nat) : (k n : Nat) → Disk
  | _, 0 => d
  | k, n + 1 => freeZones g (if zone k = 0 then d else freeZone g d (zone k)) zone (k + 1) n

/-- The inode after `O_TRUNC`: its direct zones are gone, and its size. -/
def truncated (i : Inode) : Inode :=
  { i with iZone := fun k ↦ if k < 7 then 0 else i.iZone k, iSize := 0 }

/-- The `O_TRUNC` part of `minixfs_open`. -/
def truncate (g : Superblock) (d : Disk) (ino : Nat) : Disk :=
  let i := readInodeInto g d ino
  if i.isReg then (writeInode g (freeZones g d i.iZone 0 7) ino (truncated i)).2 else d

/-- `minixfs_open`.  `O_CREAT` is `0x100` and `O_TRUNC` is `0x200`. -/
def minixfsOpen (fs : Minixfs) (path : List UInt8) (flags mode : Nat) : Int × Minixfs :=
  let ino := minixfsResolve fs path
  if ino = 0 then
    if flags &&& 0x100 ≠ 0 then minixfsCreat fs path mode else (-1, fs)
  else if flags &&& 0x200 ≠ 0 then (sint32 ino, { fs with disk := truncate fs.sb fs.disk ino })
  else (sint32 ino, fs)

/-! ## Reading and writing -/

/-- The bytes a step of `minixfs_read` or `minixfs_write` covers: up to the end of
the block or of the request. -/
def chunkAt (offset count done : Nat) : Nat :=
  min (1024 - wrap32 (offset + done) % 1024) (count - done)

/-- The loop of `minixfs_read`. -/
def readLoop (g : Superblock) (d : Disk) (i : Inode) (ino count offset : Nat) :
    (fuel done : Nat) → Bytes → Bytes
  | 0, _, out => out
  | fuel + 1, done, out =>
    if done < count then
      let pos := wrap32 (offset + done)
      let zone := (mapBlock g d i (pos / 1024) false ino).1
      let chunk := chunkAt offset count done
      let out :=
        if zone = 0 then out.memset done 0 chunk
        else out.memcpy done (readInto d zone) (pos % 1024) chunk
      readLoop g d i ino count offset fuel (done + chunk) out
    else out

/-- `minixfs_read`: what it returns and the caller's buffer. -/
def minixfsRead (fs : Minixfs) (ino : Nat) (out : Bytes) (count offset : Nat) : Int × Bytes :=
  match readInode fs.sb fs.disk ino with
  | none => (-1, out)
  | some i =>
    if offset ≥ i.iSize then (0, out)
    else
      let count := if wrap32 (offset + count) > i.iSize then i.iSize - offset else count
      (sint32 count, readLoop fs.sb fs.disk i ino count offset count 0 out)

/-- The loop of `minixfs_write`: the bytes done, whether the loop ran to its end,
and the disk. -/
def writeLoop (g : Superblock) (ino : Nat) (src : Bytes) (count offset : Nat) :
    (fuel done : Nat) → Disk → Inode → Nat × Bool × Disk
  | 0, done, d, _ => (done, true, d)
  | fuel + 1, done, d, i =>
    if done < count then
      let pos := wrap32 (offset + done)
      let r := mapBlock g d i (pos / 1024) true ino
      if r.1 = 0 then (done, false, r.2.2)
      else
        let chunk := chunkAt offset count done
        let blk :=
          if pos % 1024 ≠ 0 ∨ chunk ≠ 1024 then readInto r.2.2 r.1 else Bytes.zero
        let d := (blockWrite r.2.2 r.1 (blk.memcpy (pos % 1024) src done chunk)).2
        writeLoop g ino src count offset fuel (done + chunk) d r.2.1
    else (done, true, d)

/-- The end of `minixfs_write`: the new size. -/
def growSize (g : Superblock) (d : Disk) (ino count offset : Nat) : Disk :=
  let i := readInodeInto g d ino
  if wrap32 (offset + count) > i.iSize then
    (writeInode g d ino { i with iSize := wrap32 (offset + count) }).2
  else d

/-- `minixfs_write`. -/
def minixfsWrite (fs : Minixfs) (ino : Nat) (src : Bytes) (count offset : Nat) : Int × Minixfs :=
  match readInode fs.sb fs.disk ino with
  | none => (-1, fs)
  | some i =>
    let r := writeLoop fs.sb ino src count offset count 0 fs.disk i
    if r.2.1 then
      (sint32 r.1, { fs with disk := growSize fs.sb r.2.2 ino count offset })
    else (sint32 r.1, { fs with disk := r.2.2 })

/-! ## Directories -/

/-- The inode `minixfs_mkdir` writes. -/
def freshDir (mode : Nat) : Inode :=
  { Inode.zero with iMode := 0o040000 ||| (mode &&& 0o7777), iNlinks := 2 }

/-- `read_inode(ino, &in); in.i_nlinks = f(in.i_nlinks); write_inode(ino, &in);` -/
def updateNlinks (g : Superblock) (d : Disk) (ino : Nat) (f : Nat → Nat) : Disk :=
  let i := readInodeInto g d ino
  (writeInode g d ino { i with iNlinks := f i.iNlinks }).2

/-- `minixfs_mkdir` with its path split and its inode allocated. -/
def mkdirAt (g : Superblock) (d : Disk) (parent : Nat) (leaf : List UInt8) (mode ino : Nat) :
    Int × Disk :=
  let d := (writeInode g d ino (freshDir mode)).2
  let a := dirAdd g d ino dot ino
  if !a.1 then (-1, freeInode g a.2 ino)
  else
    let b := dirAdd g a.2 ino dotdot parent
    if !b.1 then (-1, freeInode g b.2 ino)
    else
      let c := dirAdd g b.2 parent leaf ino
      if !c.1 then (-1, freeInode g c.2 ino)
      else (0, updateNlinks g c.2 parent fun n ↦ (n + 1) % 2 ^ 16)

/-- `minixfs_mkdir`. -/
def minixfsMkdir (fs : Minixfs) (path : List UInt8) (mode : Nat) : Int × Minixfs :=
  match splitPath fs.sb fs.disk path with
  | none => (-1, fs)
  | some (parent, leaf) =>
    if leaf = [] then (-1, fs)
    else
      match dirLookup fs.sb fs.disk parent leaf with
      | some _ => (-1, fs)
      | none =>
        let r := allocInode fs.sb fs.disk
        if r.1 = 0 then (-1, { fs with disk := r.2 })
        else
          let m := mkdirAt fs.sb r.2 parent leaf mode r.1
          (m.1, { fs with disk := m.2 })

/-- `minixfs_rmdir` from the point where it starts to change the disk. -/
def rmdirAt (g : Superblock) (d : Disk) (parent : Nat) (leaf : List UInt8) (ino : Nat)
    (i : Inode) : Disk :=
  let d := freeZones g d i.iZone 0 10
  let d := dirRemove g d parent leaf
  let d := freeInode g d ino
  updateNlinks g d parent fun n ↦ n - 1

/-- `minixfs_rmdir`. -/
def minixfsRmdir (fs : Minixfs) (path : List UInt8) : Int × Minixfs :=
  match splitPath fs.sb fs.disk path with
  | none => (-1, fs)
  | some (parent, leaf) =>
    match dirLookup fs.sb fs.disk parent leaf with
    | none => (-1, fs)
    | some ino =>
      let i := readInodeInto fs.sb fs.disk ino
      if ¬ i.isDir then (-1, fs)
      else if dirIsEmpty fs.sb fs.disk ino = 0 then (-1, fs)
      else (0, { fs with disk := rmdirAt fs.sb fs.disk parent leaf ino i })

/-! ## Removing -/

/-- Free the zones a file owns, as far as `minixfs_unlink` looks for them. -/
def freeFileZones (g : Superblock) (d : Disk) (i : Inode) : Disk :=
  let d := freeZones g d i.iZone 0 7
  if i.iZone 7 = 0 then d
  else
    let ind := readInto d (i.iZone 7)
    freeZone g (freeZones g d (fun k ↦ ind.get32 (4 * k)) 0 256) (i.iZone 7)

/-- `minixfs_unlink` from the point where it starts to change the disk. -/
def unlinkAt (g : Superblock) (d : Disk) (parent : Nat) (leaf : List UInt8) (ino : Nat)
    (i : Inode) : Disk :=
  let i := { i with iNlinks := i.iNlinks - 1 }
  let d :=
    if i.iNlinks = 0 then freeInode g (freeFileZones g d i) ino
    else (writeInode g d ino i).2
  dirRemove g d parent leaf

/-- `minixfs_unlink`. -/
def minixfsUnlink (fs : Minixfs) (path : List UInt8) : Int × Minixfs :=
  match splitPath fs.sb fs.disk path with
  | none => (-1, fs)
  | some (parent, leaf) =>
    match dirLookup fs.sb fs.disk parent leaf with
    | none => (-1, fs)
    | some ino =>
      let i := readInodeInto fs.sb fs.disk ino
      if i.isDir then (-1, fs)
      else (0, { fs with disk := unlinkAt fs.sb fs.disk parent leaf ino i })

/-! ## Listing -/

/-- `struct dirent`. -/
structure Dirent where
  dIno : Nat
  dName : Bytes

/-- `minixfs_readdir`: what it returns and the caller's structure. -/
def minixfsReaddir (fs : Minixfs) (dirIno index : Nat) (out : Dirent) : Int × Dirent :=
  match readInode fs.sb fs.disk dirIno with
  | none => (-1, out)
  | some i =>
    if ¬ i.isDir then (-1, out)
    else
      match readdirFrom fs.sb fs.disk dirIno i index 0 (nblocks i) 0 with
      | none => (-1, out)
      | some (ino, name) =>
        (1, { dIno := ino, dName := (strncpy out.dName 0 name 60).put8 60 0 })

/-! ## Metadata -/

/-- `minixfs_chmod`. -/
def minixfsChmod (fs : Minixfs) (path : List UInt8) (mode : Nat) : Int × Minixfs :=
  let ino := minixfsResolve fs path
  if ino = 0 then (-1, fs)
  else
    match readInode fs.sb fs.disk ino with
    | none => (-1, fs)
    | some i =>
      let w := writeInode fs.sb fs.disk ino
        { i with iMode := (i.iMode &&& 0o170000) ||| (mode &&& 0o7777) }
      (if w.1 then 0 else -1, { fs with disk := w.2 })

/-- `minixfs_size`. -/
def minixfsSize (fs : Minixfs) (ino : Nat) : Nat :=
  match readInode fs.sb fs.disk ino with
  | none => 0
  | some i => i.iSize

/-- `minixfs_is_dir`. -/
def minixfsIsDir (fs : Minixfs) (ino : Nat) : Bool :=
  match readInode fs.sb fs.disk ino with
  | none => false
  | some i => i.isDir

end FentoOS.Fs
