import FentoOS.Lib.Bytes
import FentoOS.Mm.Pmm

/-!
# Page tables and address spaces

`kernel/i386/paging.c`.  A page directory and a page table are frames of 1024
words; a word that is present holds the address of a frame and twelve flag bits.
The code reaches frames at their physical addresses, so memory is modelled as
physical memory, and a pointer to a directory is the address of its frame.

Frames are thus taken as directly addressable.  In the code such a pointer is a virtual
address, which from `0x02000000` on the heap may map to another frame: `direct_map` says
when it does not, and results about tables at such addresses ask for it (`Addressable`).
-/

namespace FentoOS.Mm

open FentoOS.Lib

/-- Physical memory, the frame allocator and the current directories. -/
structure Memory where
  pmm : Pmm
  mem : Bytes
  kernelDir : Nat
  currentDir : Nat

/-! ## Entries -/

/-- `va >> 22`. -/
def pdIndex (va : Nat) : Nat := va / 2 ^ 22 % 1024

/-- `(va >> 12) & 0x3FF`. -/
def ptIndex (va : Nat) : Nat := va / 4096 % 1024

/-- `tab[k]`. -/
def entry (mem : Bytes) (tab k : Nat) : Nat := mem.get32 (tab + 4 * k)

/-- `e & HAL_PG_PRESENT`. -/
def present (e : Nat) : Prop := e % 2 = 1

instance (e : Nat) : Decidable (present e) := inferInstanceAs (Decidable (_ = _))

/-- `e & ~0xFFF`. -/
def frameOf (e : Nat) : Nat := e / 4096 * 4096

/-- `tab[k] = e`. -/
def setEntry (m : Memory) (tab k e : Nat) : Memory := { m with mem := m.mem.put32 (tab + 4 * k) e }

/-- `pmm_alloc_frame`, on the whole state. -/
def allocFrame (m : Memory) : Nat × Memory :=
  let r := pmmAllocFrame m.pmm
  (r.1, { m with pmm := r.2 })

/-- `memset(frame, 0, PAGE_SIZE)`. -/
def zeroFrame (m : Memory) (frame : Nat) : Memory := { m with mem := m.mem.memset frame 0 4096 }

/-! ## Mapping -/

/-- The entry `map_in_dir` stores in a page table. -/
def pageEntry (pa flags : Nat) : Nat := frameOf pa ||| (flags % 4096 ||| 1)

/-- The page table `map_in_dir` uses, which it allocates if it is missing. -/
def tableFor (m : Memory) (dir di flags : Nat) : Nat × Memory :=
  let e := entry m.mem dir di
  if present e then
    (frameOf e, if flags &&& 4 ≠ 0 then setEntry m dir di (e ||| 4) else m)
  else
    let r := allocFrame m
    let m := zeroFrame r.2 r.1
    (r.1, setEntry m dir di (r.1 ||| (3 ||| (flags &&& 4))))

/-- `map_in_dir`. -/
def mapInDir (m : Memory) (dir va pa flags : Nat) : Memory :=
  let r := tableFor m dir (pdIndex va) flags
  setEntry r.2 r.1 (ptIndex va) (pageEntry pa flags)

/-- The loop of `hal_paging_init`. -/
def identityMap (m : Memory) (dir : Nat) : (page n : Nat) → Memory
  | _, 0 => m
  | page, n + 1 =>
    identityMap (mapInDir m dir (page * 4096) (page * 4096) 3) dir (page + 1) n

/-- `hal_paging_init`: the first 128 megabytes are mapped to themselves. -/
def halPagingInit (m : Memory) : Memory :=
  let r := allocFrame m
  let m := { r.2 with kernelDir := r.1, currentDir := r.1 }
  identityMap (zeroFrame m r.1) r.1 0 32768

/-- `hal_paging_map`. -/
def halPagingMap (m : Memory) (va pa flags : Nat) : Memory := mapInDir m m.kernelDir va pa flags

/-- The page a directory maps a virtual address to (`dir_resolve`). -/
def dirResolve (mem : Bytes) (dir va : Nat) : Nat :=
  let de := entry mem dir (pdIndex va)
  if ¬ present de then 0
  else
    let te := entry mem (frameOf de) (ptIndex va)
    if ¬ present te then 0 else frameOf te

/-- `hal_paging_resolve`. -/
def halPagingResolve (m : Memory) (va : Nat) : Nat :=
  let de := entry m.mem m.kernelDir (pdIndex va)
  if ¬ present de then 0
  else
    let te := entry m.mem (frameOf de) (ptIndex va)
    if ¬ present te then 0 else frameOf te ||| va % 4096

/-! ## Address spaces -/

/-- The loop of `hal_addrspace_create` over the kernel's directory entries. -/
def copyEntries (m : Memory) (dir : Nat) : (i n : Nat) → Memory
  | _, 0 => m
  | i, n + 1 => copyEntries (setEntry m dir i (entry m.mem m.kernelDir i)) dir (i + 1) n

/-- `hal_addrspace_create`. -/
def halAddrspaceCreate (m : Memory) : Nat × Memory :=
  let r := allocFrame m
  if r.1 = 0 then (0, r.2)
  else (r.1, copyEntries (zeroFrame r.2 r.1) r.1 0 256)

/-- `hal_addrspace_map_user`, and whether it returned `0`. -/
def halAddrspaceMapUser (m : Memory) (dir va flags : Nat) : Bool × Memory :=
  let r := allocFrame m
  if r.1 = 0 then (false, r.2) else (true, mapInDir r.2 dir va r.1 (7 ||| flags))

/-- The frame `hal_addrspace_copy_to` and `hal_addrspace_memset` write to, which
they map if it is missing. -/
def demandPage (m : Memory) (dir va : Nat) : Nat × Memory :=
  let frame := dirResolve m.mem dir va
  if frame = 0 then
    let m := (halAddrspaceMapUser m dir (frameOf va) 0).2
    (dirResolve m.mem dir va, m)
  else (frame, m)

/-- The bytes one step of `hal_addrspace_copy_to` covers. -/
def pageChunk (va len done : Nat) : Nat := min (4096 - wrap32 (va + done) % 4096) (len - done)

/-- The loops of `hal_addrspace_copy_to` and `hal_addrspace_memset`: they differ
only in the bytes they store, `src` at an offset from the start of the range. -/
def storeLoop (dir va : Nat) (src : Bytes) (len : Nat) : (fuel done : Nat) → Memory → Memory
  | 0, _, m => m
  | fuel + 1, done, m =>
    if done < len then
      let cur := wrap32 (va + done)
      let chunk := pageChunk va len done
      let r := demandPage m dir cur
      if r.1 = 0 then r.2
      else
        storeLoop dir va src len fuel (done + chunk)
          { r.2 with mem := r.2.mem.memcpy (r.1 + cur % 4096) src done chunk }
    else m

/-- `hal_addrspace_copy_to`. -/
def halAddrspaceCopyTo (m : Memory) (dir va : Nat) (src : Bytes) (len : Nat) : Memory :=
  storeLoop dir va src len len 0 m

/-- `hal_addrspace_memset`. -/
def halAddrspaceMemset (m : Memory) (dir va : Nat) (c : UInt8) (len : Nat) : Memory :=
  storeLoop dir va (fun _ ↦ c) len len 0 m

/-- The inner loop of `hal_addrspace_clone`, over the entries of one table. -/
def clonePages (srcTable dstTable : Nat) : (ti n : Nat) → Memory → Memory
  | _, 0, m => m
  | ti, n + 1, m =>
    let e := entry m.mem srcTable ti
    if present e then
      let r := allocFrame m
      let m := { r.2 with mem := r.2.mem.memcpy r.1 r.2.mem (frameOf e) 4096 }
      clonePages srcTable dstTable (ti + 1) n (setEntry m dstTable ti (r.1 ||| e % 4096))
    else clonePages srcTable dstTable (ti + 1) n m

/-- The outer loop of `hal_addrspace_clone`. -/
def cloneTables (src dst : Nat) : (di n : Nat) → Memory → Memory
  | _, 0, m => m
  | di, n + 1, m =>
    let e := entry m.mem src di
    if present e then
      let r := allocFrame m
      let m := setEntry (zeroFrame r.2 r.1) dst di (r.1 ||| e % 4096)
      cloneTables src dst (di + 1) n (clonePages (frameOf e) r.1 0 1024 m)
    else cloneTables src dst (di + 1) n m

/-- `hal_addrspace_clone`. -/
def halAddrspaceClone (m : Memory) (src : Nat) : Nat × Memory :=
  let r := halAddrspaceCreate m
  if r.1 = 0 then (0, r.2) else (r.1, cloneTables src r.1 256 768 r.2)

/-- The inner loop of `hal_addrspace_destroy`. -/
def freePages (mem : Bytes) (table : Nat) : (ti n : Nat) → Pmm → Pmm
  | _, 0, p => p
  | ti, n + 1, p =>
    let e := entry mem table ti
    freePages mem table (ti + 1) n (if present e then pmmFreeFrame p (frameOf e) else p)

/-- The outer loop of `hal_addrspace_destroy`. -/
def freeTables (mem : Bytes) (dir : Nat) : (di n : Nat) → Pmm → Pmm
  | _, 0, p => p
  | di, n + 1, p =>
    let e := entry mem dir di
    freeTables mem dir (di + 1) n
      (if present e then pmmFreeFrame (freePages mem (frameOf e) 0 1024 p) (frameOf e) else p)

/-- `hal_addrspace_destroy`. -/
def halAddrspaceDestroy (m : Memory) (dir : Nat) : Memory :=
  if dir = 0 ∨ dir = m.kernelDir then m
  else { m with pmm := pmmFreeFrame (freeTables m.mem dir 256 768 m.pmm) dir }

/-! ## Blank memory

In memory that holds nothing but zeros the functions above are easy to evaluate. -/

section Blank

variable {m : Memory}

theorem setEntry_blank (hm : m.mem = Bytes.zero) (tab i : Nat) : setEntry m tab i 0 = m := by
  have : m.mem.put32 (tab + 4 * i) 0 = m.mem := by
    rw [hm]
    funext x
    simp [Bytes.put32]
  rw [setEntry, this]

theorem entry_blank (hm : m.mem = Bytes.zero) (tab i : Nat) : entry m.mem tab i = 0 := by
  simp [entry, Bytes.get32, hm]

theorem copyEntries_blank (hm : m.mem = Bytes.zero) (dir i n : Nat) :
    copyEntries m dir i n = m := by
  induction n generalizing i with
  | zero => rfl
  | succ n ih => rw [copyEntries, entry_blank hm, setEntry_blank hm, ih]

theorem cloneTables_blank (hm : m.mem = Bytes.zero) (src dst di n : Nat) :
    cloneTables src dst di n m = m := by
  induction n generalizing di with
  | zero => rfl
  | succ n ih =>
    rw [cloneTables, entry_blank hm]
    exact ih (di + 1)

/-- In memory that holds nothing but zeros, a new space takes one frame. -/
theorem halAddrspaceCreate_blank (hm : m.mem = Bytes.zero) (hframe : (allocFrame m).1 ≠ 0) :
    halAddrspaceCreate m = allocFrame m := by
  have hm' : (allocFrame m).2.mem = Bytes.zero := hm
  have hzero : zeroFrame (allocFrame m).2 (allocFrame m).1 = (allocFrame m).2 := by
    have : (allocFrame m).2.mem.memset (allocFrame m).1 0 4096 = (allocFrame m).2.mem := by
      rw [hm']
      funext x
      simp [Bytes.memset]
    rw [zeroFrame, this]
  rw [halAddrspaceCreate, if_neg hframe, hzero, copyEntries_blank hm']

/-- In memory that holds nothing but zeros, a clone takes one frame. -/
theorem halAddrspaceClone_blank (hm : m.mem = Bytes.zero) (hframe : (allocFrame m).1 ≠ 0)
    (src : Nat) : halAddrspaceClone m src = allocFrame m := by
  rw [halAddrspaceClone, halAddrspaceCreate_blank hm hframe, if_neg hframe,
    cloneTables_blank (m := (allocFrame m).2) hm]

end Blank

/-- A small memory: 64 frames, of which the first four are in use, all zero. -/
def sampleMemory : Memory where
  pmm := { used := fun f ↦ decide (f < 4), totalFrames := 64, freeFrames := 60, oom := false }
  mem := Bytes.zero
  kernelDir := 4096
  currentDir := 4096

end FentoOS.Mm
