import FentoOS.Mm.Paging

/-!
# The kernel heap

`kernel/mm/vmm.c`.  The heap is a window of virtual addresses from `0x02000000`
on, which `expand` backs with frames page by page.  It is divided into blocks,
each behind a header of twenty bytes; the headers form a doubly linked list.

Headers are modelled as structures at addresses, and not as bytes: `headers a` is
the header that was written at `a`, if there is one.  The walk along the list in
`kmalloc` ends because headers are at least twenty bytes apart, so the end of the
heap bounds the number of steps; a walk that leaves the headers is `none`.

New pages of the heap are thus taken as fresh memory.  In the code `expand` maps a page to
frame 0 when there is no other, and two such pages are the same bytes; where headers could
be lost in this way, `Backed` excludes it.
-/

namespace FentoOS.Mm

open FentoOS.Lib

/-- `HEAP_START`. -/
def heapStart : Nat := 0x02000000

/-- `HEAP_MAX`. -/
def heapMax : Nat := 0x08000000

/-- `MAGIC`. -/
def heapMagic : Nat := 0xCAFEB00D

/-- `sizeof(struct block)`. -/
def headerSize : Nat := 20

/-- `struct block`. -/
structure Block where
  magic : Nat
  size : Nat
  free : Bool
  next : Option Nat
  prev : Option Nat
deriving DecidableEq, Repr

/-- The kernel's memory with its heap. -/
structure Vmm where
  m : Memory
  headers : Nat → Option Block
  heapEnd : Nat
  heapLimit : Nat

/-! ## Growing -/

/-- The loop of `expand`: the new end of the heap, and memory. -/
def expandLoop (limit : Nat) : (fuel need heapEnd : Nat) → Memory → Nat × Memory
  | 0, _, heapEnd, m => (heapEnd, m)
  | fuel + 1, need, heapEnd, m =>
    if heapEnd < limit ∧ need > 0 then
      let r := allocFrame m
      expandLoop limit fuel (if need > 4096 then need - 4096 else 0) (wrap32 (heapEnd + 4096))
        (halPagingMap r.2 heapEnd r.1 3)
    else (heapEnd, m)

/-- `expand`.  There is an iteration for each page below the limit at most. -/
def expand (v : Vmm) (need : Nat) : Vmm :=
  let r := expandLoop v.heapLimit ((v.heapLimit - v.heapEnd + 4095) / 4096) need v.heapEnd v.m
  { v with heapEnd := r.1, m := r.2 }

/-- `vmm_init`. -/
def vmmInit (m : Memory) : Vmm :=
  let v := expand { m := m, headers := fun _ ↦ none, heapEnd := heapStart, heapLimit := heapMax }
    0x400000
  { v with
    headers := Function.update v.headers heapStart (some
      { magic := heapMagic
        size := sub32 (sub32 v.heapEnd heapStart) headerSize
        free := true
        next := none
        prev := none }) }

/-! ## Allocating -/

/-- Change one header. -/
def updHeader (headers : Nat → Option Block) (b : Nat) (f : Block → Block) : Nat → Option Block :=
  Function.update headers b ((headers b).map f)

/-- `split`. -/
def split (headers : Nat → Option Block) (b size : Nat) : Nat → Option Block :=
  match headers b with
  | none => headers
  | some B =>
    if B.size < wrap32 (size + headerSize + 16) then headers
    else
      let nb := wrap32 (b + headerSize + size)
      let headers := Function.update headers nb (some
        { magic := heapMagic
          size := sub32 (sub32 B.size size) headerSize
          free := true
          next := B.next
          prev := some b })
      let headers := match B.next with
        | none => headers
        | some c => updHeader headers c fun C ↦ { C with prev := some nb }
      updHeader headers b fun B ↦ { B with next := some nb, size := size }

/-- The loop of `kmalloc`: a block that fits, or the last block. -/
def findFit (headers : Nat → Option Block) (size : Nat) : (fuel b : Nat) → Option (Nat × Bool)
  | 0, _ => none
  | fuel + 1, b =>
    match headers b with
    | none => none
    | some B =>
      if B.free ∧ B.size ≥ size then some (b, true)
      else
        match B.next with
        | none => some (b, false)
        | some c => findFit headers size fuel c

/-- `(size + 7) & ~7u`. -/
def roundUp8 (size : Nat) : Nat := wrap32 (size + 7) / 8 * 8

/-- What `kmalloc` looks for. -/
def Vmm.fit (v : Vmm) (size : Nat) : Option (Nat × Bool) :=
  findFit v.headers (roundUp8 size) v.heapEnd heapStart

/-- The bytes by which `kmalloc` asks `expand` to grow the heap. -/
def growBytes (size : Nat) : Nat := wrap32 (roundUp8 size + headerSize + 4096)

/-- The end of `kmalloc`: block `b` is split and taken. -/
def take (v : Vmm) (b size : Nat) : Nat × Vmm :=
  (wrap32 (b + headerSize),
    { v with headers := updHeader (split v.headers b size) b fun B ↦ { B with free := false } })

/-- `kmalloc`. -/
def kmalloc (v : Vmm) (size : Nat) : Option (Nat × Vmm) :=
  if size = 0 then some (0, v)
  else
    match v.fit size with
    | none => none
    | some (b, true) => some (take v b (roundUp8 size))
    | some (b, false) =>
      let oldEnd := v.heapEnd
      let v := expand v (growBytes size)
      if v.heapEnd = oldEnd then some (0, v)
      else
        let headers := Function.update v.headers oldEnd (some
          { magic := heapMagic
            size := sub32 (sub32 v.heapEnd oldEnd) headerSize
            free := true
            next := none
            prev := some b })
        let headers := updHeader headers b fun B ↦ { B with next := some oldEnd }
        some (take { v with headers := headers } oldEnd (roundUp8 size))

/-! ## Freeing -/

/-- `coalesce`. -/
def coalesce (headers : Nat → Option Block) (b : Nat) : Nat → Option Block :=
  let headers :=
    match (headers b).bind Block.next with
    | none => headers
    | some c =>
      match headers c with
      | none => headers
      | some C =>
        if C.free then
          let headers := updHeader headers b fun B ↦
            { B with size := wrap32 (B.size + headerSize + C.size), next := C.next }
          match C.next with
          | none => headers
          | some d => updHeader headers d fun D ↦ { D with prev := some b }
        else headers
  match headers b with
  | none => headers
  | some B =>
    match B.prev with
    | none => headers
    | some a =>
      match headers a with
      | none => headers
      | some A =>
        if A.free then
          let headers := updHeader headers a fun A ↦
            { A with size := wrap32 (A.size + headerSize + B.size), next := B.next }
          match B.next with
          | none => headers
          | some c => updHeader headers c fun C ↦ { C with prev := some a }
        else headers

/-- `kfree`. -/
def kfree (v : Vmm) (ptr : Nat) : Vmm :=
  if ptr = 0 then v
  else
    let b := sub32 ptr headerSize
    match v.headers b with
    | none => v
    | some B =>
      if B.magic ≠ heapMagic then v
      else { v with headers := coalesce (updHeader v.headers b fun B ↦ { B with free := true }) b }

end FentoOS.Mm
