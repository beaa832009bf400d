import FentoOS.Lib.BlockList
import FentoOS.Lib.Bytes
import FentoOS.Lib.Linked
import FentoOS.Lib.Run
import FentoOS.Lib.Word

/-!
# `malloc` of the C library

The blocks of the heap lie one behind the other from the first break on, each a header of twelve
bytes and a payload, and the headers are linked in this order.  `malloc` takes the first free
block that is large enough, or moves the break and puts a block at the end.  Blocks are never
split or joined, so a payload once handed out stays where it is.

All of the arithmetic is on 32-bit words, and nothing is checked for overflow.  As long as the
size rounded up fits in a free block, or the new block ends within the address space, no sum
wraps and the payloads are apart; a size that wraps when it is rounded up gives a block that is
too small.

Memory is the array of its bytes, and the program stores into the payloads as it likes.
-/

namespace FentoOS.Malloc

open FentoOS.Lib

/-! ## The code -/

/-- The memory of the process, `head`, and the break. -/
structure Heap where
  mem : Bytes
  head : Nat
  brk : Nat

/-- `sizeof(struct block)`. -/
def headerSize : Nat := 12

/-- `b->size`. -/
def sizeAt (mem : Bytes) (b : Nat) : Nat := mem.get32 b

/-- `b->next`. -/
def nextAt (mem : Bytes) (b : Nat) : Nat := mem.get32 (b + 4)

/-- `b->free`. -/
def freeAt (mem : Bytes) (b : Nat) : Nat := mem.get32 (b + 8)

/-- `ALIGN`. -/
def align (x : Nat) : Nat := wrap32 (x + 7) / 8 * 8

/-- The `brk` system call, of a kernel that grants every request. -/
def brk (h : Heap) (addr : Nat) : Nat × Heap :=
  if addr = 0 then (h.brk, h) else (addr, { h with brk := addr })

/-- `(void *)-1`. -/
def failed : Nat := 2 ^ 32 - 1

/-- `sbrk`. -/
def sbrk (h : Heap) (incr : Nat) : Nat × Heap :=
  let cur := (brk h 0).1
  if incr = 0 then (cur, h)
  else
    let r := brk h (wrap32 (cur + incr))
    if r.1 ≠ wrap32 (cur + incr) then (failed, r.2) else (cur, r.2)

/-- How the loop of `malloc` ends. -/
inductive Scanned
  | found (b : Nat)
  | ended (last : Nat)

/-- The loop of `malloc`, for `fuel` iterations at most. -/
def scan (mem : Bytes) (size : Nat) : (fuel b last : Nat) → Option Scanned
  | 0, _, _ => none
  | fuel + 1, b, last =>
    if b = 0 then some (.ended last)
    else if freeAt mem b ≠ 0 ∧ sizeAt mem b ≥ size then some (.found b)
    else scan mem size fuel (nextAt mem b) b

/-- The part of `malloc` behind the loop. -/
def grow (h : Heap) (size last : Nat) : Nat × Heap :=
  let need := wrap32 (size + headerSize)
  let r := sbrk h need
  let nb := r.1
  if nb = failed then (0, r.2)
  else
    let mem := ((r.2.mem.put32 nb size).put32 (nb + 4) 0).put32 (nb + 8) 0
    (wrap32 (nb + headerSize),
      if last ≠ 0 then { r.2 with mem := mem.put32 (last + 4) nb }
      else { r.2 with mem := mem, head := nb })

/-- `malloc`. -/
def malloc (fuel : Nat) (h : Heap) (size : Nat) : Option (Nat × Heap) :=
  match scan h.mem (align size) fuel h.head 0 with
  | none => none
  | some (.found b) => some (wrap32 (b + headerSize), { h with mem := h.mem.put32 (b + 8) 0 })
  | some (.ended last) => some (grow h (align size) last)

/-- `free`. -/
def free (h : Heap) (ptr : Nat) : Heap :=
  if ptr = 0 then h else { h with mem := h.mem.put32 (sub32 ptr headerSize + 8) 1 }

/-! ## Programs -/

/-- An allocation: the pointer and the size asked for. -/
structure Alloc where
  ptr : Nat
  size : Nat
deriving DecidableEq

/-- A process with its heap, the headers of the pointers that `malloc` has returned, and the
allocations that have not been freed. -/
structure Proc where
  heap : Heap
  blocks : List Nat
  live : List Alloc

inductive Call
  | malloc (size : Nat)
  | free (a : Alloc)
  | store (addr : Nat) (v : UInt8)

/-- The headers and the allocations after `malloc` has returned `ptr`. -/
def Proc.returned (P : Proc) (ptr size : Nat) (heap : Heap) : Proc :=
  if ptr = 0 then { P with heap := heap }
  else
    { heap := heap
      blocks := if ptr - headerSize ∈ P.blocks then P.blocks else P.blocks ++ [ptr - headerSize]
      live := ⟨ptr, size⟩ :: P.live }

/-- The program allocates, frees what is allocated, and stores into its payloads. -/
inductive Step (P : Proc) : Call → Proc → Prop
  | malloc {fuel size ptr : Nat} {heap : Heap} (hsize : size < 2 ^ 32)
      (hcall : malloc fuel P.heap size = some (ptr, heap)) :
      Step P (.malloc size) (P.returned ptr size heap)
  | free {a : Alloc} (ha : a ∈ P.live) :
      Step P (.free a) { P with heap := free P.heap a.ptr, live := P.live.erase a }
  | store {a : Alloc} {addr : Nat} (ha : a ∈ P.live) (hle : a.ptr ≤ addr)
      (hlt : addr < a.ptr + a.size) (v : UInt8) :
      Step P (.store addr v) { P with heap := { P.heap with mem := P.heap.mem.put8 addr v } }

/-- A process that starts with the break at `base`. -/
def Proc.Init (base : Nat) (P : Proc) : Prop :=
  0 < base ∧ base < 2 ^ 32 ∧ ∃ mem, P = ⟨⟨mem, 0, base⟩, [], []⟩

/-- The payload of an allocation, as its header says. -/
def Proc.payload (P : Proc) (a : Alloc) : Nat := sizeAt P.heap.mem (a.ptr - headerSize)

/-- Every allocation has a payload of the size asked for between the first and the present break,
and the payloads are apart from each other and from all headers. -/
structure Proc.Disjoint (base : Nat) (P : Proc) : Prop where
  inside : ∀ a ∈ P.live, a.size ≤ P.payload a ∧ base ≤ a.ptr ∧ a.ptr + P.payload a ≤ P.heap.brk
  apart : P.live.Pairwise fun a b ↦
    a.ptr + P.payload a ≤ b.ptr ∨ b.ptr + P.payload b ≤ a.ptr
  headers : ∀ a ∈ P.live, ∀ b ∈ P.blocks, b + headerSize ≤ a.ptr ∨ a.ptr + P.payload a ≤ b

/-- The next multiple of eight. -/
def roundUp (size : Nat) : Nat := (size + 7) / 8 * 8

/-- The size rounded up fits in a free block, or in a new one within the address space. -/
def Fits (P : Proc) : Call → Prop
  | .malloc size =>
    (∃ b ∈ P.blocks, freeAt P.heap.mem b ≠ 0 ∧ roundUp size ≤ sizeAt P.heap.mem b) ∨
      P.heap.brk + headerSize + roundUp size ≤ 2 ^ 32
  | _ => True

/-! ## Headers -/

/-- Where a block stops. -/
def blockEnd (mem : Bytes) (b : Nat) : Nat := b + headerSize + sizeAt mem b

/-- The blocks of the heap lie between `base` and the break and are linked. -/
structure Blocks (base : Nat) (h : Heap) (L : List Nat) : Prop where
  pos : 0 < base
  lt : h.brk < 2 ^ 32
  tiles : Tiles (blockEnd h.mem) base L h.brk
  head : h.head = L.headD 0
  links : Linked (fun b ↦ some (nextAt h.mem b)) L 0

section

variable {base b x size : Nat} {h : Heap} {L : List Nat} {mem mem' : Bytes}

theorem Blocks.bounds (hB : Blocks base h L) (hb : b ∈ L) :
    0 < b ∧ base ≤ b ∧ b + headerSize + sizeAt h.mem b ≤ h.brk := by
  obtain ⟨hle, -, hstop⟩ := hB.tiles.bounds hb
  exact ⟨lt_of_lt_of_le hB.pos hle, hle, hstop⟩

/-- Two headers are the same or lie apart. -/
theorem Blocks.apart (hB : Blocks base h L) (hb : b ∈ L) (hx : x ∈ L) (hne : x ≠ b) :
    x + headerSize + sizeAt h.mem x ≤ b ∨ b + headerSize + sizeAt h.mem b ≤ x :=
  hB.tiles.disjoint hx hb hne

/-- The blocks stay when their sizes and links do. -/
theorem Blocks.congr (hB : Blocks base h L) (hsize : ∀ x ∈ L, sizeAt mem x = sizeAt h.mem x)
    (hnext : ∀ x ∈ L, nextAt mem x = nextAt h.mem x) : Blocks base { h with mem := mem } L where
  pos := hB.pos
  lt := hB.lt
  tiles := hB.tiles.congr fun x hx ↦ congrArg (x + headerSize + ·) (hsize x hx)
  head := hB.head
  links := hB.links.congr fun x hx ↦ congrArg some (hnext x hx)

/-- Bytes that lie in no header and no field of one are of no concern. -/
theorem fields_congr (heq : ∀ j, b ≤ j → j < b + headerSize → mem' j = mem j) :
    sizeAt mem' b = sizeAt mem b ∧ nextAt mem' b = nextAt mem b ∧ freeAt mem' b = freeAt mem b := by
  unfold headerSize at heq
  refine ⟨?_, ?_, ?_⟩
  · exact Bytes.get32_congr fun j hle hlt ↦ heq j hle (by omega)
  · exact Bytes.get32_congr fun j hle hlt ↦ heq j (by omega) (by omega)
  · exact Bytes.get32_congr fun j hle hlt ↦ heq j (by omega) (by omega)

/-- A field of another header is written. -/
theorem fields_put32 (mem : Bytes) (v : Nat) {k : Nat} (hk : k ≤ 8)
    (hapart : x + headerSize ≤ b ∨ b + headerSize ≤ x) :
    sizeAt (mem.put32 (b + k) v) x = sizeAt mem x ∧
      nextAt (mem.put32 (b + k) v) x = nextAt mem x ∧
      freeAt (mem.put32 (b + k) v) x = freeAt mem x := by
  unfold headerSize at hapart
  refine fields_congr fun j hle hlt ↦ Bytes.put32_of_notMem _ ?_
  unfold headerSize at hlt
  omega

/-- The `next` field of the header is written. -/
theorem fields_put_next (mem : Bytes) (v : Nat) : sizeAt (mem.put32 (b + 4) v) b = sizeAt mem b ∧
    nextAt (mem.put32 (b + 4) v) b = v % 2 ^ 32 ∧ freeAt (mem.put32 (b + 4) v) b = freeAt mem b :=
  ⟨Bytes.get32_put32_of_disjoint _ (.inl (by omega)), Bytes.get32_put32_same ..,
    Bytes.get32_put32_of_disjoint _ (.inr (by omega))⟩

/-- The `free` field of the header is written. -/
theorem fields_put_free (v : Nat) : sizeAt (mem.put32 (b + 8) v) b = sizeAt mem b ∧
    nextAt (mem.put32 (b + 8) v) b = nextAt mem b ∧ freeAt (mem.put32 (b + 8) v) b = v % 2 ^ 32 :=
  ⟨Bytes.get32_put32_of_disjoint _ (.inl (by omega)),
    Bytes.get32_put32_of_disjoint _ (.inl (by omega)), Bytes.get32_put32_same ..⟩

theorem Blocks.headers_apart (hB : Blocks base h L) (hb : b ∈ L) (hx : x ∈ L) (hne : x ≠ b) :
    x + headerSize ≤ b ∨ b + headerSize ≤ x := by
  have := hB.apart hb hx hne
  omega

/-- A block is marked as free or as used. -/
theorem Blocks.setFree (hB : Blocks base h L) (hb : b ∈ L) (v : Nat) :
    Blocks base { h with mem := h.mem.put32 (b + 8) v } L ∧
      (∀ x ∈ L, sizeAt (h.mem.put32 (b + 8) v) x = sizeAt h.mem x) ∧
      ∀ x ∈ L, x ≠ b → freeAt (h.mem.put32 (b + 8) v) x = freeAt h.mem x := by
  have hfields : ∀ x ∈ L, sizeAt (h.mem.put32 (b + 8) v) x = sizeAt h.mem x ∧
      nextAt (h.mem.put32 (b + 8) v) x = nextAt h.mem x := by
    intro x hx
    by_cases hne : x = b
    · subst hne
      exact ⟨(fields_put_free v).1, (fields_put_free v).2.1⟩
    · obtain ⟨hsize, hnext, -⟩ := fields_put32 h.mem v le_rfl
        (hB.headers_apart hb hx hne)
      exact ⟨hsize, hnext⟩
  exact ⟨hB.congr (fun x hx ↦ (hfields x hx).1) fun x hx ↦ (hfields x hx).2,
    fun x hx ↦ (hfields x hx).1,
    fun x hx hne ↦ (fields_put32 _ _ le_rfl (hB.headers_apart hb hx hne)).2.2⟩

/-- The program stores into a payload. -/
theorem Blocks.fields_store (hB : Blocks base h L) (hb : b ∈ L) (hx : x ∈ L) {addr : Nat}
    (hle : b + headerSize ≤ addr) (hlt : addr < b + headerSize + sizeAt h.mem b) (v : UInt8) :
    sizeAt (h.mem.put8 addr v) x = sizeAt h.mem x ∧
      nextAt (h.mem.put8 addr v) x = nextAt h.mem x ∧
      freeAt (h.mem.put8 addr v) x = freeAt h.mem x := by
  refine fields_congr fun j hj hj' ↦ Bytes.put8_of_ne _ _ ?_
  rintro rfl
  by_cases hne : x = b
  · subst hne
    omega
  · have := hB.apart hb hx hne
    omega

/-! ## The loop -/

theorem scan_add {fuel last : Nat} {r : Scanned} (k : Nat)
    (hr : scan mem size fuel b last = some r) : scan mem size (fuel + k) b last = some r := by
  induction fuel generalizing b last with
  | zero => cases hr
  | succ fuel ih =>
    rw [Nat.succ_add_eq_add_succ, Nat.add_succ]
    rw [scan] at hr ⊢
    split_ifs at hr ⊢
    · exact hr
    · exact hr
    · exact ih hr

/-- The loop finds the first free block that is large enough, or the last block. -/
theorem scan_spec (size : Nat) {fuel : Nat} (last : Nat)
    (hlinks : Linked (fun b ↦ some (nextAt mem b)) L 0)
    (hpos : ∀ x ∈ L, x ≠ 0) (hfuel : L.length < fuel) :
    (∃ x ∈ L, freeAt mem x ≠ 0 ∧ size ≤ sizeAt mem x ∧
      scan mem size fuel (L.headD 0) last = some (.found x)) ∨
    ((∀ x ∈ L, ¬(freeAt mem x ≠ 0 ∧ size ≤ sizeAt mem x)) ∧
      scan mem size fuel (L.headD 0) last = some (.ended (L.getLastD last))) := by
  induction L generalizing fuel last with
  | nil =>
    obtain ⟨fuel, rfl⟩ : ∃ k, fuel = k + 1 := ⟨fuel - 1, by omega⟩
    exact .inr ⟨by simp, if_pos rfl⟩
  | cons y L ih =>
    obtain ⟨fuel, rfl⟩ : ∃ k, fuel = k + 1 := ⟨fuel - 1, by omega⟩
    obtain ⟨hnext, hlinks⟩ := hlinks
    have hy : y ≠ 0 := hpos y List.mem_cons_self
    rw [List.headD_cons, scan, if_neg hy]
    by_cases hfit : freeAt mem y ≠ 0 ∧ sizeAt mem y ≥ size
    · exact .inl ⟨y, List.mem_cons_self, hfit.1, hfit.2, if_pos hfit⟩
    · rw [if_neg hfit, Option.some.inj hnext]
      rcases ih y hlinks (fun x hx ↦ hpos x (List.mem_cons_of_mem y hx))
        (by simpa using hfuel) with ⟨x, hx, hfree, hle, heq⟩ | ⟨hnone, heq⟩
      · exact .inl ⟨x, List.mem_cons_of_mem y hx, hfree, hle, heq⟩
      · refine .inr ⟨fun x hx ↦ ?_, ?_⟩
        · rcases List.mem_cons.mp hx with rfl | hx
          · exact hfit
          · exact hnone x hx
        · rw [heq, List.getLastD_cons]

/-! ## A block at the end -/

theorem sbrk_eq {incr : Nat} (hpos : 0 < h.brk) (hincr : 0 < incr) (hfit : h.brk + incr ≤ 2 ^ 32) :
    sbrk h incr = if h.brk + incr = 2 ^ 32 then (failed, h)
      else (h.brk, { h with brk := h.brk + incr }) := by
  unfold sbrk brk
  dsimp only
  rw [if_pos rfl, if_neg (by omega)]
  by_cases hend : h.brk + incr = 2 ^ 32
  · have hwrap : wrap32 (h.brk + incr) = 0 := by rw [hend]; rfl
    rw [hwrap, if_pos rfl, if_pos (by omega), if_pos hend]
  · have hwrap : wrap32 (h.brk + incr) = h.brk + incr := wrap32_of_lt (by omega)
    have hne : h.brk + incr ≠ 0 := by omega
    rw [hwrap, if_neg hne, if_neg (not_not.mpr rfl), if_neg hend]

/-- The header of a new block. -/
def newHeader (mem : Bytes) (nb size : Nat) : Bytes :=
  ((mem.put32 nb size).put32 (nb + 4) 0).put32 (nb + 8) 0

theorem newHeader_of_lt {nb j : Nat} (hj : j < nb) : newHeader mem nb size j = mem j := by
  unfold newHeader
  rw [Bytes.put32_of_notMem _ (.inl (by omega)), Bytes.put32_of_notMem _ (.inl (by omega)),
    Bytes.put32_of_notMem _ (.inl (by omega))]

theorem newHeader_fields (mem : Bytes) (nb : Nat) (hsize : size < 2 ^ 32) :
    sizeAt (newHeader mem nb size) nb = size ∧ nextAt (newHeader mem nb size) nb = 0 ∧
      freeAt (newHeader mem nb size) nb = 0 := by
  unfold newHeader
  refine ⟨?_, ?_, ?_⟩
  · rw [sizeAt, Bytes.get32_put32_of_disjoint _ (.inl (by omega)),
      Bytes.get32_put32_of_disjoint _ (.inl (by omega)), Bytes.get32_put32_same,
      Nat.mod_eq_of_lt hsize]
  · rw [nextAt, Bytes.get32_put32_of_disjoint _ (.inl (by omega)), Bytes.get32_put32_same]
    rfl
  · rw [freeAt, Bytes.get32_put32_same]
    rfl

/-- What `malloc` leaves when it has moved the break. -/
def grown (h : Heap) (size last : Nat) : Heap :=
  if last ≠ 0 then
    ⟨(newHeader h.mem h.brk size).put32 (last + 4) h.brk, h.head, h.brk + headerSize + size⟩
  else ⟨newHeader h.mem h.brk size, h.brk, h.brk + headerSize + size⟩

theorem grow_eq {last : Nat} (hpos : 0 < h.brk) (hfit : h.brk + headerSize + size ≤ 2 ^ 32) :
    grow h size last = if h.brk + headerSize + size = 2 ^ 32 then (0, h)
      else (h.brk + headerSize, grown h size last) := by
  unfold headerSize at hfit ⊢
  have hneed : wrap32 (size + 12) = size + 12 := wrap32_of_lt (by omega)
  have hsum : h.brk + (size + 12) = h.brk + 12 + size := by omega
  unfold grow headerSize
  dsimp only
  rw [hneed, sbrk_eq hpos (by omega) (by omega), hsum]
  by_cases hend : h.brk + 12 + size = 2 ^ 32
  · rw [if_pos hend, if_pos hend, if_pos rfl]
  · have hbrk : h.brk ≠ failed := by unfold failed; omega
    rw [if_neg hend, if_neg hend, if_neg hbrk, wrap32_of_lt (by omega)]
    rfl

theorem Blocks.lt_brk (hB : Blocks base h L) (hx : x ∈ L) : x + headerSize ≤ h.brk := by
  have := (hB.bounds hx).2.2
  omega

/-- The fields of the old blocks, when the header of the new one has been written. -/
theorem Blocks.newHeader_fields (hB : Blocks base h L) (hx : x ∈ L) (size : Nat) :
    sizeAt (newHeader h.mem h.brk size) x = sizeAt h.mem x ∧
      nextAt (newHeader h.mem h.brk size) x = nextAt h.mem x ∧
      freeAt (newHeader h.mem h.brk size) x = freeAt h.mem x :=
  fields_congr fun _ _ hj ↦ newHeader_of_lt (hj.trans_le (hB.lt_brk hx))

/-- The fields of the old blocks, when the last of them has been linked to the new one. -/
theorem Blocks.link_fields {y : Nat} (hB : Blocks base h L) (hy : y ∈ L) (hx : x ∈ L)
    (size v : Nat) :
    sizeAt ((newHeader h.mem h.brk size).put32 (y + 4) v) x = sizeAt h.mem x ∧
      freeAt ((newHeader h.mem h.brk size).put32 (y + 4) v) x = freeAt h.mem x ∧
      (x ≠ y → nextAt ((newHeader h.mem h.brk size).put32 (y + 4) v) x = nextAt h.mem x) := by
  obtain ⟨hsize, hnext, hfree⟩ := hB.newHeader_fields hx size
  by_cases hne : x = y
  · subst hne
    obtain ⟨hsize', -, hfree'⟩ := fields_put_next (newHeader h.mem h.brk size) (b := x) v
    exact ⟨hsize'.trans hsize, hfree'.trans hfree, fun h ↦ absurd rfl h⟩
  · obtain ⟨hsize', hnext', hfree'⟩ := fields_put32 (newHeader h.mem h.brk size) v
      (by decide : 4 ≤ 8) (hB.headers_apart hy hx hne)
    exact ⟨hsize'.trans hsize, hfree'.trans hfree, fun _ ↦ hnext'.trans hnext⟩

theorem Blocks.tiles_snoc (hB : Blocks base h L) (hold : ∀ x ∈ L, sizeAt mem x = sizeAt h.mem x)
    (hnew : sizeAt mem h.brk = size) :
    Tiles (blockEnd mem) base (L ++ [h.brk]) (h.brk + headerSize + size) := by
  refine hB.tiles.snoc (congrArg (h.brk + headerSize + ·) hnew) ?_ fun x hx ↦
    congrArg (x + headerSize + ·) (hold x hx)
  unfold headerSize
  omega

/-- A block is put at the end. -/
theorem Blocks.grown (hB : Blocks base h L) (hfit : h.brk + headerSize + size < 2 ^ 32) :
    Blocks base (grown h size (L.getLastD 0)) (L ++ [h.brk]) ∧
      (∀ x ∈ L, sizeAt (grown h size (L.getLastD 0)).mem x = sizeAt h.mem x ∧
        freeAt (grown h size (L.getLastD 0)).mem x = freeAt h.mem x) ∧
      sizeAt (grown h size (L.getLastD 0)).mem h.brk = size ∧
      freeAt (grown h size (L.getLastD 0)).mem h.brk = 0 := by
  obtain ⟨hsize, hnext, hfree⟩ := Malloc.newHeader_fields h.mem h.brk
    (by omega : size < 2 ^ 32)
  rcases L.eq_nil_or_concat' with rfl | ⟨A, y, rfl⟩
  · -- the first block
    exact ⟨⟨hB.pos, hfit, hB.tiles_snoc (by simp) hsize, rfl, congrArg some hnext, trivial⟩,
      by simp, hsize, hfree⟩
  · have hy : y ∈ A ++ [y] := List.mem_append_right A List.mem_cons_self
    have hne : y ≠ 0 := (hB.bounds hy).1.ne'
    have hold := fun x hx ↦ hB.link_fields (x := x) hy hx size h.brk
    obtain ⟨hsize', hnext', hfree'⟩ := fields_put32 (newHeader h.mem h.brk size) h.brk (x := h.brk)
      (by decide : 4 ≤ 8) (.inr (hB.lt_brk hy))
    have hgrown : Malloc.grown h size ((A ++ [y]).getLastD 0) =
        ⟨(newHeader h.mem h.brk size).put32 (y + 4) h.brk, h.head, h.brk + headerSize + size⟩ := by
      rw [List.getLastD_concat]
      exact if_pos hne
    rw [hgrown]
    refine ⟨⟨hB.pos, hfit, hB.tiles_snoc (fun x hx ↦ (hold x hx).1) (hsize'.trans hsize), ?_, ?_⟩,
      fun x hx ↦ ⟨(hold x hx).1, (hold x hx).2.1⟩, hsize'.trans hsize, hfree'.trans hfree⟩
    · change h.head = _
      rw [hB.head]
      cases A with
      | nil => rfl
      | cons a A => rfl
    · have hnodup := hB.tiles.nodup
      have hlast : nextAt ((newHeader h.mem h.brk size).put32 (y + 4) h.brk) y = h.brk :=
        (fields_put_next _ _).2.1.trans (Nat.mod_eq_of_lt hB.lt)
      refine Linked.append.mpr ⟨hB.links.relink (fun x hx ↦ ?_) (congrArg some hlast),
        congrArg some (hnext'.trans hnext), trivial⟩
      refine congrArg some ((hold x (List.mem_append_left _ hx)).2.2 ?_)
      rintro rfl
      exact (List.nodup_append.mp hnodup).2.2 x hx x List.mem_cons_self rfl

/-! ## Runs -/

/-- The headers are those of the blocks, and an allocation is the payload of a block in use. -/
structure Inv (base : Nat) (P : Proc) : Prop where
  blocks : Blocks base P.heap P.blocks
  live : ∀ a ∈ P.live, ∃ b ∈ P.blocks, a.ptr = b + headerSize ∧ freeAt P.heap.mem b = 0 ∧
    a.size ≤ sizeAt P.heap.mem b
  nodup : (P.live.map Alloc.ptr).Nodup

variable {P P' : Proc} {c : Call}

theorem Inv.init (hP : Proc.Init base P) : Inv base P := by
  obtain ⟨hpos, hlt, mem, rfl⟩ := hP
  exact ⟨⟨hpos, hlt, rfl, rfl, trivial⟩, by simp, by simp⟩

/-- The payload of an allocation lies apart from another block. -/
theorem Inv.payload_apart (hP : Inv base P) {a : Alloc} (ha : a ∈ P.live) (hx : x ∈ P.blocks) :
    a.ptr = x + headerSize ∨ x + headerSize + sizeAt P.heap.mem x ≤ a.ptr ∨
      a.ptr + P.payload a ≤ x := by
  obtain ⟨b, hb, hptr, -⟩ := hP.live a ha
  rw [Proc.payload, hptr, Nat.add_sub_cancel]
  by_cases hne : x = b
  · exact .inl (by rw [hne])
  · have := hP.blocks.apart hb hx hne
    omega

theorem Inv.disjoint (hP : Inv base P) : P.Disjoint base := by
  refine ⟨fun a ha ↦ ?_, ?_, fun a ha x hx ↦ ?_⟩
  · obtain ⟨b, hb, hptr, -, hsize⟩ := hP.live a ha
    have hbounds := hP.blocks.bounds hb
    rw [Proc.payload, hptr, Nat.add_sub_cancel]
    exact ⟨hsize, by omega, hbounds.2.2⟩
  · refine (List.pairwise_map.mp hP.nodup).imp_of_mem fun {a a'} ha ha' hne ↦ ?_
    obtain ⟨b, hb, hptr, -⟩ := hP.live a ha
    have hpayload : P.payload a = sizeAt P.heap.mem b := by
      rw [Proc.payload, hptr, Nat.add_sub_cancel]
    rcases hP.payload_apart ha' hb with heq | hle | hle
    · exact absurd (hptr.trans heq.symm) hne
    · exact .inl (by rw [hpayload, hptr]; exact hle)
    · exact .inr (by omega)
  · rcases hP.payload_apart ha hx with heq | hle | hle
    · exact .inl heq.ge
    · exact .inl (by omega)
    · exact .inr hle

theorem Inv.scan (hP : Inv base P) (size : Nat) :
    (∃ x ∈ P.blocks, freeAt P.heap.mem x ≠ 0 ∧ size ≤ sizeAt P.heap.mem x ∧
      ∀ k, scan P.heap.mem size (P.blocks.length + 1 + k) P.heap.head 0 = some (.found x)) ∨
    ((∀ x ∈ P.blocks, ¬(freeAt P.heap.mem x ≠ 0 ∧ size ≤ sizeAt P.heap.mem x)) ∧
      ∀ k, Malloc.scan P.heap.mem size (P.blocks.length + 1 + k) P.heap.head 0 =
        some (.ended (P.blocks.getLastD 0))) := by
  rw [hP.blocks.head]
  rcases scan_spec size 0 hP.blocks.links
    (fun x hx ↦ (hP.blocks.bounds hx).1.ne') (Nat.lt_succ_self _) with
    ⟨x, hx, hfree, hle, heq⟩ | ⟨hnone, heq⟩
  · exact .inl ⟨x, hx, hfree, hle, fun k ↦ scan_add k heq⟩
  · exact .inr ⟨hnone, fun k ↦ scan_add k heq⟩

theorem size_le_roundUp (size : Nat) : size ≤ roundUp size := by
  unfold roundUp
  omega

theorem align_eq (hsize : roundUp size < 2 ^ 32) : align size = roundUp size := by
  unfold roundUp at hsize
  have hlt : size + 7 < 2 ^ 32 := by omega
  rw [align, wrap32_of_lt hlt, roundUp]

/-- `malloc` gives a free block. -/
theorem Inv.reuse (hP : Inv base P) (hb : b ∈ P.blocks) (hfree : freeAt P.heap.mem b ≠ 0)
    (hsize : size ≤ sizeAt P.heap.mem b) : Inv base (P.returned (b + headerSize) size
      { P.heap with mem := P.heap.mem.put32 (b + 8) 0 }) := by
  obtain ⟨hblocks, hsizes, hfrees⟩ := hP.blocks.setFree hb 0
  have hother : ∀ a ∈ P.live, a.ptr ≠ b + headerSize := by
    intro a ha heq
    obtain ⟨b', -, hptr, hused, -⟩ := hP.live a ha
    obtain rfl : b' = b := by omega
    exact hfree hused
  have hmem : b + headerSize - headerSize ∈ P.blocks := by rwa [Nat.add_sub_cancel]
  have hne : b + headerSize ≠ 0 := by unfold headerSize; omega
  rw [Proc.returned, if_neg hne, if_pos hmem]
  refine ⟨hblocks, fun a ha ↦ ?_, ?_⟩
  · rcases List.mem_cons.mp ha with rfl | ha
    · refine ⟨b, hb, rfl, (fields_put_free 0).2.2, ?_⟩
      exact (hsizes b hb).symm ▸ hsize
    · obtain ⟨b', hb', hptr, hused, hle⟩ := hP.live a ha
      have hbb' : b' ≠ b := fun heq ↦ hother a ha (heq ▸ hptr)
      exact ⟨b', hb', hptr, (hfrees b' hb' hbb').trans hused, (hsizes b' hb').symm ▸ hle⟩
  · refine List.nodup_cons.mpr ⟨fun hin ↦ ?_, hP.nodup⟩
    obtain ⟨a, ha, heq⟩ := List.mem_map.mp hin
    exact hother a ha heq

/-- `malloc` gives a new block. -/
theorem Inv.grow (hP : Inv base P) {n : Nat} (hle : size ≤ n)
    (hfit : P.heap.brk + headerSize + n < 2 ^ 32) :
    Inv base (P.returned (P.heap.brk + headerSize) size
      (grown P.heap n (P.blocks.getLastD 0))) := by
  obtain ⟨hblocks, hold, hsize, hfree⟩ := hP.blocks.grown hfit
  have hnew : P.heap.brk ∉ P.blocks := by
    intro hin
    have := hP.blocks.lt_brk hin
    unfold headerSize at this
    omega
  have hmem : P.heap.brk + headerSize - headerSize ∉ P.blocks := by rwa [Nat.add_sub_cancel]
  have hne : P.heap.brk + headerSize ≠ 0 := by unfold headerSize; omega
  rw [Proc.returned, if_neg hne, if_neg hmem, Nat.add_sub_cancel]
  refine ⟨hblocks, fun a ha ↦ ?_, ?_⟩
  · rcases List.mem_cons.mp ha with rfl | ha
    · exact ⟨P.heap.brk, List.mem_append_right _ List.mem_cons_self, rfl, hfree,
        hle.trans_eq hsize.symm⟩
    · obtain ⟨b, hb, hptr, hused, hsize⟩ := hP.live a ha
      exact ⟨b, List.mem_append_left _ hb, hptr, (hold b hb).2.trans hused,
        hsize.trans_eq (hold b hb).1.symm⟩
  · refine List.nodup_cons.mpr ⟨fun hin ↦ ?_, hP.nodup⟩
    obtain ⟨a, ha, heq⟩ := List.mem_map.mp hin
    obtain ⟨b, hb, hptr, -⟩ := hP.live a ha
    have hsame : b + headerSize = P.heap.brk + headerSize := hptr.symm.trans heq
    have := hP.blocks.lt_brk hb
    unfold headerSize at this hsame
    omega

/-- A call of `malloc` that fits returns, whatever the number of iterations it is given beyond
that of the blocks. -/
theorem Inv.malloc (hP : Inv base P) (hfits : Fits P (.malloc size)) : ∃ ptr heap,
    (∀ k, malloc (P.blocks.length + 1 + k) P.heap size = some (ptr, heap)) ∧
      Inv base (P.returned ptr size heap) := by
  have hbrk : 0 < P.heap.brk := hP.blocks.pos.trans_le hP.blocks.tiles.le
  have hround : roundUp size < 2 ^ 32 := by
    rcases hfits with ⟨b, -, -, hle⟩ | hle
    · exact hle.trans_lt (Bytes.get32_lt ..)
    · unfold headerSize at hle
      omega
  have halign := align_eq hround
  have hsize := size_le_roundUp size
  rcases hP.scan (roundUp size) with ⟨b, hb, hfree, hle, hscan⟩ | ⟨hnone, hscan⟩
  · refine ⟨b + headerSize, _, fun k ↦ ?_, hP.reuse hb hfree (hsize.trans hle)⟩
    have hend := (hP.blocks.bounds hb).2.2
    have hlt := hP.blocks.lt
    have hptr : wrap32 (b + headerSize) = b + headerSize := wrap32_of_lt (by omega)
    rw [Malloc.malloc, halign, hscan k]
    exact congrArg (fun p ↦ some (p, _)) hptr
  · have hend : P.heap.brk + headerSize + roundUp size ≤ 2 ^ 32 := by
      rcases hfits with ⟨b, hb, hfree, hle⟩ | hle
      · exact absurd ⟨hfree, hle⟩ (hnone b hb)
      · exact hle
    have hcall : ∀ k, Malloc.malloc (P.blocks.length + 1 + k) P.heap size =
        some (Malloc.grow P.heap (roundUp size) (P.blocks.getLastD 0)) := fun k ↦ by
      rw [Malloc.malloc, halign, hscan k]
    rw [grow_eq hbrk hend] at hcall
    by_cases htop : P.heap.brk + headerSize + roundUp size = 2 ^ 32
    · -- the new break would be `0`, which asks for the break
      rw [if_pos htop] at hcall
      exact ⟨0, P.heap, hcall, hP⟩
    · rw [if_neg htop] at hcall
      exact ⟨_, _, hcall, hP.grow hsize (by omega)⟩

/-- An allocation is freed. -/
theorem Inv.free (hP : Inv base P) {a : Alloc} (ha : a ∈ P.live) :
    Inv base { P with heap := free P.heap a.ptr, live := P.live.erase a } := by
  obtain ⟨b, hb, hptr, -⟩ := hP.live a ha
  have hend := hP.blocks.lt_brk hb
  have hlt := hP.blocks.lt
  have hheader : sub32 a.ptr headerSize = b := by
    rw [hptr, sub32, wrap32]
    unfold headerSize at hend ⊢
    omega
  have hne : a.ptr ≠ 0 := by
    rw [hptr]
    unfold headerSize
    omega
  have hfreed : Malloc.free P.heap a.ptr = { P.heap with mem := P.heap.mem.put32 (b + 8) 1 } := by
    rw [Malloc.free, if_neg hne, hheader]
  obtain ⟨hblocks, hsizes, hfrees⟩ := hP.blocks.setFree hb 1
  rw [hfreed]
  refine ⟨hblocks, fun a' ha' ↦ ?_, (List.erase_sublist.map Alloc.ptr).nodup hP.nodup⟩
  obtain ⟨hne', hmem⟩ := (List.Nodup.of_map _ hP.nodup).mem_erase_iff.mp ha'
  obtain ⟨b', hb', hptr', hused, hsize⟩ := hP.live a' hmem
  have hbb' : b' ≠ b := by
    rintro rfl
    exact hne' (List.inj_on_of_nodup_map hP.nodup hmem ha (hptr'.trans hptr.symm))
  exact ⟨b', hb', hptr', (hfrees b' hb' hbb').trans hused, hsize.trans_eq (hsizes b' hb').symm⟩

/-- The program stores into a payload. -/
theorem Inv.store (hP : Inv base P) {a : Alloc} (ha : a ∈ P.live) {addr : Nat}
    (hle : a.ptr ≤ addr) (hlt : addr < a.ptr + a.size) (v : UInt8) :
    Inv base { P with heap := { P.heap with mem := P.heap.mem.put8 addr v } } := by
  obtain ⟨b, hb, hptr, -, hsize⟩ := hP.live a ha
  have hfields := fun x hx ↦ hP.blocks.fields_store (x := x) hb hx (hptr ▸ hle)
    (by omega : addr < b + headerSize + sizeAt P.heap.mem b) v
  refine ⟨hP.blocks.congr (fun x hx ↦ (hfields x hx).1) fun x hx ↦ (hfields x hx).2.1,
    fun a' ha' ↦ ?_, hP.nodup⟩
  obtain ⟨b', hb', hptr', hused, hsize'⟩ := hP.live a' ha'
  exact ⟨b', hb', hptr', (hfields b' hb').2.2.trans hused, hsize'.trans_eq (hfields b' hb').1.symm⟩

/-- What `malloc` returns does not depend on the iterations it is given. -/
theorem malloc_det {fuel fuel' : Nat} {r r' : Nat × Heap}
    (hr : malloc fuel h size = some r) (hr' : ∀ k, malloc (fuel' + k) h size = some r') :
    r = r' := by
  have hlong : malloc (fuel + fuel') h size = some r := by
    unfold malloc at hr ⊢
    cases hscan : scan h.mem (align size) fuel h.head 0 with
    | none =>
      rw [hscan] at hr
      cases hr
    | some o =>
      rw [scan_add fuel' hscan]
      rw [hscan] at hr
      exact hr
  have hsame := hr' fuel
  rw [Nat.add_comm, hlong] at hsame
  exact Option.some.inj hsame

theorem Inv.step (hP : Inv base P) (hfits : Fits P c) (hstep : Step P c P') : Inv base P' := by
  cases hstep with
  | malloc hsize hcall =>
    obtain ⟨ptr, heap, hret, hinv⟩ := hP.malloc hfits
    obtain ⟨rfl, rfl⟩ := Prod.mk.inj (malloc_det hcall hret)
    exact hinv
  | free ha => exact hP.free ha
  | store ha hle hlt v => exact hP.store ha hle hlt v

/-- In a run in which every size asked for fits, rounded up, in a free block or in front of the
end of the address space, all payloads are large enough, within the heap, and apart from each
other and from the headers; and every call of `malloc` that fits returns. -/
theorem payloads_disjoint (hP : Reach (Proc.Init base) (Under Fits Step) P) :
    P.Disjoint base ∧ ∀ size, Fits P (.malloc size) →
      ∃ fuel ptr heap, malloc fuel P.heap size = some (ptr, heap) := by
  have hinv : Inv base P :=
    hP.invariant (fun _ hinit ↦ .init hinit) fun _ _ _ hinv hstep ↦ hinv.step hstep.1 hstep.2
  refine ⟨hinv.disjoint, fun size hfits ↦ ?_⟩
  obtain ⟨ptr, heap, hret, -⟩ := hinv.malloc hfits
  exact ⟨_, ptr, heap, hret 0⟩

/-- The process behind a call of `malloc` whose loop has at most three iterations. -/
def Proc.after (P : Proc) (size : Nat) : Proc :=
  let r := (malloc 3 P.heap size).getD (0, P.heap)
  P.returned r.1 size r.2

theorem reach_after (size : Nat) (hP : Reach (Proc.Init base) (Under Fits Step) P)
    (h : size < 2 ^ 32 ∧ P.heap.brk + headerSize + roundUp size ≤ 2 ^ 32 ∧
      (malloc 3 P.heap size).isSome = true) :
    Reach (Proc.Init base) (Under Fits Step) (P.after size) := by
  obtain ⟨hsize, hroom, hret⟩ := h
  obtain ⟨r, hr⟩ := Option.isSome_iff_exists.mp hret
  have hfits : Fits P (.malloc size) := Or.inr hroom
  rw [Proc.after, hr]
  exact hP.step ⟨hfits, .malloc hsize hr⟩

/-- Two blocks behind the break at `0x8050000`: the first is freed and given out again. -/
theorem payloads_disjoint_again : ∃ P, Reach (Proc.Init 0x8050000) (Under Fits Step) P ∧
    P.live = [⟨0x805000c, 40⟩, ⟨0x8050080, 24⟩] ∧ P.Disjoint 0x8050000 := by
  have h₀ : Reach (Proc.Init 0x8050000) (Under Fits Step)
      ⟨⟨Bytes.zero, 0, 0x8050000⟩, [], []⟩ := .init ⟨by decide, by decide, Bytes.zero, rfl⟩
  have h₁ := reach_after 100 h₀ (by decide)
  have h₂ := reach_after 24 h₁ (by decide)
  have hfits : ∀ P, Fits P (.free ⟨0x805000c, 100⟩) := fun _ ↦ trivial
  have h₃ := h₂.step ⟨hfits _, .free (by decide)⟩
  have h₄ := reach_after 40 h₃ (by decide)
  exact ⟨_, h₄, by decide, (payloads_disjoint h₄).1⟩

/-- `malloc(0xffffffff)` returns a block without a payload: `ALIGN` wraps to `0`. -/
theorem huge_size_gets_nothing : ∃ P, Reach (Proc.Init 0x8050000) Step P ∧
    P.live = [⟨0x805000c, 0xffffffff⟩] ∧ ¬P.Disjoint 0x8050000 := by
  have hrun : Reach (Proc.Init 0x8050000) Step (Proc.returned
      ⟨⟨Bytes.zero, 0, 0x8050000⟩, [], []⟩ 0x805000c 0xffffffff
        (grown ⟨Bytes.zero, 0, 0x8050000⟩ 0 0)) :=
    .step (.init ⟨by decide, by decide, Bytes.zero, rfl⟩)
      (.malloc (by decide) (rfl : malloc 1 _ _ = _))
  refine ⟨_, hrun, rfl, fun h ↦ ?_⟩
  have hle := (h.inside _ List.mem_cons_self).1
  exact absurd hle (by decide)

end

end FentoOS.Malloc
