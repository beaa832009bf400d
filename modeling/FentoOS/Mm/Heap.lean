import FentoOS.Lib.BlockList
import FentoOS.Mm.Frames

/-!
# The block list of the kernel heap

The headers that `kmalloc` and `kfree` follow are a doubly linked list whose blocks tile
the heap.  `Blocks H stop L` says so of the list `L` of the blocks' addresses: each has a
header with the magic number, the links go both ways and end, and a block starts where the
header and the payload of the one before stop, from the start of the heap up to `stop`.

The functions of `kernel/mm/vmm.c` make three moves on this list.  `split` cuts a block in
two, `kmalloc` on a full heap puts a block at the end, and `coalesce` lets a block swallow
the one behind it, once or twice.  Neighbours that are both free never stay behind.
-/

namespace FentoOS.Mm

open FentoOS.Lib Function

/-! ## What a header says -/

def nextOf (H : Nat → Option Block) (b : Nat) : Option Nat := (H b).bind Block.next

def prevOf (H : Nat → Option Block) (b : Nat) : Option Nat := (H b).bind Block.prev

def blockSize (H : Nat → Option Block) (b : Nat) : Nat := ((H b).map Block.size).getD 0

def isFree (H : Nat → Option Block) (b : Nat) : Bool := ((H b).map Block.free).getD false

/-- Where a block stops. -/
def blockEnd (H : Nat → Option Block) (b : Nat) : Nat := b + headerSize + blockSize H b

/-- The blocks of the list are linked and tile the heap up to `stop`. -/
structure Blocks (H : Nat → Option Block) (stop : Nat) (L : List Nat) : Prop where
  header : ∀ b ∈ L, ∃ B, H b = some B ∧ B.magic = heapMagic
  links : Dll (nextOf H) (prevOf H) none L none
  tiles : Tiles (blockEnd H) heapStart L stop

/-- No two neighbours are both free. -/
def Apart (H : Nat → Option Block) (L : List Nat) : Prop :=
  L.IsChain fun b c ↦ ¬(isFree H b = true ∧ isFree H c = true)

section

variable {H H' : Nat → Option Block} {stop b c w size : Nat} {B C : Block} {f : Block → Block}
  {A L T : List Nat}

theorem mem_middle : w ∈ A ++ b :: T ↔ w = b ∨ w ∈ A ++ T := by
  rw [List.mem_append, List.mem_cons, List.mem_append]
  tauto

theorem updHeader_self (h : H b = some B) : updHeader H b f b = some (f B) := by
  rw [updHeader, update_self, h]
  rfl

theorem updHeader_of_ne (h : w ≠ b) : updHeader H b f w = H w := update_of_ne h ..

/-- The header that is written for a new block. -/
def freshBlock (size : Nat) (next prev : Option Nat) : Block where
  magic := heapMagic
  size := size
  free := true
  next := next
  prev := prev

/-- `if (o) o->prev = p`. -/
def relink (H : Nat → Option Block) (o : Option Nat) (p : Nat) : Nat → Option Block :=
  match o with
  | none => H
  | some c => updHeader H c fun C ↦ { C with prev := some p }

theorem relink_of_ne {o : Option Nat} (h : o ≠ some w) (p : Nat) : relink H o p w = H w := by
  cases o with
  | none => rfl
  | some c => exact updHeader_of_ne fun hc ↦ h (congrArg some hc.symm)

theorem relink_some (h : H c = some C) (p : Nat) :
    relink H (some c) p c = some { C with prev := some p } := updHeader_self h

/-- Of a block list only the links, the sizes and the magic numbers matter. -/
theorem Blocks.congr (h : Blocks H stop L)
    (hheader : ∀ b ∈ L, ∃ B, H' b = some B ∧ B.magic = heapMagic)
    (hnext : ∀ b ∈ L, nextOf H' b = nextOf H b) (hprev : ∀ b ∈ L, prevOf H' b = prevOf H b)
    (hsize : ∀ b ∈ L, blockSize H' b = blockSize H b) : Blocks H' stop L where
  header := hheader
  links := h.links.congr hnext hprev
  tiles := h.tiles.congr fun b hb ↦ congrArg (b + headerSize + ·) (hsize b hb)

/-- The attributes of a header that is known. -/
theorem attrs_of_some (h : H b = some B) :
    nextOf H b = B.next ∧ prevOf H b = B.prev ∧ blockSize H b = B.size ∧ isFree H b = B.free := by
  refine ⟨?_, ?_, ?_, ?_⟩
  · rw [nextOf, h]; rfl
  · rw [prevOf, h]; rfl
  · rw [blockSize, h]; rfl
  · rw [isFree, h]; rfl

/-- The attributes depend on the header only. -/
theorem attrs_congr (h : H' b = H b) : nextOf H' b = nextOf H b ∧ prevOf H' b = prevOf H b ∧
    blockSize H' b = blockSize H b ∧ isFree H' b = isFree H b := by
  refine ⟨?_, ?_, ?_, ?_⟩
  · rw [nextOf, h]; rfl
  · rw [prevOf, h]; rfl
  · rw [blockSize, h]; rfl
  · rw [isFree, h]; rfl

theorem Blocks.bounds (h : Blocks H stop L) (hb : b ∈ L) :
    heapStart ≤ b ∧ b + headerSize + blockSize H b ≤ stop :=
  ⟨(h.tiles.bounds hb).1, (h.tiles.bounds hb).2.2⟩

/-! ## Three moves -/

/-- The block behind `x` gets another block in front; the rest of the list stays. -/
structure Rest (H H' : Nat → Option Block) (A : List Nat) (x : Nat) (T : List Nat) : Prop where
  head : ∀ c ∈ T.head?, ∀ C, H c = some C → H' c = some { C with prev := some x }
  other : ∀ w ∈ A ++ T.tail, H' w = H w

theorem Rest.attrs (h : Rest H H' A c T)
    (hheader : ∀ b ∈ T, ∃ B, H b = some B ∧ B.magic = heapMagic)
    (hw : w ∈ A ++ T) :
    nextOf H' w = nextOf H w ∧ blockSize H' w = blockSize H w ∧ isFree H' w = isFree H w := by
  have hsame : ∀ w ∈ A ++ T.tail, nextOf H' w = nextOf H w ∧ blockSize H' w = blockSize H w ∧
      isFree H' w = isFree H w := by
    intro w hw
    obtain ⟨h₁, -, h₂, h₃⟩ := attrs_congr (h.other w hw)
    exact ⟨h₁, h₂, h₃⟩
  rcases List.mem_append.mp hw with hw | hw
  · exact hsame w (List.mem_append_left _ hw)
  · cases T with
    | nil => cases hw
    | cons a T =>
      rcases List.mem_cons.mp hw with rfl | hw
      · obtain ⟨W, hW, -⟩ := hheader w List.mem_cons_self
        obtain ⟨h₁, -, h₂, h₃⟩ := attrs_of_some (h.head w rfl W hW)
        obtain ⟨h₁', -, h₂', h₃'⟩ := attrs_of_some hW
        exact ⟨h₁.trans h₁'.symm, h₂.trans h₂'.symm, h₃.trans h₃'.symm⟩
      · exact hsame w (List.mem_append_right A hw)

theorem Rest.header (h : Rest H H' A c T)
    (hheader : ∀ b ∈ A ++ T, ∃ B, H b = some B ∧ B.magic = heapMagic) (hw : w ∈ A ++ T) :
    ∃ B, H' w = some B ∧ B.magic = heapMagic := by
  obtain ⟨W, hW, hmagic⟩ := hheader w hw
  rcases List.mem_append.mp hw with hw | hw
  · exact ⟨W, (h.other w (List.mem_append_left _ hw)).trans hW, hmagic⟩
  · cases T with
    | nil => cases hw
    | cons a T =>
      rcases List.mem_cons.mp hw with rfl | hw
      · exact ⟨_, h.head w rfl W hW, hmagic⟩
      · exact ⟨W, (h.other w (List.mem_append_right A hw)).trans hW, hmagic⟩

theorem Rest.prev (h : Rest H H' A c T)
    (hheader : ∀ b ∈ T, ∃ B, H b = some B ∧ B.magic = heapMagic) :
    (∀ w ∈ T.head?, prevOf H' w = some c) ∧ ∀ w ∈ T.tail, prevOf H' w = prevOf H w := by
  constructor
  · intro w hw
    obtain ⟨W, hW, -⟩ := hheader w (List.mem_of_mem_head? hw)
    exact (attrs_of_some (h.head w hw W hW)).2.1
  · intro w hw
    exact (attrs_congr (h.other w (List.mem_append_right A hw))).2.1

/-- A block is cut in two. -/
theorem Blocks.cut (h : Blocks H stop (A ++ b :: T)) (hb : H b = some B)
    (hc : c = b + headerSize + size) (hfit : size + headerSize ≤ B.size)
    (hb' : H' b = some { B with next := some c, size := size })
    (hc' : H' c = some (freshBlock (B.size - size - headerSize) B.next (some b)))
    (hrest : Rest H H' A c T) : Blocks H' stop (A ++ b :: c :: T) := by
  obtain ⟨hbnext, hbprev, hbsize, -⟩ := attrs_of_some hb
  obtain ⟨hbnext', hbprev', hbsize', -⟩ := attrs_of_some hb'
  obtain ⟨hcnext, hcprev, hcsize, -⟩ := attrs_of_some hc'
  have hheaderT : ∀ w ∈ T, ∃ B, H w = some B ∧ B.magic = heapMagic := fun w hw ↦
    h.header w (List.mem_append_right A (List.mem_cons_of_mem b hw))
  have hattrs := fun w (hw : w ∈ A ++ T) ↦ hrest.attrs hheaderT hw
  constructor
  case header =>
    intro w hw
    rcases mem_middle.mp hw with rfl | hw
    · obtain ⟨W, hW, hmagic⟩ := h.header w (List.mem_append_right A List.mem_cons_self)
      obtain rfl := Option.some.inj (hb.symm.trans hW)
      exact ⟨_, hb', hmagic⟩
    · rcases mem_middle.mp hw with rfl | hw
      · exact ⟨_, hc', rfl⟩
      · exact hrest.header (fun w hw ↦ h.header w (mem_middle.mpr (.inr hw))) hw
  case links =>
    refine h.links.insert hbnext' (hcnext.trans hbnext.symm) hcprev (fun w hw ↦ (hattrs w hw).1) ?_
      (hrest.prev hheaderT).1 (hrest.prev hheaderT).2
    intro w hw
    rcases List.mem_append.mp hw with hw | hw
    · exact (attrs_congr (hrest.other w (List.mem_append_left _ hw))).2.1
    · obtain rfl := List.mem_singleton.mp hw
      exact hbprev'.trans hbprev.symm
  case tiles =>
    refine h.tiles.insert (y := c) ?_ ?_ ?_ ?_ fun w hw ↦ ?_
    · rw [blockEnd, hbsize', hc]
    · rw [blockEnd, blockEnd, hcsize, hbsize, hc]
      change b + headerSize + size + headerSize + (B.size - size - headerSize) = _
      omega
    · rw [hc, headerSize]
      omega
    · rw [blockEnd, hbsize, hc]
      have : 0 < headerSize := by decide
      omega
    · rw [blockEnd, blockEnd, (hattrs w hw).2.1]

/-- A block swallows the block behind it. -/
theorem Blocks.swallow (h : Blocks H stop (A ++ b :: c :: T)) (hb : H b = some B)
    (hc : H c = some C)
    (hb' : H' b = some { B with size := B.size + headerSize + C.size, next := C.next })
    (hrest : Rest H H' A b T) : Blocks H' stop (A ++ b :: T) := by
  obtain ⟨-, hbprev, hbsize, -⟩ := attrs_of_some hb
  obtain ⟨hcnext, -, hcsize, -⟩ := attrs_of_some hc
  obtain ⟨hbnext', hbprev', hbsize', -⟩ := attrs_of_some hb'
  have hmem : ∀ w ∈ A ++ T, w ∈ A ++ b :: c :: T := fun w hw ↦
    mem_middle.mpr (.inr (mem_middle.mpr (.inr hw)))
  have hheaderT : ∀ w ∈ T, ∃ B, H w = some B ∧ B.magic = heapMagic := fun w hw ↦
    h.header w (hmem w (List.mem_append_right A hw))
  have hattrs := fun w (hw : w ∈ A ++ T) ↦ hrest.attrs hheaderT hw
  constructor
  case header =>
    intro w hw
    rcases mem_middle.mp hw with rfl | hw
    · obtain ⟨W, hW, hmagic⟩ := h.header w (List.mem_append_right A List.mem_cons_self)
      obtain rfl := Option.some.inj (hb.symm.trans hW)
      exact ⟨_, hb', hmagic⟩
    · exact hrest.header (fun w hw ↦ h.header w (hmem w hw)) hw
  case links =>
    refine h.links.remove (hbnext'.trans hcnext.symm) (fun w hw ↦ (hattrs w hw).1) ?_
      (hrest.prev hheaderT).1 (hrest.prev hheaderT).2
    intro w hw
    rcases List.mem_append.mp hw with hw | hw
    · exact (attrs_congr (hrest.other w (List.mem_append_left _ hw))).2.1
    · obtain rfl := List.mem_singleton.mp hw
      exact hbprev'.trans hbprev.symm
  case tiles =>
    have hstart : c = blockEnd H b := by
      obtain ⟨m, -, -, -, hc, -⟩ := Tiles.append.mp h.tiles
      exact hc
    refine h.tiles.remove ?_ fun w hw ↦ ?_
    · rw [blockEnd] at hstart
      rw [blockEnd, blockEnd, hbsize', hcsize, hstart, hbsize]
      change b + headerSize + (B.size + headerSize + C.size) = _
      omega
    · rw [blockEnd, blockEnd, (hattrs w hw).2.1]

/-- The heap grows by a block at its end. -/
theorem Blocks.snoc (h : Blocks H stop (A ++ [b])) (hb : H b = some B)
    (hb' : H' b = some { B with next := some stop })
    (hc' : H' stop = some (freshBlock size none (some b)))
    (hother : ∀ w ∈ A, H' w = H w) : Blocks H' (stop + headerSize + size) (A ++ [b, stop]) := by
  obtain ⟨hbnext, hbprev, hbsize, -⟩ := attrs_of_some hb
  obtain ⟨hbnext', hbprev', hbsize', -⟩ := attrs_of_some hb'
  obtain ⟨hcnext, hcprev, hcsize, -⟩ := attrs_of_some hc'
  constructor
  case header =>
    intro w hw
    have hw' : w ∈ A ∨ w = b ∨ w = stop := by simpa using hw
    rcases hw' with hw' | rfl | rfl
    · rw [hother w hw']
      exact h.header w (List.mem_append_left _ hw')
    · obtain ⟨W, hW, hmagic⟩ := h.header w (List.mem_append_right A List.mem_cons_self)
      obtain rfl := Option.some.inj (hb.symm.trans hW)
      exact ⟨_, hb', hmagic⟩
    · exact ⟨_, hc', rfl⟩
  case links =>
    refine h.links.insert hbnext' (hcnext.trans h.links.next_eq.symm) hcprev (fun w hw ↦ ?_)
      (fun w hw ↦ ?_) (fun w hw ↦ by cases hw) fun w hw ↦ by cases hw
    · rw [List.append_nil] at hw
      exact (attrs_congr (hother w hw)).1
    · rcases List.mem_append.mp hw with hw | hw
      · exact (attrs_congr (hother w hw)).2.1
      · obtain rfl := List.mem_singleton.mp hw
        exact hbprev'.trans hbprev.symm
  case tiles =>
    have happ : A ++ [b, stop] = (A ++ [b]) ++ [stop] := by simp
    rw [happ]
    refine h.tiles.snoc ?_ ?_ fun w hw ↦ ?_
    · rw [blockEnd, hcsize]
      rfl
    · have : 0 < headerSize := by decide
      omega
    · rcases List.mem_append.mp hw with hw | hw
      · rw [blockEnd, blockEnd, (attrs_congr (hother w hw)).2.2.1]
      · obtain rfl := List.mem_singleton.mp hw
        rw [blockEnd, blockEnd, hbsize, hbsize']

/-- `b->free = free`. -/
def mark (H : Nat → Option Block) (b : Nat) (free : Bool) : Nat → Option Block :=
  updHeader H b fun B ↦ { B with free := free }

theorem mark_eq_some (free : Bool) (h : H w = some C) :
    mark H b free w = some { C with free := if w = b then free else C.free } := by
  by_cases hw : w = b
  · subst hw
    rw [if_pos rfl]
    exact updHeader_self h
  · rw [if_neg hw]
    exact (updHeader_of_ne hw).trans h

theorem mark_attrs (free : Bool) (h : H w = some C) :
    isFree (mark H b free) w = (if w = b then free else isFree H w) ∧
      blockSize (mark H b free) w = blockSize H w := by
  obtain ⟨-, -, h₁, h₂⟩ := attrs_of_some h
  obtain ⟨-, -, h₁', h₂'⟩ := attrs_of_some (mark_eq_some (b := b) free h)
  refine ⟨?_, h₁'.trans h₁.symm⟩
  rw [h₂', h₂]

/-- Only the mark of a block changes. -/
theorem Blocks.mark (h : Blocks H stop L) (b : Nat) (free : Bool) :
    Blocks (mark H b free) stop L := by
  have hattrs : ∀ w ∈ L, nextOf (Mm.mark H b free) w = nextOf H w ∧
      prevOf (Mm.mark H b free) w = prevOf H w ∧
      blockSize (Mm.mark H b free) w = blockSize H w := by
    intro w hw
    obtain ⟨W, hW, -⟩ := h.header w hw
    obtain ⟨h₁, h₂, h₃, -⟩ := attrs_of_some hW
    obtain ⟨h₁', h₂', h₃', -⟩ := attrs_of_some (mark_eq_some (b := b) free hW)
    exact ⟨h₁'.trans h₁.symm, h₂'.trans h₂.symm, h₃'.trans h₃.symm⟩
  refine h.congr (fun w hw ↦ ?_) (fun w hw ↦ (hattrs w hw).1) (fun w hw ↦ (hattrs w hw).2.1)
    fun w hw ↦ (hattrs w hw).2.2
  obtain ⟨W, hW, hmagic⟩ := h.header w hw
  exact ⟨_, mark_eq_some free hW, hmagic⟩

/-! ## Splitting and taking a block -/

theorem Blocks.nodup (h : Blocks H stop (A ++ b :: T)) : b ∉ A ++ T ∧ (A ++ T).Nodup := by
  have hnodup := h.tiles.nodup
  rw [List.nodup_middle] at hnodup
  exact List.nodup_cons.mp hnodup

theorem Blocks.ne_of_mem (h : Blocks H stop (A ++ b :: T)) (hw : w ∈ A ++ T) : w ≠ b := by
  rintro rfl
  exact h.nodup.1 hw

theorem Blocks.next_eq (h : Blocks H stop (A ++ b :: T)) (hb : H b = some B) :
    B.next = T.head? := by
  rw [← (attrs_of_some hb).1, h.links.next_eq, Option.or_none]

theorem Blocks.prev_eq (h : Blocks H stop (A ++ b :: T)) (hb : H b = some B) :
    B.prev = A.getLast? := by
  rw [← (attrs_of_some hb).2.1, h.links.prev_eq, Option.or_none]

/-- The other blocks lie outside of a block. -/
theorem Blocks.outside (h : Blocks H stop (A ++ b :: T)) (hw : w ∈ A ++ T) :
    w < b ∨ b + headerSize + blockSize H b ≤ w := by
  have hmem : w ∈ A ++ b :: T := mem_middle.mpr (.inr hw)
  have hb : b ∈ A ++ b :: T := List.mem_append_right A List.mem_cons_self
  rcases h.tiles.disjoint hb hmem (h.ne_of_mem hw).symm with hle | hle
  · exact .inr hle
  · exact .inl ((h.tiles.bounds hmem).2.1.trans_le hle)

/-- Behind the links of the moves the rest of the list is the same. -/
theorem rest_of_relink (hnodup : (A ++ T).Nodup) {p : Nat}
    (hsame : ∀ w ∈ A ++ T, H' w = relink H T.head? p w) : Rest H H' A p T := by
  constructor
  · intro c hc C hC
    rw [hsame c (List.mem_append_right A (List.mem_of_mem_head? hc)), Option.mem_def.mp hc]
    exact relink_some hC p
  · intro w hw
    have hw' : w ∈ A ++ T := by
      rcases List.mem_append.mp hw with hw | hw
      · exact List.mem_append_left T hw
      · exact List.mem_append_right A (List.mem_of_mem_tail hw)
    rw [hsame w hw']
    refine relink_of_ne (fun hc ↦ ?_) p
    cases T with
    | nil => cases hc
    | cons c T =>
      obtain rfl := Option.some.inj hc
      rcases List.mem_append.mp hw with hw | hw
      · exact (List.nodup_append.mp hnodup).2.2 _ hw _ List.mem_cons_self rfl
      · exact (List.nodup_cons.mp (List.nodup_append.mp hnodup).2.1).1 hw

theorem split_of_fit (hb : H b = some B) (hfit : ¬B.size < wrap32 (size + headerSize + 16)) :
    split H b size = updHeader (relink (update H (wrap32 (b + headerSize + size))
        (some (freshBlock (sub32 (sub32 B.size size) headerSize) B.next (some b)))) B.next
        (wrap32 (b + headerSize + size))) b
      fun B ↦ { B with next := some (wrap32 (b + headerSize + size)), size := size } := by
  unfold split
  rw [hb]
  simp only [if_neg hfit]
  rfl

/-- `split` leaves a block alone or cuts it in two. -/
theorem Blocks.split (h : Blocks H stop (A ++ b :: T)) (hstop : stop < 2 ^ 32)
    (hsize : size + headerSize + 16 < 2 ^ 32) :
    (blockSize H b < size + headerSize + 16 ∧ split H b size = H) ∨
      ∃ c, size < blockSize H b ∧ Blocks (split H b size) stop (A ++ b :: c :: T) ∧
        blockSize (split H b size) b = size ∧ isFree (split H b size) c = true ∧
        blockSize (split H b size) c + size + headerSize = blockSize H b ∧
        ∀ w ∈ A ++ T, isFree (split H b size) w = isFree H w ∧
          blockSize (split H b size) w = blockSize H w := by
  obtain ⟨B, hB, hmagic⟩ := h.header b (List.mem_append_right A List.mem_cons_self)
  have hBsize := (attrs_of_some hB).2.2.1
  by_cases hfit : B.size < size + headerSize + 16
  · refine .inl ⟨hBsize ▸ hfit, ?_⟩
    unfold Mm.split
    rw [hB]
    simp only [wrap32_of_lt hsize, if_pos hfit]
  · refine .inr ⟨b + headerSize + size, by omega, ?_⟩
    have hbounds := h.bounds (List.mem_append_right A List.mem_cons_self)
    rw [hBsize] at hbounds
    have hpos : 0 < headerSize := by decide
    have hsub : sub32 (sub32 B.size size) headerSize = B.size - size - headerSize := by
      unfold sub32 wrap32
      omega
    have heq := split_of_fit hB
      (by rwa [wrap32_of_lt hsize] : ¬B.size < wrap32 (size + headerSize + 16))
    rw [wrap32_of_lt (by omega : b + headerSize + size < 2 ^ 32), hsub] at heq
    set c := b + headerSize + size with hc
    have hout : ∀ w ∈ A ++ T, w ≠ c := by
      intro w hw hwc
      have := h.outside hw
      rw [hBsize] at this
      omega
    have hcb : c ≠ b := by omega
    have hnext := h.next_eq hB
    have hcnext : B.next ≠ some c := fun hn ↦ by
      rw [hnext] at hn
      exact hout c (List.mem_append_right A (List.mem_of_mem_head? hn)) rfl
    have hbnext : B.next ≠ some b := fun hn ↦ by
      rw [hnext] at hn
      exact h.nodup.1 (List.mem_append_right A (List.mem_of_mem_head? hn))
    have hb' : Mm.split H b size b = some { B with next := some c, size := size } := by
      rw [heq]
      refine updHeader_self ?_
      rw [relink_of_ne hbnext, update_of_ne hcb.symm, hB]
    have hc' : Mm.split H b size c =
        some (freshBlock (B.size - size - headerSize) B.next (some b)) := by
      rw [heq, updHeader_of_ne hcb, relink_of_ne hcnext, update_self]
    have hrest : Rest H (Mm.split H b size) A c T := by
      refine rest_of_relink h.nodup.2 fun w hw ↦ ?_
      rw [heq, updHeader_of_ne (h.ne_of_mem hw), hnext]
      by_cases hwc : T.head? = some w
      · obtain ⟨W, hW, -⟩ := h.header w (mem_middle.mpr (.inr hw))
        rw [hwc, relink_some hW, relink_some]
        rw [update_of_ne (hout w hw), hW]
      · rw [relink_of_ne hwc, relink_of_ne hwc, update_of_ne (hout w hw)]
    have hheaderT : ∀ w ∈ T, ∃ B, H w = some B ∧ B.magic = heapMagic := fun w hw ↦
      h.header w (List.mem_append_right A (List.mem_cons_of_mem b hw))
    refine ⟨h.cut hB hc (by omega) hb' hc' hrest, (attrs_of_some hb').2.2.1,
      (attrs_of_some hc').2.2.2, ?_, fun w hw ↦ ?_⟩
    · rw [(attrs_of_some hc').2.2.1, hBsize]
      change B.size - size - headerSize + size + headerSize = B.size
      omega
    obtain ⟨-, h₂, h₃⟩ := hrest.attrs hheaderT hw
    exact ⟨h₃, h₂⟩

theorem Apart.congr (h : Apart H L) (hfree : ∀ w ∈ L, isFree H' w = isFree H w) : Apart H' L := by
  refine h.imp_of_mem_imp fun w x hw hx hwx ↦ ?_
  rwa [hfree w hw, hfree x hx]

/-- Around a block in use nothing is to be said about its neighbours. -/
theorem apart_middle (hb : isFree H b = false) :
    Apart H (A ++ b :: T) ↔ Apart H A ∧ Apart H T := by
  unfold Apart
  rw [List.isChain_append, List.isChain_cons]
  constructor
  · rintro ⟨hA, ⟨-, hT⟩, -⟩
    exact ⟨hA, hT⟩
  · rintro ⟨hA, hT⟩
    refine ⟨hA, ⟨fun y _ hy ↦ ?_, hT⟩, fun x _ y hy hxy ↦ ?_⟩
    · rw [hb] at hy
      cases hy.1
    · obtain rfl := Option.some.inj hy
      rw [hb] at hxy
      cases hxy.2

/-- What marking a block does to the marks and sizes. -/
theorem Blocks.mark_attrs (h : Blocks H stop (A ++ b :: T)) (free : Bool) :
    isFree (Mm.mark H b free) b = free ∧ blockSize (Mm.mark H b free) b = blockSize H b ∧
      ∀ w ∈ A ++ T, isFree (Mm.mark H b free) w = isFree H w ∧
        blockSize (Mm.mark H b free) w = blockSize H w := by
  have hall : ∀ w ∈ A ++ b :: T, isFree (Mm.mark H b free) w =
      (if w = b then free else isFree H w) ∧
      blockSize (Mm.mark H b free) w = blockSize H w := fun w hw ↦ by
    obtain ⟨W, hW, -⟩ := h.header w hw
    exact Mm.mark_attrs free hW
  obtain ⟨h₁, h₂⟩ := hall b (mem_middle.mpr (.inl rfl))
  rw [if_pos rfl] at h₁
  refine ⟨h₁, h₂, fun w hw ↦ ?_⟩
  have hw' := hall w (mem_middle.mpr (.inr hw))
  rwa [if_neg (h.ne_of_mem hw)] at hw'

/-- A block is marked as used. -/
theorem Blocks.apart_mark (h : Blocks H stop (A ++ b :: T)) (hA : Apart H A) (hT : Apart H T) :
    Apart (Mm.mark H b false) (A ++ b :: T) := by
  obtain ⟨hused, -, hsame⟩ := h.mark_attrs false
  refine (apart_middle hused).mpr ⟨?_, ?_⟩
  · exact hA.congr fun w hw ↦ (hsame w (List.mem_append_left T hw)).1
  · exact hT.congr fun w hw ↦ (hsame w (List.mem_append_right A hw)).1

/-- The headers after the end of `kmalloc`. -/
def taken (H : Nat → Option Block) (b size : Nat) : Nat → Option Block :=
  mark (split H b size) b false

/-- The end of `kmalloc`: a block is split and taken. -/
theorem Blocks.taken (h : Blocks H stop (A ++ b :: T)) (hstop : stop < 2 ^ 32)
    (hsize : size + headerSize + 16 < 2 ^ 32) (hA : Apart H A) (hT : Apart H T)
    (hnext : ∀ c ∈ T.head?, isFree H c = false) :
    ∃ L, Blocks (taken H b size) stop L ∧ Apart (taken H b size) L ∧ b ∈ L ∧
      isFree (taken H b size) b = false ∧
      (∀ w ∈ A ++ T, w ∈ L ∧ isFree (taken H b size) w = isFree H w ∧
        blockSize (taken H b size) w = blockSize H w) ∧
      (size ≤ blockSize H b → size ≤ blockSize (taken H b size) b) ∧
      (blockSize H b < size → blockSize (taken H b size) b = blockSize H b) ∧
      (∀ w ∈ L, isFree (taken H b size) w = true → w ∈ A ++ T ∨
        blockSize (taken H b size) w + size + headerSize = blockSize H b) ∧
      (size + headerSize + 16 ≤ blockSize H b → ∃ w ∈ L, isFree (taken H b size) w = true ∧
        blockSize (taken H b size) w + size + headerSize = blockSize H b) := by
  unfold Mm.taken
  rcases h.split hstop hsize with ⟨hsmall, heq⟩ | ⟨c, hlt, hblocks, hb, hcfree, hcsize, hother⟩
  · rw [heq]
    obtain ⟨hused, hsame, hrest⟩ := h.mark_attrs false
    refine ⟨A ++ b :: T, h.mark b false, h.apart_mark hA hT, mem_middle.mpr (.inl rfl), hused,
      fun w hw ↦ ⟨mem_middle.mpr (.inr hw), hrest w hw⟩, fun hle ↦ hsame ▸ hle, fun _ ↦ hsame,
      fun w hw hfree ↦ .inl ((mem_middle.mp hw).resolve_left ?_),
      fun hlarge ↦ absurd hsmall hlarge.not_gt⟩
    rintro rfl
    rw [hused] at hfree
    cases hfree
  · obtain ⟨hused, hsame, hrest⟩ := hblocks.mark_attrs false
    have hin : ∀ w ∈ A ++ T, w ∈ A ++ c :: T := fun w hw ↦ mem_middle.mpr (.inr hw)
    refine ⟨A ++ b :: c :: T, hblocks.mark b false, hblocks.apart_mark ?_ ?_,
      mem_middle.mpr (.inl rfl), hused, fun w hw ↦ ⟨mem_middle.mpr (.inr (hin w hw)), ?_⟩,
      fun _ ↦ (hsame.trans hb).ge, fun hle ↦ absurd hle hlt.le.not_gt, fun w hw hfree ↦ ?_,
      fun _ ↦ ⟨c, mem_middle.mpr (.inr (mem_middle.mpr (.inl rfl))), ?_⟩⟩
    · exact hA.congr fun w hw ↦ (hother w (List.mem_append_left T hw)).1
    · refine List.isChain_cons.mpr ⟨fun y hy hyf ↦ ?_, ?_⟩
      · have hyT : y ∈ A ++ T := List.mem_append_right A (List.mem_of_mem_head? hy)
        rw [(hother y hyT).1, hnext y hy] at hyf
        cases hyf.2
      · exact hT.congr fun w hw ↦ (hother w (List.mem_append_right A hw)).1
    · obtain ⟨h₁, h₂⟩ := hrest w (hin w hw)
      exact ⟨h₁.trans (hother w hw).1, h₂.trans (hother w hw).2⟩
    · rcases mem_middle.mp hw with rfl | hw
      · rw [hused] at hfree
        cases hfree
      rcases mem_middle.mp hw with rfl | hw
      · rw [(hrest w (mem_middle.mpr (.inl rfl))).2]
        exact .inr hcsize
      · exact .inl hw
    · obtain ⟨h₁, h₂⟩ := hrest c (mem_middle.mpr (.inl rfl))
      rw [h₁, h₂]
      exact ⟨hcfree, hcsize⟩

/-! ## Merging blocks -/

/-- Block `b` swallows the block behind it, whose header is `C`. -/
def absorb (H : Nat → Option Block) (b : Nat) (C : Block) : Nat → Option Block :=
  relink (updHeader H b fun B ↦
    { B with size := wrap32 (B.size + headerSize + C.size), next := C.next }) C.next b

/-- The first half of `coalesce`. -/
def mergeNext (H : Nat → Option Block) (b : Nat) : Nat → Option Block :=
  match (H b).bind Block.next with
  | none => H
  | some c =>
    match H c with
    | none => H
    | some C => if C.free then absorb H b C else H

/-- The second half of `coalesce`. -/
def mergePrev (H : Nat → Option Block) (b : Nat) : Nat → Option Block :=
  match H b with
  | none => H
  | some B =>
    match B.prev with
    | none => H
    | some a =>
      match H a with
      | none => H
      | some A => if A.free then absorb H a B else H

theorem coalesce_eq (H : Nat → Option Block) (b : Nat) :
    coalesce H b = mergePrev (mergeNext H b) b := rfl

theorem Blocks.absorb (h : Blocks H stop (A ++ b :: c :: T)) (hstop : stop < 2 ^ 32)
    (hc : H c = some C) :
    Blocks (absorb H b C) stop (A ++ b :: T) ∧
      ∀ w ∈ A ++ T, isFree (absorb H b C) w = isFree H w ∧
        blockSize (absorb H b C) w = blockSize H w := by
  obtain ⟨B, hB, -⟩ := h.header b (mem_middle.mpr (.inl rfl))
  have hin : ∀ w ∈ A ++ T, w ∈ A ++ c :: T := fun w hw ↦ mem_middle.mpr (.inr hw)
  have hnext : C.next = T.head? := by
    have happ : A ++ b :: c :: T = (A ++ [b]) ++ c :: T := by simp
    rw [happ] at h
    exact h.next_eq hc
  have hne : C.next ≠ some b := fun hn ↦ by
    rw [hnext] at hn
    exact h.nodup.1 (hin b (List.mem_append_right A (List.mem_of_mem_head? hn)))
  have hnodup : (A ++ T).Nodup := by
    have := h.nodup.2
    rw [List.nodup_middle] at this
    exact (List.nodup_cons.mp this).2
  have hwrap : wrap32 (B.size + headerSize + C.size) = B.size + headerSize + C.size := by
    obtain ⟨m, -, -, -, hcb, -⟩ := Tiles.append.mp h.tiles
    have hbound := (h.bounds (mem_middle.mpr (.inr (mem_middle.mpr (.inl rfl))) :
      c ∈ A ++ b :: c :: T)).2
    rw [blockEnd, (attrs_of_some hB).2.2.1] at hcb
    rw [(attrs_of_some hc).2.2.1] at hbound
    exact wrap32_of_lt (by omega)
  have hb' : Mm.absorb H b C b =
      some { B with size := B.size + headerSize + C.size, next := C.next } := by
    rw [Mm.absorb, relink_of_ne hne, updHeader_self hB, hwrap]
  have hrest : Rest H (Mm.absorb H b C) A b T := by
    refine rest_of_relink hnodup fun w hw ↦ ?_
    have hwb := h.ne_of_mem (hin w hw)
    rw [Mm.absorb, hnext]
    by_cases hwc : T.head? = some w
    · obtain ⟨W, hW, -⟩ := h.header w (mem_middle.mpr (.inr (hin w hw)))
      rw [hwc, relink_some hW, relink_some]
      rw [updHeader_of_ne hwb, hW]
    · rw [relink_of_ne hwc, relink_of_ne hwc, updHeader_of_ne hwb]
  have hheaderT : ∀ w ∈ T, ∃ B, H w = some B ∧ B.magic = heapMagic := fun w hw ↦
    h.header w (mem_middle.mpr (.inr (hin w (List.mem_append_right A hw))))
  refine ⟨h.swallow hB hc hb' hrest, fun w hw ↦ ?_⟩
  obtain ⟨-, h₂, h₃⟩ := hrest.attrs hheaderT hw
  exact ⟨h₃, h₂⟩

/-- A free block swallows the block behind it if that is free, too. -/
theorem Blocks.mergeNext (h : Blocks H stop (A ++ b :: T)) (hstop : stop < 2 ^ 32)
    (hT : Apart H T) :
    ∃ T', Blocks (mergeNext H b) stop (A ++ b :: T') ∧
      (∀ w ∈ A ++ T', isFree (mergeNext H b) w = isFree H w ∧
        blockSize (mergeNext H b) w = blockSize H w) ∧
      (∀ w ∈ T, isFree H w = false → w ∈ T') ∧
      Apart H T' ∧ (∀ c ∈ T'.head?, isFree H c = false) := by
  obtain ⟨B, hB, -⟩ := h.header b (mem_middle.mpr (.inl rfl))
  have hnext := h.next_eq hB
  unfold Mm.mergeNext
  rw [hB, Option.bind_some, hnext]
  cases T with
  | nil =>
    refine ⟨[], h, fun w _ ↦ ⟨rfl, rfl⟩, fun w hw _ ↦ hw, hT, fun c hc ↦ ?_⟩
    cases hc
  | cons c T =>
    obtain ⟨C, hC, -⟩ := h.header c (mem_middle.mpr (.inr (mem_middle.mpr (.inl rfl))))
    have hfree := (attrs_of_some hC).2.2.2
    obtain ⟨hhead, hT'⟩ := List.isChain_cons.mp hT
    simp only [List.head?_cons, hC]
    by_cases hCf : C.free = true
    · rw [if_pos hCf]
      obtain ⟨h₁, h₂⟩ := h.absorb hstop hC
      refine ⟨T, h₁, h₂, fun w hw hused ↦ ?_, hT', fun x hx ↦ ?_⟩
      · rcases List.mem_cons.mp hw with rfl | hw
        · rw [hfree, hCf] at hused
          cases hused
        · exact hw
      · by_contra hxf
        exact hhead x hx ⟨hfree.trans hCf, Bool.eq_true_of_not_eq_false hxf⟩
    · rw [if_neg hCf]
      refine ⟨c :: T, h, fun w _ ↦ ⟨rfl, rfl⟩, fun w hw _ ↦ hw, hT, fun x hx ↦ ?_⟩
      obtain rfl := Option.some.inj hx
      exact hfree.trans (Bool.eq_false_of_not_eq_true hCf)

/-- A free block is swallowed by the block in front of it if that is free, too. -/
theorem Blocks.mergePrev (h : Blocks H stop (A ++ b :: T)) (hstop : stop < 2 ^ 32)
    (hA : Apart H A) (hT : Apart H T) (hnext : ∀ c ∈ T.head?, isFree H c = false) :
    ∃ L, Blocks (mergePrev H b) stop L ∧ Apart (mergePrev H b) L ∧
      ∀ w ∈ A ++ T, isFree H w = false → w ∈ L ∧ isFree (mergePrev H b) w = false ∧
        blockSize (mergePrev H b) w = blockSize H w := by
  obtain ⟨B, hB, -⟩ := h.header b (mem_middle.mpr (.inl rfl))
  have hprev := h.prev_eq hB
  have hkeep : (∀ a ∈ A.getLast?, isFree H a = false) → ∃ L, Blocks H stop L ∧ Apart H L ∧
      ∀ w ∈ A ++ T, isFree H w = false → w ∈ L ∧ isFree H w = false ∧
        blockSize H w = blockSize H w := by
    intro hlast
    refine ⟨_, h, List.isChain_append.mpr ⟨hA, List.isChain_cons.mpr ⟨fun c hc hcf ↦ ?_, hT⟩,
      fun a ha c hc hacf ↦ ?_⟩, fun w hw hused ↦ ⟨mem_middle.mpr (.inr hw), hused, rfl⟩⟩
    · rw [hnext c hc] at hcf
      cases hcf.2
    · rw [hlast a ha] at hacf
      cases hacf.1
  unfold Mm.mergePrev
  rw [hB]
  simp only [hprev]
  cases hA' : A.getLast? with
  | none =>
    refine hkeep fun a ha ↦ ?_
    rw [hA'] at ha
    cases ha
  | some a =>
    obtain ⟨A', rfl⟩ : ∃ A', A = A' ++ [a] := List.getLast?_eq_some_iff.mp hA'
    have happ : A' ++ [a] ++ b :: T = A' ++ a :: b :: T := by simp
    rw [happ] at h
    obtain ⟨W, hW, -⟩ := h.header a (mem_middle.mpr (.inl rfl))
    have hfree := (attrs_of_some hW).2.2.2
    simp only [hW]
    by_cases hWf : W.free = true
    · rw [if_pos hWf]
      obtain ⟨h₁, h₃⟩ := h.absorb hstop hB
      obtain ⟨hA'', -, hlast⟩ := List.isChain_append.mp hA
      refine ⟨_, h₁, List.isChain_append.mpr ⟨?_, List.isChain_cons.mpr ⟨fun c hc hcf ↦ ?_, ?_⟩,
        fun x hx y hy hxy ↦ ?_⟩, fun w hw hused ↦ ?_⟩
      · exact Apart.congr hA'' fun w hw ↦ (h₃ w (List.mem_append_left T hw)).1
      · rw [(h₃ c (List.mem_append_right A' (List.mem_of_mem_head? hc))).1, hnext c hc] at hcf
        cases hcf.2
      · exact hT.congr fun w hw ↦ (h₃ w (List.mem_append_right A' hw)).1
      · have hx' : x ∈ A' ++ T := List.mem_append_left T (List.mem_of_getLast? hx)
        rw [(h₃ x hx').1] at hxy
        exact hlast x hx a rfl ⟨hxy.1, hfree.trans hWf⟩
      · have hw' : w ∈ A' ++ T := by
          rw [List.append_assoc, List.singleton_append] at hw
          rcases mem_middle.mp hw with rfl | hw
          · rw [hfree, hWf] at hused
            cases hused
          · exact hw
        exact ⟨mem_middle.mpr (.inr hw'), (h₃ w hw').1.trans hused, (h₃ w hw').2⟩
    · rw [if_neg hWf]
      refine hkeep fun x hx ↦ ?_
      rw [hA'] at hx
      obtain rfl := Option.some.inj hx
      exact hfree.trans (Bool.eq_false_of_not_eq_true hWf)

/-- The headers after `kfree` of a block. -/
def freed (H : Nat → Option Block) (b : Nat) : Nat → Option Block := coalesce (mark H b true) b

/-- `kfree` of a block in use. -/
theorem Blocks.freed (h : Blocks H stop (A ++ b :: T)) (hstop : stop < 2 ^ 32)
    (hA : Apart H A) (hT : Apart H T) :
    ∃ L, Blocks (freed H b) stop L ∧ Apart (freed H b) L ∧
      ∀ w ∈ A ++ T, isFree H w = false → w ∈ L ∧ isFree (freed H b) w = false ∧
        blockSize (freed H b) w = blockSize H w := by
  obtain ⟨-, -, hsame⟩ := h.mark_attrs true
  have hleft := fun w (hw : w ∈ A) ↦ (hsame w (List.mem_append_left T hw)).1
  have hright := fun w (hw : w ∈ T) ↦ (hsame w (List.mem_append_right A hw)).1
  obtain ⟨T', h₁, hsame₁, hT', hapart, hnext⟩ :=
    (h.mark b true).mergeNext hstop (hT.congr hright)
  have hleft₁ := fun w (hw : w ∈ A) ↦ (hsame₁ w (List.mem_append_left T' hw)).1
  have hright₁ := fun w (hw : w ∈ T') ↦ (hsame₁ w (List.mem_append_right A hw)).1
  obtain ⟨L, h₂, hapart₂, hkept⟩ := h₁.mergePrev hstop ((hA.congr hleft).congr hleft₁)
    (hapart.congr hright₁) fun c hc ↦ (hright₁ c (List.mem_of_mem_head? hc)).trans (hnext c hc)
  unfold Mm.freed
  rw [coalesce_eq]
  refine ⟨L, h₂, hapart₂, fun w hw hused ↦ ?_⟩
  have hused' := (hsame w hw).1.trans hused
  have hw' : w ∈ A ++ T' := by
    rcases List.mem_append.mp hw with hw | hw
    · exact List.mem_append_left T' hw
    · exact List.mem_append_right A (hT' w hw hused')
  obtain ⟨h₃, h₄, h₅⟩ := hkept w hw' ((hsame₁ w hw').1.trans hused')
  exact ⟨h₃, h₄, h₅.trans ((hsame₁ w hw').2.trans (hsame w hw).2)⟩

/-! ## Searching and growing -/

/-- The block is free and has room for `size` bytes. -/
def fits (H : Nat → Option Block) (size b : Nat) : Bool :=
  isFree H b && decide (size ≤ blockSize H b)

theorem fits_iff : fits H size b = true ↔ isFree H b = true ∧ size ≤ blockSize H b := by
  rw [fits, Bool.and_eq_true, decide_eq_true_iff]

/-- The blocks that the loop of `kmalloc` can reach from `b`, in at most `fuel` steps. -/
def blocksFrom (H : Nat → Option Block) : (fuel b : Nat) → List Nat
  | 0, _ => []
  | fuel + 1, b => b :: ((nextOf H b).map (blocksFrom H fuel)).getD []

/-- The blocks of the heap. -/
def Vmm.blocks (v : Vmm) : List Nat := blocksFrom v.headers v.heapEnd heapStart

theorem Blocks.blocksFrom (h : Blocks H stop (A ++ b :: T)) {fuel : Nat} (hfuel : T.length < fuel) :
    blocksFrom H fuel b = b :: T := by
  induction fuel generalizing A b T with
  | zero => exact absurd hfuel (Nat.not_lt_zero _)
  | succ fuel ih =>
    rw [Mm.blocksFrom, h.links.next_eq, Option.or_none]
    cases T with
    | nil => rfl
    | cons c T =>
      have happ : A ++ b :: c :: T = (A ++ [b]) ++ c :: T := by simp
      rw [happ] at h
      change b :: Mm.blocksFrom H fuel c = _
      rw [ih h (Nat.lt_of_succ_lt_succ hfuel)]

/-- The loop finds the first block that fits, or the last block. -/
theorem Blocks.findFit (h : Blocks H stop (A ++ b :: T)) {fuel : Nat} (hfuel : T.length < fuel) :
    (∃ c, (b :: T).find? (fits H size) = some c ∧ findFit H size fuel b = some (c, true)) ∨
    ∃ A' c, A ++ b :: T = A' ++ [c] ∧ (b :: T).find? (fits H size) = none ∧
      findFit H size fuel b = some (c, false) := by
  induction fuel generalizing A b T with
  | zero => exact absurd hfuel (Nat.not_lt_zero _)
  | succ fuel ih =>
    obtain ⟨B, hB, -⟩ := h.header b (mem_middle.mpr (.inl rfl))
    obtain ⟨-, -, hsize, hfree⟩ := attrs_of_some hB
    have hfits : fits H size b = true ↔ B.free = true ∧ B.size ≥ size := by
      rw [fits_iff, hsize, hfree]
    have hnext := h.next_eq hB
    rw [Mm.findFit, hB]
    by_cases hfit : B.free = true ∧ B.size ≥ size
    · refine .inl ⟨b, List.find?_cons_of_pos (hfits.mpr hfit), ?_⟩
      simp only [if_pos hfit]
    · rw [List.find?_cons_of_neg (mt hfits.mp hfit)]
      simp only [if_neg hfit, hnext]
      cases T with
      | nil => exact .inr ⟨A, b, rfl, rfl, rfl⟩
      | cons c T =>
        have happ : A ++ b :: c :: T = (A ++ [b]) ++ c :: T := by simp
        rw [happ] at h ⊢
        exact ih h (Nat.lt_of_succ_lt_succ hfuel)

end

/-- `expand` adds pages until the need is met or the limit is reached. -/
theorem expand_heapEnd {v : Vmm} (hlimit : v.heapLimit = heapMax) (hle : v.heapEnd ≤ heapMax)
    (halign : v.heapEnd % 4096 = 0) (need : Nat) :
    (expand v need).heapEnd = min heapMax (v.heapEnd + (need + 4095) / 4096 * 4096) := by
  obtain ⟨h, hh⟩ : ∃ h, v.heapEnd = h * 4096 := ⟨v.heapEnd / 4096, by omega⟩
  have hmax : heapMax = 0x8000 * 4096 := rfl
  rw [expand_eq hh hlimit (by omega), hh, hmax]
  change (h + min (pagesFor need) (0x8000 - h)) * 4096 = _
  unfold pagesFor
  omega

theorem expand_end {v : Vmm} (hlimit : v.heapLimit = heapMax) (hle : v.heapEnd ≤ heapMax)
    (halign : v.heapEnd % 4096 = 0) (need : Nat) :
    v.heapEnd ≤ (expand v need).heapEnd ∧ (expand v need).heapEnd ≤ heapMax ∧
      (expand v need).heapEnd % 4096 = 0 ∧
      ((expand v need).heapEnd = heapMax ∨ need ≤ (expand v need).heapEnd - v.heapEnd) := by
  have hmax : heapMax % 4096 = 0 := by decide
  rw [expand_heapEnd hlimit hle halign need]
  omega

end FentoOS.Mm
