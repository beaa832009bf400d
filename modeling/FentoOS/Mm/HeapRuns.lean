import FentoOS.Lib.Run
import FentoOS.Mm.Heap

/-!
# Runs of the kernel heap

What holds of the heap after any sequence of `kmalloc` and `kfree`: the block list tiles
the heap, and every pointer that is live has a block in use of its own.  That block is as
large as was asked for, with one exception.  When `expand` meets the limit of the heap
before the need is met, `kmalloc` hands out the new last block although it is too small;
nothing lies behind it, so this harms no other block.
-/

namespace FentoOS.Mm

open FentoOS.Lib Function

/-! ## Runs -/

/-- The heap, and the size that was asked for behind each pointer that `kmalloc` returned and
that has not been freed. -/
structure HeapState where
  vmm : Vmm
  live : Nat → Option Nat

inductive HeapOp
  | kmalloc (size : Nat)
  | kfree (ptr : Nat)

inductive HeapStep (s : HeapState) : HeapOp → HeapState → Prop
  | kmalloc {size ptr : Nat} {v : Vmm} (hpos : 0 < size) (hsize : size + 4128 < 2 ^ 32)
      (h : kmalloc s.vmm size = some (ptr, v)) :
      HeapStep s (.kmalloc size)
        ⟨v, if ptr = 0 then s.live else Function.update s.live ptr (some size)⟩
  | kfree {ptr size : Nat} (h : s.live ptr = some size) :
      HeapStep s (.kfree ptr) ⟨kfree s.vmm ptr, Function.update s.live ptr none⟩

/-- The heap behind `vmm_init`. -/
def HeapStart (s : HeapState) : Prop := (∃ m, s.vmm = vmmInit m) ∧ s.live = fun _ ↦ none

/-- The blocks of the list are the heap.  A block in use is large enough for what was asked
for, except where the heap was at its limit. -/
structure HeapInv (s : HeapState) (L : List Nat) : Prop where
  blocks : Blocks s.vmm.headers s.vmm.heapEnd L
  apart : Apart s.vmm.headers L
  low : heapStart < s.vmm.heapEnd
  high : s.vmm.heapEnd ≤ heapMax
  aligned : s.vmm.heapEnd % 4096 = 0
  limit : s.vmm.heapLimit = heapMax
  live : ∀ {p n}, s.live p = some n → ∃ b ∈ L, p = b + headerSize ∧
    isFree s.vmm.headers b = false ∧
    (n ≤ blockSize s.vmm.headers b ∨ blockEnd s.vmm.headers b = heapMax)

variable {size b p n c : Nat}

section

variable {s s' : HeapState} {L : List Nat}

theorem HeapInv.stop_lt (h : HeapInv s L) : s.vmm.heapEnd < 2 ^ 32 :=
  h.high.trans_lt (by decide)

/-- The first block, and there are fewer blocks than bytes. -/
theorem HeapInv.cons (h : HeapInv s L) : ∃ T, L = heapStart :: T ∧ T.length < s.vmm.heapEnd := by
  cases L with
  | nil => exact absurd h.blocks.tiles h.low.ne
  | cons b T =>
    have hlen := h.blocks.tiles.length_le
    rw [List.length_cons] at hlen
    obtain ⟨rfl, -⟩ := h.blocks.tiles
    exact ⟨T, rfl, by omega⟩

/-- What `kmalloc` looks for is found. -/
theorem HeapInv.fit (h : HeapInv s L) (size : Nat) :
    (∃ c, L.find? (fits s.vmm.headers (roundUp8 size)) = some c ∧
      s.vmm.fit size = some (c, true)) ∨
    ∃ A c, L = A ++ [c] ∧ L.find? (fits s.vmm.headers (roundUp8 size)) = none ∧
      s.vmm.fit size = some (c, false) := by
  obtain ⟨T, rfl, hlen⟩ := h.cons
  exact Blocks.findFit (A := []) h.blocks hlen

theorem HeapInv.blocks_eq (h : HeapInv s L) : s.vmm.blocks = L := by
  obtain ⟨T, rfl, hlen⟩ := h.cons
  exact Blocks.blocksFrom (A := []) h.blocks hlen

theorem heapInv_vmmInit (m : Memory) : HeapInv ⟨vmmInit m, fun _ ↦ none⟩ [heapStart] := by
  have hstart : heapStart ≤ heapMax ∧ heapStart % 4096 = 0 := by decide
  obtain ⟨-, hhigh, halign, hneed⟩ := expand_end (v := Vmm.mk m (fun _ ↦ none) heapStart heapMax)
    rfl hstart.1 hstart.2 0x400000
  have hend : (vmmInit m).heapEnd =
      (expand (Vmm.mk m (fun _ ↦ none) heapStart heapMax) 0x400000).heapEnd := rfl
  have hheader : (vmmInit m).headers heapStart = some (freshBlock
      (sub32 (sub32 (vmmInit m).heapEnd heapStart) headerSize) none none) := by
    simp only [vmmInit, update_self]
    rfl
  change _ ∨ 0x400000 ≤ _ - heapStart at hneed
  rw [← hend] at hhigh halign hneed
  have hlarge : heapStart + 0x400000 ≤ heapMax := by decide
  have hmax : heapMax < 2 ^ 32 := by decide
  have hpos : 0 < headerSize ∧ headerSize ≤ 0x400000 := by decide
  have hsub : sub32 (sub32 (vmmInit m).heapEnd heapStart) headerSize =
      (vmmInit m).heapEnd - heapStart - headerSize := by
    unfold sub32 wrap32
    omega
  rw [hsub] at hheader
  obtain ⟨hnext, hprev, hsize, -⟩ := attrs_of_some hheader
  change _ = (vmmInit m).heapEnd - heapStart - headerSize at hsize
  refine ⟨⟨?_, ?_, ?_⟩, List.isChain_singleton _, by change _ < (vmmInit m).heapEnd; omega, hhigh,
    halign, rfl, ?_⟩
  · intro b hb
    obtain rfl := List.mem_singleton.mp hb
    exact ⟨_, hheader, rfl⟩
  · exact ⟨hprev, hnext, trivial⟩
  · refine ⟨rfl, ?_, ?_⟩ <;> rw [blockEnd, hsize]
    · omega
    · change heapStart + headerSize + ((vmmInit m).heapEnd - heapStart - headerSize) =
        (vmmInit m).heapEnd
      omega
  · intro p n hp
    cases hp

theorem roundUp8_bounds (h : size + 4128 < 2 ^ 32) :
    size ≤ roundUp8 size ∧ roundUp8 size ≤ size + 7 := by
  rw [roundUp8, wrap32_of_lt (by omega)]
  omega

theorem growBytes_pos (h : size + 4128 < 2 ^ 32) : 0 < growBytes size := by
  have hhi := (roundUp8_bounds h).2
  have hhs : headerSize = 20 := rfl
  rw [growBytes, wrap32_of_lt (by omega)]
  omega

/-- Blocks in use stay, and one more is taken: what is live has its block. -/
theorem HeapInv.live_take (h : HeapInv s L) {H : Nat → Option Block} {L' : List Nat} (hb : b ∈ L')
    (hused : isFree H b = false) (hsize : size ≤ blockSize H b ∨ blockEnd H b = heapMax)
    (hkept : ∀ w ∈ L, isFree s.vmm.headers w = false →
      w ∈ L' ∧ isFree H w = false ∧ blockSize H w = blockSize s.vmm.headers w)
    (hp : update s.live (b + headerSize) (some size) p = some n) :
    ∃ b ∈ L', p = b + headerSize ∧ isFree H b = false ∧
      (n ≤ blockSize H b ∨ blockEnd H b = heapMax) := by
  by_cases hpb : p = b + headerSize
  · rw [hpb, update_self] at hp
    obtain rfl := Option.some.inj hp
    exact ⟨b, hb, hpb, hused, hsize⟩
  · rw [update_of_ne hpb] at hp
    obtain ⟨c, hc, rfl, hcused, hcsize⟩ := h.live hp
    obtain ⟨h₁, h₂, h₃⟩ := hkept c hc hcused
    refine ⟨c, h₁, rfl, h₂, ?_⟩
    rwa [blockEnd, h₃]

/-- There is a free block of at least `n` bytes. -/
def hasFree (H : Nat → Option Block) (L : List Nat) (n : Nat) : Bool := L.any (fits H n)

/-- There is one even when the first free block with room for `size` bytes has been used for
them. -/
def spares (H : Nat → Option Block) (L : List Nat) (size n : Nat) : Bool :=
  L.any fun b ↦ fits H ((if L.find? (fits H size) = some b then size + headerSize else 0) + n) b

theorem hasFree_iff {H : Nat → Option Block} : hasFree H L n = true ↔
    ∃ b ∈ L, isFree H b = true ∧ n ≤ blockSize H b := by
  simp only [hasFree, List.any_eq_true, fits_iff]

theorem hasFree_of_find {H : Nat → Option Block} (h : L.find? (fits H n) = some c) :
    hasFree H L n = true :=
  List.any_eq_true.mpr ⟨c, List.mem_of_find?_eq_some h, List.find?_some h⟩

theorem hasFree_of_find_none {H : Nat → Option Block} (h : L.find? (fits H n) = none) :
    hasFree H L n = false := by
  rw [List.find?_eq_none] at h
  exact List.any_eq_false.mpr h

/-- `kmalloc` takes a block that it has found.  What is left free are the other blocks, and what
the block has besides. -/
theorem HeapInv.take_found (h : HeapInv s L) (hsize : size + 4128 < 2 ^ 32)
    (hfind : L.find? (fits s.vmm.headers (roundUp8 size)) = some c) :
    ∃ L', HeapInv ⟨{ s.vmm with headers := taken s.vmm.headers c (roundUp8 size) },
      update s.live (c + headerSize) (some size)⟩ L' ∧ c ∈ L' ∧
      size ≤ blockSize (taken s.vmm.headers c (roundUp8 size)) c ∧
      ∀ n, 16 ≤ n → (hasFree (taken s.vmm.headers c (roundUp8 size)) L' n = true ↔
        spares s.vmm.headers L (roundUp8 size) n = true) := by
  obtain ⟨hfree, hfit⟩ := fits_iff.mp (List.find?_some hfind)
  obtain ⟨A, T, hL⟩ := List.append_of_mem (List.mem_of_find?_eq_some hfind)
  simp only [spares, hfind, List.any_eq_true, fits_iff, hasFree_iff, Option.some.injEq]
  obtain ⟨hlo, hhi⟩ := roundUp8_bounds hsize
  have hblocks := h.blocks
  have hapart := h.apart
  rw [hL] at hblocks hapart
  obtain ⟨hA, hT, -⟩ := List.isChain_append.mp hapart
  obtain ⟨hhead, hT⟩ := List.isChain_cons.mp hT
  have hnext : ∀ x ∈ T.head?, isFree s.vmm.headers x = false := by
    intro x hx
    by_contra hxf
    exact hhead x hx ⟨hfree, Bool.eq_true_of_not_eq_false hxf⟩
  have hhs : headerSize = 20 := rfl
  obtain ⟨L', h₁, h₂, hmem, hused, hkept, hroom, -, hleft, hrest⟩ :=
    hblocks.taken h.stop_lt (by omega : roundUp8 size + headerSize + 16 < 2 ^ 32) hA hT hnext
  refine ⟨L', ⟨h₁, h₂, h.low, h.high, h.aligned, h.limit, fun hp ↦ ?_⟩, hmem,
    hlo.trans (hroom hfit), fun n hn ↦ ⟨?_, ?_⟩⟩
  · refine h.live_take hmem hused (.inl (hlo.trans (hroom hfit))) (fun w hw hwused ↦ ?_) hp
    rw [hL] at hw
    rcases mem_middle.mp hw with rfl | hw
    · rw [hfree] at hwused
      cases hwused
    · obtain ⟨h₃, h₄, h₅⟩ := hkept w hw
      exact ⟨h₃, h₄.trans hwused, h₅⟩
  · rintro ⟨w, hw, hwf, hwn⟩
    rcases hleft w hw hwf with hin | hsum
    · obtain ⟨-, h₄, h₅⟩ := hkept w hin
      refine ⟨w, hL ▸ mem_middle.mpr (.inr hin), h₄.symm.trans hwf, ?_⟩
      rw [if_neg (hblocks.ne_of_mem hin).symm]
      omega
    · refine ⟨c, hL ▸ mem_middle.mpr (.inl rfl), hfree, ?_⟩
      rw [if_pos rfl]
      omega
  · rintro ⟨w, hw, hwf, hwn⟩
    rw [hL] at hw
    rcases mem_middle.mp hw with rfl | hin
    · rw [if_pos rfl] at hwn
      obtain ⟨x, hx, hxf, hsum⟩ := hrest (by omega)
      exact ⟨x, hx, hxf, by omega⟩
    · obtain ⟨h₃, h₄, h₅⟩ := hkept w hin
      rw [if_neg (hblocks.ne_of_mem hin).symm] at hwn
      exact ⟨w, h₃, h₄.trans hwf, by omega⟩

/-- The headers after `kmalloc` has put a block at the end of the heap. -/
def extended (H : Nat → Option Block) (stop b size : Nat) : Nat → Option Block :=
  updHeader (Function.update H stop (some (freshBlock size none (some b)))) b
    fun B ↦ { B with next := some stop }

/-- The new block is the last one, and nothing else changes but the link to it. -/
theorem Blocks.extended {H : Nat → Option Block} {stop : Nat} {A : List Nat}
    (h : Blocks H stop (A ++ [c])) (n : Nat) :
    Blocks (extended H stop c n) (stop + headerSize + n) ((A ++ [c]) ++ [stop]) ∧
      blockSize (extended H stop c n) stop = n ∧
      ∀ w ∈ A ++ [c], isFree (extended H stop c n) w = isFree H w ∧
        blockSize (extended H stop c n) w = blockSize H w := by
  have hc : c ∈ A ++ [c] := mem_middle.mpr (.inl rfl)
  obtain ⟨C, hC, -⟩ := h.header c hc
  have hlast : ∀ w ∈ A ++ [c], w < stop := fun w hw ↦
    (h.tiles.bounds hw).2.1.trans_le (h.tiles.bounds hw).2.2
  have hc' : Mm.extended H stop c n c = some { C with next := some stop } := by
    refine updHeader_self ?_
    rw [update_of_ne (hlast c hc).ne, hC]
  have hnew : Mm.extended H stop c n stop = some (freshBlock n none (some c)) := by
    rw [Mm.extended, updHeader_of_ne (hlast c hc).ne', update_self]
  have hother : ∀ w ∈ A, Mm.extended H stop c n w = H w := by
    intro w hw
    have hmem : w ∈ A ++ [] := List.mem_append_left [] hw
    rw [Mm.extended, updHeader_of_ne (h.ne_of_mem hmem),
      update_of_ne (hlast w (List.mem_append_left [c] hw)).ne]
  refine ⟨?_, (attrs_of_some hnew).2.2.1, fun w hw ↦ ?_⟩
  · rw [List.append_assoc]
    exact h.snoc hC hc' hnew hother
  · rcases List.mem_append.mp hw with hw | hw
    · obtain ⟨-, -, h₁, h₂⟩ := attrs_congr (hother w hw)
      exact ⟨h₂, h₁⟩
    · obtain rfl := List.mem_singleton.mp hw
      obtain ⟨-, -, h₁, h₂⟩ := attrs_of_some hC
      obtain ⟨-, -, h₁', h₂'⟩ := attrs_of_some hc'
      exact ⟨h₂'.trans h₂.symm, h₁'.trans h₁.symm⟩

/-- `kmalloc` makes the heap grow and takes the new block.  It is large enough unless the limit
of the heap is in the way. -/
theorem HeapInv.take_new (h : HeapInv s L) {stop : Nat} {m : Memory} {A : List Nat}
    (hsize : size + 4128 < 2 ^ 32) (hL : L = A ++ [c]) (hlt : s.vmm.heapEnd < stop)
    (hhigh : stop ≤ heapMax) (halign : stop % 4096 = 0)
    (hneed : stop = heapMax ∨ growBytes size ≤ stop - s.vmm.heapEnd) :
    ∃ L', HeapInv ⟨Vmm.mk m (taken (extended s.vmm.headers s.vmm.heapEnd c
        (stop - s.vmm.heapEnd - headerSize)) s.vmm.heapEnd (roundUp8 size)) stop s.vmm.heapLimit,
      update s.live (s.vmm.heapEnd + headerSize) (some size)⟩ L' ∧ s.vmm.heapEnd ∈ L' ∧
      (size ≤ blockSize (taken (extended s.vmm.headers s.vmm.heapEnd c
        (stop - s.vmm.heapEnd - headerSize)) s.vmm.heapEnd (roundUp8 size)) s.vmm.heapEnd ↔
        s.vmm.heapEnd + headerSize + size ≤ heapMax) ∧
      ∀ n, hasFree (taken (extended s.vmm.headers s.vmm.heapEnd c
          (stop - s.vmm.heapEnd - headerSize)) s.vmm.heapEnd (roundUp8 size)) L' n = true →
        hasFree s.vmm.headers L n = true ∨
          n + roundUp8 size + headerSize + headerSize ≤ stop - s.vmm.heapEnd := by
  obtain ⟨hlo, hhi⟩ := roundUp8_bounds hsize
  have hhs : headerSize = 20 := rfl
  have hmax : heapMax < 2 ^ 32 := by decide
  have hold := h.aligned
  have hgrow : growBytes size = roundUp8 size + headerSize + 4096 := wrap32_of_lt (by omega)
  have hblocks := h.blocks
  have hapart := h.apart
  rw [hL] at hblocks hapart
  set n := stop - s.vmm.heapEnd - headerSize with hn
  obtain ⟨hgrown, hnsize, hattrs⟩ := hblocks.extended n
  set H := extended s.vmm.headers s.vmm.heapEnd c n
  rw [show s.vmm.heapEnd + headerSize + n = stop by omega] at hgrown
  obtain ⟨L', h₁, h₂, hmem, hused, hkept, hroom, hshort, hleft, -⟩ := hgrown.taken
    (hhigh.trans_lt hmax) (by omega : roundUp8 size + headerSize + 16 < 2 ^ 32)
    (Apart.congr hapart fun w hw ↦ (hattrs w hw).1) (List.isChain_nil)
    fun x hx ↦ by cases hx
  have hlow := h.low
  have hshort' : ¬roundUp8 size ≤ n → blockSize (taken H s.vmm.heapEnd (roundUp8 size))
      s.vmm.heapEnd = n := fun hfit ↦ (hshort (by omega)).trans hnsize
  refine ⟨L', ⟨h₁, h₂, hlow.trans hlt, hhigh, halign, h.limit, fun hp ↦ ?_⟩, hmem, ?_, ?_⟩
  · refine h.live_take hmem hused ?_ (fun w hw hwused ↦ ?_) hp
    · by_cases hfit : roundUp8 size ≤ n
      · exact .inl (hlo.trans (hroom (hnsize.symm ▸ hfit)))
      · -- the limit cut the new block short
        refine .inr ?_
        rw [blockEnd, hshort' hfit]
        omega
    · rw [hL] at hw
      obtain ⟨h₃, h₄, h₅⟩ := hkept w (List.mem_append_left [] hw)
      exact ⟨h₃, h₄.trans ((hattrs w hw).1.trans hwused), h₅.trans (hattrs w hw).2⟩
  · by_cases hfit : roundUp8 size ≤ n
    · have hfits := hlo.trans (hroom (hnsize.symm ▸ hfit))
      exact iff_of_true hfits (by omega)
    · rw [hshort' hfit]
      omega
  · intro m
    simp only [hasFree_iff]
    rintro ⟨w, hw, hwf, hwm⟩
    rcases hleft w hw hwf with hin | hsum
    · obtain ⟨-, h₄, h₅⟩ := hkept w hin
      rw [List.append_nil] at hin
      obtain ⟨h₆, h₇⟩ := hattrs w hin
      exact .inl ⟨w, hL ▸ hin, h₆.symm.trans (h₄.symm.trans hwf), by omega⟩
    · exact .inr (by omega)

theorem ptr_ne_zero (b : Nat) : b + headerSize ≠ 0 := Nat.succ_ne_zero _

/-- A pointer that `kmalloc` returned is `NULL`, or there is a block of the heap behind it with
room for `size` bytes. -/
def Vmm.Gives (v : Vmm) (ptr size : Nat) : Prop :=
  ptr = 0 ∨ ∃ b B, ptr = b + headerSize ∧ v.headers b = some B ∧ size ≤ B.size ∧
    heapStart ≤ b ∧ b + headerSize + B.size ≤ v.heapEnd

/-- Of a block of the heap only the size is in question. -/
theorem HeapInv.gives_iff (h : HeapInv s L) (hb : b ∈ L) (size : Nat) :
    s.vmm.Gives (b + headerSize) size ↔ size ≤ blockSize s.vmm.headers b := by
  obtain ⟨B, hB, -⟩ := h.blocks.header b hb
  obtain ⟨hlo, hhi⟩ := h.blocks.bounds hb
  rw [(attrs_of_some hB).2.2.1] at hhi ⊢
  constructor
  · rintro (hzero | ⟨c, C, hc, hC, hsize, -⟩)
    · exact absurd hzero (ptr_ne_zero b)
    · obtain rfl : b = c := Nat.add_right_cancel hc
      obtain rfl := Option.some.inj (hB.symm.trans hC)
      exact hsize
  · intro hsize
    exact .inr ⟨b, B, rfl, hB, hsize, hlo, hhi⟩

/-- There is a free block for the request, or the heap cannot grow at all, or it can grow by as
much as is needed. -/
def Roomy (s : HeapState) (L : List Nat) (size : Nat) : Prop :=
  hasFree s.vmm.headers L (roundUp8 size) = true ∨
    s.vmm.heapEnd = heapMax ∨ s.vmm.heapEnd + headerSize + size ≤ heapMax

/-- A block that is free is not behind a live pointer. -/
theorem HeapInv.live_of_free (h : HeapInv s L) (hfree : isFree s.vmm.headers b = true) :
    s.live (b + headerSize) = none := by
  rw [← Option.not_isSome_iff_eq_none, Option.isSome_iff_exists]
  rintro ⟨n, hn⟩
  obtain ⟨c, -, hbc, hused, -⟩ := h.live hn
  obtain rfl : b = c := by omega
  rw [hfree] at hused
  cases hused

/-- Nor is there a live pointer to the block that starts where the heap ends. -/
theorem HeapInv.live_heapEnd (h : HeapInv s L) : s.live (s.vmm.heapEnd + headerSize) = none := by
  rw [← Option.not_isSome_iff_eq_none, Option.isSome_iff_exists]
  rintro ⟨n, hn⟩
  obtain ⟨c, hc, hbc, -, -⟩ := h.live hn
  have hbound := (h.blocks.bounds hc).2
  have hpos : 0 < headerSize := by decide
  omega

/-- What `kmalloc` returns: the block list behind it, whether the block is large enough, that
memory is as before or the pointer was not live, when it is `NULL`, and which free blocks are left
for the next call. -/
structure Answer (s : HeapState) (L : List Nat) (size ptr : Nat) (v : Vmm) (L' : List Nat) :
    Prop where
  inv : HeapInv ⟨v, if ptr = 0 then s.live else update s.live ptr (some size)⟩ L'
  gives : v.Gives ptr size ↔ Roomy s L size
  fresh : if ptr = 0 then v.m = s.vmm.m else s.live ptr = none
  null : ptr = 0 ↔ hasFree s.vmm.headers L (roundUp8 size) = false ∧ s.vmm.heapEnd = heapMax
  found : hasFree s.vmm.headers L (roundUp8 size) = true → ∀ n, 16 ≤ n →
    (hasFree v.headers L' n = true ↔ spares s.vmm.headers L (roundUp8 size) n = true)
  grown : hasFree s.vmm.headers L (roundUp8 size) = false → ∀ n,
    hasFree v.headers L' n = true → hasFree s.vmm.headers L n = true ∨
      n + roundUp8 size + headerSize + headerSize ≤ v.heapEnd - s.vmm.heapEnd

theorem HeapInv.kmalloc (h : HeapInv s L) (hpos : 0 < size) (hsize : size + 4128 < 2 ^ 32) :
    ∃ ptr v L', kmalloc s.vmm size = some (ptr, v) ∧ Answer s L size ptr v L' := by
  have hmax : heapMax + headerSize < 2 ^ 32 := by decide
  have hhigh := h.high
  have hptr : ∀ {b}, b ≤ s.vmm.heapEnd → wrap32 (b + headerSize) = b + headerSize := by
    intro b hb
    exact wrap32_of_lt (by omega)
  rw [Mm.kmalloc, if_neg hpos.ne']
  rcases h.fit size with ⟨c, hfind, hfound⟩ | ⟨A, c, hL, hfind, hfound⟩
  · obtain ⟨L', h', hmem, hroom, hleft⟩ := h.take_found hsize hfind
    have hhas := hasFree_of_find hfind
    have hc : c ≤ s.vmm.heapEnd := by
      have := (h.blocks.bounds (List.mem_of_find?_eq_some hfind)).2
      omega
    rw [hfound]
    refine ⟨_, _, L', rfl, ?_⟩
    rw [hptr hc]
    refine ⟨?_, iff_of_true ((h'.gives_iff hmem size).mpr hroom) (.inl hhas), ?_,
      iff_of_false (ptr_ne_zero c) fun hnone ↦ ?_, fun _ ↦ hleft, fun hnone ↦ ?_⟩
    · rwa [if_neg (ptr_ne_zero c)]
    · rw [if_neg (ptr_ne_zero c)]
      exact h.live_of_free (fits_iff.mp (List.find?_some hfind)).1
    · exact Bool.false_ne_true (hnone.1.symm.trans hhas)
    · exact absurd (hnone.symm.trans hhas) Bool.false_ne_true
  · have hhas := hasFree_of_find_none hfind
    have hroomy : Roomy s L size ↔ s.vmm.heapEnd = heapMax ∨
        s.vmm.heapEnd + headerSize + size ≤ heapMax :=
      or_iff_right (ne_true_of_eq_false hhas)
    obtain ⟨hle, hhigh', halign, hneed⟩ := expand_end h.limit h.high h.aligned (growBytes size)
    rw [hfound]
    dsimp only
    by_cases hsame : (expand s.vmm (growBytes size)).heapEnd = s.vmm.heapEnd
    · rw [if_pos hsame]
      have hgrow : 0 < growBytes size := growBytes_pos hsize
      have hend : s.vmm.heapEnd = heapMax := by omega
      refine ⟨0, _, L, rfl, ?_, iff_of_true (.inl rfl) (hroomy.mpr (.inl hend)), ?_,
        iff_of_true rfl ⟨hhas, hend⟩, fun hfound ↦ ?_, fun _ _ ↦ .inl⟩
      · rw [if_pos rfl]
        refine ⟨?_, h.apart, hsame.symm ▸ h.low, hhigh', halign, h.limit, h.live⟩
        change Blocks s.vmm.headers (expand s.vmm (growBytes size)).heapEnd L
        rw [hsame]
        exact h.blocks
      · rw [if_pos rfl, expand_eq (e := 0x8000) hend h.limit le_rfl, Nat.sub_self, Nat.min_zero]
        rfl
      · exact absurd (hhas.symm.trans hfound) Bool.false_ne_true
    · rw [if_neg hsame]
      have hsub : sub32 (sub32 (expand s.vmm (growBytes size)).heapEnd s.vmm.heapEnd) headerSize =
          (expand s.vmm (growBytes size)).heapEnd - s.vmm.heapEnd - headerSize := by
        have hold := h.aligned
        have hhs : headerSize = 20 := rfl
        unfold sub32 wrap32
        omega
      obtain ⟨L', h', hmem, hroom, hleft⟩ := h.take_new (m := (expand s.vmm (growBytes size)).m)
        hsize hL (lt_of_le_of_ne hle (Ne.symm hsame)) hhigh' halign hneed
      refine ⟨_, _, L', rfl, ?_⟩
      rw [hptr le_rfl, hsub]
      have hlimit : s.vmm.heapEnd ≠ heapMax := fun hmax ↦ hsame (by omega)
      refine ⟨?_, ((h'.gives_iff hmem size).trans hroom).trans ?_, ?_,
        iff_of_false (ptr_ne_zero _) fun hnone ↦ hlimit hnone.2, fun hfound ↦ ?_,
        fun _ ↦ hleft⟩
      · rwa [if_neg (ptr_ne_zero _)]
      · exact (hroomy.trans (or_iff_right hlimit)).symm
      · rw [if_neg (ptr_ne_zero _)]
        exact h.live_heapEnd
      · exact absurd (hhas.symm.trans hfound) Bool.false_ne_true

theorem HeapInv.kfree (h : HeapInv s L) (hp : s.live p = some n) :
    ∃ L', HeapInv ⟨kfree s.vmm p, update s.live p none⟩ L' := by
  obtain ⟨b, hb, rfl, hused, -⟩ := h.live hp
  obtain ⟨B, hB, hmagic⟩ := h.blocks.header b hb
  have hbound := (h.blocks.bounds hb).2
  have hmax : heapMax < 2 ^ 32 := by decide
  have hhigh := h.high
  have hsub : sub32 (b + headerSize) headerSize = b := by
    unfold sub32 wrap32
    omega
  have heq : Mm.kfree s.vmm (b + headerSize) =
      { s.vmm with headers := freed s.vmm.headers b } := by
    rw [Mm.kfree, if_neg (ptr_ne_zero b)]
    simp only [hsub, hB, hmagic, ne_eq, not_true_eq_false, if_false]
    rfl
  obtain ⟨A, T, rfl⟩ := List.append_of_mem hb
  obtain ⟨hA, hT⟩ := (apart_middle hused).mp h.apart
  obtain ⟨L', h₁, h₂, hkept⟩ := h.blocks.freed h.stop_lt hA hT
  rw [heq]
  refine ⟨L', h₁, h₂, h.low, h.high, h.aligned, h.limit, fun {q m} hq ↦ ?_⟩
  by_cases hqp : q = b + headerSize
  · rw [hqp] at hq
    change update s.live (b + headerSize) none (b + headerSize) = some m at hq
    rw [update_self] at hq
    cases hq
  · change update s.live (b + headerSize) none q = some m at hq
    rw [update_of_ne hqp] at hq
    obtain ⟨c, hc, rfl, hcused, hcsize⟩ := h.live hq
    have hc' : c ∈ A ++ T := by
      rcases mem_middle.mp hc with rfl | hc
      · exact absurd rfl hqp
      · exact hc
    obtain ⟨h₃, h₄, h₅⟩ := hkept c hc' hcused
    refine ⟨c, h₃, rfl, h₄, ?_⟩
    change m ≤ blockSize (freed s.vmm.headers b) c ∨ blockEnd (freed s.vmm.headers b) c = heapMax
    rwa [blockEnd, h₅]

theorem HeapInv.step (h : HeapInv s L) {a : HeapOp} (hs : HeapStep s a s') :
    ∃ L', HeapInv s' L' := by
  cases hs with
  | kmalloc hpos hsize hk =>
    obtain ⟨ptr, v, L', heq, h'⟩ := h.kmalloc hpos hsize
    obtain ⟨rfl, rfl⟩ := Prod.mk.inj (Option.some.inj (heq.symm.trans hk))
    exact ⟨L', h'.inv⟩
  | kfree hp => exact h.kfree hp

/-! ## The payloads -/

/-- The payload behind a live pointer lies in front of or behind every other block. -/
theorem HeapInv.payload (h : HeapInv s L) (hp : s.live p = some n) (hb : b ∈ L)
    (hpb : p = b + headerSize) (hc : c ∈ L) (hne : c ≠ b) :
    p + n ≤ c ∨ blockEnd s.vmm.headers c ≤ b := by
  obtain ⟨b', hb', hpb', -, hsize⟩ := h.live hp
  obtain rfl : b = b' := by omega
  have hcb := h.blocks.bounds hc
  have hhigh := h.high
  have hpos : 0 < headerSize := by decide
  rcases h.blocks.tiles.disjoint hc hb hne with hle | hle
  · exact .inr hle
  · refine .inl ?_
    rw [blockEnd] at hle hsize
    omega

/-- The blocks of `L` are the heap, and the live payloads lie apart. -/
structure HeapTiled (s : HeapState) (L : List Nat) : Prop where
  head : L.head? = some heapStart
  blocks : Blocks s.vmm.headers s.vmm.heapEnd L
  apart : Apart s.vmm.headers L
  disjoint : ∀ p n q m, s.live p = some n → s.live q = some m → p ≠ q → p + n ≤ q ∨ q + m ≤ p
  headers : ∀ p n, s.live p = some n → ∀ b ∈ L, p + n ≤ b ∨ b + headerSize ≤ p

theorem HeapInv.tiled (h : HeapInv s L) : HeapTiled s L where
  head := by
    obtain ⟨T, rfl, -⟩ := h.cons
    rfl
  blocks := h.blocks
  apart := h.apart
  disjoint := by
    intro p n q m hp hq hne
    obtain ⟨b, hb, hpb, -, -⟩ := h.live hp
    obtain ⟨c, hc, hqc, -, -⟩ := h.live hq
    have hcb : c ≠ b := fun hcb ↦ hne (by omega)
    rcases h.payload hp hb hpb hc hcb with h₁ | h₁
    · exact .inl (by omega)
    · rcases h.payload hq hc hqc hb hcb.symm with h₂ | h₂
      · exact .inr (by omega)
      · have hend : ∀ b, b ≤ blockEnd s.vmm.headers b := fun b ↦ by rw [blockEnd]; omega
        have hb' := hend b
        have hc' := hend c
        omega
  headers := by
    intro p n hp b hb
    obtain ⟨c, hc, hpc, -, -⟩ := h.live hp
    by_cases hbc : b = c
    · exact .inr (by omega)
    · rcases h.payload hp hc hpc hb hbc with h₁ | h₁
      · exact .inl h₁
      · rw [blockEnd] at h₁
        exact .inr (by omega)

end

theorem heapInv_reach {s : HeapState} (h : Reach HeapStart HeapStep s) : ∃ L, HeapInv s L := by
  refine h.invariant (P := fun s ↦ ∃ L, HeapInv s L) ?_ ?_
  · rintro ⟨v, live⟩ ⟨⟨m, rfl⟩, rfl⟩
    exact ⟨_, heapInv_vmmInit m⟩
  · rintro s a s' ⟨L, hL⟩ hs
    exact hL.step hs

/-- After `vmm_init` and any sequence of `kmalloc` and `kfree` of live pointers the block list
tiles the heap without free neighbours, the live payloads lie apart, and the next `kmalloc`
returns. -/
theorem heap_invariant {s : HeapState} (h : Reach HeapStart HeapStep s) :
    (∃ L, HeapTiled s L) ∧
      ∀ size, 0 < size → size + 4128 < 2 ^ 32 → (kmalloc s.vmm size).isSome := by
  obtain ⟨L, hL⟩ := heapInv_reach h
  refine ⟨⟨L, hL.tiled⟩, fun size hpos hsize ↦ ?_⟩
  obtain ⟨ptr, v, L', heq, -⟩ := hL.kmalloc hpos hsize
  rw [heq]
  rfl

theorem heapStart_sample : HeapStart ⟨vmmInit sampleMemory, fun _ ↦ none⟩ :=
  ⟨⟨sampleMemory, rfl⟩, rfl⟩

theorem heap_invariant_taken :
    ∃ v, kmalloc (vmmInit sampleMemory) 8 = some (0x02000014, v) ∧
      (∃ L, HeapTiled ⟨v, Function.update (fun _ ↦ none) 0x02000014 (some 8)⟩ L) ∧
      ∀ size, 0 < size → size + 4128 < 2 ^ 32 → (kmalloc v size).isSome := by
  have hptr : (kmalloc (vmmInit sampleMemory) 8).map Prod.fst = some 0x02000014 := by
    decide +kernel
  obtain ⟨⟨ptr, v⟩, hk, rfl⟩ := Option.map_eq_some_iff.mp hptr
  have hstep := @HeapStep.kmalloc ⟨vmmInit sampleMemory, fun _ ↦ none⟩ 8 _ _ (by decide)
    (by decide) hk
  exact ⟨v, hk, heap_invariant ((Reach.init heapStart_sample).step hstep)⟩

end FentoOS.Mm
