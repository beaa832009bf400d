import FentoOS.Fs.Paths

/-!
# Reading a file

What `minixfs_read` of `kernel/fs/minixfs.c` does on any disk: its loop stores the bytes of
the file one block after the other, and for each byte of the request there is one position
in the file, modulo `2 ^ 32`.  Which bytes these are is the subject of later modules; here
it is how many of them there are, and where they go.

The request is cut at the end of the file by a comparison of `offset + count`, a sum of
32-bit words.
-/

namespace FentoOS.Fs

open FentoOS.Lib

/-- The byte of a file at a position, as `minixfs_read` finds it. -/
def fileByte (g : Superblock) (d : Disk) (i : Inode) (ino pos : Nat) : UInt8 :=
  let zone := (mapBlock g d i (pos / 1024) false ino).1
  if zone = 0 then 0 else readInto d zone (pos % 1024)

variable {k : Nat} {fs : Minixfs}

section

variable {g : Superblock} {d : Disk} {i : Inode} {ino count offset : Nat}

/-- A chunk makes progress, and its positions lie in one block. -/
theorem chunkAt_inside (hk : k < count) : 0 < chunkAt offset count k ∧
    ∀ j, k ≤ j → j < k + chunkAt offset count k → j < count ∧
      wrap32 (offset + j) / 1024 = wrap32 (offset + k) / 1024 ∧
      wrap32 (offset + j) % 1024 = wrap32 (offset + k) % 1024 + (j - k) := by
  unfold chunkAt wrap32
  have hmod : (offset + k) % 2 ^ 32 % 1024 < 1024 := Nat.mod_lt _ (by decide)
  refine ⟨by omega, fun j hj hlt ↦ ?_⟩
  have hsame : (offset + j) % 2 ^ 32 = (offset + k) % 2 ^ 32 + (j - k) := by omega
  omega

/-- One iteration of the loop of `minixfs_read`. -/
theorem readChunk_apply (hk : k < count) (out : Bytes) (j : Nat) :
    (if (mapBlock g d i (wrap32 (offset + k) / 1024) false ino).1 = 0 then
        out.memset k 0 (chunkAt offset count k)
      else
        out.memcpy k (readInto d (mapBlock g d i (wrap32 (offset + k) / 1024) false ino).1)
          (wrap32 (offset + k) % 1024) (chunkAt offset count k)) j =
      if k ≤ j ∧ j < k + chunkAt offset count k then fileByte g d i ino (wrap32 (offset + j))
      else out j := by
  by_cases hj : k ≤ j ∧ j < k + chunkAt offset count k
  · obtain ⟨-, hdiv, hmod⟩ := (chunkAt_inside hk).2 j hj.1 hj.2
    rw [if_pos hj, fileByte, hdiv, hmod]
    split
    · exact Bytes.memset_of_mem _ _ hj.1 hj.2
    · exact Bytes.memcpy_of_mem _ _ hj.1 hj.2
  · rw [if_neg hj]
    split
    · exact Bytes.memset_of_notMem _ _ (by omega)
    · exact Bytes.memcpy_of_notMem _ _ (by omega)

/-- The loop of `minixfs_read` stores a byte for each position of the request. -/
theorem readLoop_eq {fuel : Nat} (hk : k ≤ count) (hfuel : count ≤ k + fuel) (out : Bytes) :
    readLoop g d i ino count offset fuel k out = fun j ↦
      if k ≤ j ∧ j < count then fileByte g d i ino (wrap32 (offset + j)) else out j := by
  induction fuel generalizing k out with
  | zero =>
    funext j
    rw [if_neg (by omega)]
    rfl
  | succ fuel ih =>
    rw [readLoop]
    by_cases hlt : k < count
    · obtain ⟨hstep, hin⟩ : 0 < chunkAt offset count k ∧ _ := chunkAt_inside hlt
      have hle : chunkAt offset count k ≤ count - k := Nat.min_le_right ..
      simp only [if_pos hlt]
      rw [ih (by omega) (by omega)]
      funext j
      rw [readChunk_apply hlt]
      -- a byte of the chunk, a byte of a later one, or none of the request
      by_cases h₁ : k + chunkAt offset count k ≤ j ∧ j < count
      · rw [if_pos h₁, if_pos (by omega)]
      · rw [if_neg h₁]
        by_cases h₂ : k ≤ j ∧ j < k + chunkAt offset count k
        · rw [if_pos h₂, if_pos (by omega)]
        · rw [if_neg h₂, if_neg (by omega)]
    · rw [if_neg hlt]
      funext j
      rw [if_neg (by omega)]

/-- `minixfs_read` in front of the end of the file. -/
theorem minixfsRead_eq (hi : readInode fs.sb fs.disk ino = some i) (hend : offset < i.iSize)
    {n : Nat} (hn : n = if wrap32 (offset + count) > i.iSize then i.iSize - offset else count)
    (out : Bytes) : minixfsRead fs ino out count offset =
      (sint32 n, fun j ↦
        if j < n then fileByte fs.sb fs.disk i ino (wrap32 (offset + j)) else out j) := by
  rw [minixfsRead, hi]
  dsimp only
  rw [if_neg (Nat.not_le.mpr hend), ← hn, readLoop_eq (Nat.zero_le n) (Nat.zero_add n).ge]
  simp only [Nat.zero_le, true_and]

theorem minixfsRead_end (hi : readInode fs.sb fs.disk ino = some i) (hend : i.iSize ≤ offset)
    (out : Bytes) : minixfsRead fs ino out count offset = (0, out) := by
  rw [minixfsRead, hi]
  exact if_pos hend

end

/-! ## The bounds of a read -/

/-- A function that returns `n` and stores `n` bytes at the beginning of its buffer, and no
others, whatever the buffer held before. -/
structure Delivers (f : Bytes → Int × Bytes) (n : Nat) : Prop where
  ret : ∀ out, (f out).1 = n
  stored : ∀ out out' j, j < n → (f out).2 j = (f out').2 j
  kept : ∀ out j, n ≤ j → (f out).2 j = out j

/-- How many bytes of the file there are for a request. -/
def available (i : Inode) (count offset : Nat) : Nat :=
  if i.iSize ≤ offset then 0 else min count (i.iSize - offset)

theorem readInode_size {g : Superblock} {d : Disk} {ino : Nat} {i : Inode}
    (h : readInode g d ino = some i) : i.iSize < 2 ^ 32 := by
  unfold readInode at h
  split at h
  · cases h
  · obtain ⟨buf, -, rfl⟩ := Option.map_eq_some_iff.mp h
    exact (Inode.get_wf _ _).size

/-- `minixfs_read` returns and stores as many bytes as were asked for and the file has, if and
only if the position is not in front of the end of the file, or `offset + count` does not
overflow and the number of bytes is not negative as `int`. -/
theorem read_bounds_iff {fs : Minixfs} {ino : Nat} {i : Inode}
    (hi : readInode fs.sb fs.disk ino = some i) {count offset : Nat} (hcount : count < 2 ^ 32) :
    Delivers (fun out ↦ minixfsRead fs ino out count offset) (available i count offset) ↔
      i.iSize ≤ offset ∨
        offset + count < 2 ^ 32 ∧ min count (i.iSize - offset) < 2 ^ 31 := by
  have hsize := readInode_size hi
  unfold available
  by_cases hend : i.iSize ≤ offset
  · refine iff_of_true ?_ (.inl hend)
    rw [if_pos hend]
    simp only [minixfsRead_end hi hend]
    exact ⟨fun _ ↦ rfl, fun _ _ _ hj ↦ absurd hj (Nat.not_lt_zero _), fun _ _ _ ↦ rfl⟩
  rw [or_iff_right hend, if_neg hend]
  have hread := minixfsRead_eq hi (Nat.not_le.mp hend)
    (rfl : _ = if wrap32 (offset + count) > i.iSize then i.iSize - offset else count)
  by_cases hwrap : offset + count < 2 ^ 32
  · have hclamp : (if wrap32 (offset + count) > i.iSize then i.iSize - offset else count) =
        min count (i.iSize - offset) := by
      rw [wrap32_of_lt hwrap]
      split <;> omega
    rw [hclamp] at hread
    simp only [hread, hwrap, true_and]
    have hlt : min count (i.iSize - offset) < 2 ^ 32 := (Nat.min_le_left ..).trans_lt hcount
    constructor
    · intro h
      exact ((sint32_eq_natCast hlt).mp (h.ret Bytes.zero)).2
    · intro hpos
      refine ⟨fun _ ↦ sint32_of_lt hpos, fun _ _ j hj ↦ ?_, fun _ j hj ↦ ?_⟩
      · exact (if_pos hj).trans (if_pos hj).symm
      · exact if_neg (Nat.not_lt.mpr hj)
  · -- the sum overflows, and the request is not cut
    have hclamp : ¬wrap32 (offset + count) > i.iSize := by
      unfold wrap32
      omega
    refine iff_of_false (fun h ↦ ?_) fun h ↦ hwrap h.1
    have hret := h.ret Bytes.zero
    simp only [hread, if_neg hclamp] at hret
    have hsame := ((sint32_eq_natCast hcount).mp hret).1
    omega

theorem sampleRoot_read : readInode sampleSb sampleDisk 1 = some sampleRoot := by
  rw [sample_shows.readInode (by decide), sample_inode]

/-- Ten bytes from the middle of the root directory. -/
theorem read_bounds_root : readInode sampleSb sampleDisk 1 = some sampleRoot ∧
    (Delivers (fun out ↦ minixfsRead sampleFs 1 out 10 500) (available sampleRoot 10 500) ↔
      sampleRoot.iSize ≤ 500 ∨
        500 + 10 < 2 ^ 32 ∧ min 10 (sampleRoot.iSize - 500) < 2 ^ 31) :=
  ⟨sampleRoot_read, read_bounds_iff sampleRoot_read (by decide)⟩

/-- A read of `2 ^ 32 - 1` bytes from the second byte on is not cut at the end of the root
directory, and returns `-1`. -/
theorem read_past_end : available sampleRoot 0xFFFFFFFF 1 = 1023 ∧
    (minixfsRead sampleFs 1 Bytes.zero 0xFFFFFFFF 1).1 = -1 ∧
    ¬Delivers (fun out ↦ minixfsRead sampleFs 1 out 0xFFFFFFFF 1)
      (available sampleRoot 0xFFFFFFFF 1) := by
  have hret : (minixfsRead sampleFs 1 Bytes.zero 0xFFFFFFFF 1).1 = -1 := by
    rw [minixfsRead_eq sampleRoot_read (by decide) rfl]
    decide
  refine ⟨by decide, hret, fun h ↦ ?_⟩
  exact absurd ((h.ret Bytes.zero).symm.trans hret) (by decide)

end FentoOS.Fs
