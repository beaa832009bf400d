import FentoOS.Fs.Volume
import FentoOS.Fs.Space

/-!
# Writing to a file

`minixfs_write` goes through its request chunk by chunk, a chunk ending with the
block or with the request.  It stops early when the block of a chunk has no zone and
can get none.  `Wrote` is that run on the file alone; what has become of the disk
besides is in the frame of `Touched`.

Positions are computed modulo `2 ^ 32`.  No file has blocks up there, so a request that
would wrap around stops before it does, and the file afterwards is the file before with
the bytes that were written at their places.
-/

namespace FentoOS.Fs

open FentoOS.Lib Function

/-! ## On the file -/

namespace File

/-- The byte at a position. -/
def byte (f : File) (p : Nat) : UInt8 := f.block (p / 1024) (p % 1024)

/-- One chunk is written: `n` bytes of `src` from `k` on go to position `pos`. -/
def put (f : File) (pos : Nat) (src : Bytes) (k n : Nat) : File :=
  f.setBlock (pos / 1024)
    ((if pos % 1024 ≠ 0 ∨ n ≠ 1024 then f.block (pos / 1024) else Bytes.zero).memcpy
      (pos % 1024) src k n)

end File

/-- The chunks of a request from `k` bytes done up to `k'` bytes done have been written. -/
inductive Wrote (src : Bytes) (count offset : Nat) : Nat → File → Nat → File → Prop
  | stop {k : Nat} {f : File} : Wrote src count offset k f k f
  | chunk {k k' : Nat} {f f' : File} (hk : k < count)
      (hb : wrap32 (offset + k) / 1024 < maxBlocks)
      (h : Wrote src count offset (k + chunkAt offset count k)
        (f.put (wrap32 (offset + k)) src k (chunkAt offset count k)) k' f') :
      Wrote src count offset k f k' f'

section

variable {src : Bytes} {count offset k k' : Nat} {f f' : File}

theorem Wrote.attr (h : Wrote src count offset k f k' f') : f'.attr = f.attr := by
  induction h with
  | stop => rfl
  | chunk _ _ _ ih => exact ih

theorem chunkAt_le (offset count k : Nat) : chunkAt offset count k ≤ count - k :=
  Nat.min_le_right ..

/-- A chunk that starts below `2 ^ 32` makes progress, stays in its block, and ends with it or
with the request. -/
theorem chunkAt_spec (hpos : offset + k < 2 ^ 32) (hk : k < count) :
    0 < chunkAt offset count k ∧
      chunkAt offset count k ≤ 1024 - (offset + k) % 1024 ∧
      (k + chunkAt offset count k = count ∨
        offset + (k + chunkAt offset count k) = 1024 * ((offset + k) / 1024 + 1)) := by
  have hmod : (offset + k) % 1024 < 1024 := Nat.mod_lt _ (by decide)
  unfold chunkAt
  rw [wrap32_of_lt hpos]
  omega

theorem Wrote.le (h : Wrote src count offset k f k' f') : k ≤ k' ∧ (k ≤ count → k' ≤ count) := by
  induction h with
  | stop => exact ⟨le_rfl, id⟩
  | @chunk k k' f f' hk _ _ ih =>
    have hle := chunkAt_le offset count k
    refine ⟨(Nat.le_add_right ..).trans ih.1, fun _ ↦ ih.2 (by omega)⟩

/-- What a chunk puts where, if it stays inside of its block. -/
theorem File.byte_put (f : File) {pos n : Nat} (src : Bytes) (k : Nat)
    (hn : n ≤ 1024 - pos % 1024) (p : Nat) :
    (f.put pos src k n).byte p =
      if pos ≤ p ∧ p < pos + n then src (k + (p - pos)) else f.byte p := by
  have hmod : pos % 1024 < 1024 := Nat.mod_lt _ (by decide)
  unfold File.byte File.put
  rw [File.setBlock_block]
  by_cases hb : p / 1024 = pos / 1024
  · rw [hb, update_self]
    by_cases hp : pos ≤ p ∧ p < pos + n
    · rw [if_pos hp, Bytes.memcpy_of_mem _ _ (by omega) (by omega)]
      congr 2
      omega
    · rw [if_neg hp, Bytes.memcpy_of_notMem _ _ (by omega)]
      split
      · rfl
      · -- a chunk that covers its whole block leaves no byte of it
        omega
  · rw [update_of_ne hb, if_neg (by omega)]

/-- Where the next chunk starts. -/
theorem next_lt (hpos : offset + k < 2 ^ 32) (hk : k < count)
    (hb : wrap32 (offset + k) / 1024 < maxBlocks) :
    offset + (k + chunkAt offset count k) ≤ 1024 * maxBlocks := by
  obtain ⟨-, hin, -⟩ := chunkAt_spec hpos hk
  rw [wrap32_of_lt hpos] at hb
  omega

theorem maxBlocks_lt {n : Nat} (h : n ≤ 1024 * maxBlocks) : n < 2 ^ 31 :=
  h.trans_lt (by decide)

/-- What has been written lies within the blocks a file can have. -/
theorem Wrote.limit (h : Wrote src count offset k f k' f') (hpos : offset + k < 2 ^ 32) :
    k' = k ∨ offset + k' ≤ 1024 * maxBlocks := by
  induction h with
  | stop => exact .inl rfl
  | @chunk k k' f f' hk hb _ ih =>
    have hnext := next_lt hpos hk hb
    have hlt := maxBlocks_lt hnext
    rcases ih (by omega) with rfl | hle
    · exact .inr hnext
    · exact .inr hle

/-- The bytes of the file after the chunks have been written. -/
theorem Wrote.byte (h : Wrote src count offset k f k' f') (hpos : offset + k < 2 ^ 32) (p : Nat) :
    f'.byte p = if offset + k ≤ p ∧ p < offset + k' then src (p - offset) else f.byte p := by
  induction h with
  | stop => rw [if_neg (by omega)]
  | @chunk k k' f f' hk hb hrest ih =>
    obtain ⟨-, hin, -⟩ := chunkAt_spec hpos hk
    have hlt := maxBlocks_lt (next_lt hpos hk hb)
    have hmono := hrest.le.1
    rw [ih (by omega), wrap32_of_lt hpos, File.byte_put f src k hin]
    by_cases h₁ : offset + (k + chunkAt offset count k) ≤ p ∧ p < offset + k'
    · rw [if_pos h₁, if_pos (by omega)]
    · rw [if_neg h₁]
      by_cases h₂ : offset + k ≤ p ∧ p < offset + k + chunkAt offset count k
      · rw [if_pos h₂, if_pos (by omega)]
        congr 1
        omega
      · rw [if_neg h₂, if_neg (by omega)]

end

/-! ## On the disk -/

/-- What a caller of `minixfs_write` may want to know about the zones: while the blocks from
`lo` up to `b` of `ino` get zones, `P b` lasts. -/
structure Supplies (g : Superblock) (live : Nat → Prop) (ino lo : Nat) (P : Nat → View → Prop) :
    Prop where
  supply : ∀ b, lo ≤ b →
    ∃ S, Supply g live ino S (P b) ∧ ∀ s, slotOf b = some s → ∀ t ∈ s.path, S t
  mono : ∀ {b w}, P b w → P (b + 1) w

/-- The zones that the blocks of a request take. -/
theorem Spent.supplies (g : Superblock) (live : Nat → Prop) (ino : Nat) (v : View) (lo : Nat) :
    Supplies g live ino lo fun b ↦ Spent g ino v (slotsFor lo (b + 1)) where
  supply := fun b hb ↦ ⟨slotsFor lo (b + 1), Spent.supply, fun _ hs _ ht ↦
    ⟨b, _, hb, Nat.lt_succ_self b, hs, ht⟩⟩
  mono := fun h ↦ h.mono fun _ ⟨b', s, hlo, hhi, hs, ht⟩ ↦
    ⟨b', s, hlo, Nat.lt_succ_of_lt hhi, hs, ht⟩

section

variable {g : Superblock} {live : Nat → Prop} {d : Disk} {v : View} {ino : Nat}
  {P : Nat → View → Prop}

/-- The loop of `minixfs_write` has stopped early. -/
structure Stopped (P : Nat → View → Prop) (ino count offset k k' : Nat) (v' : View) : Prop where
  lt : k' < count
  aligned : k' = k ∨ (offset + k') % 1024 = 0
  supply : P ((offset + k') / 1024) v'
  no_zone : v'.blockZone ino ((offset + k') / 1024) = 0
  why : Full v'.zmap ∨ slotOf ((offset + k') / 1024) = none

/-- The loop of `minixfs_write`. -/
theorem Shows.writeLoop {lo : Nat} (hsup : Supplies g live ino lo P) (hl : live ino)
    (h : Shows g d v)
    (ho : Owned g live v) (src : Bytes) (count offset : Nat) {fuel k : Nat}
    (hlo : lo ≤ (offset + k) / 1024) (hP : P ((offset + k) / 1024) v)
    (hk : k ≤ count) (hpos : offset + k < 2 ^ 32)
    (hfuel : count ≤ k + fuel) :
    ∃ v' k', (writeLoop g ino src count offset fuel k d (v.inode ino)).1 = k' ∧
      Shows g (writeLoop g ino src count offset fuel k d (v.inode ino)).2.2 v' ∧
      Touched g live ino v v' ∧ Wrote src count offset k (v.file ino) k' (v'.file ino) ∧
      (k < k' → ∀ b, (offset + k) / 1024 ≤ b → 1024 * b < offset + k' →
        v'.blockZone ino b ≠ 0) ∧
      ((writeLoop g ino src count offset fuel k d (v.inode ino)).2.1 = true ∧ k' = count ∧
          (∃ b, lo ≤ b ∧ P b v') ∨
        (writeLoop g ino src count offset fuel k d (v.inode ino)).2.1 = false ∧
          Stopped P ino count offset k k' v') := by
  induction fuel generalizing k d v with
  | zero =>
    exact ⟨v, k, rfl, h, .refl ho, .stop, fun hlt ↦ absurd hlt (lt_irrefl k),
      .inl ⟨rfl, le_antisymm hk hfuel, _, hlo, hP⟩⟩
  | succ fuel ih =>
    by_cases hlt : k < count
    · obtain ⟨S, hS, hpath⟩ := hsup.supply ((offset + k) / 1024) hlo
      obtain ⟨v₁, hm, hres, hor⟩ := h.mapBlock ((offset + k) / 1024) ho hl hS hP hpath
      have ho₁ := hm.grown.owned
      have ht₁ := hm.grown.touched ho
      have hfile := hm.grown.file_eq ho hl
      rw [Fs.writeLoop, if_pos hlt]
      simp only [wrap32_of_lt hpos, hres, hm.inode, hm.shows.readInto_block (ho₁.readable hl)]
      by_cases hz : v₁.blockZone ino ((offset + k) / 1024) = 0
      · rw [if_pos hz]
        refine ⟨v₁, k, rfl, hm.shows, ht₁, ?_, fun hlt ↦ absurd hlt (lt_irrefl k), .inr ⟨rfl,
          hlt, .inl rfl, hm.supply, hz, hor.resolve_left fun hc ↦ hc hz⟩⟩
        rw [hfile]
        exact .stop
      · rw [if_neg hz]
        obtain ⟨s, hs, -⟩ := slotOf_of_blockZone hz
        have hb : wrap32 (offset + k) / 1024 < maxBlocks := by
          rw [wrap32_of_lt hpos]
          exact lt_of_slotOf hs
        obtain ⟨hstep, hin, hend⟩ := chunkAt_spec hpos hlt
        have hle := chunkAt_le offset count k
        have hnext := maxBlocks_lt (next_lt hpos hlt hb)
        set blk := if (offset + k) % 1024 ≠ 0 ∨ chunkAt offset count k ≠ 1024 then
          v₁.block ino ((offset + k) / 1024) else Bytes.zero with hblk
        set buf := blk.memcpy ((offset + k) % 1024) src k (chunkAt offset count k) with hbuf
        have hs₂ := hm.shows.blockWrite
          ((ho₁.readable hl).blockZone_range ((offset + k) / 1024)) buf
        have ht₂ := ho₁.touched_write hl hz buf
        have hsupply₂ := hS.congr hm.supply (ho₁.zone_write hl hz buf) rfl
        have hfile₂ := ho₁.file_write hl hz buf hl
        have hblock : v₁.block ino = (v.file ino).block := congrArg File.block hfile
        have hput : (v.file ino).setBlock ((offset + k) / 1024) buf =
            (v.file ino).put (wrap32 (offset + k)) src k (chunkAt offset count k) := by
          rw [hbuf, hblk, hblock, wrap32_of_lt hpos]
          rfl
        rw [update_self, hfile, hput] at hfile₂
        have hP₂ : P ((offset + (k + chunkAt offset count k)) / 1024)
            (v₁.setData (v₁.blockZone ino ((offset + k) / 1024)) buf) := by
          by_cases hsame : (offset + (k + chunkAt offset count k)) / 1024 = (offset + k) / 1024
          · rw [hsame]
            exact hsupply₂
          · have hsucc : (offset + (k + chunkAt offset count k)) / 1024 =
                (offset + k) / 1024 + 1 := by omega
            rw [hsucc]
            exact hsup.mono hsupply₂
        obtain ⟨v', k', hres', hs', ht', hwrote, hzones, hor'⟩ :=
          ih (k := k + chunkAt offset count k) hs₂ ht₂.owned (by omega) hP₂
            (by omega) (by omega) (by omega)
        rw [hfile₂] at hwrote
        have hz' : v'.blockZone ino ((offset + k) / 1024) ≠ 0 := by
          rw [ht'.blockZone hl (by rw [ht₂.blockZone hl hz]; exact hz), ht₂.blockZone hl hz]
          exact hz
        refine ⟨v', k', hres', hs', (ht₁.trans ht₂).trans ht', .chunk hlt hb hwrote,
          fun _ b hlo hhi ↦ ?_, hor'.imp_right fun ⟨hfalse, hstop⟩ ↦ ⟨hfalse, ?_⟩⟩
        · by_cases hb' : b = (offset + k) / 1024
          · rw [hb']
            exact hz'
          · exact hzones (by omega) b (by omega) hhi
        · refine ⟨hstop.lt, .inr ?_, hstop.supply, hstop.no_zone, hstop.why⟩
          rcases hstop.aligned with heq | hal
          · have hlt' := hstop.lt
            omega
          · exact hal
    · have heq : k = count := le_antisymm hk (not_lt.mp hlt)
      rw [Fs.writeLoop, if_neg hlt]
      exact ⟨v, k, rfl, h, .refl ho, .stop, fun hlt ↦ absurd hlt (lt_irrefl k),
        .inl ⟨rfl, heq, _, hlo, hP⟩⟩

end

/-! ## On the volume -/

/-- The file after the end of `minixfs_write`: it has grown to the end of the request. -/
def File.growTo (f : File) (size : Nat) : File :=
  if size > f.attr.iSize then { f with attr := f.attr.resize size } else f

section

variable {g : Superblock} {d : Disk} {F : Volume} {v : View} {ino : Nat} {f : File}
  {P : Nat → View → Prop}

/-- The end of `minixfs_write`. -/
theorem Stores.growSize (h : Stores g d v F) (hf : F ino = some f) (hdir : ¬f.attr.isDir)
    (count offset : Nat) :
    ∃ v', v'.imap = v.imap ∧ v'.zmap = v.zmap ∧ (∀ x s, v'.zone x s = v.zone x s) ∧
      Stores g (growSize g d ino count offset) v'
        (update F ino (some (f.growTo (wrap32 (offset + count))))) := by
  have hattr := (h.readInode hf).2
  have hsize := h.size hf
  simp only [Fs.growSize, h.readInodeInto hf, File.growTo, hsize]
  split
  · have hdir' : ¬((v.inode ino).resize (wrap32 (offset + count))).isDir := fun hd ↦
      hdir (hattr ▸ hd)
    have hzone := (v.inode ino).resize_iZone (wrap32 (offset + count))
    have hw := (h.writeInode hf hzone ((h.shows.wf ino).resize (wrap32_lt _))
      fun hd ↦ absurd hd hdir').2
    have heq : ((v.inode ino).resize (wrap32 (offset + count))).attr =
        f.attr.resize (wrap32 (offset + count)) :=
      congrArg (fun i : Inode ↦ i.resize (wrap32 (offset + count))) hattr
    rw [heq] at hw
    exact ⟨v.setInode ino _, rfl, rfl, zone_setInode v hzone, hw⟩
  · rw [← hf, update_eq_self]
    exact ⟨v, rfl, rfl, fun _ _ ↦ rfl, h⟩

/-- `minixfs_write` to a file that is no directory writes chunks of the request to that file,
and, if they are all of them, lets it grow. -/
theorem Stores.minixfsWrite {fs : Minixfs} (h : Stores fs.sb fs.disk v F) (hf : F ino = some f)
    (hdir : ¬f.attr.isDir) {offset : Nat}
    (hsup : Supplies fs.sb F.Live ino (offset / 1024) P) (src : Bytes) (count : Nat)
    (hoffset : offset < 2 ^ 32) (hP : P (offset / 1024) v) :
    ∃ v' k f', Wrote src count offset 0 f k f' ∧
      (minixfsWrite fs ino src count offset).1 = sint32 k ∧
      (minixfsWrite fs ino src count offset).2.sb = fs.sb ∧
      (minixfsWrite fs ino src count offset).2.mounted = fs.mounted ∧ v'.imap = v.imap ∧
      (0 < k → ∀ b, offset / 1024 ≤ b → 1024 * b < offset + k → v'.blockZone ino b ≠ 0) ∧
      (∀ {x s}, F.Live x → v.zone x s ≠ 0 → v'.zone x s = v.zone x s) ∧
      (k = count ∧ (∃ b, P b v') ∧ Stores fs.sb (minixfsWrite fs ino src count offset).2.disk v'
          (update F ino (some (f'.growTo (wrap32 (offset + count))))) ∨
        Stopped P ino count offset 0 k v' ∧
          Stores fs.sb (minixfsWrite fs ino src count offset).2.disk v'
            (update F ino (some f'))) := by
  have hl : F.Live ino := ⟨f, hf⟩
  obtain ⟨v₁, k, hk, hs₁, ht, hwrote, hzones, hend⟩ := h.shows.writeLoop hsup hl h.good.owned src
    count offset le_rfl hP (Nat.zero_le _) hoffset (Nat.zero_add count).ge
  rw [h.good.file hf] at hwrote
  have hdir' : ¬(v₁.file ino).attr.isDir := by rwa [hwrote.attr]
  have hstores : Stores fs.sb (Fs.writeLoop fs.sb ino src count offset count 0 fs.disk
      (v.inode ino)).2.2 v₁ (update F ino (some (v₁.file ino))) :=
    ⟨hs₁, h.good.touch hf ht rfl fun hd ↦ absurd hd hdir'⟩
  rw [Fs.minixfsWrite, (h.readInode hf).1]
  rcases hend with ⟨htrue, hcount, b, hlo, hb⟩ | ⟨hfalse, hstop⟩
  · simp only [htrue, if_true, hk]
    obtain ⟨v', himap, hzmap, hzone, hgrow⟩ :=
      hstores.growSize (update_self ..) hdir' count offset
    rw [update_idem] at hgrow
    obtain ⟨S, hS, -⟩ := hsup.supply b hlo
    refine ⟨v', k, v₁.file ino, hwrote, rfl, trivial, trivial, himap.trans ht.imap,
      fun hpos b hlo hhi ↦ ?_, fun hx hz ↦ (hzone _ _).trans (ht.zone hx hz),
      .inl ⟨hcount, ⟨b, hS.congr hb (hzone ino) hzmap⟩, hgrow⟩⟩
    have hz := hzones hpos b hlo hhi
    obtain ⟨s, hs, heq⟩ := slotOf_of_blockZone hz
    rw [blockZone_slot hs, hzone, ← heq]
    exact hz
  · simp only [hfalse, Bool.false_eq_true, if_false, hk]
    exact ⟨v₁, k, v₁.file ino, hwrote, rfl, trivial, trivial, ht.imap, hzones,
      fun hx hz ↦ ht.zone hx hz, .inr ⟨hstop, hstores⟩⟩

end

end FentoOS.Fs
