import FentoOS.Fs.Files
import FentoOS.Fs.Minixfs
import FentoOS.Lib.Register

/-!
# Directories as registers

The contents of a directory are a register: its lines are the 64-byte entries,
numbered through all blocks, with the name as key and the inode number as value.
An entry whose inode number is zero is a blank line, and so is everything behind the
last block.

The five loops of `kernel/fs/minixfs.c` over blocks and entries are searches through
this register.  `dir_lookup`, `dir_is_empty` and `minixfs_readdir` only read it;
`dir_add` writes a blank line and `dir_remove` blanks a line, and for both it is the
same whether the line lies in a block of the inode, in an indirect one or in one that
has just been appended.
-/

namespace FentoOS.Fs

open FentoOS.Lib Function

/-! ## Entries of a block -/

theorem putDirent_of_notMem (buf : Bytes) (k ino : Nat) (name : List UInt8) {j : Nat}
    (h : j < 64 * k ∨ 64 * k + 64 ≤ j) : putDirent buf k ino name j = buf j := by
  rw [putDirent, strncpy_of_notMem _ _ _ _ (by omega), Bytes.put32_of_notMem _ (by omega)]

theorem clearDirent_of_notMem (buf : Bytes) (k : Nat) {j : Nat}
    (h : j < 64 * k ∨ 64 * k + 64 ≤ j) : clearDirent buf k j = buf j := by
  rw [clearDirent, Bytes.memset_of_notMem _ _ (by omega), Bytes.put32_of_notMem _ (by omega)]

theorem direntIno_putDirent (buf : Bytes) (k : Nat) {ino : Nat} (hino : ino < 2 ^ 32)
    (name : List UInt8) : direntIno (putDirent buf k ino name) k = ino := by
  have hcopy : direntIno (putDirent buf k ino name) k = (buf.put32 (64 * k) ino).get32 (64 * k) :=
    Bytes.get32_congr fun j _ hj ↦ strncpy_of_notMem _ _ _ _ (by omega)
  rw [hcopy, Bytes.get32_put32_same, Nat.mod_eq_of_lt hino]

theorem strIn_putDirent (buf : Bytes) (k ino : Nat) {name : List UInt8} (h : IsCString name) :
    strIn (direntName (putDirent buf k ino name) k) 60 = name.take 60 :=
  (strIn_strncpy ..).trans (strIn_cstr h 60)

theorem direntIno_clearDirent (buf : Bytes) (k : Nat) : direntIno (clearDirent buf k) k = 0 := by
  have hcopy : direntIno (clearDirent buf k) k = (buf.put32 (64 * k) 0).get32 (64 * k) :=
    Bytes.get32_congr fun j _ hj ↦ Bytes.memset_of_notMem _ _ (by omega)
  rw [hcopy, Bytes.get32_put32_same, Nat.zero_mod]

variable {buf : Bytes} {k : Nat}

/-- An entry depends only on its own 64 bytes. -/
theorem dirent_congr {buf' : Bytes} (h : ∀ j, 64 * k ≤ j → j < 64 * k + 64 → buf' j = buf j) :
    direntIno buf' k = direntIno buf k ∧
      strIn (direntName buf' k) 60 = strIn (direntName buf k) 60 := by
  constructor
  · exact Bytes.get32_congr fun j h₁ h₂ ↦ h j h₁ (by omega)
  · exact strIn_congr fun j hj ↦ h _ (by omega) (by omega)

variable {n : Nat}

/-- `strcmp` finds out whether an array holds a string that is shorter than the array. -/
theorem strcmp_eq_zero {a : Bytes} {s : List UInt8} (hs : IsCString s) (hlen : s.length < n) :
    strcmp a s = 0 ↔ strIn a n = s := by
  induction s generalizing a n with
  | nil =>
    obtain ⟨n, rfl⟩ : ∃ m, n = m + 1 := ⟨n - 1, by simp only [List.length_nil] at hlen; omega⟩
    rw [strcmp, strIn]
    constructor
    · intro hz
      exact if_pos (UInt8.toNat_inj.mp (Int.ofNat_inj.mp hz))
    · intro h
      split at h
      case isTrue ha => rw [ha]; rfl
      case isFalse => cases h
  | cons c s ih =>
    have hc : c ≠ 0 := fun hc ↦ hs (hc ▸ List.mem_cons_self)
    have hs' : IsCString s := fun h ↦ hs (List.mem_cons_of_mem c h)
    obtain ⟨n, rfl⟩ : ∃ m, n = m + 1 := ⟨n - 1, by simp only [List.length_cons] at hlen; omega⟩
    rw [strcmp, strIn]
    by_cases ha : a 0 = c
    · have hne : a 0 ≠ 0 := ha ▸ hc
      rw [if_pos ⟨hne, ha⟩, if_neg hne, ih hs' (Nat.lt_of_succ_lt_succ hlen), ha,
        List.cons_inj_right]
    · rw [if_neg fun hc' ↦ ha hc'.2]
      constructor
      · intro hz
        exact absurd (UInt8.toNat_inj.mp (Int.ofNat_inj.mp (sub_eq_zero.mp hz))) ha
      · intro heq
        split at heq
        · cases heq
        · exact absurd (List.cons.inj heq).1 ha

/-! ## The register of a directory -/

namespace File

/-- The number of entries in the blocks of a directory. -/
def cap (f : File) : Nat := 16 * nblocks f.attr

def ino (f : File) (e : Nat) : Nat := direntIno (f.block (e / 16)) (e % 16)

def name (f : File) (e : Nat) : List UInt8 := strIn (direntName (f.block (e / 16)) (e % 16)) 60

/-- The entries of a directory. -/
def entry (f : File) : Register (List UInt8) Nat := fun e ↦
  if e < f.cap ∧ f.ino e ≠ 0 then some (f.name e, f.ino e) else none

/-- The entry is in use and has the name, cut to 60 bytes. -/
def hit (f : File) (name : List UInt8) (e : Nat) : Bool :=
  direntMatches (f.block (e / 16)) name (e % 16)

/-- What `dir_lookup` finds. -/
def find (f : File) (name : List UInt8) : Option Nat :=
  (findFirst (f.hit name) 0 f.cap).map f.ino

end File

section

variable {f : File} {e : Nat} {name : List UInt8}

theorem File.entry_eq_some {k : List UInt8} {i : Nat} :
    f.entry e = some (k, i) ↔ e < f.cap ∧ i ≠ 0 ∧ f.name e = k ∧ f.ino e = i := by
  unfold File.entry
  constructor
  · intro h
    split at h
    case isTrue hc =>
      obtain ⟨rfl, rfl⟩ := Prod.mk.inj (Option.some.inj h)
      exact ⟨hc.1, hc.2, rfl, rfl⟩
    case isFalse => cases h
  · rintro ⟨hc, hi, rfl, rfl⟩
    exact if_pos ⟨hc, hi⟩

theorem File.entry_eq_none (he : e < f.cap) : f.entry e = none ↔ f.ino e = 0 := by
  unfold File.entry
  constructor
  · intro h
    by_contra hc
    rw [if_pos ⟨he, hc⟩] at h
    cases h
  · intro h
    exact if_neg fun hc ↦ hc.2 h

theorem File.entry_of_cap_le (he : f.cap ≤ e) : f.entry e = none :=
  if_neg fun hc ↦ absurd hc.1 (not_lt.mpr he)

theorem File.hit_iff (hname : IsCString name) (he : e < f.cap) :
    f.hit name e = true ↔ f.entry e = some (name.take 60, f.ino e) := by
  rw [File.entry_eq_some]
  unfold File.hit direntMatches
  rw [decide_eq_true_iff, strncmp_cstr_eq_zero hname]
  constructor
  · rintro ⟨hi, hn⟩
    exact ⟨he, hi, hn, rfl⟩
  · rintro ⟨-, hi, hn, -⟩
    exact ⟨hi, hn⟩

theorem File.firstWith_of_findFirst (hname : IsCString name)
    (h : findFirst (f.hit name) 0 f.cap = some e) :
    FirstWith f.entry (name.take 60) e ∧ f.entry e = some (name.take 60, f.ino e) := by
  obtain ⟨-, he, hhit, hleast⟩ := findFirst_eq_some h
  rw [Nat.zero_add] at he
  have hentry := (File.hit_iff hname he).mp hhit
  refine ⟨⟨⟨_, hentry⟩, fun e' he' a ha ↦ ?_⟩, hentry⟩
  obtain ⟨hcap, -, -, rfl⟩ := File.entry_eq_some.mp ha
  have hmiss := hleast e' (Nat.zero_le _) he'
  rw [(File.hit_iff hname hcap).mpr ha] at hmiss
  cases hmiss

theorem File.find_eq_some (hname : IsCString name) {i : Nat} :
    f.find name = some i ↔
      ∃ e, FirstWith f.entry (name.take 60) e ∧ f.entry e = some (name.take 60, i) := by
  unfold File.find
  constructor
  · intro h
    obtain ⟨e, hfind, rfl⟩ := Option.map_eq_some_iff.mp h
    exact ⟨e, File.firstWith_of_findFirst hname hfind⟩
  · rintro ⟨e, ⟨-, hleast⟩, hentry⟩
    obtain ⟨hcap, -, -, rfl⟩ := File.entry_eq_some.mp hentry
    have hfind : findFirst (f.hit name) 0 f.cap = some e := by
      apply findFirst_of_least (Nat.zero_le _) (by rwa [Nat.zero_add])
      · exact (File.hit_iff hname hcap).mpr hentry
      · intro j _ hj
        by_contra hc
        exact hleast j hj _ ((File.hit_iff hname (hj.trans hcap)).mp (Bool.not_eq_false _ ▸ hc))
    rw [hfind]
    rfl

theorem File.find_eq_none (hname : IsCString name) :
    f.find name = none ↔ ∀ i, ¬Records f.entry (name.take 60) i := by
  unfold File.find
  rw [Option.map_eq_none_iff, findFirst_eq_none]
  constructor
  · rintro h i ⟨e, he⟩
    obtain ⟨hcap, -, -, rfl⟩ := File.entry_eq_some.mp he
    have hmiss := h e (Nat.zero_le _) (by rwa [Nat.zero_add])
    rw [(File.hit_iff hname hcap).mpr he] at hmiss
    cases hmiss
  · intro h e _ he
    rw [Nat.zero_add] at he
    by_contra hc
    exact h _ ⟨e, (File.hit_iff hname he).mp (Bool.not_eq_false _ ▸ hc)⟩

end

variable {f : File} {e : Nat}

/-! ## Changing a line -/

/-- A block is changed within one entry. -/
theorem File.line_setBlock {e' : Nat}
    (hbuf : ∀ j, j < 64 * (e % 16) ∨ 64 * (e % 16) + 64 ≤ j → buf j = f.block (e / 16) j)
    (hne : e' ≠ e) :
    (f.setBlock (e / 16) buf).ino e' = f.ino e' ∧
      (f.setBlock (e / 16) buf).name e' = f.name e' := by
  unfold File.ino File.name
  rw [File.setBlock_block]
  by_cases hb : e' / 16 = e / 16
  · rw [hb, update_self]
    exact dirent_congr fun j h₁ h₂ ↦ hbuf j (by omega)
  · rw [update_of_ne hb]
    exact ⟨rfl, rfl⟩

theorem File.entry_setBlock
    (hbuf : ∀ j, j < 64 * (e % 16) ∨ 64 * (e % 16) + 64 ≤ j → buf j = f.block (e / 16) j) :
    (f.setBlock (e / 16) buf).entry =
      update f.entry e ((f.setBlock (e / 16) buf).entry e) := by
  funext e'
  by_cases hne : e' = e
  · subst hne
    rw [update_self]
  · obtain ⟨hi, hn⟩ := File.line_setBlock hbuf hne
    rw [update_of_ne hne]
    unfold File.entry
    rw [hi, hn]
    rfl

/-- `dir_remove` blanks a line. -/
theorem File.entry_clear (f : File) (e : Nat) :
    (f.setBlock (e / 16) (clearDirent (f.block (e / 16)) (e % 16))).entry =
      update f.entry e none := by
  rw [File.entry_setBlock fun j hj ↦ clearDirent_of_notMem _ _ hj]
  congr 1
  refine if_neg fun hc ↦ hc.2 ?_
  unfold File.ino
  rw [File.setBlock_block, update_self]
  exact direntIno_clearDirent ..

/-- `dir_add` writes a line. -/
theorem File.entry_put {ino : Nat} {name : List UInt8} (he : e < f.cap) (hpos : ino ≠ 0)
    (hlt : ino < 2 ^ 32) (hname : IsCString name) :
    (f.setBlock (e / 16) (putDirent (f.block (e / 16)) (e % 16) ino name)).entry =
      update f.entry e (some (name.take 60, ino)) := by
  rw [File.entry_setBlock fun j hj ↦ putDirent_of_notMem _ _ _ _ hj]
  congr 1
  refine File.entry_eq_some.mpr ⟨he, hpos, ?_, ?_⟩
  · unfold File.name
    rw [File.setBlock_block, update_self]
    exact strIn_putDirent _ _ _ hname
  · unfold File.ino
    rw [File.setBlock_block, update_self]
    exact direntIno_putDirent _ _ hlt _

/-- A directory with one more block, which holds one entry. -/
def File.append (f : File) (name : List UInt8) (ino : Nat) : File where
  attr := { f.attr with iSize := wrap32 ((nblocks f.attr + 1) * 1024) }
  block := Function.update f.block (nblocks f.attr) (putDirent Bytes.zero 0 ino name)

@[simp] theorem File.append_block (f : File) (name : List UInt8) (ino : Nat) :
    (f.append name ino).block =
      update f.block (nblocks f.attr) (putDirent Bytes.zero 0 ino name) := rfl

theorem File.nblocks_append (hn : nblocks f.attr < 2 ^ 22 - 1) (name : List UInt8) (ino : Nat) :
    nblocks (f.append name ino).attr = nblocks f.attr + 1 := by
  unfold File.append
  generalize nblocks f.attr = n at hn
  unfold nblocks wrap32
  dsimp only
  omega

/-- `dir_add` writes a line behind the last one. -/
theorem File.entry_append {ino : Nat} {name : List UInt8} (hn : nblocks f.attr < 2 ^ 22 - 1)
    (hpos : ino ≠ 0) (hlt : ino < 2 ^ 32) (hname : IsCString name) :
    (f.append name ino).entry = update f.entry f.cap (some (name.take 60, ino)) := by
  have hcap : (f.append name ino).cap = f.cap + 16 := by
    unfold File.cap
    rw [File.nblocks_append hn]
    omega
  have hdef : f.cap = 16 * nblocks f.attr := rfl
  funext e
  by_cases he : e = f.cap
  · subst he
    have hdiv : f.cap / 16 = nblocks f.attr := by omega
    have hmod : f.cap % 16 = 0 := by omega
    rw [update_self]
    refine File.entry_eq_some.mpr ⟨by omega, hpos, ?_, ?_⟩
    · unfold File.name
      rw [hdiv, hmod, File.append_block, update_self]
      exact strIn_putDirent _ _ _ hname
    · unfold File.ino
      rw [hdiv, hmod, File.append_block, update_self]
      exact direntIno_putDirent _ _ hlt _
  · rw [update_of_ne he]
    by_cases hlt' : e < f.cap
    · have hne : e / 16 ≠ nblocks f.attr := by omega
      have hblock : (f.append name ino).block (e / 16) = f.block (e / 16) := by
        rw [File.append_block, update_of_ne hne]
      unfold File.entry File.ino File.name
      rw [hblock, hcap]
      simp only [hlt', Nat.lt_add_right 16 hlt', true_and]
    · rw [File.entry_of_cap_le (not_lt.mp hlt')]
      refine if_neg fun hc ↦ hc.2 ?_
      have hdiv : e / 16 = nblocks f.attr := by omega
      have hmod : e % 16 ≠ 0 := by omega
      unfold File.ino
      rw [hdiv, File.append_block, update_self]
      have hother : direntIno (putDirent Bytes.zero 0 ino name) (e % 16) =
          direntIno Bytes.zero (e % 16) :=
        (dirent_congr fun j h₁ _ ↦ putDirent_of_notMem _ _ _ _ (by omega)).1
      rw [hother]
      rfl

/-! ## Reading -/

variable {g : Superblock} {v : View} {dir b : Nat}

theorem Readable.block_of_no_zone (hr : Readable g v dir) (hz : v.blockZone dir b = 0) :
    v.block dir b = Bytes.zero := by
  rw [View.block, hz, hr.zero]

theorem direntMatches_zero (name : List UInt8) (k : Nat) :
    direntMatches Bytes.zero name k = false := by
  simp [direntMatches, direntIno]

theorem direntProper_zero (k : Nat) : direntProper Bytes.zero k = false := by
  simp [direntProper, direntIno]

/-- Entry `k` of block `b` has the number `16 * b + k`. -/
theorem entry_div (b : Nat) (hk : k < 16) : (16 * b + k) / 16 = b := by
  omega

theorem entry_mod (b : Nat) (hk : k < 16) : (16 * b + k) % 16 = k := by
  omega

/-- The entry is in use and is neither `.` nor `..`. -/
def File.proper (f : File) (e : Nat) : Bool := direntProper (f.block (e / 16)) (e % 16)

section Read

variable {g : Superblock} {d : Disk} {v : View} {dir : Nat} (h : Shows g d v)
  (hr : Readable g v dir)

include h hr

/-- The block of a file that the loops read. -/
theorem Shows.readInto_block (b : Nat) : Fs.readInto d (v.blockZone dir b) = v.block dir b :=
  h.readInto (hr.blockZone_range b)

theorem Shows.lookupFrom (name : List UInt8) (b n : Nat) :
    lookupFrom g d dir (v.inode dir) name b n =
      (findFirst ((v.file dir).hit name) (16 * b) (16 * n)).map (v.file dir).ino := by
  induction n generalizing b with
  | zero => rfl
  | succ n ih =>
    have hblock : ∀ k < 16, (v.file dir).hit name (16 * b + k) =
        direntMatches (v.block dir b) name k := by
      intro k hk
      unfold File.hit
      rw [entry_div b hk, entry_mod b hk]
      rfl
    rw [findFirst_block n hblock]
    simp only [Fs.lookupFrom, h.mapBlock_read hr, h.readInto_block hr]
    split
    case isTrue hz =>
      have hnone : findFirst (direntMatches (v.block dir b) name) 0 16 = none := by
        rw [hr.block_of_no_zone hz, findFirst_eq_none]
        exact fun k _ _ ↦ direntMatches_zero name k
      rw [hnone, ih]
      rfl
    case isFalse =>
      cases hf : findFirst (direntMatches (v.block dir b) name) 0 16 with
      | none => exact ih (b + 1)
      | some k =>
        obtain ⟨-, hk, -, -⟩ := findFirst_eq_some hf
        rw [Nat.zero_add] at hk
        change some (direntIno (v.block dir b) k) = some ((v.file dir).ino (16 * b + k))
        unfold File.ino
        rw [entry_div b hk, entry_mod b hk]
        rfl

/-- `dir_lookup` looks a name up in the register of a directory. -/
theorem Shows.dirLookup (name : List UInt8) :
    dirLookup g d dir name = if (v.file dir).attr.isDir then (v.file dir).find name else none := by
  rw [Fs.dirLookup, h.readInode hr.number]
  change (if (v.inode dir).isDir then _ else none) = if (v.inode dir).isDir then _ else none
  rw [h.lookupFrom hr]
  rfl

theorem Shows.emptyFrom (b n : Nat) : emptyFrom g d dir (v.inode dir) b n =
    if (findFirst (v.file dir).proper (16 * b) (16 * n)).isSome then 0 else 1 := by
  induction n generalizing b with
  | zero => rfl
  | succ n ih =>
    have hblock : ∀ k < 16, (v.file dir).proper (16 * b + k) =
        direntProper (v.block dir b) k := by
      intro k hk
      unfold File.proper
      rw [entry_div b hk, entry_mod b hk]
      rfl
    rw [findFirst_block n hblock]
    simp only [Fs.emptyFrom, h.mapBlock_read hr, h.readInto_block hr]
    split
    case isTrue hz =>
      have hnone : findFirst (direntProper (v.block dir b)) 0 16 = none := by
        rw [hr.block_of_no_zone hz, findFirst_eq_none]
        exact fun k _ _ ↦ direntProper_zero k
      rw [hnone, ih]
      rfl
    case isFalse =>
      cases findFirst (direntProper (v.block dir b)) 0 16 with
      | none => exact ih (b + 1)
      | some k => rfl

/-- The entries in use, in the order of the blocks. -/
theorem Shows.readdirFrom (index b n seen : Nat) :
    readdirFrom g d dir (v.inode dir) index b n seen =
      (findNth (fun e ↦ (v.file dir).ino e ≠ 0) index (16 * b) (16 * n) seen).getLeft?.map
        fun e ↦ ((v.file dir).ino e, direntName ((v.file dir).block (e / 16)) (e % 16)) := by
  induction n generalizing b seen with
  | zero => rfl
  | succ n ih =>
    have hblock : ∀ k < 16, (decide ((v.file dir).ino (16 * b + k) ≠ 0)) =
        decide (direntIno (v.block dir b) k ≠ 0) := by
      intro k hk
      unfold File.ino
      rw [entry_div b hk, entry_mod b hk]
      rfl
    rw [findNth_block index n seen hblock]
    simp only [Fs.readdirFrom, h.mapBlock_read hr, h.readInto_block hr]
    split
    case isTrue hz =>
      have hnone : findNth (fun k ↦ decide (direntIno (v.block dir b) k ≠ 0)) index 0 16 seen =
          .inr seen := by
        rw [hr.block_of_no_zone hz]
        exact findNth_none (fun k _ _ ↦ by simp [direntIno]) index seen
      rw [hnone, ih]
      rfl
    case isFalse =>
      cases hf : findNth (fun k ↦ decide (direntIno (v.block dir b) k ≠ 0)) index 0 16 seen with
      | inr seen' => exact ih (b + 1) seen'
      | inl k =>
        have hk : k < 16 := Nat.zero_add 16 ▸ lt_of_findNth hf
        simp only [Sum.elim_inl, Sum.getLeft?_inl, Option.map_some]
        unfold File.ino
        rw [entry_div b hk, entry_mod b hk]
        rfl

/-- `dir_remove` clears the entry that `dir_lookup` finds. -/
theorem Shows.removeFrom (name : List UInt8) (b n : Nat) :
    (findFirst ((v.file dir).hit name) (16 * b) (16 * n) = none ∧
      Fs.removeFrom g d dir (v.inode dir) name b n = d) ∨
    ∃ e, findFirst ((v.file dir).hit name) (16 * b) (16 * n) = some e ∧
      v.blockZone dir (e / 16) ≠ 0 ∧
      Shows g (Fs.removeFrom g d dir (v.inode dir) name b n)
        (v.setData (v.blockZone dir (e / 16)) (clearDirent (v.block dir (e / 16)) (e % 16))) := by
  induction n generalizing b with
  | zero => exact .inl ⟨rfl, rfl⟩
  | succ n ih =>
    have hblock : ∀ k < 16, (v.file dir).hit name (16 * b + k) =
        direntMatches (v.block dir b) name k := by
      intro k hk
      unfold File.hit
      rw [entry_div b hk, entry_mod b hk]
      rfl
    rw [findFirst_block n hblock]
    simp only [Fs.removeFrom, h.mapBlock_read hr, h.readInto_block hr]
    by_cases hz : v.blockZone dir b = 0
    · have hnone : findFirst (direntMatches (v.block dir b) name) 0 16 = none := by
        rw [hr.block_of_no_zone hz, findFirst_eq_none]
        exact fun k _ _ ↦ direntMatches_zero name k
      rw [if_pos hz, hnone]
      exact ih (b + 1)
    · rw [if_neg hz]
      cases hf : findFirst (direntMatches (v.block dir b) name) 0 16 with
      | none => exact ih (b + 1)
      | some k =>
        obtain ⟨-, hk, -, -⟩ := findFirst_eq_some hf
        rw [Nat.zero_add] at hk
        refine .inr ⟨16 * b + k, rfl, ?_, ?_⟩
        · rwa [entry_div b hk]
        · rw [entry_div b hk, entry_mod b hk]
          exact h.blockWrite (hr.blockZone_range b) _

end Read

/-! ## Adding -/

/-- A directory without holes, whose size is a multiple of the block size. -/
structure Solid (v : View) (dir : Nat) : Prop where
  zone : ∀ {b}, b < nblocks (v.inode dir) → v.blockZone dir b ≠ 0
  size : (v.inode dir).iSize % 1024 = 0

theorem nblocks_attr (i : Inode) : nblocks i.attr = nblocks i := rfl

/-- A directory stays solid when its size stays and it loses no zone. -/
theorem Solid.keep {live : Nat → Prop} {v' : View} {ino : Nat} (h : Solid v dir)
    (ht : Touched g live ino v v') (hl : live dir) (hattr : (v'.file dir).attr = (v.file dir).attr)
    : Solid v' dir := by
  constructor
  · intro b hb
    have hn : nblocks (v'.file dir).attr = nblocks (v.file dir).attr := congrArg nblocks hattr
    rw [← nblocks_attr] at hb
    replace hb : b < nblocks (v.inode dir) := hb.trans_eq hn
    rw [ht.blockZone hl (h.zone hb)]
    exact h.zone hb
  · exact (congrArg (fun i : Inode ↦ i.iSize % 1024) hattr).trans h.size

/-- `f'` is `f` with one more line. -/
structure File.Added (f : File) (name : List UInt8) (ino : Nat) (f' : File) : Prop where
  attr : ∃ size, f'.attr = { f.attr with iSize := size }
  entry : ∃ e, f.entry e = none ∧ f'.entry = Function.update f.entry e (some (name.take 60, ino))

/-- There is no room for one more line: all lines are in use, and the block behind the last has
no zone and can get none. -/
structure Crowded (f : File) (dir : Nat) (v : View) : Prop where
  taken : ∀ e < f.cap, f.ino e ≠ 0
  no_zone : v.blockZone dir (nblocks f.attr) = 0
  why : Full v.zmap ∨ slotOf (nblocks f.attr) = none

section Add

variable {g : Superblock} {live : Nat → Prop} {d : Disk} {v : View} {dir : Nat} {S : Slot → Prop}
  {P : View → Prop} (hsup : Supply g live dir S P) (hl : live dir) (h : Shows g d v)
  (ho : Owned g live v) (hP : P v)
  (hS : ∀ s, slotOf (nblocks (v.inode dir)) = some s → ∀ t ∈ s.path, S t)

include hsup hl h ho hP hS

/-- Appending a block. -/
theorem Shows.appendEntry (name : List UInt8) (ino : Nat) :
    ∃ v', Shows g (Fs.appendEntry g d dir (v.inode dir) name ino (nblocks (v.inode dir))).2 v' ∧
      Touched g live dir v v' ∧ P v' ∧
      ((Fs.appendEntry g d dir (v.inode dir) name ino (nblocks (v.inode dir))).1 = true ∧
          v'.blockZone dir (nblocks (v.inode dir)) ≠ 0 ∧
          v'.file dir = (v.file dir).append name ino ∨
        (Fs.appendEntry g d dir (v.inode dir) name ino (nblocks (v.inode dir))).1 = false ∧
          v'.file dir = v.file dir ∧ v'.blockZone dir (nblocks (v.inode dir)) = 0 ∧
          (Full v'.zmap ∨ slotOf (nblocks (v.inode dir)) = none)) := by
  obtain ⟨v₁, hm, hres, hor⟩ := h.mapBlock (nblocks (v.inode dir)) ho hl hsup hP hS
  have hfile := hm.grown.file_eq ho hl
  simp only [Fs.appendEntry, hres, hm.inode]
  by_cases hz : v₁.blockZone dir (nblocks (v.inode dir)) = 0
  · rw [if_pos hz]
    exact ⟨v₁, hm.shows, hm.grown.touched ho, hm.supply,
      .inr ⟨rfl, hfile, hz, hor.resolve_left fun hc ↦ hc hz⟩⟩
  · rw [if_neg hz]
    have ho₁ := hm.grown.owned
    have hshows₂ := hm.shows.blockWrite
      ((ho₁.readable hl).blockZone_range (nblocks (v.inode dir)))
      (putDirent Bytes.zero 0 ino name)
    have ht₂ := ho₁.touched_write hl hz (putDirent Bytes.zero 0 ino name)
    have hfile₂ := ho₁.file_write hl hz (putDirent Bytes.zero 0 ino name) hl
    have hzone₂ := ho₁.zone_write hl hz (putDirent Bytes.zero 0 ino name)
    have hsupply₂ := hsup.congr hm.supply hzone₂ rfl
    have hinode₂ : (v₁.setData (v₁.blockZone dir (nblocks (v.inode dir)))
      (putDirent Bytes.zero 0 ino name)).inode dir = v₁.inode dir := rfl
    generalize v₁.setData _ _ = v₂ at hshows₂ ht₂ hfile₂ hsupply₂ hinode₂
    have hwf : ((v₁.inode dir).resize (wrap32 ((nblocks (v.inode dir) + 1) * 1024))).Wf :=
      (hm.shows.wf dir).resize (wrap32_lt _)
    have hi : ((v₁.inode dir).resize (wrap32 ((nblocks (v.inode dir) + 1) * 1024))).iZone =
      (v₂.inode dir).iZone := by rw [hinode₂, Inode.resize_iZone]
    refine ⟨_, (hshows₂.writeInode (ho.number hl) hwf).2,
      ((hm.grown.touched ho).trans ht₂).trans (ht₂.owned.touched_setInode hi),
      hsup.congr hsupply₂ (zone_setInode v₂ hi dir) rfl, .inl ⟨rfl, ?_, ?_⟩⟩
    · rw [blockZone_setInode v₂ hi, ht₂.blockZone hl hz]
      exact hz
    · rw [file_setInode v₂ hi, update_self, hfile₂, update_self, hfile]
      have hattr : (v₁.inode dir).attr = (v.inode dir).attr := congrArg File.attr hfile
      exact File.ext (congrArg (fun i : Inode ↦
        i.resize (wrap32 ((nblocks (v.inode dir) + 1) * 1024))) hattr) rfl

/-- The loop of `dir_add`: the first entry that is not in use, or a new block. -/
theorem Shows.addFrom (hsolid : ∀ {b}, b < nblocks (v.inode dir) → v.blockZone dir b ≠ 0)
    (name : List UInt8) (ino : Nat) (hbn : b + n = nblocks (v.inode dir))
    (hfull : ∀ e < 16 * b, (v.file dir).ino e ≠ 0) :
    ∃ v', Shows g (Fs.addFrom g dir name ino b n d (v.inode dir)).2 v' ∧
      Touched g live dir v v' ∧ P v' ∧
      ((Fs.addFrom g dir name ino b n d (v.inode dir)).1 = true ∧
          (∃ e < (v.file dir).cap, (v.file dir).ino e = 0 ∧
            v'.file dir = (v.file dir).setBlock (e / 16)
              (putDirent ((v.file dir).block (e / 16)) (e % 16) ino name)) ∧
          v'.zmap = v.zmap ∨
        (∀ e < (v.file dir).cap, (v.file dir).ino e ≠ 0) ∧
          ((Fs.addFrom g dir name ino b n d (v.inode dir)).1 = true ∧
              v'.blockZone dir (nblocks (v.inode dir)) ≠ 0 ∧
              v'.file dir = (v.file dir).append name ino ∨
            (Fs.addFrom g dir name ino b n d (v.inode dir)).1 = false ∧
              v'.file dir = v.file dir ∧ Crowded (v.file dir) dir v')) := by
  induction n generalizing b with
  | zero =>
    obtain rfl : b = nblocks (v.inode dir) := hbn
    obtain ⟨v', hshows, ht, hP', hres⟩ := h.appendEntry hsup hl ho hP hS name ino
    refine ⟨v', hshows, ht, hP', .inr ⟨hfull, hres.imp_right ?_⟩⟩
    rintro ⟨hfalse, hfile, hz, hwhy⟩
    exact ⟨hfalse, hfile, hfull, hz, hwhy⟩
  | succ n ih =>
    have hb : b < nblocks (v.inode dir) := by omega
    have hr := ho.readable hl
    have hz := hsolid hb
    simp only [Fs.addFrom, h.mapBlock_eq hr fun _ ↦ hz, h.readInto_block hr]
    cases hf : findFirst (fun k ↦ decide (direntIno (v.block dir b) k = 0)) 0 16 with
    | none =>
      refine ih (b := b + 1) (by omega) fun e he ↦ ?_
      by_cases he' : e < 16 * b
      · exact hfull e he'
      · have hk : e - 16 * b < 16 := by omega
        obtain ⟨k, rfl⟩ : ∃ k, e = 16 * b + k := ⟨e - 16 * b, by omega⟩
        have hnot := findFirst_eq_none.mp hf k (Nat.zero_le k) (by omega)
        unfold File.ino
        rw [entry_div b (by omega), entry_mod b (by omega)]
        exact decide_eq_false_iff_not.mp hnot
    | some k =>
      obtain ⟨-, hk, hfree, -⟩ := findFirst_eq_some hf
      rw [Nat.zero_add] at hk
      have hwrite := ho.file_write hl hz (putDirent (v.block dir b) k ino name) hl
      refine ⟨_, h.blockWrite (hr.blockZone_range b) _, ho.touched_write hl hz _,
        hsup.congr hP (ho.zone_write hl hz _) rfl,
        .inl ⟨rfl, ⟨16 * b + k, ?_, ?_, ?_⟩, rfl⟩⟩
      · change 16 * b + k < 16 * nblocks (v.inode dir)
        omega
      · unfold File.ino
        rw [entry_div b hk, entry_mod b hk]
        exact decide_eq_true_iff.mp hfree
      · rw [hwrite, update_self, entry_div b hk, entry_mod b hk]
        rfl

/-- `dir_add` writes one line of the register, or fails and changes no file. -/
theorem Shows.dirAdd (hsolid : Solid v dir) {name : List UInt8} (hname : IsCString name)
    {ino : Nat} (hpos : ino ≠ 0) (hlt : ino < 2 ^ 32) :
    ∃ v', Shows g (Fs.dirAdd g d dir name ino).2 v' ∧ Touched g live dir v v' ∧ P v' ∧
      Solid v' dir ∧
      ((Fs.dirAdd g d dir name ino).1 = true ∧ (v.file dir).Added name ino (v'.file dir) ∧
          ((∀ e < (v.file dir).cap, (v.file dir).ino e ≠ 0) ∨ v'.zmap = v.zmap) ∨
        (Fs.dirAdd g d dir name ino).1 = false ∧ v'.file dir = v.file dir ∧
          Crowded (v.file dir) dir v') := by
  rw [Fs.dirAdd, h.readInode (ho.number hl)]
  obtain ⟨v', hshows, ht, hP', hcases⟩ := h.addFrom hsup hl ho hP hS hsolid.zone name ino
    (Nat.zero_add (nblocks (v.inode dir))) fun e he ↦ absurd he (Nat.not_lt_zero e)
  refine ⟨v', hshows, ht, hP', ?_⟩
  have hkeep : (v'.file dir).attr = (v.file dir).attr → Solid v' dir := hsolid.keep ht hl
  rcases hcases with ⟨hres, ⟨e, he, hfree, hfile⟩, hzmap⟩ |
    ⟨htaken, ⟨hres, hz, hfile⟩ | ⟨hres, hfile, hcrowded⟩⟩
  · refine ⟨hkeep (by rw [hfile]; rfl), .inl ⟨hres, ?_, .inr hzmap⟩⟩
    rw [hfile]
    exact ⟨⟨_, rfl⟩, e, (File.entry_eq_none he).mpr hfree, File.entry_put he hpos hlt hname⟩
  · obtain ⟨s, hs, -⟩ := slotOf_of_blockZone hz
    have hn : nblocks (v.file dir).attr < 2 ^ 22 - 1 := (lt_of_slotOf hs).trans (by decide)
    have hn' : nblocks (v'.inode dir) = nblocks (v.inode dir) + 1 := by
      rw [← nblocks_attr]
      exact (congrArg (fun f : File ↦ nblocks f.attr) hfile).trans (File.nblocks_append hn ..)
    refine ⟨⟨fun {b} hb ↦ ?_, ?_⟩, .inl ⟨hres, ?_, .inl htaken⟩⟩
    · by_cases hb' : b = nblocks (v.inode dir)
      · rwa [hb']
      · have hlt : b < nblocks (v.inode dir) := by omega
        rw [ht.blockZone hl (hsolid.zone hlt)]
        exact hsolid.zone hlt
    · have hsize : (v'.inode dir).iSize = wrap32 ((nblocks (v.inode dir) + 1) * 1024) :=
        congrArg (fun f : File ↦ f.attr.iSize) hfile
      rw [hsize, wrap32]
      omega
    · rw [hfile]
      exact ⟨⟨_, rfl⟩, _, File.entry_of_cap_le le_rfl, File.entry_append hn hpos hlt hname⟩
  · exact ⟨hkeep (by rw [hfile]), .inr ⟨hres, hfile, hcrowded⟩⟩

end Add

section Any

variable {g : Superblock} {live : Nat → Prop} {d : Disk} {v : View} {dir : Nat}
  (h : Shows g d v) (ho : Owned g live v) (hl : live dir)

include h ho hl

/-- A hole is taken for a block of blank lines, so `dir_add` does not get past it. -/
theorem Shows.addFrom_hole (hp : Padded g v) (name : List UInt8) (ino : Nat)
    (hhole : ∃ b', b ≤ b' ∧ b' < b + n ∧ v.blockZone dir b' = 0) :
    (Fs.addFrom g dir name ino b n d (v.inode dir)).1 = true := by
  have hr := ho.readable hl
  induction n generalizing b with
  | zero =>
    obtain ⟨b', hlo, hhi, -⟩ := hhole
    omega
  | succ n ih =>
    rw [Fs.addFrom]
    by_cases hz : v.blockZone dir b = 0
    · obtain ⟨v', hm, hres, -⟩ := h.mapBlock b ho hl (Padded.supply g live dir fun _ ↦ True) hp
        fun _ _ _ _ ↦ trivial
      have hblock : v'.block dir b = Bytes.zero := by
        have hfile := hm.grown.file_eq ho hl
        exact (congrFun (congrArg File.block hfile) b).trans (hr.block_of_no_zone hz)
      have hfirst : findFirst (fun k ↦ decide (direntIno Bytes.zero k = 0)) 0 16 = some 0 := by
        decide
      simp only [hres, hm.shows.readInto_block (hm.grown.owned.readable hl), hblock, hfirst]
    · simp only [h.mapBlock_eq hr fun _ ↦ hz, h.readInto_block hr]
      cases findFirst (fun k ↦ decide (direntIno (v.block dir b) k = 0)) 0 16 with
      | some k => rfl
      | none =>
        obtain ⟨b', hlo, hhi, hz'⟩ := hhole
        refine ih ⟨b', ?_, by omega, hz'⟩
        have hne : b' ≠ b := by
          rintro rfl
          exact hz hz'
        omega

/-- If `dir_add` fails, be it on a directory or not, it has changed no file. -/
theorem Shows.dirAdd_fails (hp : Padded g v) {S : Slot → Prop} {P : View → Prop}
    (hsup : Supply g live dir S P) (hP : P v)
    (hS : ∀ s, slotOf (nblocks (v.inode dir)) = some s → ∀ t ∈ s.path, S t) {name : List UInt8}
    {ino : Nat} (hfalse : (Fs.dirAdd g d dir name ino).1 = false) :
    ∃ v', Shows g (Fs.dirAdd g d dir name ino).2 v' ∧ Touched g live dir v v' ∧ P v' ∧
      v'.file dir = v.file dir ∧ Crowded (v.file dir) dir v' := by
  rw [Fs.dirAdd, h.readInode (ho.number hl)] at hfalse ⊢
  have hsolid : ∀ {b}, b < nblocks (v.inode dir) → v.blockZone dir b ≠ 0 := by
    intro b hb hz
    have htrue := h.addFrom_hole ho hl hp name ino (b := 0) (n := nblocks (v.inode dir))
      ⟨b, Nat.zero_le b, by omega, hz⟩
    exact Bool.false_ne_true (hfalse.symm.trans htrue)
  obtain ⟨v', hshows, ht, hP', hcases⟩ := h.addFrom hsup hl ho hP hS hsolid name ino
    (Nat.zero_add (nblocks (v.inode dir))) fun e he ↦ absurd he (Nat.not_lt_zero e)
  rcases hcases with ⟨htrue, -⟩ | ⟨-, ⟨htrue, -⟩ | ⟨-, hfile, hcrowded⟩⟩
  · exact absurd (hfalse.symm.trans htrue) Bool.false_ne_true
  · exact absurd (hfalse.symm.trans htrue) Bool.false_ne_true
  · exact ⟨v', hshows, ht, hP', hfile, hcrowded⟩

end Any

/-! ## Removing -/

/-- `f'` is `f` with a line blanked. -/
structure File.Removed (f : File) (e : Nat) (f' : File) : Prop where
  attr : f'.attr = f.attr
  entry : f'.entry = Function.update f.entry e none

/-- `dir_remove` blanks the line that `dir_lookup` finds. -/
theorem Shows.dirRemove {live : Nat → Prop} {d : Disk} (h : Shows g d v) (ho : Owned g live v)
    (hl : live dir) {name : List UInt8} (hname : IsCString name) :
    ((∀ i, ¬Records (v.file dir).entry (name.take 60) i) ∧ Fs.dirRemove g d dir name = d) ∨
    ∃ e v', FirstWith (v.file dir).entry (name.take 60) e ∧
      (v.file dir).Removed e (v'.file dir) ∧ Shows g (Fs.dirRemove g d dir name) v' ∧
      Touched g live dir v v' ∧ (∀ s, v'.zone dir s = v.zone dir s) ∧ v'.zmap = v.zmap := by
  rw [Fs.dirRemove, h.readInode (ho.number hl)]
  rcases h.removeFrom (ho.readable hl) name 0 (nblocks (v.inode dir))
    with ⟨hnone, heq⟩ | ⟨e, hsome, hz, hw⟩
  · refine .inl ⟨(File.find_eq_none hname).mp ?_, heq⟩
    exact Option.map_eq_none_iff.mpr hnone
  · have hfirst := (File.firstWith_of_findFirst hname hsome).1
    refine .inr ⟨e, _, hfirst, ?_, hw, ho.touched_write hl hz _, ho.zone_write hl hz _, rfl⟩
    rw [ho.file_write hl hz _ hl, update_self]
    exact ⟨rfl, File.entry_clear ..⟩

end FentoOS.Fs
