import FentoOS.Fs.Paths
import FentoOS.Lib.Run

/-!
# A directory is a finite map

The calls of `dir_add` and `dir_remove` on one directory, in any order, keep its
register free of double names.  So the directory stands for a finite map from names
to inode numbers, and `dir_lookup` and `minixfs_readdir` are its two views: the one
evaluates the map at a name, the other enumerates it.

Nothing is asked of the rest of the disk but that the directory's own zones are its
own, that the padding of the zone map is set and that block `0` is zero.
-/

namespace FentoOS.Fs

open FentoOS.Lib

/-- A name that an entry can hold: 1 to 60 bytes, none of them zero. -/
structure IsName (name : List UInt8) : Prop where
  cstring : IsCString name
  ne_nil : name ≠ []
  length_le : name.length ≤ 60

theorem IsName.take (h : IsName name) : name.take 60 = name :=
  List.take_of_length_le h.length_le

instance (name : List UInt8) : Decidable (IsName name) :=
  decidable_of_iff (IsCString name ∧ name ≠ [] ∧ name.length ≤ 60)
    ⟨fun h ↦ ⟨h.1, h.2.1, h.2.2⟩, fun h ↦ ⟨h.cstring, h.ne_nil, h.length_le⟩⟩

/-- A well-formed directory: no holes, a size that is a multiple of the block size, and
pairwise distinct names among the entries in use. -/
structure GoodDir (g : Superblock) (dir : Nat) (d : Disk) (v : View) : Prop where
  shows : Shows g d v
  owned : Owned g (· = dir) v
  padded : Padded g v
  isDir : (v.file dir).attr.isDir
  solid : Solid v dir
  distinct : Distinct (v.file dir).entry
  named : ∀ {name i}, Records (v.file dir).entry name i → name ≠ []

variable {f : File} {s : DirState}

section

variable {g : Superblock} {dir : Nat} {d : Disk} {v : View} {name : List UInt8} {i : Nat}

theorem File.isName_of_records (h : Records f.entry name i) (hne : name ≠ []) : IsName name := by
  obtain ⟨e, he⟩ := h
  obtain ⟨-, -, rfl, -⟩ := File.entry_eq_some.mp he
  exact ⟨strIn_isCString _ _, hne, strIn_length_le _ _⟩

/-- Without double names, the first line with a name is the only one. -/
theorem File.find_iff_records (hd : Distinct f.entry) (hname : IsName name) :
    f.find name = some i ↔ Records f.entry name i := by
  rw [File.find_eq_some hname.cstring, hname.take]
  constructor
  · rintro ⟨e, -, he⟩
    exact ⟨e, he⟩
  · rintro ⟨e, he⟩
    refine ⟨e, ⟨⟨i, he⟩, fun e' he' a ha ↦ ?_⟩, he⟩
    exact absurd (hd ha he) (Nat.ne_of_lt he')

theorem GoodDir.dirLookup (h : GoodDir g dir d v) (hname : IsName name) :
    dirLookup g d dir name = some i ↔ Records (v.file dir).entry name i := by
  rw [h.shows.dirLookup (h.owned.readable rfl), if_pos h.isDir,
    File.find_iff_records h.distinct hname]

/-! ## One call -/

theorem GoodDir.dirAdd (h : GoodDir g dir d v) (hname : IsName name) {ino : Nat} (hpos : ino ≠ 0)
    (hlt : ino < 2 ^ 32) (hnew : Fs.dirLookup g d dir name = none)
    (hok : (dirAdd g d dir name ino).1 = true) :
    ∃ v', GoodDir g dir (dirAdd g d dir name ino).2 v' ∧
      ∀ name' i, Records (v'.file dir).entry name' i ↔
        Records (v.file dir).entry name' i ∨ name' = name ∧ i = ino := by
  have hnot : ∀ i, ¬Records (v.file dir).entry name i := by
    intro i hi
    rw [(h.dirLookup hname).mpr hi] at hnew
    cases hnew
  obtain ⟨v', hshows, ht, hP, hsolid, ⟨-, hadd, -⟩ | ⟨hfail, -⟩⟩ :=
    h.shows.dirAdd (Padded.supply g (· = dir) dir fun _ ↦ True) rfl h.owned h.padded
      (fun _ _ _ _ ↦ trivial) h.solid hname.cstring hpos hlt
  · obtain ⟨size, hattr⟩ := hadd.attr
    obtain ⟨e, hblank, hentry⟩ := hadd.entry
    rw [hname.take] at hentry
    have hlists : ∀ name' i, Records (v'.file dir).entry name' i ↔
        Records (v.file dir).entry name' i ∨ name' = name ∧ i = ino := by
      intro name' i
      rw [hentry, records_put hblank]
    refine ⟨v', ⟨hshows, ht.owned, hP, ?_, hsolid, ?_, ?_⟩, hlists⟩
    · rw [hattr]
      exact h.isDir
    · rw [hentry]
      exact h.distinct.put hnot
    · intro name' i hi
      rcases (hlists name' i).mp hi with hi | ⟨rfl, -⟩
      · exact h.named hi
      · exact hname.ne_nil
  · rw [hok] at hfail
    cases hfail

theorem GoodDir.dirRemove (h : GoodDir g dir d v) (hname : IsName name) :
    ∃ v', GoodDir g dir (dirRemove g d dir name) v' ∧
      ∀ name' i, Records (v'.file dir).entry name' i ↔
        Records (v.file dir).entry name' i ∧ name' ≠ name := by
  rcases h.shows.dirRemove h.owned rfl hname.cstring with
    ⟨hnone, heq⟩ | ⟨e, v', hfirst, hrem, hshows, ht, hzone, hzmap⟩
  · rw [hname.take] at hnone
    refine ⟨v, heq.symm ▸ h, fun name' i ↦ ⟨fun hi ↦ ⟨hi, ?_⟩, And.left⟩⟩
    rintro rfl
    exact hnone i hi
  · rw [hname.take] at hfirst
    obtain ⟨a, ha⟩ := hfirst.1
    have hlists : ∀ name' i, Records (v'.file dir).entry name' i ↔
        Records (v.file dir).entry name' i ∧ name' ≠ name := by
      intro name' i
      rw [hrem.entry, h.distinct.records_blank ha]
    refine ⟨v', ⟨hshows, ht.owned, h.padded.mono ht.zmap, ?_, h.solid.keep ht rfl hrem.attr, ?_,
      ?_⟩, hlists⟩
    · rw [hrem.attr]
      exact h.isDir
    · rw [hrem.entry]
      exact h.distinct.blank
    · intro name' i hi
      exact h.named ((hlists name' i).mp hi).1

/-! ## Listing -/

/-- The numbers of the entries in use, in ascending order. -/
def File.lines (f : File) : List Nat := (List.range' 0 f.cap).filter fun e ↦ f.ino e ≠ 0

/-- The entries in use, in the order of the lines. -/
def File.listing (f : File) : List (List UInt8 × Nat) := f.lines.map fun e ↦ (f.name e, f.ino e)

theorem File.mem_listing : (name, i) ∈ f.listing ↔ Records f.entry name i := by
  unfold File.listing File.lines Records
  simp only [List.mem_map, List.mem_filter, List.mem_range'_1, Nat.zero_le, true_and, Nat.zero_add,
    decide_eq_true_eq, Prod.mk.injEq, File.entry_eq_some]
  constructor
  · rintro ⟨e, ⟨he, hi⟩, rfl, rfl⟩
    exact ⟨e, he, hi, rfl, rfl⟩
  · rintro ⟨e, he, hi, rfl, rfl⟩
    exact ⟨e, ⟨he, hi⟩, rfl, rfl⟩

theorem File.listing_nodup (h : Distinct f.entry) : f.listing.Nodup := by
  refine List.Nodup.map_on ?_ ((List.nodup_range').filter _)
  intro e he e' he' heq
  simp only [File.lines, List.mem_filter, List.mem_range'_1, Nat.zero_le, true_and, Nat.zero_add,
    decide_eq_true_eq] at he he'
  obtain ⟨hn, -⟩ := Prod.mk.inj heq
  exact h (File.entry_eq_some.mpr ⟨he.1, he.2, rfl, rfl⟩)
    (File.entry_eq_some.mpr ⟨he'.1, he'.2, hn.symm, rfl⟩)

/-- `minixfs_readdir` enumerates a list: it returns the inode number and the name with number
`index`, and `-1` behind the end. -/
structure IsListing (fs : Minixfs) (dir : Nat) (l : List (List UInt8 × Nat)) : Prop where
  entry : ∀ {index name ino}, l[index]? = some (name, ino) → ∀ out,
    (minixfsReaddir fs dir index out).1 = 1 ∧ (minixfsReaddir fs dir index out).2.dIno = ino ∧
      strIn (minixfsReaddir fs dir index out).2.dName 61 = name
  stop : ∀ {index}, l[index]? = none → ∀ out, minixfsReaddir fs dir index out = (-1, out)

theorem GoodDir.minixfsReaddir (h : GoodDir g dir d v) {fs : Minixfs} (hg : fs.sb = g)
    (hd : fs.disk = d) (index : Nat) (out : Dirent) :
    minixfsReaddir fs dir index out = ((v.file dir).lines[index]?).elim (-1, out) fun e ↦
      (1, { dIno := (v.file dir).ino e, dName := (strncpy out.dName 0
        (direntName ((v.file dir).block (e / 16)) (e % 16)) 60).put8 60 0 }) := by
  subst hg hd
  have hfrom := h.shows.readdirFrom (h.owned.readable rfl) index 0 (nblocks (v.inode dir)) 0
  rw [findNth_getLeft _ (Nat.zero_le _)] at hfrom
  change _ = Option.map _ (v.file dir).lines[index]? at hfrom
  have hdir : (v.inode dir).isDir := h.isDir
  rw [Fs.minixfsReaddir, h.shows.readInode (h.owned.number rfl)]
  simp only [hdir, not_true_eq_false, if_false, hfrom]
  cases (v.file dir).lines[index]? <;> rfl

theorem GoodDir.isListing (h : GoodDir g dir d v) {fs : Minixfs} (hg : fs.sb = g)
    (hd : fs.disk = d) : IsListing fs dir (v.file dir).listing := by
  unfold File.listing
  constructor
  · intro index name ino hentry out
    rw [List.getElem?_map] at hentry
    obtain ⟨e, he, heq⟩ := Option.map_eq_some_iff.mp hentry
    obtain ⟨rfl, rfl⟩ := Prod.mk.inj heq
    rw [h.minixfsReaddir hg hd, he]
    refine ⟨rfl, rfl, ?_⟩
    have hcopy := strIn_strncpy out.dName 0
      (direntName ((v.file dir).block (e / 16)) (e % 16)) 60
    refine (strIn_succ (Bytes.put8_same ..)).trans (Eq.trans (strIn_congr fun j hj ↦ ?_) hcopy)
    rw [Bytes.put8_of_ne _ _ (Nat.ne_of_lt hj), Nat.zero_add]
  · intro index hnone out
    rw [List.getElem?_map] at hnone
    rw [h.minixfsReaddir hg hd, Option.map_eq_none_iff.mp hnone]
    rfl

/-! ## Runs -/

/-- A call on the directory. -/
inductive DirCall
  | add (name : List UInt8) (ino : Nat)
  | remove (name : List UInt8)

/-- The name that a call is about. -/
def DirCall.target : DirCall → List UInt8
  | add name _ => name
  | remove name => name

/-- A disk, and the names that have been added to the directory and not been removed since, each
with the inode last added for it. -/
structure DirState where
  disk : Disk
  map : List UInt8 → Option Nat

/-- The calls: `dir_add` of a name for which `dir_lookup` has just failed, if it succeeds, and
`dir_remove`. -/
inductive DirStep (g : Superblock) (dir : Nat) : DirState → DirCall → DirState → Prop
  | add {s : DirState} {name : List UInt8} {ino : Nat} (hname : IsName name) (hpos : ino ≠ 0)
      (hlt : ino < 2 ^ 32) (hnew : Fs.dirLookup g s.disk dir name = none)
      (hok : (Fs.dirAdd g s.disk dir name ino).1 = true) :
      DirStep g dir s (.add name ino)
        ⟨(Fs.dirAdd g s.disk dir name ino).2, Function.update s.map name (some ino)⟩
  | remove {s : DirState} {name : List UInt8} (hname : IsName name) :
      DirStep g dir s (.remove name)
        ⟨Fs.dirRemove g s.disk dir name, Function.update s.map name none⟩

/-- A well-formed directory, and the map that it holds. -/
structure DirStart (g : Superblock) (dir : Nat) (s : DirState) : Prop where
  good : GoodDir g dir s.disk (view g s.disk)
  map : s.map = Fs.dirLookup g s.disk dir

/-- The directory holds the map. -/
def Holds (g : Superblock) (dir : Nat) (s : DirState) : Prop :=
  ∃ v, GoodDir g dir s.disk v ∧
    ∀ name, IsName name → ∀ i, s.map name = some i ↔ Records (v.file dir).entry name i

theorem Holds.step {s' : DirState} {c : DirCall} (h : Holds g dir s) (hstep : DirStep g dir s c s')
    : Holds g dir s' := by
  obtain ⟨v, hgood, hmap⟩ := h
  cases hstep with
  | @add name ino hname hpos hlt hnew hok =>
    obtain ⟨v', hgood', hrec⟩ := hgood.dirAdd hname hpos hlt hnew hok
    refine ⟨v', hgood', fun name' hname' i ↦ ?_⟩
    rw [hrec]
    by_cases heq : name' = name
    · subst heq
      have hnot : ¬Records (v.file dir).entry name' i := by
        intro hi
        rw [(hgood.dirLookup hname).mpr hi] at hnew
        cases hnew
      simp [hnot, eq_comm]
    · simp [heq, hmap name' hname']
  | @remove name hname =>
    obtain ⟨v', hgood', hrec⟩ := hgood.dirRemove hname
    refine ⟨v', hgood', fun name' hname' i ↦ ?_⟩
    rw [hrec]
    by_cases heq : name' = name
    · subst heq
      simp
    · simp [heq, hmap name' hname']

theorem DirStart.holds (h : DirStart g dir s) : Holds g dir s :=
  ⟨view g s.disk, h.good, fun name hname i ↦ by rw [h.map, h.good.dirLookup hname]⟩

theorem Holds.dirLookup (h : Holds g dir s) (hname : IsName name) :
    Fs.dirLookup g s.disk dir name = s.map name := by
  obtain ⟨v, hgood, hmap⟩ := h
  ext i
  rw [hgood.dirLookup hname, hmap name hname]

/-- What makes a directory a finite map: `dir_lookup` evaluates it, the names are pairwise
distinct, and `minixfs_readdir` enumerates it. -/
structure IsMap (g : Superblock) (dir : Nat) (s : DirState) : Prop where
  lookup : ∀ {name}, IsName name → Fs.dirLookup g s.disk dir name = s.map name
  distinct : Distinct ((view g s.disk).file dir).entry
  listing : ∃ l : List (List UInt8 × Nat), l.Nodup ∧
    (∀ {name ino}, (name, ino) ∈ l ↔ IsName name ∧ s.map name = some ino) ∧
    ∀ fs : Minixfs, fs.sb = g → fs.disk = s.disk → IsListing fs dir l

theorem Holds.isMap (h : Holds g dir s) : IsMap g dir s where
  lookup := h.dirLookup
  distinct := by
    obtain ⟨v, hgood, -⟩ := h
    rw [hgood.shows.view]
    exact hgood.distinct
  listing := by
    obtain ⟨v, hgood, hmap⟩ := h
    refine ⟨(v.file dir).listing, File.listing_nodup hgood.distinct, ?_,
      fun fs hg hd ↦ hgood.isListing hg hd⟩
    intro name ino
    rw [File.mem_listing]
    constructor
    · intro hrec
      have hname := File.isName_of_records hrec (hgood.named hrec)
      exact ⟨hname, (hmap name hname ino).mpr hrec⟩
    · rintro ⟨hname, hm⟩
      exact (hmap name hname ino).mp hm

/-- **A directory is a finite map from names to inodes.**  After any sequence of calls, it holds
exactly the names added and not removed since; and no call changes what is found for another
name. -/
theorem directory_is_map {s : DirState} (h : Reach (DirStart g dir) (DirStep g dir) s) :
    IsMap g dir s ∧ ∀ c s', DirStep g dir s c s' → ∀ name, IsName name → name ≠ c.target →
      Fs.dirLookup g s'.disk dir name = Fs.dirLookup g s.disk dir name := by
  have hholds : Holds g dir s :=
    h.invariant (fun _ ↦ DirStart.holds) fun _ _ _ hs hstep ↦ hs.step hstep
  refine ⟨hholds.isMap, fun c s' hstep name hname hne ↦ ?_⟩
  rw [(hholds.step hstep).dirLookup hname, hholds.dirLookup hname]
  cases hstep with
  | add => exact Function.update_of_ne hne ..
  | remove => exact Function.update_of_ne hne ..

end

theorem sample_zone (s : Slot) :
    (view sampleSb sampleDisk).zone 1 s = if s = .top 0 then 5 else 0 := by
  have hword : ∀ j, (view sampleSb sampleDisk).word 0 j = 0 := fun j ↦ rfl
  cases s with
  | top k =>
    change ((view sampleSb sampleDisk).inode 1).iZone k = _
    rw [sample_inode]
    by_cases hk : k = 0
    · subst hk
      rfl
    · have hk' : (k : Nat) ≠ 0 := fun hc ↦ hk (Fin.ext hc)
      rw [if_neg fun hc ↦ hk (Slot.top.inj hc)]
      exact if_neg hk'
  | ind j =>
    change (view sampleSb sampleDisk).word (((view sampleSb sampleDisk).inode 1).iZone 7) j = _
    rw [sample_inode]
    exact hword j
  | dbl j =>
    change (view sampleSb sampleDisk).word (((view sampleSb sampleDisk).inode 1).iZone 8) j = _
    rw [sample_inode]
    exact hword j
  | sng j k =>
    change (view sampleSb sampleDisk).word ((view sampleSb sampleDisk).word
      (((view sampleSb sampleDisk).inode 1).iZone 8) j) k = _
    rw [sample_inode]
    change (view sampleSb sampleDisk).word ((view sampleSb sampleDisk).word 0 j) k = _
    rw [hword, hword]
    rfl

/-- The root directory owns its block. -/
theorem sample_owned {live : Nat → Prop} (hlive : ∀ ino, live ino → ino = 1) :
    Owned sampleSb live (view sampleSb sampleDisk) := by
  have hown : ∀ {o z}, own live (view sampleSb sampleDisk) o = some z →
      o = (1, .top 0) ∧ z = 5 := by
    rintro ⟨ino, s⟩ z ho
    obtain ⟨hl, rfl, hz⟩ := own_eq_some.mp ho
    obtain rfl := hlive ino hl
    rw [sample_zone] at hz ⊢
    split at hz
    case isTrue hs =>
      subst hs
      exact ⟨rfl, rfl⟩
    case isFalse => exact absurd rfl hz
  refine ⟨⟨fun ho ↦ ?_, fun h₁ h₂ ↦ (hown h₁).1.trans (hown h₂).1.symm⟩, rfl, fun hl ↦ ?_⟩
  · obtain ⟨-, rfl⟩ := hown ho
    exact ⟨by decide, by decide⟩
  · obtain rfl := hlive _ hl
    decide

/-- In a byte with all bits set, every bit is set. -/
theorem testBit_255 (n : Nat) : (255 : UInt8).toNat.testBit (n % 8) = true := by
  have hall : ∀ k < 8, (255 : UInt8).toNat.testBit k = true := by decide
  exact hall _ (Nat.mod_lt _ (by decide))

/-- A map of one block, all of whose bytes from `lim` on have all bits set. -/
theorem mapBit_of_full {d : Disk} {start lim : Nat} {P : Nat → Prop}
    (hlow : ∀ k < 8 * lim, (d.block start).testBit k = false → P k)
    (hhigh : ∀ j, lim ≤ j → d.block start j = 255) {n : Nat} (h : mapBit d start 1 n = false) :
    P n := by
  unfold mapBit at h
  split at h
  case isFalse => cases h
  case isTrue hlt =>
    rw [Nat.div_eq_of_lt hlt, Nat.mod_eq_of_lt hlt, Nat.add_zero] at h
    by_cases hbyte : n / 8 < lim
    · exact hlow n (by omega) h
    · have hset : (d.block start).testBit n = true := by
        unfold Bytes.testBit
        rw [hhigh _ (not_lt.mp hbyte)]
        exact testBit_255 n
      rw [hset] at h
      cases h

theorem sample_padded : Padded sampleSb (view sampleSb sampleDisk) := by
  intro n hn
  have hlow : ∀ k < 8 * 1, (sampleDisk.block 3).testBit k = false → 1 ≤ k ∧ k ≤ 9 - 5 := by decide
  refine mapBit_of_full hlow ?_ hn
  intro j hj
  exact if_neg (by omega)

theorem sample_solid : Solid (view sampleSb sampleDisk) 1 := by
  have hn : nblocks ((view sampleSb sampleDisk).inode 1) = 1 := by rw [sample_inode]; rfl
  constructor
  · intro b hb
    rw [hn] at hb
    obtain rfl : b = 0 := Nat.lt_one_iff.mp hb
    change (view sampleSb sampleDisk).zone 1 (.top 0) ≠ 0
    rw [sample_zone, if_pos rfl]
    decide
  · rw [sample_inode]
    rfl

theorem sample_entry (e : Nat) : ((view sampleSb sampleDisk).file 1).entry e =
    if e = 0 then some (dot, 1) else if e = 1 then some (dotdot, 1) else none := by
  have hcap : ((view sampleSb sampleDisk).file 1).cap = 16 := by
    change 16 * nblocks ((view sampleSb sampleDisk).inode 1) = 16
    rw [sample_inode]
    rfl
  by_cases he : e < 16
  · have hall : ∀ e < 16, ((view sampleSb sampleDisk).file 1).entry e =
        if e = 0 then some (dot, 1) else if e = 1 then some (dotdot, 1) else none := by
      decide
    exact hall e he
  · rw [File.entry_of_cap_le (by omega), if_neg (by omega), if_neg (by omega)]

theorem sample_goodDir : GoodDir sampleSb 1 sampleDisk (view sampleSb sampleDisk) where
  shows := sample_shows
  owned := sample_owned fun _ h ↦ h
  padded := sample_padded
  isDir := by decide
  solid := sample_solid
  distinct := by
    intro e e' k a a' h h'
    rw [sample_entry] at h h'
    split_ifs at h h' with h₁ h₂ h₃ h₄ h₅ h₆
    · exact h₁.trans h₂.symm
    · cases h
      cases h'
    · cases h
      cases h'
    · exact h₄.trans h₆.symm
  named := by
    rintro name i ⟨e, he⟩
    rw [sample_entry] at he
    split_ifs at he
    · cases he
      decide
    · cases he
      decide

/-- A name of 60 bytes. -/
def sampleName : List UInt8 := List.replicate 60 97

/-- The root directory of the small disk after a name of 60 bytes has been added. -/
def sampleAdded : DirState where
  disk := (dirAdd sampleSb sampleDisk 1 sampleName 7).2
  map := Function.update (dirLookup sampleSb sampleDisk 1) sampleName (some 7)

theorem directory_is_map_added : IsMap sampleSb 1 sampleAdded ∧
    ∀ c s', DirStep sampleSb 1 sampleAdded c s' → ∀ name, IsName name → name ≠ c.target →
      dirLookup sampleSb s'.disk 1 name = dirLookup sampleSb sampleAdded.disk 1 name := by
  have hstart : DirStart sampleSb 1 ⟨sampleDisk, dirLookup sampleSb sampleDisk 1⟩ :=
    ⟨sample_goodDir, rfl⟩
  have hadd : DirStep sampleSb 1 ⟨sampleDisk, dirLookup sampleSb sampleDisk 1⟩
      (.add sampleName 7) sampleAdded :=
    .add (by decide) (by decide) (by decide) (by decide) (by decide)
  exact directory_is_map ((Reach.init hstart).step hadd)

end FentoOS.Fs
