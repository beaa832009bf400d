import FentoOS.Fs.Image
import FentoOS.Lib.Hierarchy

/-!
# The directory tree

The files of a volume form a hierarchy, with the entries of the directories for lines, inode
`1` for its root and `.` and `..` for the special names.  A file system is well formed if it
is sound and this hierarchy is a tree.

All paths lead to inodes of the tree, because the lookups along a path go from one of its
directories to what an entry of it names.
-/

namespace FentoOS.Fs

open FentoOS.Lib

/-- The hierarchy of the files of a volume. -/
def Volume.hierarchy (F : Volume) : Hierarchy Nat (List UInt8) where
  line d e := (F d).bind fun f ↦ if f.attr.isDir then f.entry e else none
  IsDir d := ∃ f, F d = some f ∧ f.attr.isDir
  Live := F.Live
  links d := (F d).elim 0 fun f ↦ f.attr.iNlinks
  isDir_of_line := by
    intro d e a h
    obtain ⟨f, hf, h⟩ := Option.bind_eq_some_iff.mp h
    refine ⟨f, hf, ?_⟩
    by_contra hdir
    rw [if_neg hdir] at h
    cases h

/-- The files form a tree. -/
abbrev Volume.Tree (F : Volume) : Prop := Lib.Tree 1 dot dotdot F.hierarchy

/-- The inode is in the tree. -/
abbrev Volume.Below (F : Volume) (ino : Nat) : Prop := Lib.Below 1 dot dotdot F.hierarchy ino

/-- Some entries lead from the root to the inode. -/
abbrev Volume.Reached (F : Volume) (ino : Nat) : Prop := Lib.Reached 1 F.hierarchy ino

/-- The inodes in use hold their zones apart and their files form a tree. -/
structure WellFormed (fs : Minixfs) : Prop where
  sound : Sound fs
  tree : fs.volume.Tree

section

variable {F : Volume} {d x : Nat} {f f' : File}

theorem Volume.line_dir (hf : F d = some f) (hdir : f.attr.isDir) :
    F.hierarchy.line d = f.entry := by
  funext e
  change (F d).bind _ = _
  rw [hf]
  exact if_pos hdir

theorem Volume.line_file (hf : F d = some f) (hdir : ¬f.attr.isDir) (e : Nat) :
    F.hierarchy.line d e = none := by
  change (F d).bind _ = _
  rw [hf]
  exact if_neg hdir

theorem Volume.line_none (hf : F d = none) (e : Nat) : F.hierarchy.line d e = none := by
  change (F d).bind _ = _
  rw [hf]
  rfl

theorem Volume.isDir_iff (hf : F d = some f) : F.hierarchy.IsDir d ↔ f.attr.isDir := by
  constructor
  · rintro ⟨f', hf', hdir⟩
    obtain rfl := Option.some.inj (hf.symm.trans hf')
    exact hdir
  · exact fun hdir ↦ ⟨f, hf, hdir⟩

theorem Volume.links_eq (hf : F d = some f) : F.hierarchy.links d = f.attr.iNlinks := by
  change (F d).elim _ _ = _
  rw [hf]
  rfl

/-- What a node is depends on its file only. -/
theorem Volume.node_congr {F' : Volume} (h : F' d = F d) :
    F'.hierarchy.line d = F.hierarchy.line d ∧ (F'.hierarchy.IsDir d ↔ F.hierarchy.IsDir d) ∧
      (F'.Live d ↔ F.Live d) ∧ F'.hierarchy.links d = F.hierarchy.links d := by
  refine ⟨?_, ?_, ?_, ?_⟩
  · funext e
    change (F' d).bind _ = (F d).bind _
    rw [h]
  · change (∃ f, F' d = _ ∧ _) ↔ ∃ f, F d = _ ∧ _
    rw [h]
  · change (∃ f, F' d = _) ↔ ∃ f, F d = _
    rw [h]
  · change (F' d).elim _ _ = (F d).elim _ _
    rw [h]

/-- A file changes in a way that the tree does not see. -/
theorem Volume.Tree.set (h : F.Tree) (hf : F x = some f)
    (hdir : f'.attr.isDir ↔ f.attr.isDir) (hentry : f.attr.isDir → f'.entry = f.entry)
    (hlinks : ¬f.attr.isDir → f.attr.iNlinks ≤ f'.attr.iNlinks) :
    Volume.Tree (Function.update F x (some f')) := by
  have hf' : Function.update F x (some f') x = some f' := Function.update_self ..
  have hother : ∀ {y}, y ≠ x → Function.update F x (some f') y = F y := fun hy ↦
    Function.update_of_ne hy ..
  refine Lib.Tree.congr h (funext fun y ↦ ?_) (fun y ↦ ?_) (fun y hy ↦ ?_) (fun y hy ↦ ?_)
  · by_cases hyx : y = x
    · subst hyx
      by_cases hd : f.attr.isDir
      · rw [Volume.line_dir hf' (hdir.mpr hd), Volume.line_dir hf hd, hentry hd]
      · funext e
        rw [Volume.line_file hf' (fun hc ↦ hd (hdir.mp hc)), Volume.line_file hf hd]
    · exact (Volume.node_congr (hother hyx)).1
  · by_cases hyx : y = x
    · subst hyx
      rw [Volume.isDir_iff hf', Volume.isDir_iff hf, hdir]
    · exact (Volume.node_congr (hother hyx)).2.1
  · by_cases hyx : y = x
    · subst hyx
      exact ⟨f', hf'⟩
    · exact (Volume.node_congr (hother hyx)).2.2.1.mpr hy
  · by_cases hyx : y = x
    · subst hyx
      rw [Volume.links_eq hf', Volume.links_eq hf]
      exact hlinks fun hd ↦ hy ((Volume.isDir_iff hf).mpr hd)
    · exact (Volume.node_congr (hother hyx)).2.2.2.ge

end

/-! ## Paths -/

section

variable {fs : Minixfs}

/-- A directory entry of the tree names an inode of the tree. -/
theorem WellFormed.dirLookup (h : WellFormed fs) {cur next : Nat} (hcur : fs.volume.Below cur)
    {name : List UInt8} (hname : IsCString name)
    (hnext : dirLookup fs.sb fs.disk cur name = some next) : fs.volume.Below next := by
  obtain ⟨f, hf⟩ := h.tree.live hcur
  rw [h.sound.stores.dirLookup hf] at hnext
  split at hnext
  · rename_i hdir
    obtain ⟨e, -, hentry⟩ := (File.find_eq_some hname).mp hnext
    rw [← Volume.line_dir hf hdir] at hentry
    exact Lib.Tree.below_of_reached h.tree (.step hcur.reached hentry)
  · cases hnext

theorem isCString_component {p : List UInt8} (h : IsCString p) : IsCString (component p) :=
  fun hc ↦ h ((List.takeWhile_sublist _).subset (List.take_subset _ _ hc))

theorem isCString_behind {p : List UInt8} (h : IsCString p) : IsCString (behind p) :=
  fun hc ↦ h (((List.dropWhile_suffix _).trans (List.dropWhile_suffix _)).subset hc)

theorem length_component (p : List UInt8) : (component p).length ≤ 60 :=
  List.length_take_le ..

theorem WellFormed.splitFrom (h : WellFormed fs) {fuel cur parent : Nat} {p leaf : List UInt8}
    (hcur : fs.volume.Below cur) (hp : IsCString p)
    (hsplit : splitFrom fs.sb fs.disk fuel cur p = some (parent, leaf)) :
    fs.volume.Below parent ∧ IsCString leaf ∧ leaf.length ≤ 60 := by
  induction fuel generalizing cur p with
  | zero => cases hsplit
  | succ fuel ih =>
    rw [Fs.splitFrom] at hsplit
    split at hsplit
    · split at hsplit
      · cases hsplit
        exact ⟨.root, List.not_mem_nil, Nat.zero_le _⟩
      · cases hsplit
        exact ⟨hcur, isCString_component hp, length_component p⟩
    · split at hsplit
      · cases hsplit
      · rename_i next hnext
        exact ih (h.dirLookup hcur (isCString_component hp) hnext) (isCString_behind hp) hsplit

/-- The parent that `split_path` finds is in the tree. -/
theorem WellFormed.splitPath (h : WellFormed fs) {path leaf : List UInt8} {parent : Nat}
    (hpath : IsCString path) (hsplit : splitPath fs.sb fs.disk path = some (parent, leaf)) :
    fs.volume.Below parent ∧ IsCString leaf ∧ leaf.length ≤ 60 := by
  cases path with
  | nil => cases hsplit
  | cons c p =>
    rw [Fs.splitPath] at hsplit
    split at hsplit
    · cases hsplit
    · exact h.splitFrom .root (fun hc ↦ hpath (List.mem_cons_of_mem _ hc)) hsplit

theorem WellFormed.resolveFrom (h : WellFormed fs) {fuel cur : Nat} {p : List UInt8}
    (hcur : fs.volume.Below cur) (hp : IsCString p)
    (hne : resolveFrom fs.sb fs.disk fuel cur p ≠ 0) :
    fs.volume.Below (resolveFrom fs.sb fs.disk fuel cur p) := by
  induction fuel generalizing cur p with
  | zero => exact hcur
  | succ fuel ih =>
    rw [Fs.resolveFrom] at hne ⊢
    split
    · exact hcur
    · rw [if_neg ‹_›] at hne
      split
      · exact hcur
      · rw [if_neg ‹_›] at hne
        cases hnext : Fs.dirLookup fs.sb fs.disk cur (component p) with
        | none =>
          rw [hnext] at hne
          exact absurd rfl hne
        | some next =>
          rw [hnext] at hne
          exact ih (h.dirLookup hcur (isCString_component hp) hnext) (isCString_behind hp) hne

/-- The inode that `minixfs_resolve` finds is in the tree. -/
theorem WellFormed.minixfsResolve (h : WellFormed fs) {path : List UInt8} (hpath : IsCString path)
    (hne : minixfsResolve fs path ≠ 0) : fs.volume.Below (minixfsResolve fs path) := by
  unfold Fs.minixfsResolve at hne ⊢
  split
  · rw [if_pos ‹_›] at hne
    exact absurd rfl hne
  · rw [if_neg ‹_›] at hne
    split
    · exact .root
    · rw [if_neg ‹_›] at hne
      exact h.resolveFrom .root (fun hc ↦ hpath (List.mem_of_mem_tail hc)) hne

end

/-! ## The small disk -/

theorem sample_root : sampleFs.volume 1 = some (sampleFs.view.file 1) :=
  Minixfs.volume_eq_some.mpr ⟨by decide, by decide, rfl⟩

theorem sample_root_isDir : (sampleFs.view.file 1).attr.isDir := by decide

/-- The root directory of the small disk is all of its tree. -/
theorem sample_wellFormed : WellFormed sampleFs := by
  have hlive : ∀ y, y ≠ 1 → sampleFs.volume y = none := by
    intro y hy
    by_contra hc
    exact hy (sample_live (Option.ne_none_iff_exists'.mp hc))
  refine ⟨sample_sound, Lib.Tree.congr (Hierarchy.tree_single (by decide)) ?_ ?_ ?_
    fun y _ ↦ Nat.zero_le _⟩
  · funext y e
    by_cases hy : y = 1
    · subst hy
      rw [Volume.line_dir sample_root sample_root_isDir]
      exact sample_entry e
    · rw [Volume.line_none (hlive y hy)]
      exact (if_neg hy).symm
  · intro y
    constructor
    · rintro ⟨f, hf, -⟩
      exact sample_live ⟨f, hf⟩
    · rintro rfl
      exact ⟨_, sample_root, sample_root_isDir⟩
  · rintro y rfl
    exact ⟨_, sample_root⟩

end FentoOS.Fs
