import FentoOS.Fs.Directory

/-!
# What a path means

A path stands for the list of its components, the non-empty pieces between slashes,
and a list of components leads from a directory to an inode by one `dir_lookup` after
the other.  The two loops of `kernel/fs/minixfs.c` that parse paths follow this
reading: `minixfs_resolve` walks along all components, `split_path` along all but the
last one.

They do so for paths whose first component is not empty.  Where a path starts with two
slashes, `minixfs_resolve` takes the empty piece between them for the end of the path,
and `split_path` looks it up as a name.
-/

namespace FentoOS.Fs

open FentoOS.Lib

/-! ## Components -/

/-- The non-empty pieces of a path between slashes, each cut to 60 bytes. -/
def names (path : List UInt8) : List (List UInt8) :=
  ((path.splitOn slash).filter (· ≠ [])).map (·.take 60)

/-- One lookup after the other. -/
def walk (g : Superblock) (d : Disk) (cur : Nat) (comps : List (List UInt8)) : Option Nat :=
  comps.foldlM (dirLookup g d) cur

/-- All components but the last lead to a directory, and the last one is left over. -/
def walkTo (g : Superblock) (d : Disk) (cur : Nat) (comps : List (List UInt8)) :
    Option (Nat × List UInt8) :=
  match comps.getLast? with
  | none => some (1, [])
  | some leaf => (walk g d cur comps.dropLast).map (·, leaf)

/-- The path does not start with an empty component, unless it has no other. -/
def Clean (path : List UInt8) : Prop :=
  path.tail.head? ≠ some slash ∨ ∀ c ∈ path, c = slash

instance (path : List UInt8) : Decidable (Clean path) :=
  inferInstanceAs (Decidable (_ ∨ _))

/-- The second path is the first with a slash repeated or one more at the end. -/
inductive Reslashed : List UInt8 → List UInt8 → Prop
  | double (p q : List UInt8) : Reslashed (p ++ slash :: q) (p ++ slash :: slash :: q)
  | trailing (p : List UInt8) : Reslashed p (p ++ [slash])

variable {cur : Nat}

section

variable {p q : List UInt8}

theorem names_nil : names [] = [] := rfl

/-- A slash separates components. -/
theorem names_append_slash (p q : List UInt8) : names (p ++ slash :: q) = names p ++ names q := by
  unfold names List.splitOn
  rw [List.splitOnP_append_cons (p := (· == slash)) p q (beq_self_eq_true slash),
    List.filter_append, List.map_append]

theorem names_cons_slash (p : List UInt8) : names (slash :: p) = names p :=
  names_append_slash [] p

theorem names_of_noslash (hp : ∀ c ∈ p, c ≠ slash) (hne : p ≠ []) : names p = [p.take 60] := by
  have hall : ∀ c ∈ p, (c == slash) = false := fun c hc ↦ beq_eq_false_iff_ne.mpr (hp c hc)
  unfold names List.splitOn
  rw [List.splitOnP_eq_singleton hall, List.filter_singleton]
  simp [hne]

theorem names_dropWhile_slash (p : List UInt8) : names (p.dropWhile (· = slash)) = names p := by
  induction p with
  | nil => rfl
  | cons c p ih =>
    by_cases hc : c = slash
    · subst hc
      rw [List.dropWhile_cons_of_pos (by simp), ih, names_cons_slash]
    · rw [List.dropWhile_cons_of_neg (by simpa using hc)]

theorem names_of_slashes (hp : ∀ c ∈ p, c = slash) : names p = [] := by
  have hdrop : p.dropWhile (· = slash) = [] :=
    List.dropWhile_eq_nil_iff.mpr fun c hc ↦ decide_eq_true (hp c hc)
  rw [← names_dropWhile_slash, hdrop, names_nil]

/-- Slashes make no difference to the components. -/
theorem Reslashed.names_eq (h : Reslashed p q) : names q = names p := by
  cases h with
  | double p q => rw [names_append_slash, names_append_slash, names_cons_slash]
  | trailing => rw [names_append_slash, names_nil, List.append_nil]

/-! ## The parsers of the two loops -/

/-- The text does not start with a slash. -/
def Trimmed (p : List UInt8) : Prop := p.head? ≠ some slash

theorem trimmed_behind (p : List UInt8) : Trimmed (behind p) := by
  intro h
  have hnot := List.head?_dropWhile_not (· = slash) (p.dropWhile (· ≠ slash))
  unfold behind at h
  rw [h] at hnot
  simp at hnot

theorem Trimmed.word_ne_nil (hp : Trimmed p) (hne : p ≠ []) : p.takeWhile (· ≠ slash) ≠ [] := by
  cases p with
  | nil => exact absurd rfl hne
  | cons c p =>
    have hc : c ≠ slash := fun hc ↦ hp (congrArg some hc)
    rw [List.takeWhile_cons_of_pos (by simpa using hc)]
    exact List.cons_ne_nil _ _

theorem Trimmed.component_ne_nil (hp : Trimmed p) (hne : p ≠ []) : component p ≠ [] := by
  intro h
  rcases List.take_eq_nil_iff.mp h with h | h
  · cases h
  · exact hp.word_ne_nil hne h

/-- The first component, and those of the text behind it. -/
theorem Trimmed.names_eq (hp : Trimmed p) (hne : p ≠ []) :
    names p = component p :: names (behind p) := by
  have hword : ∀ c ∈ p.takeWhile (· ≠ slash), c ≠ slash := by
    intro c hc
    simpa using List.mem_takeWhile_imp hc
  have hfirst := names_of_noslash hword (hp.word_ne_nil hne)
  have hsplit : p.takeWhile (· ≠ slash) ++ p.dropWhile (· ≠ slash) = p :=
    List.takeWhile_append_dropWhile
  unfold behind component
  rw [names_dropWhile_slash]
  cases hrest : p.dropWhile (· ≠ slash) with
  | nil =>
    rw [hrest, List.append_nil] at hsplit
    rw [names_nil, ← hfirst, hsplit]
  | cons c q =>
    have hc : c = slash := by
      have hnot := List.head?_dropWhile_not (· ≠ slash) p
      rw [hrest] at hnot
      simpa using hnot
    rw [hrest, hc] at hsplit
    rw [hc, names_cons_slash, ← List.singleton_append, ← hfirst, ← names_append_slash, hsplit]

theorem Trimmed.length_behind (hp : Trimmed p) (hne : p ≠ []) :
    (behind p).length < p.length := by
  have hpos := List.length_pos_of_ne_nil (hp.word_ne_nil hne)
  have hsplit : p.takeWhile (· ≠ slash) ++ p.dropWhile (· ≠ slash) = p :=
    List.takeWhile_append_dropWhile
  have hlen := congrArg List.length hsplit
  rw [List.length_append] at hlen
  have hdrop : (behind p).length ≤ (p.dropWhile (· ≠ slash)).length :=
    (List.dropWhile_suffix _).length_le
  omega

theorem Trimmed.names_ne_nil (hp : Trimmed p) (hne : p ≠ []) : names p ≠ [] := by
  rw [hp.names_eq hne]
  exact List.cons_ne_nil _ _

variable {g : Superblock} {d : Disk}

theorem walk_cons (cur : Nat) (c : List UInt8) (cs : List (List UInt8)) :
    walk g d cur (c :: cs) = (dirLookup g d cur c).bind fun next ↦ walk g d next cs := rfl

/-- Components that all lead back to where they start. -/
theorem walk_of_fixed {cs : List (List UInt8)} (h : ∀ c ∈ cs, dirLookup g d cur c = some cur) :
    walk g d cur cs = some cur := by
  induction cs with
  | nil => rfl
  | cons c cs ih =>
    rw [walk_cons, h c List.mem_cons_self, Option.bind_some]
    exact ih fun c' hc' ↦ h c' (List.mem_cons_of_mem c hc')

/-- The loop of `minixfs_resolve` walks along the components. -/
theorem resolveFrom_eq {fuel : Nat} (hp : Trimmed p) (hfuel : p.length < fuel) :
    resolveFrom g d fuel cur p = (walk g d cur (names p)).getD 0 := by
  induction fuel generalizing cur p with
  | zero => exact absurd hfuel (Nat.not_lt_zero _)
  | succ fuel ih =>
    rw [resolveFrom]
    by_cases hne : p = []
    · rw [if_pos hne, hne]
      rfl
    · rw [if_neg hne, if_neg (hp.component_ne_nil hne), hp.names_eq hne, walk_cons]
      cases dirLookup g d cur (component p) with
      | none => rfl
      | some next =>
        have hlen := hp.length_behind hne
        exact ih (trimmed_behind p) (by omega)

theorem walkTo_cons (cur : Nat) (c : List UInt8) {cs : List (List UInt8)} (hcs : cs ≠ []) :
    walkTo g d cur (c :: cs) =
      (dirLookup g d cur c).bind fun next ↦ walkTo g d next cs := by
  obtain ⟨leaf, hleaf⟩ : ∃ leaf, cs.getLast? = some leaf :=
    Option.isSome_iff_exists.mp (List.getLast?_isSome.mpr hcs)
  have hlast : (c :: cs).getLast? = some leaf := by
    rw [List.getLast?_cons, hleaf]
    rfl
  simp only [walkTo, hlast, hleaf, List.dropLast_cons_of_ne_nil hcs, walk_cons]
  cases dirLookup g d cur c <;> rfl

/-- Where all components lead somewhere, all but the last do. -/
theorem walkTo_ne_none {cs : List (List UInt8)} {i : Nat} (h : walk g d cur cs = some i) :
    walkTo g d cur cs ≠ none := by
  rcases List.eq_nil_or_concat cs with rfl | ⟨cs, leaf, rfl⟩
  · exact Option.some_ne_none _
  · rw [List.concat_eq_append] at h ⊢
    rw [walk, List.foldlM_append] at h
    rw [walkTo, List.getLast?_concat, List.dropLast_concat]
    change (walk g d cur cs).map _ ≠ none
    intro hnone
    rw [show cs.foldlM (dirLookup g d) cur = none from Option.map_eq_none_iff.mp hnone] at h
    cases h

/-- The loop of `split_path` walks along all components but the last. -/
theorem splitFrom_eq {fuel : Nat} (hp : Trimmed p) (hfuel : p.length < fuel) :
    splitFrom g d fuel cur p = walkTo g d cur (names p) := by
  induction fuel generalizing cur p with
  | zero => exact absurd hfuel (Nat.not_lt_zero _)
  | succ fuel ih =>
    rw [splitFrom]
    by_cases hne : p = []
    · subst hne
      rfl
    · rw [hp.names_eq hne]
      by_cases hend : behind p = []
      · rw [if_pos hend, if_neg (hp.component_ne_nil hne), hend, names_nil]
        rfl
      · rw [if_neg hend, walkTo_cons _ _ ((trimmed_behind p).names_ne_nil hend)]
        cases dirLookup g d cur (component p) with
        | none => rfl
        | some next =>
          have hlen := hp.length_behind hne
          exact ih (trimmed_behind p) (by omega)

end

variable {p : List UInt8}

/-! ## The two functions -/

/-- A path of slashes only stands for the root. -/
theorem component_of_slashes (hp : ∀ c ∈ p, c = slash) : component p = [] := by
  cases p with
  | nil => rfl
  | cons c p =>
    have hc : c = slash := hp c List.mem_cons_self
    rw [component, List.takeWhile_cons_of_neg (by simp [hc])]
    rfl

theorem behind_of_slashes (hp : ∀ c ∈ p, c = slash) : behind p = [] := by
  refine List.dropWhile_eq_nil_iff.mpr fun c hc ↦ decide_eq_true (hp c ?_)
  exact (List.dropWhile_suffix _).subset hc

theorem minixfsResolve_eq {fs : Minixfs} (hmounted : fs.mounted = true) (hp : Clean (slash :: p)) :
    minixfsResolve fs (slash :: p) = (walk fs.sb fs.disk 1 (names (slash :: p))).getD 0 := by
  rw [names_cons_slash]
  unfold minixfsResolve
  simp only [hmounted, Bool.not_true, Bool.false_eq_true, if_false, List.tail_cons]
  by_cases hnil : p = []
  · subst hnil
    rfl
  · rw [if_neg fun hc ↦ hnil (List.cons.inj hc).2]
    rcases hp with hp | hp
    · exact resolveFrom_eq hp (by simp)
    · have hall : ∀ c ∈ p, c = slash := fun c hc ↦ hp c (List.mem_cons_of_mem _ hc)
      rw [resolveFrom, if_neg hnil, component_of_slashes hall, if_pos rfl, names_of_slashes hall]
      rfl

theorem splitPath_eq {g : Superblock} {d : Disk} (hp : Clean (slash :: p)) :
    splitPath g d (slash :: p) = walkTo g d 1 (names (slash :: p)) := by
  rw [names_cons_slash, splitPath, if_neg (not_not_intro rfl)]
  rcases hp with hp | hp
  · exact splitFrom_eq hp (Nat.lt_succ_self _)
  · have hall : ∀ c ∈ p, c = slash := fun c hc ↦ hp c (List.mem_cons_of_mem _ hc)
    rw [splitFrom, behind_of_slashes hall, if_pos rfl, component_of_slashes hall, if_pos rfl,
      names_of_slashes hall]
    rfl

/-- A path that is not clean: `minixfs_resolve` stops in front of the first component. -/
theorem minixfsResolve_of_not_clean {fs : Minixfs} (hmounted : fs.mounted = true)
    (hp : ¬Clean (slash :: p)) : minixfsResolve fs (slash :: p) = 1 := by
  obtain ⟨hhead, hall⟩ := not_or.mp hp
  obtain ⟨q, rfl⟩ : ∃ q, p = slash :: q := List.head?_eq_some_iff.mp (not_not.mp hhead)
  unfold minixfsResolve
  simp only [hmounted, Bool.not_true, Bool.false_eq_true, if_false, List.tail_cons]
  rw [if_neg (by simp), resolveFrom, if_neg (List.cons_ne_nil _ _), component,
    List.takeWhile_cons_of_neg (by simp)]
  exact if_pos rfl

/-- A path that is not clean: `split_path` goes to the entry of the root that has an empty name,
and walks on from there. -/
theorem splitPath_of_not_clean {g : Superblock} {d : Disk} (hp : ¬Clean (slash :: p)) :
    splitPath g d (slash :: p) =
      (dirLookup g d 1 []).bind (walkTo g d · (names (slash :: p))) := by
  obtain ⟨hhead, hall⟩ := not_or.mp hp
  obtain ⟨q, rfl⟩ : ∃ q, p = slash :: q := List.head?_eq_some_iff.mp (not_not.mp hhead)
  have hbehind : behind (slash :: q) = q.dropWhile (· = slash) := by
    rw [behind, List.dropWhile_cons_of_neg (by simp), List.dropWhile_cons_of_pos (by simp)]
  have hne : behind (slash :: q) ≠ [] := by
    rw [hbehind]
    intro hnil
    refine hall fun c hc ↦ ?_
    rcases List.mem_cons.mp hc with rfl | hc
    · rfl
    rcases List.mem_cons.mp hc with rfl | hc
    · rfl
    exact of_decide_eq_true (List.dropWhile_eq_nil_iff.mp hnil c hc)
  have hnames : names (behind (slash :: q)) = names (slash :: slash :: q) := by
    rw [hbehind, names_dropWhile_slash, names_cons_slash, names_cons_slash]
  rw [splitPath, if_neg (not_not_intro rfl), splitFrom, if_neg hne, component,
    List.takeWhile_cons_of_neg (by simp), List.take_nil, ← hnames]
  cases dirLookup g d 1 [] with
  | none => rfl
  | some next =>
    refine splitFrom_eq (trimmed_behind _) ?_
    rw [hbehind]
    exact Nat.lt_of_le_of_lt (List.dropWhile_suffix _).length_le (Nat.lt_succ_self _)

/-- Where `split_path` starts to follow the components of a path. -/
def startOf (g : Superblock) (d : Disk) (path : List UInt8) : Option Nat :=
  if Clean path then some 1 else dirLookup g d 1 []

theorem splitPath_eq_startOf {g : Superblock} {d : Disk} {path : List UInt8}
    (habs : path.head? = some slash) :
    splitPath g d path = (startOf g d path).bind (walkTo g d · (names path)) := by
  obtain ⟨p, rfl⟩ : ∃ p, path = slash :: p := List.head?_eq_some_iff.mp habs
  rw [startOf]
  split
  · exact splitPath_eq ‹_›
  · exact splitPath_of_not_clean ‹_›

/-- `minixfs_resolve` and `split_path` follow the components of the path. -/
def Follows (fs : Minixfs) (path : List UInt8) : Prop :=
  minixfsResolve fs path = (walk fs.sb fs.disk 1 (names path)).getD 0 ∧
    splitPath fs.sb fs.disk path = walkTo fs.sb fs.disk 1 (names path)

/-- The root has an entry with an empty name; the components lead from there where they lead from
the root, and that is the root again. -/
def Detour (fs : Minixfs) (path : List UInt8) : Prop :=
  walk fs.sb fs.disk 1 (names path) = some 1 ∧ ∃ i, dirLookup fs.sb fs.disk 1 [] = some i ∧
    walkTo fs.sb fs.disk i (names path) = walkTo fs.sb fs.disk 1 (names path)

theorem follows_iff {fs : Minixfs} (hmounted : fs.mounted = true) {path : List UInt8}
    (habs : path.head? = some slash) : Follows fs path ↔ Clean path ∨ Detour fs path := by
  obtain ⟨p, rfl⟩ : ∃ p, path = slash :: p := List.head?_eq_some_iff.mp habs
  by_cases hp : Clean (slash :: p)
  · exact iff_of_true ⟨minixfsResolve_eq hmounted hp, splitPath_eq hp⟩ (.inl hp)
  · rw [Follows, minixfsResolve_of_not_clean hmounted hp, splitPath_of_not_clean hp,
      or_iff_right hp, Detour]
    generalize names (slash :: p) = cs
    have hone : 1 = (walk fs.sb fs.disk 1 cs).getD 0 ↔ walk fs.sb fs.disk 1 cs = some 1 := by
      cases walk fs.sb fs.disk 1 cs <;> simp [eq_comm]
    rw [hone]
    refine and_congr_right fun hwalk ↦ ?_
    cases dirLookup fs.sb fs.disk 1 [] with
    | some i => simp
    | none =>
      -- all but the last of the components lead somewhere, as all of them do
      simp [(walkTo_ne_none hwalk).symm]

theorem Reslashed.clean {q : List UInt8} (h : Reslashed p q) (hp : p.head? = some slash)
    (hq : Clean q) : Clean p := by
  cases h with
  | double a b =>
    rcases hq with hq | hq
    · cases a with
      | nil => exact absurd rfl hq
      | cons c a =>
        cases a with
        | nil => exact absurd rfl hq
        | cons c' a => exact .inl hq
    · refine .inr fun c hc ↦ hq c ?_
      rcases List.mem_append.mp hc with hc | hc
      · exact List.mem_append_left _ hc
      · exact List.mem_append_right _ (List.mem_cons_of_mem _ hc)
  | trailing =>
    rcases hq with hq | hq
    · obtain ⟨p, rfl⟩ : ∃ p', p = slash :: p' := List.head?_eq_some_iff.mp hp
      cases p with
      | nil => exact absurd rfl hq
      | cons c p => exact .inl hq
    · exact .inr fun c hc ↦ hq c (List.mem_append_left _ hc)

/-- **One meaning for paths.**  `minixfs_resolve` and `split_path` follow the components of a
path, and repeated or trailing slashes make no difference to them, if and only if the path is
clean, or accidentally leads nowhere else. -/
theorem paths_have_one_meaning_iff (fs : Minixfs) (hmounted : fs.mounted = true)
    (path : List UInt8) (habs : path.head? = some slash) :
    (Follows fs path ∧ ∀ path₀, path₀.head? = some slash → Reslashed path₀ path →
      minixfsResolve fs path = minixfsResolve fs path₀ ∧
        splitPath fs.sb fs.disk path = splitPath fs.sb fs.disk path₀) ↔
      Clean path ∨ Detour fs path := by
  rw [follows_iff hmounted habs]
  refine and_iff_left_of_imp fun hpath path₀ habs₀ hre ↦ ?_
  have hpath₀ : Clean path₀ ∨ Detour fs path₀ := by
    refine hpath.imp (hre.clean habs₀) fun h ↦ ?_
    rwa [Detour, ← hre.names_eq]
  have hfollows := (follows_iff hmounted habs).mpr hpath
  have hfollows₀ := (follows_iff hmounted habs₀).mpr hpath₀
  rw [hfollows.1, hfollows.2, hfollows₀.1, hfollows₀.2, hre.names_eq]
  exact ⟨rfl, rfl⟩

/-- A disk of nine blocks with 16 inodes and four zones, as a formatter would leave it: the root
directory has one block, with the entries `.` and `..`. -/
def sampleSb : Superblock where
  sNinodes := 16
  sImapBlocks := 1
  sZmapBlocks := 1
  sFirstdatazone := 5
  sZones := 9

/-- The root directory's inode. -/
def sampleRoot : Inode :=
  { Inode.zero with
    iMode := 0o040755, iNlinks := 2, iSize := 1024, iZone := fun k ↦ if k = 0 then 5 else 0 }

def sampleDisk : Disk where
  size := 9
  block
    | 2 => fun j ↦ if j = 0 then 3 else if j = 1 then 0 else if j = 2 then 254 else 255
    | 3 => fun j ↦ if j = 0 then 227 else 255
    | 4 => Inode.put Bytes.zero 0 sampleRoot
    | 5 => putDirent (putDirent Bytes.zero 0 1 dot) 1 1 dotdot
    | _ => Bytes.zero
  junk := Bytes.zero
  trace := []

theorem sample_shows : Shows sampleSb sampleDisk (view sampleSb sampleDisk) where
  geometry := by constructor <;> decide
  view := rfl
  trace := by rintro e ⟨⟩

theorem sampleRoot_wf : sampleRoot.Wf := by
  constructor
  case zone =>
    intro k
    by_cases hk : k = 0 <;> simp [sampleRoot, hk]
  case zone_none =>
    intro k hk
    have hk0 : k ≠ 0 := by omega
    simp [sampleRoot, hk0]
  all_goals decide

theorem sample_inode : (view sampleSb sampleDisk).inode 1 = sampleRoot :=
  Inode.get_put Bytes.zero 0 sampleRoot_wf

/-- The small disk, mounted. -/
def sampleFs : Minixfs where
  sb := sampleSb
  mounted := true
  disk := sampleDisk

/-- The path `/.//./` of the root, and the path with two slashes in front. -/
theorem paths_have_one_meaning_dots :
    minixfsResolve sampleFs [47, 46, 47, 47, 46, 47] =
      minixfsResolve sampleFs [47, 46, 47, 46, 47] ∧
      ¬(Follows sampleFs [47, 47, 46] ∧ ∀ path₀, path₀.head? = some slash →
        Reslashed path₀ [47, 47, 46] →
          minixfsResolve sampleFs [47, 47, 46] = minixfsResolve sampleFs path₀ ∧
          splitPath sampleSb sampleDisk [47, 47, 46] = splitPath sampleSb sampleDisk path₀) := by
  have hroot : dirLookup sampleSb sampleDisk 1 [] = none := by decide
  refine ⟨(((paths_have_one_meaning_iff sampleFs rfl [47, 46, 47, 47, 46, 47] rfl).mpr
    (.inl (by decide))).2 _ rfl (.double [47, 46] [46, 47])).1, fun h ↦ ?_⟩
  rcases (paths_have_one_meaning_iff sampleFs rfl [47, 47, 46] rfl).mp h with h | ⟨-, i, hi, -⟩
  · exact absurd h (by decide)
  · rw [show dirLookup sampleFs.sb sampleFs.disk 1 [] = none from hroot] at hi
    cases hi

/-- With two slashes in front, a name that does not exist resolves to the root, and the path of
a new file cannot be split. -/
theorem double_slash_differs :
    names [47, 47, 97] = [[97]] ∧
      (walk sampleSb sampleDisk 1 [[97]]).getD 0 = 0 ∧ minixfsResolve sampleFs [47, 47, 97] = 1 ∧
      walkTo sampleSb sampleDisk 1 [[97]] = some (1, [97]) ∧
      splitPath sampleSb sampleDisk [47, 47, 97] = none := by
  refine ⟨by decide, ?_, ?_, by decide, ?_⟩ <;> decide

end FentoOS.Fs
