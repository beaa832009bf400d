import FentoOS.Fs.Paths
import FentoOS.Lib.Run

/-!
# Joining paths

A path that does not start with a slash is taken relative to the current directory of
the task.  `build_path` of `kernel/syscall/syscall.c` joins the two in a buffer of 256
bytes; `sys_execve_impl` of `kernel/proc/proc.c` has a copy of its own.  The buffers are
modelled byte by byte, so that a store behind their end can be seen.

Both functions compute the remaining length as `255 - len`, without a sign.  The current
directory has at most 255 characters, but the slash behind it is one more.
-/

namespace FentoOS.Kernel

open FentoOS.Lib FentoOS.Fs

/-! ## The two functions -/

/-- The current directory and a slash, in the buffer, and its length. -/
def cwdSlash (cwd : List UInt8) (out : Bytes) : Bytes × Nat :=
  let out := strcpy out cwd
  let len := strlen out 256
  if len = 0 ∨ out (len - 1) ≠ slash then ((out.put8 len slash).put8 (len + 1) 0, len + 1)
  else (out, len)

/-- `build_path`, on the buffer `out`. -/
def buildPathIn (cwd path : List UInt8) (out : Bytes) : Bytes :=
  if cstr path 0 = slash then (strncpy out 0 (cstr path) 255).put8 255 0
  else
    let r := cwdSlash cwd out
    (strncpy r.1 r.2 (cstr path) (sub32 255 r.2)).put8 255 0

/-- The same in `sys_execve_impl`, on the buffers `kpath` and `full`. -/
def execPathIn (cwd path : List UInt8) (kpath full : Bytes) : Bytes :=
  let kpath := (strncpy kpath 0 (cstr path) 255).put8 255 0
  if kpath 0 = slash then strcpy full (strIn kpath 256)
  else
    let r := cwdSlash cwd full
    strncpy r.1 r.2 kpath (sub32 255 r.2)

/-- `sys_chdir`: the new current directory. -/
def chdir (fs : Minixfs) (cwd path : List UInt8) : Option (List UInt8) :=
  let full := buildPathIn cwd path Bytes.zero
  let ino := minixfsResolve fs (strIn full 256)
  if ino = 0 ∨ minixfsIsDir fs ino = false then none else some (strIn full 255)

/-! ## What they compute -/

/-- The directory with a single slash behind it. -/
def pathBase (cwd : List UInt8) : List UInt8 :=
  if cwd.getLast? = some slash then cwd else cwd ++ [slash]

/-- The path that is meant, cut to 255 characters. -/
def joined (cwd path : List UInt8) : List UInt8 :=
  if path.head? = some slash then path.take 255 else (pathBase cwd ++ path).take 255

variable {src : Bytes} {s : List UInt8}

section

variable {cwd path : List UInt8}

theorem pathBase_length (cwd : List UInt8) :
    cwd.length ≤ (pathBase cwd).length ∧ (pathBase cwd).length ≤ cwd.length + 1 := by
  unfold pathBase
  split
  · exact ⟨le_rfl, Nat.le_succ _⟩
  · simp

theorem cstr_zero_eq_slash (path : List UInt8) :
    cstr path 0 = slash ↔ path.head? = some slash := by
  cases path with
  | nil => exact iff_of_false (by decide) (by decide)
  | cons c path => simp [cstr]

theorem joined_length_le (cwd path : List UInt8) : (joined cwd path).length ≤ 255 := by
  unfold joined
  split <;> exact List.length_take_le _ _

/-- The bytes of the path that is meant. -/
theorem cstr_joined (h : path.head? ≠ some slash) (j : Nat) : cstr (joined cwd path) j =
    if j < 255 then
      if j < (pathBase cwd).length then cstr (pathBase cwd) j
      else cstr path (j - (pathBase cwd).length)
    else 0 := by
  rw [joined, if_neg h, cstr_take, cstr_append]

theorem cwdSlash_eq (hcwd : IsCString cwd) (hlen : cwd.length ≤ 255) (out : Bytes) :
    cwdSlash cwd out = (strcpy out (pathBase cwd), (pathBase cwd).length) := by
  have hstrlen : strlen (strcpy out cwd) 256 = cwd.length := by
    rw [strlen, (strcpy_holdsStr out cwd).strIn_eq hcwd (hlen.trans (Nat.le_succ _))]
  have hlast : (cwd.length = 0 ∨ strcpy out cwd (cwd.length - 1) ≠ slash) ↔
      cwd.getLast? ≠ some slash := by
    rw [strcpy_of_le out cwd (Nat.sub_le _ _), cstr, List.getD_eq_getElem?_getD,
      ← List.getLast?_eq_getElem?]
    cases cwd using List.reverseRecOn with
    | nil => simp
    | append_singleton cwd c => simp
  unfold cwdSlash pathBase
  simp only [hstrlen, hlast, ne_eq, ite_not]
  split
  · rfl
  · exact Prod.ext (put8_strcpy out cwd slash) (by simp)

/-- A relative path behind the directory, as far as the length given. -/
theorem strncpy_base (hsrc : HoldsStr src s) (hs : IsCString s) (base : List UInt8) (out : Bytes)
    (n j : Nat) :
    strncpy (strcpy out base) base.length src n j =
      if j < base.length then cstr base j
      else if j < base.length + n then cstr s (j - base.length)
      else if j = base.length then 0 else out j := by
  split
  case isTrue hlt =>
    rw [strncpy_of_notMem _ _ _ _ (.inl hlt), strcpy_of_le _ _ hlt.le]
  case isFalse hge =>
    split
    case isTrue hlt =>
      obtain ⟨k, rfl⟩ := Nat.exists_eq_add_of_le (Nat.not_lt.mp hge)
      rw [hsrc.strncpy_apply hs _ _ (by omega), Nat.add_sub_cancel_left]
    case isFalse hout =>
      rw [strncpy_of_notMem _ _ _ _ (.inr (Nat.not_lt.mp hout))]
      split
      case isTrue heq => rw [heq, strcpy_of_le _ _ le_rfl, cstr_of_le le_rfl]
      case isFalse hne => rw [strcpy_of_lt _ _ (by omega)]

theorem sub32_255 {n : Nat} (h : n ≤ 255) : sub32 255 n = 255 - n := by
  unfold sub32 wrap32
  omega

/-- What `strncpy` leaves of the path is what `joined` leaves of it, up to the last byte. -/
theorem strncpy_joined (hsrc : HoldsStr src s) (hs : IsCString s) (hrel : path.head? ≠ some slash)
    (hcut : ∀ j < 255, cstr s j = cstr path j) (out : Bytes) {j : Nat} (hj : j < 255) :
    strncpy (strcpy out (pathBase cwd)) (pathBase cwd).length src
      (sub32 255 (pathBase cwd).length) j = cstr (joined cwd path) j := by
  rw [strncpy_base hsrc hs, cstr_joined hrel, if_pos hj]
  split
  · rfl
  · rw [sub32_255 (by omega), if_pos (by omega), hcut _ (by omega)]

/-- `strncpy` into the first 255 bytes and a zero behind them. -/
theorem strncpy_cut (hpath : IsCString path) (out : Bytes) :
    HoldsStr ((strncpy out 0 (cstr path) 255).put8 255 0) (path.take 255) ∧
      ∀ j, 256 ≤ j → (strncpy out 0 (cstr path) 255).put8 255 0 j = out j := by
  constructor
  · intro j hj
    rw [cstr_take]
    split
    case isTrue hlt =>
      rw [Bytes.put8_of_ne _ _ hlt.ne]
      simpa using (holdsStr_cstr path).strncpy_apply hpath out 0 hlt
    case isFalse hge =>
      obtain rfl : j = 255 :=
        le_antisymm (hj.trans (List.length_take_le _ _)) (Nat.not_lt.mp hge)
      exact Bytes.put8_same _ _ _
  · intro j hj
    rw [Bytes.put8_of_ne _ _ (by omega), strncpy_of_notMem _ _ _ _ (.inr (by omega))]

/-- A slash behind 255 characters is the 256th, and the terminator is behind the buffer. -/
theorem not_fills_of_base {f : Bytes → Bytes} (hsrc : HoldsStr src s) (hs : IsCString s)
    (hbase : (pathBase cwd).length = 256)
    (hf : ∀ a, f a 256 = strncpy (strcpy a (pathBase cwd)) 256 src (sub32 255 256) 256) :
    ¬Fills 256 f (joined cwd path) := by
  intro h
  have hsub : 0 < sub32 255 256 := by decide
  have hval : ∀ a, f a 256 = cstr s 0 := by
    intro a
    have hcopy := strncpy_base hsrc hs (pathBase cwd) a (sub32 255 256) 256
    rw [hbase, if_neg (lt_irrefl _), if_pos (by omega), Nat.sub_self] at hcopy
    rw [hf, hcopy]
  have h₀ := (hval fun _ ↦ 0).symm.trans (h.inside _ 256 le_rfl)
  have h₁ := (hval fun _ ↦ 1).symm.trans (h.inside _ 256 le_rfl)
  exact absurd (h₀.symm.trans h₁) (by decide)

theorem buildPathIn_of_relative (hcwd : IsCString cwd) (hlen : cwd.length ≤ 255)
    (hrel : path.head? ≠ some slash) (out : Bytes) : buildPathIn cwd path out =
      (strncpy (strcpy out (pathBase cwd)) (pathBase cwd).length (cstr path)
        (sub32 255 (pathBase cwd).length)).put8 255 0 := by
  rw [buildPathIn, if_neg fun h ↦ hrel ((cstr_zero_eq_slash path).mp h), cwdSlash_eq hcwd hlen]

theorem buildPathIn_of_absolute (cwd : List UInt8) (habs : path.head? = some slash) (out : Bytes) :
    buildPathIn cwd path out = (strncpy out 0 (cstr path) 255).put8 255 0 ∧
      joined cwd path = path.take 255 :=
  ⟨if_pos ((cstr_zero_eq_slash path).mpr habs), if_pos habs⟩

/-- Whatever the length of the directory, the buffer of `build_path` then holds the path that is
meant. -/
theorem buildPathIn_holds (hcwd : IsCString cwd) (hlen : cwd.length ≤ 255)
    (hpath : IsCString path) (out : Bytes) :
    HoldsStr (buildPathIn cwd path out) (joined cwd path) := by
  by_cases habs : path.head? = some slash
  · obtain ⟨hbuild, hjoined⟩ := buildPathIn_of_absolute cwd habs out
    rw [hbuild, hjoined]
    exact (strncpy_cut hpath out).1
  · intro j hj
    rw [buildPathIn_of_relative hcwd hlen habs]
    rcases Nat.lt_or_ge j 255 with hlt | hge
    · rw [Bytes.put8_of_ne _ _ hlt.ne]
      exact strncpy_joined (holdsStr_cstr path) hpath habs (fun _ _ ↦ rfl) out hlt
    · obtain rfl : j = 255 := le_antisymm (hj.trans (joined_length_le _ _)) hge
      rw [Bytes.put8_same, cstr_joined habs, if_neg (lt_irrefl _)]

/-- `build_path` stays in its buffer unless the path is relative and the directory with its slash
takes 256 characters. -/
theorem buildPathIn_fills_iff (hcwd : IsCString cwd) (hlen : cwd.length ≤ 255)
    (hpath : IsCString path) : Fills 256 (buildPathIn cwd path) (joined cwd path) ↔
      path.head? = some slash ∨ (pathBase cwd).length ≤ 255 := by
  have hfills (hinside : ∀ out j, 256 ≤ j → buildPathIn cwd path out j = out j) :
      Fills 256 (buildPathIn cwd path) (joined cwd path) :=
    ⟨hinside, Nat.lt_succ_of_le (joined_length_le _ _), buildPathIn_holds hcwd hlen hpath⟩
  by_cases habs : path.head? = some slash
  · refine iff_of_true (hfills fun out ↦ ?_) (.inl habs)
    rw [(buildPathIn_of_absolute _ habs out).1]
    exact (strncpy_cut hpath out).2
  · rw [or_iff_right habs]
    rcases Nat.lt_or_ge 255 (pathBase cwd).length with hlong | hbase
    · have hbase : (pathBase cwd).length = 256 := by
        have := (pathBase_length cwd).2
        omega
      refine iff_of_false (not_fills_of_base (holdsStr_cstr path) hpath hbase fun a ↦ ?_)
        hlong.not_ge
      rw [buildPathIn_of_relative hcwd hlen habs, hbase, Bytes.put8_of_ne _ _ (by decide)]
    · refine iff_of_true (hfills fun out j hj ↦ ?_) hbase
      rw [buildPathIn_of_relative hcwd hlen habs, Bytes.put8_of_ne _ _ (by omega),
        sub32_255 hbase, strncpy_of_notMem _ _ _ _ (.inr (by omega)), strcpy_of_lt _ _ (by omega)]

/-- The join of `sys_execve_impl` stays in its buffer, and the buffer then holds the path that is
meant, unless the path is relative and the slash is the 256th character, or the path reaches the
last byte of the buffer from further in front. -/
theorem execPathIn_fills_iff (hcwd : IsCString cwd) (hlen : cwd.length ≤ 255)
    (hpath : IsCString path) (kpath : Bytes) :
    Fills 256 (execPathIn cwd path kpath) (joined cwd path) ↔
      path.head? = some slash ∨ (pathBase cwd).length = 255 ∨
        (pathBase cwd).length + path.length < 255 := by
  have hk := (strncpy_cut hpath kpath).1
  have hcut : IsCString (path.take 255) := fun h ↦ hpath (List.mem_of_mem_take h)
  have hhead : (strncpy kpath 0 (cstr path) 255).put8 255 0 0 = slash ↔
      path.head? = some slash := by
    rw [hk 0 (Nat.zero_le _), cstr_take, if_pos (by decide)]
    exact cstr_zero_eq_slash path
  by_cases habs : path.head? = some slash
  · refine iff_of_true ⟨?_, Nat.lt_succ_of_le (joined_length_le _ _), ?_⟩ (.inl habs)
    all_goals
      have hstr := hk.strIn_eq hcut ((List.length_take_le _ _).trans (Nat.le_succ 255))
      simp only [execPathIn, joined, if_pos (hhead.mpr habs), if_pos habs, hstr]
    · intro full j hj
      have hle : (path.take 255).length ≤ 255 := List.length_take_le _ _
      exact strcpy_of_lt _ _ (by omega)
    · exact fun full ↦ strcpy_holdsStr full _
  · rw [or_iff_right habs]
    have hexec : ∀ full, execPathIn cwd path kpath full =
        strncpy (strcpy full (pathBase cwd)) (pathBase cwd).length
          ((strncpy kpath 0 (cstr path) 255).put8 255 0) (sub32 255 (pathBase cwd).length) := by
      intro full
      simp only [execPathIn, if_neg fun h ↦ habs (hhead.mp h), cwdSlash_eq hcwd hlen]
    rcases Nat.lt_or_ge 255 (pathBase cwd).length with hlong | hbase
    · have hbase : (pathBase cwd).length = 256 := by
        have := (pathBase_length cwd).2
        omega
      refine iff_of_false (not_fills_of_base hk hcut hbase fun a ↦ ?_) (by omega)
      rw [hexec, hbase]
    · -- the last byte of the buffer is written only if the slash is right in front of it
      have hlast : ∀ full, execPathIn cwd path kpath full 255 =
          if 255 = (pathBase cwd).length then 0 else full 255 := by
        intro full
        rw [hexec, sub32_255 hbase, strncpy_base hk hcut, if_neg (by omega), if_neg (by omega)]
      have hlength : (joined cwd path).length = min 255 ((pathBase cwd).length + path.length) := by
        rw [joined, if_neg habs, List.length_take, List.length_append]
      constructor
      · intro hfills
        by_contra hcond
        have hend : (joined cwd path).length = 255 := by omega
        have h₁ := hfills.holds (fun _ ↦ 1) 255 hend.ge
        rw [hlast, if_neg (by omega), cstr_of_le hend.le] at h₁
        exact absurd h₁ (by decide)
      · intro hcond
        refine ⟨fun full j hj ↦ ?_, Nat.lt_succ_of_le (joined_length_le _ _), fun full j hj ↦ ?_⟩
        · rw [hexec, sub32_255 hbase, strncpy_of_notMem _ _ _ _ (.inr (by omega)),
            strcpy_of_lt _ _ (by omega)]
        · rcases Nat.lt_or_ge j 255 with hlt | hge
          · rw [hexec]
            refine strncpy_joined hk hcut habs (fun j hj ↦ ?_) full hlt
            rw [cstr_take, if_pos hj]
          · obtain rfl : j = 255 := le_antisymm (hj.trans (joined_length_le _ _)) hge
            rw [hlast, if_pos (by omega), cstr_of_le (by omega)]

/-! ## The current directory -/

/-- A successful `sys_chdir`. -/
def Chdir (cwd path cwd' : List UInt8) : Prop :=
  IsCString path ∧ ∃ fs, chdir fs cwd path = some cwd'

theorem joined_isCString (hcwd : IsCString cwd) (hpath : IsCString path) :
    IsCString (joined cwd path) := by
  have hbase : IsCString (pathBase cwd) := by
    unfold pathBase
    split
    · exact hcwd
    · intro h
      rcases List.mem_append.mp h with h | h
      · exact hcwd h
      · exact absurd (List.mem_singleton.mp h) (by decide)
  intro h
  unfold joined at h
  split at h
  · exact hpath (List.mem_of_mem_take h)
  · rcases List.mem_append.mp (List.mem_of_mem_take h) with h | h
    · exact hbase h
    · exact hpath h

/-- A successful `sys_chdir` stores the path that is meant. -/
theorem Chdir.eq {cwd' : List UInt8} (h : Chdir cwd path cwd') (hcwd : IsCString cwd)
    (hlen : cwd.length ≤ 255) : cwd' = joined cwd path := by
  obtain ⟨hpath, fs, h⟩ := h
  have hholds := buildPathIn_holds hcwd hlen hpath Bytes.zero
  simp only [chdir, Option.ite_none_left_eq_some, Option.some.injEq] at h
  rw [← h.2, hholds.strIn_eq (joined_isCString hcwd hpath) (joined_length_le _ _)]

/-- The current directory is a string of at most 255 characters. -/
theorem cwd_reach (h : Reach (· = [slash]) Chdir cwd) : IsCString cwd ∧ cwd.length ≤ 255 := by
  refine h.invariant (P := fun cwd ↦ IsCString cwd ∧ cwd.length ≤ 255) ?_ ?_
  · rintro cwd rfl
    decide
  · rintro cwd path cwd' ⟨hcwd, hlen⟩ hstep
    rw [hstep.eq hcwd hlen]
    exact ⟨joined_isCString hcwd hstep.1, joined_length_le _ _⟩

end

/-- For every current directory that `sys_chdir` can store and every path, both joins stay in
their buffers and leave the path that is meant there, if and only if the path is absolute, or
the directory with its slash takes 255 characters, or there is room for the path and a
terminator in front of the last byte. -/
theorem joins_in_buffer_iff {cwd : List UInt8} (h : Reach (· = [slash]) Chdir cwd)
    {path : List UInt8} (hpath : IsCString path) :
    (Fills 256 (buildPathIn cwd path) (joined cwd path) ∧
      ∀ kpath, Fills 256 (execPathIn cwd path kpath) (joined cwd path)) ↔
      path.head? = some slash ∨ (pathBase cwd).length = 255 ∨
        (pathBase cwd).length + path.length < 255 := by
  obtain ⟨hcwd, hlen⟩ := cwd_reach h
  constructor
  · rintro ⟨-, hexec⟩
    exact (execPathIn_fills_iff hcwd hlen hpath Bytes.zero).mp (hexec Bytes.zero)
  · intro hcond
    refine ⟨(buildPathIn_fills_iff hcwd hlen hpath).mpr ?_, fun kpath ↦
      (execPathIn_fills_iff hcwd hlen hpath kpath).mpr hcond⟩
    exact hcond.imp_right fun hroom ↦ by omega

theorem joins_in_buffer_root : pathBase [slash] = [slash] ∧
    ((Fills 256 (buildPathIn [slash] [97]) (joined [slash] [97]) ∧
      ∀ kpath, Fills 256 (execPathIn [slash] [97] kpath) (joined [slash] [97])) ↔
      [97].head? = some slash ∨ (pathBase [slash]).length = 255 ∨
        (pathBase [slash]).length + [(97 : UInt8)].length < 255) :=
  ⟨by decide, joins_in_buffer_iff (.init rfl) (by decide)⟩

/-- The root directory, in 255 characters. -/
def longRoot : List UInt8 := slash :: dotdot ++ (List.replicate 126 (slash :: dot)).flatten

theorem longRoot_facts : IsCString longRoot ∧ longRoot.length = 255 ∧
    longRoot.getLast? ≠ some slash ∧ Clean longRoot ∧
    ∀ c ∈ names longRoot, c = dotdot ∨ c = dot := by
  decide +kernel

theorem longRoot_resolve : minixfsResolve sampleFs longRoot = 1 := by
  obtain ⟨-, -, -, hclean, hnames⟩ := longRoot_facts
  have hlook : ∀ c ∈ names longRoot, dirLookup sampleSb sampleDisk 1 c = some 1 := by
    have hdots : dirLookup sampleSb sampleDisk 1 dotdot = some 1 ∧
        dirLookup sampleSb sampleDisk 1 dot = some 1 := by decide
    intro c hc
    rcases hnames c hc with rfl | rfl
    · exact hdots.1
    · exact hdots.2
  have hwalk := walk_of_fixed hlook
  rw [longRoot, List.cons_append] at hclean hwalk ⊢
  rw [minixfsResolve_eq rfl hclean]
  exact (congrArg (Option.getD · 0) hwalk)

theorem longRoot_chdir : Chdir [slash] longRoot longRoot := by
  obtain ⟨hpath, hlen, -, -, -⟩ := longRoot_facts
  refine ⟨hpath, sampleFs, ?_⟩
  have hjoined : joined [slash] longRoot = longRoot := by
    have habs : longRoot.head? = some slash := rfl
    rw [joined, if_pos habs, List.take_of_length_le hlen.le]
  have hholds := buildPathIn_holds (by decide : IsCString [slash]) (by decide) hpath Bytes.zero
  rw [hjoined] at hholds
  have hdir : minixfsIsDir sampleFs 1 = true := by decide
  rw [chdir, hholds.strIn_eq hpath (by omega), hholds.strIn_eq hpath (by omega), longRoot_resolve,
    hdir]
  rfl

/-- In a directory whose name has 255 characters `build_path` writes behind its buffer.  In the
root, a name of 254 characters leaves the buffer of `sys_execve_impl` without a terminator. -/
theorem joins_leave_buffer :
    (∃ cwd, Reach (· = [slash]) Chdir cwd ∧
      ¬Fills 256 (buildPathIn cwd [97]) (joined cwd [97])) ∧
    ¬Fills 256 (execPathIn [slash] (List.replicate 254 97) Bytes.zero)
      (joined [slash] (List.replicate 254 97)) := by
  constructor
  · obtain ⟨hcwd, hlen, hlast, -, -⟩ := longRoot_facts
    refine ⟨longRoot, Reach.step (.init rfl) longRoot_chdir, ?_⟩
    rw [buildPathIn_fills_iff hcwd hlen.le (by decide), pathBase, if_neg hlast,
      List.length_append, hlen]
    decide
  · have hname : IsCString (List.replicate 254 97) := by
      intro h
      exact absurd (List.eq_of_mem_replicate h) (by decide)
    rw [execPathIn_fills_iff (by decide) (by decide) hname, List.length_replicate]
    decide

/-! ## Where a relative path leads -/

section

variable {cwd path : List UInt8}

theorem names_pathBase_append (cwd path : List UInt8) :
    names (pathBase cwd ++ path) = names cwd ++ names path := by
  unfold pathBase
  split
  case isTrue h =>
    obtain ⟨dir, rfl⟩ := List.getLast?_eq_some_iff.mp h
    rw [List.append_assoc, List.singleton_append, names_append_slash, names_append_slash,
      names_nil, List.append_nil]
  case isFalse => rw [List.append_assoc, List.singleton_append, names_append_slash]

theorem joined_head (hcwd : cwd.head? = some slash) (path : List UInt8) :
    (joined cwd path).head? = some slash := by
  obtain ⟨dir, rfl⟩ := List.head?_eq_some_iff.mp hcwd
  unfold joined pathBase
  split_ifs with habs
  · rwa [List.head?_take, if_neg (by decide)]
  · rfl
  · rfl

theorem cwd_reach_head (h : Reach (· = [slash]) Chdir cwd) : cwd.head? = some slash := by
  induction h with
  | init h => rw [h]; rfl
  | step hcwd hstep ih =>
    obtain ⟨hstr, hlen⟩ := cwd_reach hcwd
    rw [hstep.eq hstr hlen]
    exact joined_head ih _

/-- Whatever directory the calls of `chdir` have led to, a relative path that fits behind it is
resolved from the inode to which the directory itself leads. -/
theorem relative_path_resolves (h : Reach (· = [slash]) Chdir cwd) (hpath : IsCString path)
    (hrel : path.head? ≠ some slash) (hfit : (pathBase cwd).length + path.length ≤ 255)
    (hclean : Clean (joined cwd path)) {fs : Minixfs} (hmounted : fs.mounted = true)
    (out : Bytes) : minixfsResolve fs (strIn (buildPathIn cwd path out) 256) =
      ((walk fs.sb fs.disk 1 (names cwd)).bind fun dir ↦
        walk fs.sb fs.disk dir (names path)).getD 0 := by
  obtain ⟨hcwd, hlen⟩ := cwd_reach h
  rw [(buildPathIn_holds hcwd hlen hpath out).strIn_eq (joined_isCString hcwd hpath)
    ((joined_length_le _ _).trans (by decide))]
  have hjoined : joined cwd path = pathBase cwd ++ path := by
    rw [joined, if_neg hrel, List.take_of_length_le (by rwa [List.length_append])]
  obtain ⟨p, hp⟩ := List.head?_eq_some_iff.mp (joined_head (cwd_reach_head h) path)
  rw [hp] at hclean hjoined ⊢
  rw [minixfsResolve_eq hmounted hclean, hjoined, names_pathBase_append, walk, List.foldlM_append]
  rfl

/-- The current directory is `/.`, after `chdir(".")`. -/
theorem relative_path_resolves_dot : Chdir [slash] dot [slash, 46] ∧ ∀ out, minixfsResolve sampleFs
    (strIn (buildPathIn [slash, 46] dot out) 256) =
      ((walk sampleFs.sb sampleFs.disk 1 (names [slash, 46])).bind fun dir ↦
        walk sampleFs.sb sampleFs.disk dir (names dot)).getD 0 := by
  have hchdir : Chdir [slash] dot [slash, 46] := ⟨by decide, sampleFs, by decide⟩
  exact ⟨hchdir, relative_path_resolves (.step (.init rfl) hchdir) (by decide) (by decide)
    (by decide) (by decide) rfl⟩

end

end FentoOS.Kernel
