import FentoOS.Kernel.Refs
import FentoOS.Kernel.System

/-!
# Descriptors and what they count

The descriptors of all tasks in memory form one table, `descriptors`.  Every
system call is a composition of the four things that can happen to that table
(a new open file, a further reference, a close, a new pipe) and of work that
leaves it alone, so it keeps `Counted`, whatever has leaked before.

What leaves the table alone is most of the kernel: `Quiet` collects it.
-/

namespace FentoOS.Kernel

open FentoOS.Lib FentoOS.Fs FentoOS.Mm Function

/-- `t->files[fd]`. -/
def fdAt (k : Machine) (t : Addr) (fd : Nat) : Option Addr :=
  (k.tasks t).bind fun T ↦ T.files fd

/-- The descriptors of all tasks in memory, as one table. -/
def descriptors (k : Machine) (i : Addr × Nat) : Option Addr :=
  if i.2 < maxFiles then fdAt k i.1 i.2 else none

/-- `t` has exited and is not reaped. -/
def IsZombie (k : Machine) (t : Addr) : Prop := ∃ T, k.tasks t = some T ∧ T.state = .zombie

/-! ## What leaves the descriptors alone -/

/-- No descriptor and no open file changes, no task exits, and none that has exited
becomes the current one. -/
structure Quiet (k k' : Machine) : Prop where
  files : k'.files = k.files
  fds : descriptors k' = descriptors k
  zombie : ∀ t, IsZombie k' t → IsZombie k t
  current : ∀ t, k'.current = some t → IsZombie k' t → k.current = some t

theorem Quiet.refl (k : Machine) : Quiet k k := ⟨rfl, rfl, fun _ h ↦ h, fun _ h _ ↦ h⟩

variable {k k' : Machine}

theorem Quiet.trans {k'' : Machine} (h : Quiet k k') (h' : Quiet k' k'') : Quiet k k'' :=
  ⟨h'.files.trans h.files, h'.fds.trans h.fds, fun t ht ↦ h.zombie t (h'.zombie t ht),
    fun t hc ht ↦ h.current t (h'.current t hc ht) (h'.zombie t ht)⟩

/-- A task changes, but not its descriptors. -/
theorem descriptors_upd (k : Machine) (t : Addr) {f : Task → Task}
    (hfiles : ∀ T, (f T).files = T.files) : descriptors (k.upd t f) = descriptors k := by
  funext i
  rw [descriptors, descriptors, fdAt, fdAt, upd_tasks]
  by_cases h : i.1 = t
  · rw [if_pos h, ← h]
    cases k.tasks i.1 with
    | none => rfl
    | some T => simp [hfiles T]
  · rw [if_neg h]

theorem Quiet.upd (k : Machine) (t : Addr) {f : Task → Task} (hfiles : ∀ T, (f T).files = T.files)
    (hstate : ∀ T, (f T).state = .zombie → T.state = .zombie) : Quiet k (k.upd t f) := by
  refine ⟨rfl, descriptors_upd k t hfiles, ?_, fun _ h _ ↦ h⟩
  rintro a ⟨T, hT, hz⟩
  rw [upd_tasks] at hT
  split at hT
  case isTrue h =>
    subst h
    obtain ⟨T₀, hT₀, rfl⟩ := Option.map_eq_some_iff.mp hT
    exact ⟨T₀, hT₀, hstate T₀ hz⟩
  case isFalse => exact ⟨T, hT, hz⟩

theorem Quiet.updCurrent (k : Machine) {f : Task → Task} (hfiles : ∀ T, (f T).files = T.files)
    (hstate : ∀ T, (f T).state = .zombie → T.state = .zombie) : Quiet k (k.updCurrent f) := by
  rw [Machine.updCurrent]
  split
  · exact .refl k
  · exact .upd k _ hfiles hstate

/-- The state apart from the tasks and the open files does not matter. -/
theorem Quiet.of_eq (htasks : k'.tasks = k.tasks) (hfiles : k'.files = k.files)
    (hcur : k'.current = k.current) : Quiet k k' := by
  refine ⟨hfiles, funext fun i ↦ ?_, fun t ht ↦ ?_, fun t ht _ ↦ hcur ▸ ht⟩
  · rw [descriptors, fdAt, htasks, descriptors, fdAt]
  · rwa [IsZombie, htasks] at ht

/-- The task that is switched to has not exited, whatever it was before. -/
theorem not_isZombie_switchTo (k : Machine) (next : Addr) : ¬IsZombie (switchTo k next) next := by
  rintro ⟨T, hT, hz⟩
  rw [switchTo_tasks, upd_tasks, if_pos rfl] at hT
  obtain ⟨T₀, -, rfl⟩ := Option.map_eq_some_iff.mp hT
  cases hz

theorem quiet_switchTo (k : Machine) (next : Addr) : Quiet k (switchTo k next) := by
  have hupd : Quiet k (k.upd next fun T ↦ { T with state := .running, timeSlice := quantum }) :=
    .upd k next (fun _ ↦ rfl) fun _ h ↦ by cases h
  refine ⟨switchTo_files k next, ?_, fun t ht ↦ ?_, fun t ht hz ↦ ?_⟩
  · rw [← hupd.fds]
    funext i
    rw [descriptors, fdAt, switchTo_tasks]
    rfl
  · refine hupd.zombie t ?_
    rwa [IsZombie, switchTo_tasks] at ht
  · rw [switchTo_current] at ht
    obtain rfl := Option.some.inj ht
    exact absurd hz (not_isZombie_switchTo k next)

theorem quiet_preempt (k : Machine) : Quiet k (preempt k) := by
  refine .updCurrent k (fun T ↦ ?_) fun T hT ↦ ?_
  · split <;> rfl
  · split at hT
    · cases hT
    · exact hT

theorem quiet_schedYield (k : Machine) : Quiet k (schedYield k) := by
  rw [schedYield]
  split
  · exact .refl k
  · simp only
    split
    · exact (quiet_preempt k).trans (quiet_switchTo _ _)
    · exact .refl k

theorem quiet_schedTick (k : Machine) : Quiet k (schedTick k) := by
  rw [schedTick]
  split
  · exact .refl k
  · split
    · exact .refl k
    · have h : Quiet k (k.updCurrent fun T ↦ { T with timeSlice := T.timeSlice - 1 }) :=
        .updCurrent k (fun _ ↦ rfl) fun _ h ↦ h
      refine h.trans ?_
      simp only
      split
      · split
        · exact (quiet_preempt _).trans (quiet_switchTo _ _)
        · exact .updCurrent _ (fun _ ↦ rfl) fun _ h ↦ h
      · exact .refl _

theorem quiet_schedWakeupParent (k : Machine) (t : Addr) : Quiet k (schedWakeupParent k t) := by
  rw [schedWakeupParent]
  split
  · exact .refl k
  · refine .upd k _ (fun T ↦ ?_) fun T hT ↦ ?_
    · split <;> rfl
    · split at hT
      · cases hT
      · exact hT

theorem quiet_orphan (t : Addr) (k : Machine) (i n : Nat) : Quiet k (orphan k t i n) := by
  induction n generalizing k i with
  | zero => exact .refl k
  | succ n ih =>
    rw [orphan]
    refine Quiet.trans ?_ (ih _ _)
    rw [orphanSlot]
    split
    · exact .refl k
    · refine .upd k _ (fun T ↦ ?_) fun T hT ↦ ?_
      · split <;> rfl
      · split at hT <;> exact hT

theorem quiet_schedBlock (k : Machine) (status : Nat) : Quiet k (schedBlock k status) := by
  have h : Quiet k (k.updCurrent fun T ↦ { T with state := .blocked, ctx := .wait4 status }) :=
    .updCurrent k (fun _ ↦ rfl) fun _ h ↦ by cases h
  refine h.trans ?_
  rw [schedBlock]
  split
  · exact quiet_switchTo _ _
  · exact .refl _

variable {t : Addr}

theorem quiet_schedAlloc (k : Machine) (ht : k.tasks t = none) : Quiet k (schedAlloc k t) := by
  refine ⟨rfl, funext fun ⟨a, fd⟩ ↦ ?_, ?_, fun _ h _ ↦ h⟩
  · by_cases h : a = t
    · subst h
      simp [descriptors, fdAt, schedAlloc, ht, Task.fresh]
    · simp [descriptors, fdAt, schedAlloc, h]
  · rintro a ⟨T, hT, hz⟩
    by_cases h : a = t
    · subst h
      obtain rfl : Task.fresh _ _ = T := by simpa [schedAlloc] using hT
      cases hz
    · exact ⟨T, by simpa [schedAlloc, h] using hT, hz⟩

theorem quiet_schedAdd (k : Machine) (t : Addr) : Quiet k (schedAdd k t) := by
  rw [schedAdd]
  split
  · refine Quiet.trans ?_ (.upd _ t (fun _ ↦ rfl) fun _ h ↦ h)
    exact .of_eq rfl rfl rfl
  · refine Quiet.trans ?_ (.upd _ t (fun _ ↦ rfl) fun _ h ↦ h)
    exact .upd _ _ (fun _ ↦ rfl) fun _ h ↦ h

theorem quiet_ringRemove (k : Machine) (t : Addr) : Quiet k (ringRemove k t) := by
  rw [ringRemove]
  split
  · exact .refl k
  · split
    · exact .refl k
    case h_2 p _ =>
      have h : Quiet k (k.upd p fun T ↦ { T with next := (k.tasks t).bind Task.next }) :=
        .upd _ _ (fun _ ↦ rfl) fun _ h ↦ h
      simp only
      split
      · exact h.trans (.of_eq rfl rfl rfl)
      · exact h

/-! ## What changes the descriptors of one task -/

/-- The open files count the descriptors of all tasks, up to a leak. -/
def Accounted (leak : Addr → Nat) (k : Machine) : Prop := Counted leak (descriptors k) k.files

/-- The counts stay right, only descriptors of `t` change, no task exits, and none that
has exited becomes the current one. -/
structure Keeps (t : Addr) (k k' : Machine) : Prop where
  accounted : ∀ {leak}, Accounted leak k → Accounted leak k'
  fds : ∀ i, i.1 ≠ t → descriptors k' i = descriptors k i
  zombie : ∀ a, IsZombie k' a → IsZombie k a
  current : ∀ a, k'.current = some a → IsZombie k' a → k.current = some a

theorem Keeps.trans {k'' : Machine} (h : Keeps t k k') (h' : Keeps t k' k'') : Keeps t k k'' :=
  ⟨fun ha ↦ h'.accounted (h.accounted ha),
    fun i hi ↦ (h'.fds i hi).trans (h.fds i hi), fun a ha ↦ h.zombie a (h'.zombie a ha),
    fun a hc ha ↦ h.current a (h'.current a hc ha) (h'.zombie a ha)⟩

variable {leak : Addr → Nat}

theorem Accounted.quiet (h : Accounted leak k) (hq : Quiet k k') : Accounted leak k' := by
  rw [Accounted, hq.fds, hq.files]
  exact h

theorem Quiet.keeps (h : Quiet k k') (t : Addr) : Keeps t k k' :=
  ⟨fun ha ↦ ha.quiet h, fun i _ ↦ congrFun h.fds i, h.zombie, h.current⟩

theorem fdAt_setFd (k : Machine) (t : Addr) (fd : Nat) (v : Option Addr) (a : Addr) (i : Nat) :
    fdAt (setFd k t fd v) a i =
      if a = t ∧ i = fd ∧ k.tasks t ≠ none then v else fdAt k a i := by
  rw [fdAt, fdAt, setFd, upd_tasks]
  by_cases ha : a = t
  · subst ha
    cases hT : k.tasks a with
    | none => simp
    | some T =>
      by_cases hi : i = fd
      · simp [hi]
      · simp [hi]
  · simp [ha]

variable {fd : Nat}

theorem descriptors_setFd_of_ne (k : Machine) (v : Option Addr) {i : Addr × Nat} (hi : i ≠ (t, fd))
    : descriptors (setFd k t fd v) i = descriptors k i := by
  have hne : ¬(i.1 = t ∧ i.2 = fd ∧ k.tasks t ≠ none) := fun h ↦ hi (Prod.ext h.1 h.2.1)
  rw [descriptors, fdAt_setFd, if_neg hne, descriptors]

theorem descriptors_setFd (v : Option Addr) (ht : k.tasks t ≠ none) (hfd : fd < maxFiles) :
    descriptors (setFd k t fd v) = update (descriptors k) (t, fd) v := by
  funext i
  by_cases h : i = (t, fd)
  · rw [h, update_self, descriptors, if_pos hfd, fdAt_setFd, if_pos ⟨rfl, rfl, ht⟩]
  · rw [descriptors_setFd_of_ne k v h, update_of_ne h]

/-- Changing one descriptor and the open files: only the counts are left to check. -/
theorem keeps_setFd {v : Option Addr} {files : Files} (ht : k.tasks t ≠ none) (hfd : fd < maxFiles)
    (hcounted : ∀ {leak}, Counted leak (descriptors k) k.files →
      Counted leak (update (descriptors k) (t, fd) v) files) :
    Keeps t k (setFd { k with files := files } t fd v) := by
  refine ⟨fun {leak} ha ↦ ?_, fun i hi ↦ ?_, fun a ha ↦ ?_, fun _ h _ ↦ h⟩
  · have : Counted leak (update (descriptors { k with files := files }) (t, fd) v) files :=
      hcounted ha
    rwa [← descriptors_setFd v (k := { k with files := files }) ht hfd] at this
  · exact descriptors_setFd_of_ne _ v fun h ↦ hi (by rw [h])
  · obtain ⟨T, hT, hz⟩ := ha
    rw [setFd, upd_tasks] at hT
    split at hT
    case isTrue h =>
      subst h
      obtain ⟨T₀, hT₀, rfl⟩ := Option.map_eq_some_iff.mp hT
      exact ⟨T₀, hT₀, hz⟩
    case isFalse => exact ⟨T, hT, hz⟩

variable {T : Task}

theorem fdAlloc_eq_some (h : fdAlloc T = some fd) : fd < maxFiles ∧ T.files fd = none := by
  obtain ⟨-, hlt, hfree, -⟩ := findFirst_eq_some h
  exact ⟨by simpa using hlt, by simpa using hfree⟩

theorem descriptors_of_task (hT : k.tasks t = some T) (hfd : fd < maxFiles) :
    descriptors k (t, fd) = T.files fd := by
  simp [descriptors, fdAt, hfd, hT]

variable {f : Addr}

theorem fileOf_eq_some (h : fileOf T fd = some f) : fd < maxFiles ∧ T.files fd = some f := by
  rw [fileOf] at h
  split at h
  case isTrue hfd => exact ⟨hfd, h⟩
  case isFalse => cases h

section Syscalls

variable {k : Machine} {t : Addr} {T : Task}

theorem keeps_installFile (hT : k.tasks t = some T) {F : Filp} (hf : k.files.filps f = none)
    (hcount : F.refcount = 1) (hpipe : F.pipe = none) : Keeps t k (installFile k t T f F).2 := by
  rw [installFile]
  split
  · exact (Quiet.refl k).keeps t
  case h_2 fd hfd =>
    obtain ⟨hlt, hfree⟩ := fdAlloc_eq_some hfd
    refine keeps_setFd (by simp [hT]) hlt fun h ↦ ?_
    rw [filpAlloc, Files.setFilp_idem]
    exact h.alloc (by rw [descriptors_of_task hT hlt, hfree]) hf hcount hpipe

/-- The common end of `sys_open` and `sys_creat`. -/
theorem keeps_installUnless (hT : k.tasks t = some T) {fs : Minixfs} {failed : Prop}
    [Decidable failed] {F : Filp} (hf : k.files.filps f = none) (hcount : F.refcount = 1)
    (hpipe : F.pipe = none) :
    Keeps t k (if failed then ((-1 : Int), { k with fs := fs })
      else installFile { k with fs := fs } t T f F).2 := by
  have hfs : Keeps t k { k with fs := fs } := by
    refine Quiet.keeps ?_ t
    exact .of_eq rfl rfl rfl
  split
  · exact hfs
  · exact hfs.trans (keeps_installFile (k := { k with fs := fs }) hT hf hcount hpipe)

theorem keeps_sysOpen (hcur : k.current = some t) (hT : k.tasks t = some T) {path : List UInt8}
    {flags mode : Nat} (hf : k.files.filps f = none) :
    Keeps t k (sysOpen k path flags mode f).2 := by
  rw [sysOpen, withCurrent_eq hcur hT]
  exact keeps_installUnless hT hf (by rfl) (by rfl)

theorem keeps_sysCreat (hcur : k.current = some t) (hT : k.tasks t = some T) {path : List UInt8}
    {mode : Nat} (hf : k.files.filps f = none) : Keeps t k (sysCreat k path mode f).2 := by
  rw [sysCreat, withCurrent_eq hcur hT]
  exact keeps_installUnless hT hf (by rfl) (by rfl)

theorem keeps_closeFd (k : Machine) (t : Addr) (hfd : fd < maxFiles) :
    Keeps t k (closeFd k t fd) := by
  rw [closeFd]
  split
  · exact (Quiet.refl k).keeps t
  case h_2 f hf =>
    have ht : k.tasks t ≠ none := by
      rintro h
      simp [h] at hf
    refine keeps_setFd ht hfd fun h ↦ h.drop ?_
    rw [descriptors, if_pos hfd]
    exact hf

theorem keeps_sysClose (hcur : k.current = some t) (hT : k.tasks t = some T) :
    Keeps t k (sysClose k fd).2 := by
  rw [sysClose, withCurrent_eq hcur hT]
  split
  · exact (Quiet.refl k).keeps t
  case h_2 hf => exact keeps_closeFd k t (fileOf_eq_some hf).1

theorem keeps_sysDup (hcur : k.current = some t) (hT : k.tasks t = some T) :
    Keeps t k (sysDup k fd).2 := by
  rw [sysDup, withCurrent_eq hcur hT]
  split
  · exact (Quiet.refl k).keeps t
  case h_2 f hf =>
    obtain ⟨hfd, hf⟩ := fileOf_eq_some hf
    split
    · exact (Quiet.refl k).keeps t
    case h_2 nfd hnfd =>
      obtain ⟨hlt, hfree⟩ := fdAlloc_eq_some hnfd
      refine keeps_setFd (by simp [hT]) hlt fun h ↦ ?_
      refine h.share (by rw [descriptors_of_task hT hlt, hfree]) (h.slot (i := (t, fd)) ?_)
      rw [descriptors_of_task hT hfd, hf]

theorem keeps_sysDup2 (hcur : k.current = some t) (hT : k.tasks t = some T) {oldfd newfd : Nat} :
    Keeps t k (sysDup2 k oldfd newfd).2 := by
  rw [sysDup2, withCurrent_eq hcur hT]
  split
  · exact (Quiet.refl k).keeps t
  case h_2 f hf =>
    obtain ⟨hold, hf⟩ := fileOf_eq_some hf
    split_ifs with hrange hsame
    · exact (Quiet.refl k).keeps t
    · exact (Quiet.refl k).keeps t
    · have hnew : newfd < maxFiles := by omega
      have hf' : descriptors k (t, oldfd) = some f := by rw [descriptors_of_task hT hold, hf]
      cases hh : T.files newfd with
      | none =>
        refine keeps_setFd (by simp [hT]) hnew fun h ↦ ?_
        exact h.share (by rw [descriptors_of_task hT hnew, hh]) (h.slot hf')
      | some h₀ =>
        -- the old file of the slot is closed first; the two table updates meet in one slot
        refine keeps_setFd (by simp [hT]) hnew fun h ↦ ?_
        have hdrop := h.drop (i := (t, newfd)) (f := h₀)
          (by rw [descriptors_of_task hT hnew, hh])
        have hslot := hdrop.slot (i := (t, oldfd)) (f := f) (by
          rw [update_of_ne (by simpa using hsame), hf'])
        have := hdrop.share (i := (t, newfd)) (by simp) hslot
        rwa [update_idem] at this

theorem keeps_sysPipe (hcur : k.current = some t) (hT : k.tasks t = some T) {rf p wf : Addr}
    (hrf : k.files.filps rf = none) (hwf : k.files.filps wf = none) (hne : rf ≠ wf)
    (hp : k.files.pipes p = none) : Keeps t k (sysPipe k rf p wf).2 := by
  rw [sysPipe, withCurrent_eq hcur hT]
  split
  · exact (Quiet.refl k).keeps t
  case h_2 rfd hrfd =>
    obtain ⟨hrlt, hrfree⟩ := fdAlloc_eq_some hrfd
    have hrd : descriptors k (t, rfd) = none := by rw [descriptors_of_task hT hrlt, hrfree]
    have hread : Keeps t k (setFd { k with files := filpAlloc k.files rf } t rfd (some rf)) :=
      keeps_setFd (by simp [hT]) hrlt fun h ↦ h.alloc hrd hrf rfl rfl
    set k₁ := setFd { k with files := filpAlloc k.files rf } t rfd (some rf) with hk₁
    have hfiles : k₁.files = filpAlloc k.files rf := rfl
    have hT₁ : k₁.tasks t ≠ none := by simp [hk₁, setFd, upd_tasks, hT]
    have hd₁ : descriptors k₁ = update (descriptors k) (t, rfd) (some rf) :=
      descriptors_setFd (k := { k with files := filpAlloc k.files rf }) _ (by simp [hT]) hrlt
    refine hread.trans ?_
    simp only
    split
    · refine keeps_setFd hT₁ hrlt fun h ↦ h.drop ?_
      simp [hd₁]
    case h_2 wfd hwfd =>
      obtain ⟨T₁, hT₁', hwfd⟩ := Option.bind_eq_some_iff.mp hwfd
      obtain ⟨hwlt, hwfree⟩ := fdAlloc_eq_some hwfd
      refine keeps_setFd hT₁ hwlt fun h ↦ ?_
      have hconnect := h.connect (j := (t, wfd)) rf wf p (R := Filp.fresh)
        (by rw [descriptors_of_task hT₁' hwlt, hwfree]) (by simp [hfiles, filpAlloc]) rfl
        (by simp [hfiles, filpAlloc, hne.symm, hwf]) (by simp [hfiles, filpAlloc, hp])
      simp only [filpAlloc, pipeCreate, Files.setFilp_filps, Files.setPipe_filps, hfiles,
        update_self, update_of_ne hne, update_of_ne hne.symm,
        Option.map_some]
      rw [Files.setFilp_comm hne.symm, Files.setFilp_idem]
      exact hconnect

theorem keeps_sysIoctl (hcur : k.current = some t) (hT : k.tasks t = some T) {request arg : Nat} :
    Keeps t k (sysIoctl k fd request arg).2 := by
  refine Quiet.keeps ?_ t
  rw [sysIoctl, withCurrent_eq hcur hT]
  split
  · exact .refl k
  · split_ifs
    · exact .refl k
    · exact .upd k t (fun _ ↦ rfl) fun _ h ↦ h
    · exact .upd k t (fun _ ↦ rfl) fun _ h ↦ h
    · exact .of_eq rfl rfl rfl
    · exact .refl k

end Syscalls

/-! ## Forking -/

variable {child : Addr}

theorem keeps_shareFd {parent : Addr} (hchild : k.tasks child ≠ none) (hfd : fd < maxFiles)
    (hfree : descriptors k (child, fd) = none) : Keeps child k (shareFd k parent child fd) := by
  rw [shareFd]
  split
  · exact (Quiet.refl k).keeps child
  case h_2 f hf =>
    refine keeps_setFd hchild hfd fun h ↦ h.share hfree (h.slot (i := (parent, fd)) ?_)
    rw [descriptors, if_pos hfd]
    exact hf

theorem shareFd_spec (parent : Addr) (fd : Nat) (hchild : k.tasks child ≠ none) :
    (shareFd k parent child fd).tasks child ≠ none ∧
      ∀ i, fd < i → descriptors (shareFd k parent child fd) (child, i) =
        descriptors k (child, i) := by
  rw [shareFd]
  split
  · exact ⟨hchild, fun _ _ ↦ rfl⟩
  case h_2 f hf =>
    refine ⟨by simpa [upd_tasks] using hchild, fun i hi ↦ ?_⟩
    refine descriptors_setFd_of_ne { k with files := filpRef k.files f } (some f) ?_
    simpa using hi.ne'

variable {n : Nat}

/-- The child ends up with the descriptors of its parent, each counted. -/
theorem keeps_shareFds (parent : Addr) (hchild : k.tasks child ≠ none) (hn : fd + n = maxFiles)
    (hfree : ∀ i, fd ≤ i → descriptors k (child, i) = none) :
    Keeps child k (shareFds k parent child fd n) := by
  induction n generalizing k fd with
  | zero => exact (Quiet.refl k).keeps child
  | succ n ih =>
    rw [shareFds]
    obtain ⟨hchild', hrest⟩ := shareFd_spec parent fd hchild
    have hfirst : Keeps child k (shareFd k parent child fd) :=
      keeps_shareFd hchild (by omega) (hfree fd le_rfl)
    refine hfirst.trans (ih hchild' (by omega) fun i hi ↦ ?_)
    rw [hrest i (by omega)]
    exact hfree i (by omega)

theorem quiet_forkSpace (t : Addr) (P : Task) (hfresh : k.tasks child = none) :
    Quiet k (forkSpace k t P child) := by
  refine (quiet_schedAlloc k hfresh).trans ?_
  refine Quiet.trans (.upd _ child (fun C ↦ rfl) fun _ h ↦ h : Quiet _ ((schedAlloc k child).upd
    child fun C ↦ inherit P C t)) ?_
  refine Quiet.trans ?_ (.upd _ child (fun _ ↦ rfl) fun _ h ↦ h)
  exact .of_eq rfl rfl rfl

theorem keeps_sysFork (hfresh : k.tasks child = none) : Keeps child k (sysFork k child).2 := by
  cases hcur : k.current with
  | none =>
    rw [sysFork, hcur]
    exact (Quiet.refl k).keeps child
  | some t =>
    cases hP : k.tasks t with
    | none =>
      rw [sysFork, hcur]
      simp only [hP]
      exact (Quiet.refl k).keeps child
    | some P =>
      have hspace := quiet_forkSpace t P hfresh
      have hchild : (forkSpace k t P child).tasks child ≠ none := by
        simp [forkSpace, upd_tasks, schedAlloc]
      have hfree : ∀ i, 0 ≤ i → descriptors (forkSpace k t P child) (child, i) = none := by
        intro i _
        rw [hspace.fds]
        simp [descriptors, fdAt, hfresh]
      rw [sysFork_eq hcur hP]
      split
      · exact hspace.keeps child
      · refine (hspace.keeps child).trans ?_
        refine (keeps_shareFds t hchild (Nat.zero_add _) hfree).trans ?_
        exact (quiet_schedAdd _ _).keeps child

/-! ## Exiting -/

theorem closeFd_spec (k : Machine) (t : Addr) (fd : Nat) (hfd : fd < maxFiles) :
    descriptors (closeFd k t fd) (t, fd) = none ∧
      ∀ i, i ≠ (t, fd) → descriptors (closeFd k t fd) i = descriptors k i := by
  rw [closeFd]
  split
  case h_1 hnone =>
    exact ⟨by rw [descriptors, if_pos hfd]; exact hnone, fun _ _ ↦ rfl⟩
  case h_2 f hf =>
    have ht : k.tasks t ≠ none := by
      rintro h
      simp [h] at hf
    refine ⟨?_, fun i hi ↦ descriptors_setFd_of_ne { k with files := filpClose k.files f } none hi⟩
    have := descriptors_setFd (k := { k with files := filpClose k.files f }) none ht hfd
    exact (congrFun this (t, fd)).trans (update_self ..)

theorem keeps_closeFds (k : Machine) (t : Addr) (hn : fd + n ≤ maxFiles) :
    Keeps t k (closeFds k t fd n) := by
  induction n generalizing k fd with
  | zero => exact (Quiet.refl k).keeps t
  | succ n ih =>
    rw [closeFds]
    exact (keeps_closeFd k t (by omega)).trans (ih _ (by omega))

/-- The loop of `sched_exit` leaves the task without descriptors. -/
theorem descriptors_closeFds (k : Machine) (t : Addr) (hn : fd + n ≤ maxFiles) :
    ∀ i, descriptors (closeFds k t fd n) (t, i) =
      if fd ≤ i ∧ i < fd + n then none else descriptors k (t, i) := by
  induction n generalizing k fd with
  | zero =>
    intro i
    rw [closeFds, if_neg (by omega)]
  | succ n ih =>
    intro i
    obtain ⟨hfirst, hrest⟩ := closeFd_spec k t fd (by omega)
    rw [closeFds, ih _ (by omega)]
    by_cases hi : i = fd
    · subst hi
      rw [if_neg (by omega), if_pos (by omega), hfirst]
    · rw [hrest (t, i) (by simpa using hi)]
      by_cases hin : fd + 1 ≤ i ∧ i < fd + 1 + n
      · rw [if_pos hin, if_pos (by omega)]
      · rw [if_neg hin, if_neg (by omega)]

/-- What `sched_exit` does before it switches: the task has no descriptors any more,
the counts stay right, and nobody else exits. -/
theorem exitTask_spec (k : Machine) (t : Addr) (code : Int) :
    (∀ {leak}, Accounted leak k → Accounted leak (exitTask k t code)) ∧
    (∀ i, descriptors (exitTask k t code) i = if i.1 = t then none else descriptors k i) ∧
    ∀ a, a ≠ t → IsZombie (exitTask k t code) a → IsZombie k a := by
  set k₁ := k.upd t fun T ↦ { T with exitCode := code, state := .zombie } with hk₁
  have hfds : descriptors k₁ = descriptors k := descriptors_upd k t fun _ ↦ rfl
  have horphan : Quiet k₁ (orphan k₁ t 0 maxTasks) := quiet_orphan t k₁ 0 maxTasks
  have hclose : Keeps t (orphan k₁ t 0 maxTasks) (closeFds (orphan k₁ t 0 maxTasks) t 0 maxFiles) :=
    keeps_closeFds _ t (Nat.zero_add _).le
  have hwake := quiet_schedWakeupParent (closeFds (orphan k₁ t 0 maxTasks) t 0 maxFiles) t
  have hall : Keeps t k₁ (exitTask k t code) :=
    (horphan.keeps t).trans (hclose.trans (hwake.keeps t))
  refine ⟨fun ha ↦ hall.accounted ?_, fun i ↦ ?_, fun a ha hz ↦ ?_⟩
  · rw [Accounted, hfds]
    exact ha
  · split
    case isTrue hi =>
      obtain ⟨a, fd⟩ := i
      subst hi
      rw [exitTask, hwake.fds, descriptors_closeFds _ _ (Nat.zero_add _).le]
      split
      · rfl
      · rw [descriptors, if_neg (by omega)]
    case isFalse hi => rw [hall.fds i hi, hfds]
  · obtain ⟨T, hT, hz⟩ := hall.zombie a hz
    rw [hk₁, upd_tasks, if_neg ha] at hT
    exact ⟨T, hT, hz⟩

theorem quiet_schedExit (hcur : k.current = some t) (code : Int) :
    Quiet (exitTask k t code) (schedExit k code) := by
  rw [schedExit, hcur]
  exact quiet_switchTo _ _

/-! ## Reaping -/

/-- The descriptors of a task that is reaped are gone, whether closed or not. -/
theorem schedReap_spec (k : Machine) (t : Addr) :
    (schedReap k t).files = k.files ∧
    (∀ i, descriptors (schedReap k t) i = if i.1 = t then none else descriptors k i) ∧
    (∀ a, IsZombie (schedReap k t) a → IsZombie k a) ∧ (schedReap k t).current = k.current := by
  have hring := quiet_ringRemove k t
  refine ⟨hring.files, fun i ↦ ?_, ?_, ringRemove_current k t⟩
  · rw [← hring.fds]
    by_cases hi : i.1 = t
    · simp [schedReap, descriptors, fdAt, hi]
    · simp [schedReap, descriptors, fdAt, hi]
  · rintro a ⟨T, hT, hz⟩
    by_cases ha : a = t
    · subst ha
      simp [schedReap] at hT
    · exact hring.zombie a ⟨T, by simpa [schedReap, ha] using hT, hz⟩

/-- A table from which the first `n` descriptors of `t` are removed. -/
def without (g : Addr × Nat → Option Addr) (t : Addr) (n : Nat) : Addr × Nat → Option Addr :=
  fun i ↦ if i.1 = t ∧ i.2 < n then none else g i

theorem without_succ (g : Addr × Nat → Option Addr) (t : Addr) (n : Nat) :
    without g t (n + 1) = update (without g t n) (t, n) none := by
  funext ⟨a, fd⟩
  by_cases h : (a, fd) = (t, n)
  · obtain ⟨rfl, rfl⟩ := Prod.mk.inj h
    simp [without]
  · rw [update_of_ne h]
    have : (a = t ∧ fd < n + 1) ↔ (a = t ∧ fd < n) := by
      refine ⟨fun ⟨ha, hfd⟩ ↦ ⟨ha, ?_⟩, fun ⟨ha, hfd⟩ ↦ ⟨ha, by omega⟩⟩
      have : fd ≠ n := fun hn ↦ h (by rw [ha, hn])
      omega
    simp only [without, this]

/-- Descriptors that are forgotten leak. -/
theorem counted_without {g : Addr × Nat → Option Addr} {s : Files} (h : Counted leak g s) (t : Addr)
    (n : Nat) : ∃ leak', Counted leak' (without g t n) s := by
  induction n with
  | zero =>
    have : without g t 0 = g := funext fun i ↦ by simp [without]
    exact ⟨leak, by rwa [this]⟩
  | succ n ih =>
    obtain ⟨leak', h'⟩ := ih
    rw [without_succ]
    cases hf : without g t n (t, n) with
    | none => exact ⟨leak', by rwa [update_eq_self_iff.mpr hf.symm]⟩
    | some f => exact ⟨_, h'.forget hf⟩

theorem accounted_schedReap (h : Accounted leak k) (t : Addr) :
    ∃ leak', Accounted leak' (schedReap k t) := by
  obtain ⟨hfiles, hfds, -, -⟩ := schedReap_spec k t
  have : descriptors (schedReap k t) = without (descriptors k) t maxFiles := by
    funext i
    rw [hfds, without]
    by_cases hi : i.1 = t
    · by_cases hfd : i.2 < maxFiles
      · rw [if_pos hi, if_pos ⟨hi, hfd⟩]
      · rw [if_pos hi, if_neg fun h ↦ hfd h.2, descriptors, if_neg hfd]
    · rw [if_neg hi, if_neg fun h ↦ hi h.1]
  simp only [Accounted, this, hfiles]
  exact counted_without h t maxFiles

end FentoOS.Kernel
