import FentoOS.Kernel.RefCounts

/-!
# Being killed and exiting

A task that exits closes its descriptors; a task that is terminated by `sys_kill`
or by Ctrl-C becomes a zombie with its descriptors as they are, and reaping it
frees its structure without closing them.  So the references it held are counted
for good, and the two ways of dying agree on the counts exactly for tasks that
hold no descriptor.

Along every run the counts are right up to a leak, and that is enough to see the
difference: an open file is still counted after a kill, and counted less, or
gone, after an exit.
-/

namespace FentoOS.Kernel

open FentoOS.Lib FentoOS.Fs FentoOS.Mm

/-! ## The leak along a run -/

theorem terminate_files (k : Machine) (t : Addr) (code : Int) :
    (terminate k t code).files = k.files :=
  (quiet_schedWakeupParent _ t).files

theorem terminate_descriptors (k : Machine) (t : Addr) (code : Int) :
    descriptors (terminate k t code) = descriptors k :=
  (quiet_schedWakeupParent _ t).fds.trans (descriptors_upd k t fun _ ↦ rfl)

theorem sysKill_spec (k : Machine) (pid : Nat) : (sysKill k pid).2.files = k.files ∧
    descriptors (sysKill k pid).2 = descriptors k := by
  rw [sysKill]
  split
  · exact ⟨rfl, rfl⟩
  · split
    · exact ⟨rfl, rfl⟩
    · exact ⟨terminate_files .., terminate_descriptors ..⟩

theorem interruptFrom_spec (owner : Addr) (i n : Nat) (k : Machine) :
    (interruptFrom owner i n k).files = k.files ∧
      descriptors (interruptFrom owner i n k) = descriptors k := by
  induction n generalizing i k with
  | zero => exact ⟨rfl, rfl⟩
  | succ n ih =>
    rw [interruptFrom]
    obtain ⟨hfiles, hfds⟩ := ih (i + 1) (interruptSlot k owner i)
    rw [hfiles, hfds, interruptSlot]
    split
    · exact ⟨rfl, rfl⟩
    · exact ⟨terminate_files .., terminate_descriptors ..⟩

theorem interruptForeground_spec (k : Machine) : (interruptForeground k).files = k.files ∧
    descriptors (interruptForeground k) = descriptors k := by
  rw [interruptForeground]
  split
  · exact ⟨rfl, rfl⟩
  · exact interruptFrom_spec ..

/-- The counts are right up to some leak. -/
def Leaky (k : Machine) : Prop := ∃ leak, Accounted leak k

variable {k k' : Machine}

theorem Leaky.same (h : Leaky k) (hfiles : k'.files = k.files)
    (hfds : descriptors k' = descriptors k) : Leaky k' := by
  obtain ⟨leak, h⟩ := h
  exact ⟨leak, by rwa [Accounted, hfds, hfiles]⟩

theorem Leaky.quiet (h : Leaky k) (hq : Quiet k k') : Leaky k' :=
  h.same hq.files hq.fds

variable {t : Addr}

theorem Leaky.keeps (h : Leaky k) (hk : Keeps t k k') : Leaky k' := by
  obtain ⟨leak, h⟩ := h
  exact ⟨leak, hk.accounted h⟩

theorem Leaky.wait4Round (h : Leaky k) (hcur : k.current = some t) (status : Nat) :
    Leaky (wait4Round k status).2 := by
  obtain ⟨i, c, C, -, -, hC, -, hs, heq⟩ | ⟨-, heq⟩ | ⟨-, -, heq⟩ := wait4Round_cases hcur status
  · obtain ⟨leak, h⟩ := h
    obtain ⟨mem, hmem⟩ := collect_eq k t c status
    rw [heq, hmem]
    exact accounted_schedReap (k := { k with mem := mem }) h c
  · rw [heq]
    exact h
  · rw [heq]
    refine h.quiet (Quiet.trans ?_ (quiet_schedBlock _ _))
    exact .upd k t (fun _ ↦ rfl) fun _ h ↦ h

theorem Leaky.step {e : Event} (h : Leaky k) (hstep : Step k e k') : Leaky k' := by
  cases hstep with
  | @call t T c hcur hidle hT hctx hfresh =>
    cases c with
    | exit code =>
      obtain ⟨leak, h⟩ := h
      exact Leaky.quiet ⟨leak, (exitTask_spec k t code).1 h⟩ (quiet_schedExit hcur code)
    | fork child => exact h.keeps (keeps_sysFork hfresh.2)
    | openPath path flags mode f => exact h.keeps (keeps_sysOpen hcur hT hfresh)
    | close fd => exact h.keeps (keeps_sysClose hcur hT)
    | wait4 status => exact h.wait4Round hcur status
    | creat path mode f => exact h.keeps (keeps_sysCreat hcur hT hfresh)
    | kill pid => exact h.same (sysKill_spec k pid).1 (sysKill_spec k pid).2
    | dup fd => exact h.keeps (keeps_sysDup hcur hT)
    | dup2 oldfd newfd => exact h.keeps (keeps_sysDup2 hcur hT)
    | pipe rf p wf =>
      obtain ⟨hrf, hwf, hne, hp⟩ := hfresh
      exact h.keeps (keeps_sysPipe hcur hT hrf hwf hne hp)
    | ioctl fd request arg => exact h.keeps (keeps_sysIoctl hcur hT)
    | yield => exact h.quiet (quiet_schedYield k)
  | @resume t T status hcur hidle hT hctx =>
    have hq : Quiet k (k.updCurrent fun T ↦ { T with ctx := .user }) :=
      .updCurrent k (fun _ ↦ rfl) fun _ h ↦ h
    refine (h.quiet hq).wait4Round (t := t) ?_ status
    rw [Machine.updCurrent, hcur]
    exact hcur
  | tick => exact h.quiet (quiet_schedTick k)
  | interrupt => exact h.same (interruptForeground_spec k).1 (interruptForeground_spec k).2

theorem Leaky.turn {a : Addr × Event} (h : Leaky k) (hturn : Turn k a k') : Leaky k' :=
  Leaky.step (k := { k with current := some a.1 }) h hturn.2

/-! ## Two ways to die -/

/-- The counts of open files and of pipes agree. -/
def SameCounts (s s' : Files) : Prop :=
  (∀ f, (s.filps f).map Filp.refcount = (s'.filps f).map Filp.refcount) ∧
  ∀ p, (s.pipes p).map Pipe.readers = (s'.pipes p).map Pipe.readers ∧
    (s.pipes p).map Pipe.writers = (s'.pipes p).map Pipe.writers

/-- `t` is a task that has not exited and is not the current one. -/
def Victim (k : Machine) (t : Addr) (T : Task) : Prop :=
  k.tasks t = some T ∧ T.state ≠ .zombie ∧ k.current ≠ some t

/-- The states in which `t` has just been terminated, by its pid or by Ctrl-C. -/
inductive Killed (k : Machine) (t : Addr) : Machine → Prop
  | kill {pid : Nat} : schedFind k pid = some t → Killed k t (sysKill k pid).2
  | interrupt {owner : Addr} {i : Nat} :
      schedFind k k.foreground = some owner → i < maxTasks → k.slots i = some t →
      (k.tasks t).bind Task.parent = some owner → Killed k t (interruptForeground k)

theorem Killed.files (h : Killed k t k') : k'.files = k.files := by
  cases h with
  | kill => exact (sysKill_spec k _).1
  | interrupt => exact (interruptForeground_spec k).1

theorem collect_files (k : Machine) (parent t : Addr) (status : Nat) :
    (collect k parent t status).files = k.files := by
  obtain ⟨mem, hmem⟩ := collect_eq k parent t status
  rw [hmem]
  exact (schedReap_spec { k with mem := mem } t).1

theorem closeFds_of_free {fd n : Nat} (hn : fd + n ≤ maxFiles)
    (hfree : ∀ i, descriptors k (t, i) = none) : closeFds k t fd n = k := by
  induction n generalizing fd with
  | zero => rfl
  | succ n ih =>
    have hnone : fdAt k t fd = none := by
      have := hfree fd
      rwa [descriptors, if_pos (by omega)] at this
    have hclose : closeFd k t fd = k := by
      rw [closeFd, show (k.tasks t).bind _ = _ from hnone]
    rw [closeFds, hclose]
    exact ih (by omega)

/-- Without descriptors, an exit leaves the counts alone. -/
theorem exitTask_files (hfree : ∀ i, descriptors k (t, i) = none) (code : Int) :
    (exitTask k t code).files = k.files := by
  set k₁ := k.upd t fun T ↦ { T with exitCode := code, state := .zombie }
  have horphan : Quiet k₁ (orphan k₁ t 0 maxTasks) := quiet_orphan t k₁ 0 maxTasks
  have hfds : descriptors (orphan k₁ t 0 maxTasks) = descriptors k :=
    horphan.fds.trans (descriptors_upd k t fun _ ↦ rfl)
  have hclose : closeFds (orphan k₁ t 0 maxTasks) t 0 maxFiles = orphan k₁ t 0 maxTasks :=
    closeFds_of_free (Nat.zero_add _).le fun i ↦ by rw [hfds, hfree]
  change (schedWakeupParent (closeFds (orphan k₁ t 0 maxTasks) t 0 maxFiles) t).files = _
  rw [(quiet_schedWakeupParent _ t).files, hclose, horphan.files]
  rfl

/-- With a descriptor, an exit changes the count of the open file it names. -/
theorem exitTask_refcount {T : Task} (h : Leaky k) (hT : k.tasks t = some T) {fd : Nat} {f : Addr}
    (hfd : fd < maxFiles) (hf : T.files fd = some f) (code : Int) :
    (k.files.filps f).map Filp.refcount ≠
      ((exitTask k t code).files.filps f).map Filp.refcount := by
  obtain ⟨leak, h⟩ := h
  obtain ⟨hacc, hfds, -⟩ := exitTask_spec k t code
  have h' : Counted leak (descriptors (exitTask k t code)) (exitTask k t code).files := hacc h
  have hslot : descriptors k (t, fd) = some f := by rw [descriptors_of_task hT hfd, hf]
  obtain ⟨F, hF⟩ := Option.ne_none_iff_exists'.mp (Counted.slot h hslot)
  have hlt : refCount (descriptors (exitTask k t code)) f < refCount (descriptors k) f := by
    refine refCount_lt (Counted.finite h) (fun i hi ↦ ?_) hslot ?_
    · rw [hfds] at hi
      split at hi
      · cases hi
      · exact hi
    · rw [hfds, if_pos rfl]
      simp
  intro heq
  rw [hF, Option.map_some, eq_comm, Option.map_eq_some_iff] at heq
  obtain ⟨F', hF', hcount⟩ := heq
  have hbefore := Counted.refcount h hF
  have hafter := h'.refcount hF'
  omega

/-- **Being killed releases the same references as exiting exactly for tasks without
descriptors.**  In every reachable state, a task that is not the current one is
terminated by its pid or by Ctrl-C and then collected by `wait4`; the counts are those
behind its `exit` and the same `wait4` if and only if it has no open descriptor. -/
theorem killed_like_exited_iff {k k' : Machine} (h : Reach Boot Turn k) {t : Addr} {T : Task}
    (hv : Victim k t T) (hk : Killed k t k') (parent : Addr) (code : Int) (status : Nat) :
    SameCounts (collect k' parent t status).files
        (collect (schedExit { k with current := some t } code) parent t status).files ↔
      ∀ fd, fd < maxFiles → T.files fd = none := by
  have hleaky : Leaky k := by
    refine h.invariant (P := Leaky) (fun k hk ↦ ?_) fun _ _ _ hl hs ↦ hl.turn hs
    exact ⟨_, (refInv_boot hk).accounted⟩
  obtain ⟨hT, -, -⟩ := hv
  have hexit : (schedExit { k with current := some t } code).files =
      (exitTask { k with current := some t } t code).files :=
    (quiet_schedExit (k := { k with current := some t }) rfl code).files
  rw [collect_files, collect_files, hk.files, hexit]
  constructor
  · intro hsame fd hfd
    by_contra hne
    obtain ⟨f, hf⟩ := Option.ne_none_iff_exists'.mp hne
    exact exitTask_refcount (k := { k with current := some t }) hleaky hT hfd hf code (hsame.1 f)
  · intro hfree
    have : ∀ i, descriptors { k with current := some t } (t, i) = none := by
      intro i
      by_cases hi : i < maxFiles
      · rw [descriptors_of_task (k := { k with current := some t }) hT hi, hfree i hi]
      · rw [descriptors, if_neg hi]
    rw [exitTask_files this]
    exact ⟨fun _ ↦ rfl, fun _ ↦ ⟨rfl, rfl⟩⟩

/-- The first task of the small machine makes a pipe, forks, and closes its write end:
the child holds the only one. -/
def samplePipeline : Machine :=
  (dispatch (dispatch (dispatch sampleBoot (.pipe 3 4 5)).2 (.fork 6)).2 (.close 4)).2

theorem reach_samplePipeline : Reach Boot Turn samplePipeline := by
  have h₁ : Step sampleBoot (.call (.pipe 3 4 5)) (dispatch sampleBoot (.pipe 3 4 5)).2 :=
    .call (t := 1) rfl (by decide) rfl rfl ⟨rfl, rfl, by decide, rfl⟩
  have h₂ : Step (dispatch sampleBoot (.pipe 3 4 5)).2 (.call (.fork 6))
      (dispatch (dispatch sampleBoot (.pipe 3 4 5)).2 (.fork 6)).2 :=
    .call (t := 1) rfl (by decide) rfl rfl ⟨by decide, rfl⟩
  have h₃ : Step (dispatch (dispatch sampleBoot (.pipe 3 4 5)).2 (.fork 6)).2 (.call (.close 4))
      samplePipeline :=
    .call (t := 1) rfl (by decide) rfl rfl trivial
  exact .step (.step (.step (.init boot_sampleBoot) (Turn.of_step rfl h₁))
    (Turn.of_step rfl h₂)) (Turn.of_step rfl h₃)

theorem victim_samplePipeline :
    ∃ T, Victim samplePipeline 6 T ∧ T.files 4 = some 5 ∧ schedFind samplePipeline 2 = some 6 :=
  ⟨_, ⟨rfl, TState.noConfusion, by decide⟩, rfl, rfl⟩

/-- In the pipeline the child is killed: the counts are those of an exit only if it has
no descriptor. -/
theorem killed_like_exited_iff_pipeline : ∃ T, Victim samplePipeline 6 T ∧
    (SameCounts (collect (sysKill samplePipeline 2).2 1 6 0).files
        (collect (schedExit { samplePipeline with current := some 6 } 0) 1 6 0).files ↔
      ∀ fd, fd < maxFiles → T.files fd = none) := by
  obtain ⟨T, hv, -, hfind⟩ := victim_samplePipeline
  exact ⟨T, hv, killed_like_exited_iff reach_samplePipeline hv (.kill hfind) 1 0 0⟩

/-- When the child is killed and reaped, the pipe still counts a writer, and its reader
never sees the end of file; when the child exits and is reaped, it counts none. -/
theorem killed_writer_is_counted : Reach Boot Turn samplePipeline ∧
    (∃ T, Victim samplePipeline 6 T) ∧ Killed samplePipeline 6 (sysKill samplePipeline 2).2 ∧
    ((collect (sysKill samplePipeline 2).2 1 6 0).files.pipes 4).map Pipe.writers = some 1 ∧
    ((collect (schedExit { samplePipeline with current := some 6 } 0) 1 6 0).files.pipes 4).map
      Pipe.writers = some 0 ∧
    ¬SameCounts (collect (sysKill samplePipeline 2).2 1 6 0).files
      (collect (schedExit { samplePipeline with current := some 6 } 0) 1 6 0).files := by
  obtain ⟨T, hv, -, hfind⟩ := victim_samplePipeline
  have hkill : ((collect (sysKill samplePipeline 2).2 1 6 0).files.pipes 4).map Pipe.writers =
      some 1 := rfl
  have hexit : ((collect (schedExit { samplePipeline with current := some 6 } 0) 1 6 0).files.pipes
      4).map Pipe.writers = some 0 := by decide +kernel
  refine ⟨reach_samplePipeline, ⟨T, hv⟩, .kill hfind, hkill, hexit, fun hsame ↦ ?_⟩
  have := (hsame.2 4).2
  rw [hkill, hexit] at this
  cases this

end FentoOS.Kernel
