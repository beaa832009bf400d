import FentoOS.Kernel.Descriptors
import FentoOS.Lib.Run

/-!
# Reference counts are exact

As long as every task leaves through `exit`, nothing leaks: along every run, the
reference count of an open file is the number of descriptors that name it, the
two counts of a pipe are the numbers of its ends, and both objects live exactly
as long as something names them.

The invariant adds to the counts that a task that has exited has no descriptors
left, so reaping it forgets nothing.
-/

namespace FentoOS.Kernel

open FentoOS.Lib FentoOS.Fs FentoOS.Mm Function

/-- The invariant of runs without `kill`. -/
structure RefInv (k : Machine) : Prop where
  accounted : Accounted (fun _ ↦ 0) k
  zombie : ∀ {a}, IsZombie k a → ∀ fd, descriptors k (a, fd) = none
  current : ∀ {a}, k.current = some a → ¬IsZombie k a

/-! ## The beginning -/

/-- A table with no descriptors, and no open files. -/
theorem counted_empty : Counted (fun _ ↦ 0) (fun _ ↦ none)
    { filps := fun _ ↦ none, pipes := fun _ ↦ none } where
  joined := {
    finite := by simp [FiniteRefs]
    port := by simp
    named := by simp
    counts := by simp
    open_ := by simp }
  finite := by simp [FiniteRefs]
  slot := by simp
  leaked := by simp
  refcount := by simp
  live := by simp

/-- The first task starts with the console three times. -/
theorem counted_boot (t cons : Addr) :
    Counted (fun _ ↦ 0) (update (update (update (fun _ ↦ none)
      (t, 0) (some cons)) (t, 1) (some cons)) (t, 2) (some cons)) (consoleFiles cons) := by
  have h₁ := counted_empty.alloc (i := (t, 0)) (f := cons)
    (F := { Filp.fresh with type := .cons }) rfl rfl rfl rfl
  have h₂ := h₁.share (i := (t, 1)) (f := cons) (by simp) (by simp)
  have hlive := h₂.slot (i := (t, 1)) (f := cons) (by simp)
  exact h₂.share (i := (t, 2)) (by simp) hlive

variable {k : Machine}

theorem descriptors_boot (t cons : Addr) (kernelDir space brk : Nat)
    (hk : k.tasks = bootTasks t cons kernelDir space brk) : descriptors k =
      update (update (update (fun _ ↦ none)
        (t, 0) (some cons)) (t, 1) (some cons)) (t, 2) (some cons) := by
  funext ⟨a, fd⟩
  rw [descriptors, fdAt, hk, bootTasks]
  by_cases ha : a = t
  · subst ha
    simp only [update_self, Option.bind_some, initTask, consoleFds, update_apply,
      Prod.mk.injEq, true_and, Task.fresh]
    by_cases hfd : fd < maxFiles
    · rw [if_pos hfd]
    · rw [if_neg hfd]
      rw [maxFiles] at hfd
      rw [if_neg (by omega), if_neg (by omega), if_neg (by omega)]
  · by_cases hi : a = idle
    · subst hi
      simp [ha, idleTask]
    · simp [ha, hi]

theorem refInv_boot (h : Boot k) : RefInv k := by
  obtain ⟨t, cons, hb⟩ := h.booted
  obtain ⟨kernelDir, space, brk, htasks⟩ := hb.tasks
  have hnz : ∀ {a}, ¬IsZombie k a := by
    rintro a ⟨T, hT, hz⟩
    rw [htasks] at hT
    obtain ⟨-, rfl⟩ | ⟨-, -, rfl⟩ := bootTasks_eq_some hT
    · cases hz
    · cases hz
  refine ⟨?_, fun hz ↦ absurd hz hnz, fun _ ↦ hnz⟩
  rw [Accounted, descriptors_boot t cons kernelDir space brk htasks, hb.files]
  exact counted_boot t cons

/-! ## Steps -/

variable {k' : Machine} {t : Addr}

theorem RefInv.keeps (h : RefInv k) (hk : Keeps t k k') (ht : ¬IsZombie k t) : RefInv k' := by
  refine ⟨hk.accounted h.accounted, fun {a} ha fd ↦ ?_, fun {a} hc ha ↦ ?_⟩
  · have ha' := hk.zombie a ha
    have hne : a ≠ t := by
      rintro rfl
      exact ht ha'
    rw [hk.fds (a, fd) hne]
    exact h.zombie ha' fd
  · exact h.current (hk.current a hc ha) (hk.zombie a ha)

theorem RefInv.quiet (h : RefInv k) (hq : Quiet k k') : RefInv k' := by
  refine ⟨h.accounted.quiet hq, fun ha fd ↦ ?_, fun hc ha ↦ ?_⟩
  · rw [hq.fds]
    exact h.zombie (hq.zombie _ ha) fd
  · exact h.current (hq.current _ hc ha) (hq.zombie _ ha)

theorem RefInv.schedExit (h : RefInv k) (hcur : k.current = some t) (code : Int) :
    RefInv (schedExit k code) := by
  obtain ⟨hacc, hfds, hz⟩ := exitTask_spec k t code
  have hq := quiet_schedExit hcur code
  refine ⟨(hacc h.accounted).quiet hq, fun {a} ha fd ↦ ?_, fun {a} hc ha ↦ ?_⟩
  · rw [hq.fds, hfds]
    split
    case isTrue => rfl
    case isFalse hat => exact h.zombie (hz a hat (hq.zombie a ha)) fd
  · rw [Kernel.schedExit, hcur] at hc ha
    simp only at hc ha
    rw [switchTo_current] at hc
    obtain rfl := Option.some.inj hc
    exact not_isZombie_switchTo _ _ ha

/-- Reaping a task that has exited forgets no descriptor. -/
theorem RefInv.collect {parent c : Addr} (h : RefInv k) (hc : IsZombie k c) (status : Nat) :
    RefInv (collect k parent c status) := by
  obtain ⟨mem, hmem⟩ := collect_eq k parent c status
  rw [hmem]
  have hmem : Quiet k { k with mem := mem } := .of_eq rfl rfl rfl
  have hc' : IsZombie { k with mem := mem } c := hc
  have h' := h.quiet hmem
  obtain ⟨hfiles, hfds, hz, hcur⟩ := schedReap_spec { k with mem := mem } c
  refine h'.quiet ⟨hfiles, funext fun i ↦ ?_, hz, fun a ha _ ↦ hcur ▸ ha⟩
  rw [hfds]
  split
  case isTrue hi =>
    obtain ⟨a, fd⟩ := i
    subst hi
    exact (h'.zombie hc' fd).symm
  case isFalse => rfl

theorem RefInv.wait4Round (h : RefInv k) (hcur : k.current = some t) (status : Nat) :
    RefInv (wait4Round k status).2 := by
  obtain ⟨i, c, C, -, -, hC, -, hs, heq⟩ | ⟨-, heq⟩ | ⟨-, -, heq⟩ := wait4Round_cases hcur status
  · rw [heq]
    exact h.collect ⟨C, hC, hs⟩ status
  · rw [heq]
    exact h
  · rw [heq]
    refine h.quiet (Quiet.trans ?_ (quiet_schedBlock _ _))
    exact .upd k t (fun _ ↦ rfl) fun _ h ↦ h

/-- Nobody is killed. -/
def Event.NoKill : Event → Prop
  | .call (.kill _) => False
  | .interrupt => False
  | _ => True

theorem RefInv.step {e : Event} (h : RefInv k) (he : e.NoKill) (hstep : Step k e k') :
    RefInv k' := by
  cases hstep with
  | @call t T c hcur hidle hT hctx hfresh =>
    have ht := h.current hcur
    cases c with
    | exit code => exact h.schedExit hcur code
    | fork child =>
      refine h.keeps (keeps_sysFork hfresh.2) ?_
      rintro ⟨C, hC, -⟩
      rw [hfresh.2] at hC
      cases hC
    | openPath path flags mode f => exact h.keeps (keeps_sysOpen hcur hT hfresh) ht
    | close fd => exact h.keeps (keeps_sysClose hcur hT) ht
    | wait4 status => exact h.wait4Round hcur status
    | creat path mode f => exact h.keeps (keeps_sysCreat hcur hT hfresh) ht
    | kill pid => exact he.elim
    | dup fd => exact h.keeps (keeps_sysDup hcur hT) ht
    | dup2 oldfd newfd => exact h.keeps (keeps_sysDup2 hcur hT) ht
    | pipe rf p wf =>
      obtain ⟨hrf, hwf, hne, hp⟩ := hfresh
      exact h.keeps (keeps_sysPipe hcur hT hrf hwf hne hp) ht
    | ioctl fd request arg => exact h.keeps (keeps_sysIoctl hcur hT) ht
    | yield => exact h.quiet (quiet_schedYield k)
  | @resume t T status hcur hidle hT hctx =>
    have hq : Quiet k (k.updCurrent fun T ↦ { T with ctx := .user }) :=
      .updCurrent k (fun _ ↦ rfl) fun _ h ↦ h
    refine (h.quiet hq).wait4Round (t := t) ?_ status
    rw [Machine.updCurrent, hcur]
    exact hcur
  | tick => exact h.quiet (quiet_schedTick k)
  | interrupt => exact he.elim

theorem RefInv.turn {e : Event} (h : RefInv k) (he : e.NoKill) (hturn : Turn k (t, e) k') :
    RefInv k' := by
  obtain ⟨ht, hstep⟩ := hturn
  have hnz : ¬IsZombie k t := by
    rcases ht with hcur | ⟨T, hT, hs⟩
    · exact h.current hcur
    · rintro ⟨T', hT', hs'⟩
      rw [hT] at hT'
      obtain rfl := Option.some.inj hT'
      exact hs hs'
  refine RefInv.step (k := { k with current := some t }) ⟨h.accounted, h.zombie, ?_⟩ he hstep
  intro a ha
  obtain rfl := Option.some.inj ha
  exact hnz

/-- **Reference counts are exact.**  In every run in which nobody is killed, by any
tasks in any order, every open file counts the descriptors that name it, no
descriptor names an open file that was freed, every pipe counts its read ends and
its write ends, and an open file or a pipe is in memory exactly as long as a
descriptor, respectively an open file, names it. -/
theorem refcounts_exact {k : Machine} (h : Reach Boot (Under (fun _ a ↦ a.2.NoKill) Turn) k) :
    (∀ f F, k.files.filps f = some F → F.refcount = refCount (descriptors k) f) ∧
    (∀ i f, descriptors k i = some f → k.files.filps f ≠ none) ∧
    (∀ p P, k.files.pipes p = some P →
      P.readers = refCount (k.files.endAt 0) p ∧ P.writers = refCount (k.files.endAt 1) p) ∧
    (∀ f, k.files.filps f ≠ none ↔ ∃ i, descriptors k i = some f) ∧
    ∀ p, k.files.pipes p ≠ none ↔ ∃ f F, k.files.filps f = some F ∧ F.pipe = some p := by
  have hinv : RefInv k := h.invariant (P := RefInv) (fun _ ↦ refInv_boot)
    fun _ _ _ hi hs ↦ hi.turn hs.1 hs.2
  have hacc : Counted (fun _ ↦ 0) (descriptors k) k.files := hinv.accounted
  have hcount : ∀ f F, k.files.filps f = some F → F.refcount = refCount (descriptors k) f := by
    intro f F hF
    simpa using hacc.refcount hF
  refine ⟨hcount, fun i f hi ↦ hacc.slot hi, fun p P hP ↦ ?_, fun f ↦ ?_, fun p ↦ ?_⟩
  · exact ⟨hacc.joined.counts hP (.inl rfl), hacc.joined.counts hP (.inr rfl)⟩
  · refine ⟨fun hf ↦ ?_, fun ⟨i, hi⟩ ↦ hacc.slot hi⟩
    obtain ⟨F, hF⟩ := Option.ne_none_iff_exists'.mp hf
    by_contra hno
    have hzero : refCount (descriptors k) f = 0 :=
      (refCount_eq_zero hacc.finite).mpr fun i hi ↦ hno ⟨i, hi⟩
    have hlive := hacc.live hF
    rw [hcount f F hF, hzero] at hlive
    omega
  · refine ⟨fun hp ↦ ?_, fun ⟨f, F, hF, hp⟩ ↦ hacc.joined.named hF hp⟩
    obtain ⟨P, hP⟩ := Option.ne_none_iff_exists'.mp hp
    obtain ⟨e, he, hpos⟩ := hacc.joined.open_ hP
    rw [hacc.joined.counts hP he] at hpos
    by_contra hno
    refine hpos (by
      rw [(refCount_eq_zero (hacc.joined.finiteEnds e)).mpr]
      · rfl
      · intro f hf
        obtain ⟨F, hF, -, hFp⟩ := endAt_eq_some.mp hf
        exact hno ⟨f, F, hF, hFp⟩)

/-- The first task makes a pipe: its two counts are those of the two open files. -/
theorem refcounts_exact_pipe :
    (∀ p P, (dispatch sampleBoot (.pipe 3 4 5)).2.files.pipes p = some P →
      P.readers = refCount ((dispatch sampleBoot (.pipe 3 4 5)).2.files.endAt 0) p ∧
      P.writers = refCount ((dispatch sampleBoot (.pipe 3 4 5)).2.files.endAt 1) p) ∧
    ((dispatch sampleBoot (.pipe 3 4 5)).2.files.pipes 4).map Pipe.readers = some 1 := by
  have hstep : Step sampleBoot (.call (.pipe 3 4 5)) (dispatch sampleBoot (.pipe 3 4 5)).2 :=
    .call (t := 1) rfl (by decide) rfl rfl ⟨rfl, rfl, by decide, rfl⟩
  have hreach : Reach Boot (Under (fun _ a ↦ a.2.NoKill) Turn)
      (dispatch sampleBoot (.pipe 3 4 5)).2 :=
    .step (a := (1, .call (.pipe 3 4 5))) (.init boot_sampleBoot) ⟨trivial, .of_step rfl hstep⟩
  exact ⟨(refcounts_exact hreach).2.2.1, rfl⟩

end FentoOS.Kernel
