import FentoOS.Kernel.System

/-!
# What the scheduler sees

The scheduler decides by four fields of a task: its state, whether it waits for a
child, its parent and its successor in the ring.  `Machine.core` keeps these
four and drops the rest, so that what a function of the kernel does to the
scheduler is one equation about `core`, and what it does to descriptors, memory
and saved contexts does not show.

`Frame` collects what else the scheduler uses: the table, the ring's head, the
current task and the number of the next pid.
-/

namespace FentoOS.Kernel

open FentoOS.Lib FentoOS.Fs FentoOS.Mm Function

/-- The fields of a task that the scheduler decides by. -/
@[ext]
structure Core where
  state : TState
  waiting : Bool
  parent : Option Addr
  next : Option Addr

/-- The scheduler's view of a task. -/
def Task.core (T : Task) : Core where
  state := T.state
  waiting := T.waiting
  parent := T.parent
  next := T.next

/-- The scheduler's view of the tasks in memory. -/
def Machine.core (k : Machine) (a : Addr) : Option Core := (k.tasks a).map Task.core

variable {k : Machine} {a : Addr}

theorem core_eq_none : k.core a = none ↔ k.tasks a = none :=
  Option.map_eq_none_iff

variable {T : Task}

theorem core_of_task (h : k.tasks a = some T) : k.core a = some T.core := by
  rw [Machine.core, h, Option.map_some]

theorem core_eq_some {c : Core} : k.core a = some c ↔ ∃ T, k.tasks a = some T ∧ T.core = c :=
  Option.map_eq_some_iff

variable {t : Addr} {f : Task → Task}

/-- A task changes: the scheduler sees the change of its core. -/
theorem core_upd {g : Core → Core} (hfg : ∀ T, (f T).core = g T.core) (a : Addr) :
    (k.upd t f).core a = if a = t then (k.core a).map g else k.core a := by
  rw [Machine.core, upd_tasks]
  split
  case isTrue h =>
    subst h
    cases hT : k.tasks a with
    | none => simp [Machine.core, hT]
    | some T => simp [Machine.core, hT, hfg]
  case isFalse => rfl

/-- A task changes in what the scheduler does not see. -/
theorem core_upd_same (hf : ∀ T, (f T).core = T.core) : (k.upd t f).core = k.core := by
  funext a
  rw [core_upd (g := id) hf]
  split <;> simp

/-! ## The rest of the scheduler's state -/

/-- The table, the ring's head, the current task and the counters stay as they are. -/
structure Frame (k k' : Machine) : Prop where
  slots : k'.slots = k.slots
  current : k'.current = k.current
  taskList : k'.taskList = k.taskList
  nextPid : k'.nextPid = k.nextPid
  started : k'.started = k.started

theorem Frame.refl (k : Machine) : Frame k k := ⟨rfl, rfl, rfl, rfl, rfl⟩

variable {k' k'' : Machine}

theorem Frame.trans (h : Frame k k') (h' : Frame k' k'') : Frame k k'' :=
  ⟨h'.slots.trans h.slots, h'.current.trans h.current, h'.taskList.trans h.taskList,
    h'.nextPid.trans h.nextPid, h'.started.trans h.started⟩

theorem Frame.upd (k : Machine) (t : Addr) (f : Task → Task) : Frame k (k.upd t f) :=
  ⟨rfl, rfl, rfl, rfl, rfl⟩

/-! ## Switching -/

theorem core_switchTo (k : Machine) (next a : Addr) : (switchTo k next).core a =
    if a = next then (k.core a).map fun c ↦ { c with state := .running } else k.core a := by
  have h : (switchTo k next).core =
      (k.upd next fun T ↦ { T with state := .running, timeSlice := quantum }).core := by
    funext b
    rw [Machine.core, Machine.core, switchTo_tasks]
  rw [h]
  exact core_upd (fun _ ↦ rfl) a

theorem switchTo_taskList (k : Machine) (next : Addr) :
    (switchTo k next).taskList = k.taskList := by
  rw [switchTo]
  split <;> rfl

theorem switchTo_nextPid (k : Machine) (next : Addr) : (switchTo k next).nextPid = k.nextPid := by
  rw [switchTo]
  split <;> rfl

/-- `if (c->state == TASK_RUNNING) c->state = TASK_READY;` -/
def Core.preempt (c : Core) : Core := if c.state = .running then { c with state := .ready } else c

theorem core_preempt (hcur : k.current = some t) (a : Addr) :
    (preempt k).core a = if a = t then (k.core a).map Core.preempt else k.core a := by
  rw [preempt, Machine.updCurrent, hcur]
  refine core_upd (fun T ↦ ?_) a
  rw [Core.preempt]
  change _ = if T.state = .running then _ else _
  split <;> rfl

theorem frame_preempt (k : Machine) : Frame k (preempt k) := by
  rw [preempt, Machine.updCurrent]
  split
  · exact .refl k
  · exact .upd ..

/-! ## Waking the parent -/

/-- A blocked parent is woken. -/
def Core.wake (c : Core) : Core :=
  if c.state = .blocked ∧ c.waiting = true then { c with waiting := false, state := .ready } else c

theorem core_schedWakeupParent {c : Core} (hc : k.core t = some c) (a : Addr) :
    (schedWakeupParent k t).core a =
      if c.parent = some a then (k.core a).map Core.wake else k.core a := by
  obtain ⟨T, hT, rfl⟩ := core_eq_some.mp hc
  rw [schedWakeupParent, hT, Option.bind_some]
  change _ = if T.parent = some a then _ else _
  cases hp : T.parent with
  | none => simp
  | some p =>
    simp only [Option.some.injEq]
    simp only [eq_comm (a := p)]
    refine core_upd (fun P ↦ ?_) a
    rw [Core.wake, Task.awaits]
    simp only [decide_eq_true_eq]
    change (if P.state = .blocked ∧ P.waiting = true then _ else _ : Task).core =
      if P.state = .blocked ∧ P.waiting = true then _ else _
    split <;> rfl

theorem frame_schedWakeupParent (k : Machine) (t : Addr) : Frame k (schedWakeupParent k t) := by
  rw [schedWakeupParent]
  split
  · exact .refl k
  · exact .upd ..

/-! ## Exiting -/

/-- A child of `t` becomes an orphan. -/
def Core.disown (t : Addr) (c : Core) : Core :=
  if c.parent = some t then { c with parent := none } else c

theorem Core.disown_idem (t : Addr) (c : Core) : (c.disown t).disown t = c.disown t := by
  by_cases h : c.parent = some t
  · simp [Core.disown, h]
  · simp [Core.disown, h]

theorem frame_orphan (t : Addr) (k : Machine) (i n : Nat) : Frame k (orphan k t i n) := by
  induction n generalizing k i with
  | zero => exact .refl k
  | succ n ih =>
    rw [orphan]
    refine Frame.trans ?_ (ih _ _)
    rw [orphanSlot]
    split
    · exact .refl k
    · exact .upd ..

theorem core_orphanSlot (k : Machine) (t : Addr) (i : Nat) (a : Addr) :
    (orphanSlot k t i).core a =
      if k.slots i = some a then (k.core a).map (Core.disown t) else k.core a := by
  rw [orphanSlot]
  cases hi : k.slots i with
  | none => simp
  | some b =>
    simp only [Option.some.injEq, eq_comm (a := b)]
    refine core_upd (fun T ↦ ?_) a
    change _ = if T.parent = some t then _ else _
    split <;> rfl

theorem slots_orphanSlot (k : Machine) (t : Addr) (i : Nat) :
    (orphanSlot k t i).slots = k.slots := by
  rw [orphanSlot]
  split <;> rfl

/-- The loop of `sched_exit` makes orphans of the children of `t` in the slots it covers. -/
theorem core_orphan (t : Addr) (k : Machine) (i n : Nat) (a : Addr) :
    ((∃ j, i ≤ j ∧ j < i + n ∧ k.slots j = some a) ∧
      (orphan k t i n).core a = (k.core a).map (Core.disown t)) ∨
    ((∀ j, i ≤ j → j < i + n → k.slots j ≠ some a) ∧ (orphan k t i n).core a = k.core a) := by
  induction n generalizing k i with
  | zero => exact .inr ⟨fun j hj hj' ↦ by omega, rfl⟩
  | succ n ih =>
    rw [orphan]
    have hslots := slots_orphanSlot k t i
    have hcore := core_orphanSlot k t i a
    by_cases hi : k.slots i = some a
    · rw [if_pos hi] at hcore
      refine .inl ⟨⟨i, le_rfl, by omega, hi⟩, ?_⟩
      obtain ⟨-, hrest⟩ | ⟨-, hrest⟩ := ih (orphanSlot k t i) (i + 1)
      · rw [hrest, hcore, Option.map_map]
        congr 1
        funext c
        exact c.disown_idem t
      · rw [hrest, hcore]
    · rw [if_neg hi] at hcore
      obtain ⟨⟨j, hj, hj', hja⟩, hrest⟩ | ⟨hno, hrest⟩ := ih (orphanSlot k t i) (i + 1)
      · exact .inl ⟨⟨j, by omega, by omega, hslots ▸ hja⟩, by rw [hrest, hcore]⟩
      · refine .inr ⟨fun j hj hj' ↦ ?_, by rw [hrest, hcore]⟩
        rcases Nat.eq_or_lt_of_le hj with rfl | hj
        · exact hi
        · rw [← hslots]
          exact hno j hj (by omega)

/-- Nothing that the scheduler uses changes. -/
structure Inert (k k' : Machine) : Prop extends Frame k k' where
  core : k'.core = k.core

theorem Inert.refl (k : Machine) : Inert k k := ⟨.refl k, rfl⟩

theorem Inert.trans (h : Inert k k') (h' : Inert k' k'') : Inert k k'' :=
  ⟨h.toFrame.trans h'.toFrame, h'.core.trans h.core⟩

theorem Inert.upd (k : Machine) (t : Addr) (hf : ∀ T, (f T).core = T.core) : Inert k (k.upd t f) :=
  ⟨.upd .., core_upd_same hf⟩

theorem Inert.updCurrent (k : Machine) (hf : ∀ T, (f T).core = T.core) :
    Inert k (k.updCurrent f) := by
  rw [Machine.updCurrent]
  split
  · exact .refl k
  · exact .upd k _ hf

/-! ## Changes of the tasks one by one -/

/-- No task comes or goes, and each changes by `R`. -/
def Evolves (R : Task → Task → Prop) (k k' : Machine) : Prop :=
  ∀ a, (k.tasks a = none ∧ k'.tasks a = none) ∨
    ∃ T T', k.tasks a = some T ∧ k'.tasks a = some T' ∧ R T T'

section Evolves

variable {R S : Task → Task → Prop} {k k' k'' : Machine}

theorem Evolves.of_tasks (hR : ∀ T, R T T) (h : k'.tasks = k.tasks) : Evolves R k k' := by
  intro a
  rw [h]
  cases hT : k.tasks a with
  | none => exact .inl ⟨rfl, rfl⟩
  | some T => exact .inr ⟨T, T, rfl, rfl, hR T⟩

theorem Evolves.trans (hR : ∀ {T T' T''}, R T T' → R T' T'' → R T T'') (h : Evolves R k k')
    (h' : Evolves R k' k'') : Evolves R k k'' := by
  intro a
  obtain ⟨hT, hT'⟩ | ⟨T, T', hT, hT', hr⟩ := h a
  · obtain ⟨-, hT''⟩ | ⟨T', T'', hT'₂, -, -⟩ := h' a
    · exact .inl ⟨hT, hT''⟩
    · rw [hT'] at hT'₂
      cases hT'₂
  · obtain ⟨hT'₂, -⟩ | ⟨T₂, T'', hT'₂, hT'', hr'⟩ := h' a
    · rw [hT'] at hT'₂
      cases hT'₂
    · obtain rfl := Option.some.inj (hT'.symm.trans hT'₂)
      exact .inr ⟨T, T'', hT, hT'', hR hr hr'⟩

theorem Evolves.mono (h : Evolves R k k') (hRS : ∀ T T', R T T' → S T T') : Evolves S k k' := by
  intro a
  obtain hnone | ⟨T, T', hT, hT', hr⟩ := h a
  · exact .inl hnone
  · exact .inr ⟨T, T', hT, hT', hRS T T' hr⟩

theorem Evolves.upd (hR : ∀ T, R T T) (hf : ∀ T, k.tasks t = some T → R T (f T)) :
    Evolves R k (k.upd t f) := by
  intro a
  rw [upd_tasks]
  split
  case isTrue hat =>
    subst hat
    cases hT : k.tasks a with
    | none => exact .inl ⟨rfl, rfl⟩
    | some T => exact .inr ⟨T, f T, rfl, rfl, hf T hT⟩
  case isFalse =>
    cases hT : k.tasks a with
    | none => exact .inl ⟨rfl, rfl⟩
    | some T => exact .inr ⟨T, T, rfl, rfl, hR T⟩

theorem Evolves.eq_some (h : Evolves R k k') (hT : k.tasks a = some T) :
    ∃ T', k'.tasks a = some T' ∧ R T T' := by
  obtain ⟨hnone, -⟩ | ⟨T₀, T', hT₀, hT', hr⟩ := h a
  · rw [hT] at hnone
    cases hnone
  · obtain rfl := Option.some.inj (hT.symm.trans hT₀)
    exact ⟨T', hT', hr⟩

theorem Evolves.of_eq_some (h : Evolves R k k') {T' : Task} (hT' : k'.tasks a = some T') :
    ∃ T, k.tasks a = some T ∧ R T T' := by
  obtain ⟨-, hnone⟩ | ⟨T, T₀, hT, hT₀, hr⟩ := h a
  · rw [hT'] at hnone
    cases hnone
  · obtain rfl := Option.some.inj (hT'.symm.trans hT₀)
    exact ⟨T, hT, hr⟩

end Evolves

/-! ## System calls on descriptors -/

/-- A task with other descriptors and another terminal mode. -/
def Task.Mild (T T' : Task) : Prop :=
  ∃ files raw echo, T' = { T with files := files, ttyRaw := raw, ttyEcho := echo }

theorem Task.Mild.refl (T : Task) : T.Mild T := ⟨_, _, _, rfl⟩

/-- Only descriptors and terminal modes change. -/
structure Mild (k k' : Machine) : Prop extends Frame k k' where
  tasks : Evolves Task.Mild k k'

theorem Mild.of_tasks (hframe : Frame k k') (h : k'.tasks = k.tasks) : Mild k k' :=
  ⟨hframe, .of_tasks .refl h⟩

theorem Mild.refl (k : Machine) : Mild k k := .of_tasks (.refl k) rfl

theorem Mild.trans (h : Mild k k') (h' : Mild k' k'') : Mild k k'' := by
  refine ⟨h.toFrame.trans h'.toFrame, h.tasks.trans ?_ h'.tasks⟩
  rintro T _ _ ⟨_, _, _, rfl⟩ ⟨_, _, _, rfl⟩
  exact ⟨_, _, _, rfl⟩

theorem Mild.setFd (k : Machine) (files : Files) (t : Addr) (fd : Nat) (v : Option Addr) :
    Mild k (setFd { k with files := files } t fd v) :=
  ⟨⟨rfl, rfl, rfl, rfl, rfl⟩,
    Evolves.upd (k := { k with files := files }) .refl fun _ _ ↦ ⟨_, _, _, rfl⟩⟩

theorem Mild.inert (h : Mild k k') : Inert k k' := by
  refine ⟨h.toFrame, ?_⟩
  funext a
  obtain ⟨hT, hT'⟩ | ⟨T, T', hT, hT', _, _, _, rfl⟩ := h.tasks a
  · rw [core_eq_none.mpr hT, core_eq_none.mpr hT']
  · rw [core_of_task hT, core_of_task hT']
    rfl

/-! ## Descriptors -/

theorem mild_closeFd (k : Machine) (t : Addr) (fd : Nat) : Mild k (closeFd k t fd) := by
  rw [closeFd]
  split
  · exact .refl k
  · exact .setFd ..

theorem mild_closeFds (k : Machine) (t : Addr) (fd n : Nat) : Mild k (closeFds k t fd n) := by
  induction n generalizing k fd with
  | zero => exact .refl k
  | succ n ih => exact (mild_closeFd k t fd).trans (ih _ _)

theorem mild_shareFds (k : Machine) (parent child : Addr) (fd n : Nat) :
    Mild k (shareFds k parent child fd n) := by
  induction n generalizing k fd with
  | zero => exact .refl k
  | succ n ih =>
    rw [shareFds]
    refine Mild.trans ?_ (ih _ _)
    rw [shareFd]
    split
    · exact .refl k
    · exact .setFd ..

/-- The core of `a` when `t` has been marked as a zombie. -/
def Core.marked (t a : Addr) (c : Core) : Core := if a = t then { c with state := .zombie } else c

theorem Core.marked_parent (t a : Addr) (c : Core) : (c.marked t a).parent = c.parent := by
  rw [Core.marked]
  split <;> rfl

theorem core_marked (k : Machine) (t : Addr) (code : Int) (a : Addr) :
    (k.upd t fun T ↦ { T with exitCode := code, state := .zombie }).core a =
      (k.core a).map (Core.marked t a) := by
  rw [core_upd (g := fun c ↦ { c with state := .zombie }) fun _ ↦ rfl]
  split
  case isTrue h =>
    congr 1
    funext c
    rw [Core.marked, if_pos h]
  case isFalse h =>
    have : Core.marked t a = id := by
      funext c
      rw [Core.marked, if_neg h]
      rfl
    rw [this, Option.map_id_fun, id]

/-- What `sched_exit` does before it wakes the parent: it marks the task, and cuts the
pointers of the children it finds in the table. -/
theorem exitTask_cases (k : Machine) (t : Addr) (code : Int) :
    ∃ k₁, exitTask k t code = schedWakeupParent k₁ t ∧ Frame k k₁ ∧
      ∀ a, ((∃ j, j < maxTasks ∧ k.slots j = some a) ∧
          k₁.core a = (k.core a).map (Core.disown t ∘ Core.marked t a)) ∨
        ((∀ j, j < maxTasks → k.slots j ≠ some a) ∧
          k₁.core a = (k.core a).map (Core.marked t a)) := by
  refine ⟨closeFds (orphan (k.upd t fun T ↦ { T with exitCode := code, state := .zombie }) t 0
    maxTasks) t 0 maxFiles, by rw [exitTask], ?_, fun a ↦ ?_⟩
  · exact (Frame.upd k t _).trans
      ((frame_orphan t _ 0 maxTasks).trans (mild_closeFds _ t 0 maxFiles).toFrame)
  · rw [(mild_closeFds ..).inert.core]
    obtain ⟨⟨j, -, hj, hja⟩, heq⟩ | ⟨hno, heq⟩ := core_orphan t
      (k.upd t fun T ↦ { T with exitCode := code, state := .zombie }) 0 maxTasks a
    · refine .inl ⟨⟨j, by omega, hja⟩, ?_⟩
      rw [heq, core_marked, Option.map_map]
    · refine .inr ⟨fun j hj ↦ hno j (Nat.zero_le _) (by omega), ?_⟩
      rw [heq, core_marked]

variable {fd : Nat}

section Syscalls

variable {k : Machine} {t : Addr} {T : Task}

theorem mild_installFile (f : Addr) (F : Filp) : Mild k (installFile k t T f F).2 := by
  rw [installFile]
  split
  · exact .refl k
  · exact .setFd ..

/-- The common end of `sys_open` and `sys_creat`. -/
theorem mild_installUnless {fs : Minixfs} {failed : Prop} [Decidable failed] {f : Addr}
    {F : Filp} : Mild k (if failed then ((-1 : Int), { k with fs := fs })
      else installFile { k with fs := fs } t T f F).2 := by
  have hfs : Mild k { k with fs := fs } := .of_tasks ⟨rfl, rfl, rfl, rfl, rfl⟩ rfl
  split
  · exact hfs
  · exact hfs.trans (mild_installFile f F)

theorem mild_withCurrent {f : Addr → Task → Int × Machine}
    (h : ∀ t T, k.current = some t → k.tasks t = some T → Mild k (f t T).2) :
    Mild k (k.withCurrent f).2 := by
  rw [Machine.withCurrent]
  split
  case h_1 t T ht hT =>
    refine h t T ht ?_
    rwa [Machine.currentTask, ht] at hT
  case h_2 => exact .refl k

theorem mild_sysOpen {path : List UInt8} {flags mode : Nat} {f : Addr} :
    Mild k (sysOpen k path flags mode f).2 :=
  mild_withCurrent fun _ _ _ _ ↦ mild_installUnless

theorem mild_sysCreat {path : List UInt8} {mode : Nat} {f : Addr} :
    Mild k (sysCreat k path mode f).2 :=
  mild_withCurrent fun _ _ _ _ ↦ mild_installUnless

theorem mild_sysClose : Mild k (sysClose k fd).2 := by
  refine mild_withCurrent fun t T _ _ ↦ ?_
  split
  · exact .refl k
  · exact mild_closeFd k t fd

theorem mild_sysDup : Mild k (sysDup k fd).2 := by
  refine mild_withCurrent fun t T _ _ ↦ ?_
  split
  · exact .refl k
  · split
    · exact .refl k
    · exact .setFd ..

theorem mild_sysDup2 {oldfd newfd : Nat} : Mild k (sysDup2 k oldfd newfd).2 := by
  refine mild_withCurrent fun t T _ _ ↦ ?_
  split
  · exact .refl k
  · split_ifs
    · exact .refl k
    · exact .refl k
    · cases T.files newfd with
      | none => exact .setFd ..
      | some h => exact .setFd ..

theorem mild_sysPipe {rf p wf : Addr} : Mild k (sysPipe k rf p wf).2 := by
  refine mild_withCurrent fun t T _ _ ↦ ?_
  split
  · exact .refl k
  case h_2 rfd _ =>
    refine (Mild.setFd k (filpAlloc k.files rf) t rfd (some rf)).trans ?_
    simp only
    split
    · exact .setFd ..
    · exact .setFd ..

theorem mild_sysIoctl {request arg : Nat} : Mild k (sysIoctl k fd request arg).2 := by
  refine mild_withCurrent fun t T _ _ ↦ ?_
  split
  · exact .refl k
  · split_ifs
    · exact .refl k
    · exact ⟨.upd .., .upd .refl fun _ _ ↦ ⟨_, _, _, rfl⟩⟩
    · exact ⟨.upd .., .upd .refl fun _ _ ↦ ⟨_, _, _, rfl⟩⟩
    · exact .of_tasks ⟨rfl, rfl, rfl, rfl, rfl⟩ rfl
    · exact .refl k

/-- The system calls that concern descriptors and the terminal only. -/
def Syscall.Local : Syscall → Prop
  | .exit _ | .fork _ | .wait4 _ | .kill _ | .yield => False
  | _ => True

theorem mild_dispatch {c : Syscall} (h : c.Local) : Mild k (dispatch k c).2 := by
  cases c with
  | openPath path flags mode f => exact mild_sysOpen
  | close fd => exact mild_sysClose
  | creat path mode f => exact mild_sysCreat
  | dup fd => exact mild_sysDup
  | dup2 oldfd newfd => exact mild_sysDup2
  | pipe rf p wf => exact mild_sysPipe
  | ioctl fd request arg => exact mild_sysIoctl
  | _ => exact h.elim

end Syscalls

/-! ## Giving up the processor -/

/-- A yield stays with the current task or switches. -/
theorem schedYield_cases (k : Machine) : schedYield k = k ∨
    some (pickNext k) ≠ k.current ∧ schedYield k = switchTo (preempt k) (pickNext k) := by
  rw [schedYield]
  split
  · exact .inl rfl
  · simp only
    split
    case isTrue h => exact .inr ⟨h, rfl⟩
    case isFalse => exact .inl rfl

/-- A task with another time slice. -/
def Task.Counts (T T' : Task) : Prop := ∃ n, T' = { T with timeSlice := n }

theorem Task.Counts.trans {T' T'' : Task} (h : T.Counts T') (h' : T'.Counts T'') :
    T.Counts T'' := by
  obtain ⟨_, rfl⟩ := h
  obtain ⟨n, rfl⟩ := h'
  exact ⟨n, rfl⟩

theorem counts_updCurrent (k : Machine) (f : Task → Nat) :
    Evolves Task.Counts k (k.updCurrent fun T ↦ { T with timeSlice := f T }) := by
  rw [Machine.updCurrent]
  split
  · exact .of_tasks (fun _ ↦ ⟨_, rfl⟩) rfl
  · exact .upd (fun _ ↦ ⟨_, rfl⟩) fun _ _ ↦ ⟨_, rfl⟩

/-- A tick counts, and then stays with the current task or switches. -/
theorem schedTick_cases (k : Machine) : ∃ k₁, Inert k k₁ ∧ Evolves Task.Counts k k₁ ∧
    (schedTick k = k₁ ∨
      some (pickNext k₁) ≠ k.current ∧ schedTick k = switchTo (preempt k₁) (pickNext k₁)) := by
  have hself : Evolves Task.Counts k k := .of_tasks (fun _ ↦ ⟨_, rfl⟩) rfl
  rw [schedTick]
  split
  · exact ⟨k, .refl k, hself, .inl rfl⟩
  · split
    · exact ⟨k, .refl k, hself, .inl rfl⟩
    · have hcount : Inert k (k.updCurrent fun T ↦ { T with timeSlice := T.timeSlice - 1 }) :=
        .updCurrent k fun _ ↦ rfl
      have htasks := counts_updCurrent k fun T ↦ T.timeSlice - 1
      set k₁ := k.updCurrent fun T ↦ { T with timeSlice := T.timeSlice - 1 }
      simp only
      split
      · split
        case isTrue h => exact ⟨k₁, hcount, htasks, .inr ⟨hcount.current ▸ h, rfl⟩⟩
        case isFalse =>
          refine ⟨_, hcount.trans ?_, htasks.trans .trans (counts_updCurrent k₁ fun _ ↦ quantum),
            .inl rfl⟩
          exact .updCurrent k₁ fun _ ↦ rfl
      · exact ⟨k₁, hcount, htasks, .inl rfl⟩

/-- A block turns the current task into a blocked one and switches. -/
theorem schedBlock_cases (hcur : k.current = some t) (status : Nat) :
    ∃ k₁, Frame k k₁ ∧
      (∀ a, k₁.core a = if a = t then (k.core a).map fun c ↦ { c with state := .blocked }
        else k.core a) ∧
      (pickNext k₁ = t ∧ schedBlock k status = k₁ ∨
        schedBlock k status = switchTo k₁ (pickNext k₁)) := by
  set k₁ := k.updCurrent fun T ↦ { T with state := .blocked, ctx := .wait4 status } with hk₁
  have hk₁' : k₁ = k.upd t fun T ↦ { T with state := .blocked, ctx := .wait4 status } := by
    rw [hk₁, Machine.updCurrent, hcur]
  refine ⟨k₁, hk₁' ▸ .upd .., fun a ↦ hk₁' ▸ core_upd (fun _ ↦ rfl) a, ?_⟩
  have hcur₁ : k₁.current = some t := by rw [hk₁', upd_current, hcur]
  rw [schedBlock]
  simp only [← hk₁]
  split
  case isTrue => exact .inr rfl
  case isFalse h =>
    rw [hcur₁, not_not] at h
    exact .inl ⟨Option.some.inj h, rfl⟩

/-! ## New tasks -/

variable {i : Nat}

theorem freeSlot_eq_some (h : freeSlot k = some i) : i < maxTasks ∧ k.slots i = none := by
  obtain ⟨-, hlt, hfree, -⟩ := findFirst_eq_some h
  exact ⟨by simpa using hlt, by simpa using hfree⟩

theorem slots_schedAlloc (h : freeSlot k = some i) (t : Addr) :
    (schedAlloc k t).slots = update k.slots i (some t) := by
  rw [schedAlloc, h]

/-- `sched_alloc` fills a slot that was free. -/
theorem slots_schedAlloc_of_some (h : k.slots i = some a) (t : Addr) :
    (schedAlloc k t).slots i = some a := by
  cases hfree : freeSlot k with
  | none => rwa [schedAlloc, hfree]
  | some j =>
    rw [slots_schedAlloc hfree, update_of_ne, h]
    rintro rfl
    rw [(freeSlot_eq_some hfree).2] at h
    cases h

theorem slots_schedAlloc_cases (h : (schedAlloc k t).slots i = some a) :
    k.slots i = some a ∨ (i < maxTasks ∧ a = t) := by
  cases hfree : freeSlot k with
  | none =>
    rw [schedAlloc, hfree] at h
    exact .inl h
  | some j =>
    rw [slots_schedAlloc hfree, update_apply] at h
    split at h
    case isTrue hij => exact .inr ⟨hij ▸ (freeSlot_eq_some hfree).1, (Option.some.inj h).symm⟩
    case isFalse => exact .inl h

/-- What the scheduler sees of a fresh task. -/
def Core.fresh : Core := ⟨.ready, false, none, none⟩

theorem core_schedAlloc (k : Machine) (t a : Addr) :
    (schedAlloc k t).core a = if a = t then some Core.fresh else k.core a := by
  by_cases h : a = t
  · subst h
    simp [Machine.core, schedAlloc, Task.fresh, Task.core, Core.fresh]
  · simp [Machine.core, schedAlloc, h]

/-- A fork adds a child of the current task, and links it into the ring unless the
address space could not be copied. -/
theorem sysFork_cases (hcur : k.current = some t) (hP : k.tasks t = some P) (child : Addr) :
    ∃ k₂, Frame (schedAlloc k child) k₂ ∧
      (∀ a, k₂.core a =
        if a = child then some { Core.fresh with parent := some t } else k.core a) ∧
      (((halAddrspaceClone k.mem P.addrspace).1 = 0 ∧ (sysFork k child).2 = k₂) ∨
        ((halAddrspaceClone k.mem P.addrspace).1 ≠ 0 ∧
          (sysFork k child).2 = schedAdd k₂ child)) := by
  have hframe : Frame (schedAlloc k child) (forkSpace k t P child) := ⟨rfl, rfl, rfl, rfl, rfl⟩
  have hcore : ∀ a, (forkSpace k t P child).core a =
      if a = child then some { Core.fresh with parent := some t } else k.core a := by
    intro a
    have hspace : (forkSpace k t P child).core =
        ((schedAlloc k child).upd child fun C ↦ inherit P C t).core := core_upd_same fun _ ↦ rfl
    rw [hspace, core_upd (g := fun c ↦ { c with parent := some t }) fun _ ↦ rfl, core_schedAlloc]
    split <;> rfl
  rw [sysFork_eq hcur hP]
  split
  case isTrue h0 => exact ⟨_, hframe, hcore, .inl ⟨h0, rfl⟩⟩
  case isFalse h0 =>
    refine ⟨_, hframe.trans (mild_shareFds _ t child 0 maxFiles).toFrame, fun a ↦ ?_,
      .inr ⟨h0, rfl⟩⟩
    rw [(mild_shareFds ..).inert.core, hcore]

/-! ## The ring -/

/-- A core without its successor. -/
def Core.unlinked (c : Core) : Core := { c with next := none }

/-- Two cores that differ in their successors only. -/
theorem eq_some_of_unlinked {c' : Core}
    (h : (k'.core a).map Core.unlinked = (k.core a).map Core.unlinked) (hc' : k'.core a = some c') :
    ∃ c, k.core a = some c ∧ c'.state = c.state ∧
      c'.waiting = c.waiting ∧ c'.parent = c.parent := by
  rw [hc', Option.map_some, eq_comm, Option.map_eq_some_iff] at h
  obtain ⟨c, hc, heq⟩ := h
  exact ⟨c, hc, (congrArg Core.state heq).symm, (congrArg Core.waiting heq).symm,
    (congrArg Core.parent heq).symm⟩

/-- Linking a task changes its successor only. -/
theorem unlinked_upd_next (k : Machine) (t : Addr) (next : Option Addr) (a : Addr) :
    ((k.upd t fun T ↦ { T with next := next }).core a).map Core.unlinked =
      (k.core a).map Core.unlinked := by
  rw [core_upd (g := fun c ↦ { c with next := next }) fun _ ↦ rfl]
  split
  · rw [Option.map_map]
    rfl
  · rfl

theorem unlinked_schedAdd (k : Machine) (t a : Addr) :
    ((schedAdd k t).core a).map Core.unlinked = (k.core a).map Core.unlinked := by
  rw [schedAdd]
  split
  · exact unlinked_upd_next { k with taskList := some t } t (some t) a
  · exact (unlinked_upd_next ..).trans (unlinked_upd_next ..)

theorem slots_schedAdd (k : Machine) (t : Addr) : (schedAdd k t).slots = k.slots := by
  rw [schedAdd]
  split <;> rfl

theorem schedAdd_current (k : Machine) (t : Addr) : (schedAdd k t).current = k.current := by
  rw [schedAdd]
  split <;> rfl

theorem schedAdd_nextPid (k : Machine) (t : Addr) : (schedAdd k t).nextPid = k.nextPid := by
  rw [schedAdd]
  split <;> rfl

theorem unlinked_ringRemove (k : Machine) (t a : Addr) :
    ((ringRemove k t).core a).map Core.unlinked = (k.core a).map Core.unlinked := by
  rw [ringRemove]
  split
  · rfl
  · split
    · rfl
    case h_2 p _ =>
      simp only
      split
      · exact unlinked_upd_next k p _ a
      · exact unlinked_upd_next k p _ a

theorem slots_ringRemove (k : Machine) (t : Addr) : (ringRemove k t).slots = k.slots := by
  rw [ringRemove]
  split
  · rfl
  · split
    · rfl
    · simp only
      split <;> rfl

theorem ringRemove_nextPid (k : Machine) (t : Addr) : (ringRemove k t).nextPid = k.nextPid := by
  rw [ringRemove]
  split
  · rfl
  · split
    · rfl
    · simp only
      split <;> rfl

theorem core_schedReap (k : Machine) (t a : Addr) :
    (schedReap k t).core a = if a = t then none else (ringRemove k t).core a := by
  by_cases h : a = t
  · subst h
    simp [Machine.core, schedReap]
  · simp [Machine.core, schedReap, h]

theorem slots_schedReap (k : Machine) (t : Addr) (i : Nat) :
    (schedReap k t).slots i = if k.slots i = some t then none else k.slots i := by
  change (if (ringRemove k t).slots i = some t then none else (ringRemove k t).slots i) = _
  rw [slots_ringRemove]

/-! ## The beginning -/

/-- What the scheduler sees when the first task is about to run. -/
theorem Booted.core {cons : Addr} (h : Booted k t cons) (a : Addr) :
    k.core a = if a = t then some ⟨.running, false, none, some t⟩
      else if a = idle then some Core.fresh else none := by
  obtain ⟨kernelDir, space, brk, htasks⟩ := h.tasks
  rw [Machine.core, htasks, bootTasks, update_apply, update_apply]
  split
  · rfl
  · split <;> rfl

end FentoOS.Kernel
