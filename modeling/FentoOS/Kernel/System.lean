import FentoOS.Kernel.Syscall

/-!
# The kernel as a transition system

The kernel starts with one task, which `proc_start_init` sets up from an
executable, and is then driven by the system calls of the current task, by the
timer and by the keyboard.  A system call runs with interrupts disabled, so it
is one step, up to the point where it gives up the processor inside `wait4`;
when the task is switched in again, it resumes there, with interrupts still
disabled.

`Step` is what the machine does: the task that acts is the current one, and who
is current is decided by the scheduler.  `Turn` leaves the order to chance: any
task that has not exited may be the next to act, whatever the scheduler thinks
of it.
-/

namespace FentoOS.Kernel

open FentoOS.Lib FentoOS.Fs FentoOS.Mm

/-! ## The beginning -/

/-- `sched_init`, with nothing allocated yet. -/
def schedInit (mem : Memory) (fs : Minixfs) : Machine where
  mem := mem
  fs := fs
  files := { filps := fun _ ↦ none, pipes := fun _ ↦ none }
  tasks := Function.update (fun _ ↦ none) idle (some (idleTask mem.kernelDir))
  slots := fun _ ↦ none
  current := none
  taskList := none
  nextPid := 1
  started := false
  foreground := 0

/-- `t->files[fd] = cons`. -/
def consoleFds (cons : Addr) (T : Task) : Task :=
  { T with
    files := Function.update (Function.update (Function.update T.files 0 (some cons))
      1 (some cons)) 2 (some cons) }

/-- `proc_start_init`, with `kmalloc` returning `t` for the task and `cons` for the
open console.  What `proc_exec` makes of the executable is a parameter: the memory
behind it, the address space of the task and the end of its data. -/
def procStartInit (k : Machine) (t cons : Addr) (mem : Memory) (space brk : Nat) : Machine :=
  let k := schedAlloc k t
  let k := { k with mem := mem }.upd t fun T ↦
    { T with user := true, addrspace := space, brk := brk }
  let files := filpAlloc k.files cons
  let files := files.setFilp cons ((files.filps cons).map fun F ↦ { F with type := .cons })
  let k := { k with files := filpRef (filpRef files cons) cons }.upd t (consoleFds cons)
  schedAdd k t

/-- `sched_start`. -/
def schedStart (k : Machine) : Machine :=
  let t := k.taskList.getD idle
  let k := { k with started := true, current := some t }.upd t fun T ↦
    { T with state := .running }
  let space := ((k.tasks t).map Task.addrspace).getD 0
  if space ≠ 0 then { k with mem := { k.mem with currentDir := space } } else k

/-- The states in which the first task is about to run. -/
def Boot (k : Machine) : Prop :=
  ∃ mem fs t cons mem' space brk, t ≠ idle ∧
    k = schedStart (procStartInit (schedInit mem fs) t cons mem' space brk)

/-- The first task. -/
def initTask (t cons : Addr) (kernelDir space brk : Nat) : Task :=
  { consoleFds cons (Task.fresh 1 kernelDir) with
    user := true
    addrspace := space
    brk := brk
    next := some t
    state := .running }

/-- The tasks when the first task is about to run. -/
def bootTasks (t cons : Addr) (kernelDir space brk : Nat) : Addr → Option Task :=
  Function.update (Function.update (fun _ ↦ none) idle (some (idleTask kernelDir))) t
    (some (initTask t cons kernelDir space brk))

variable {t : Addr} {T : Task}

theorem bootTasks_eq_some {cons : Addr} {kernelDir space brk : Nat} {a : Addr}
    (h : bootTasks t cons kernelDir space brk a = some T) :
    (a = t ∧ T = initTask t cons kernelDir space brk) ∨
      (a ≠ t ∧ a = idle ∧ T = idleTask kernelDir) := by
  rw [bootTasks, Function.update_apply] at h
  split at h
  case isTrue ha => exact .inl ⟨ha, (Option.some.inj h).symm⟩
  case isFalse ha =>
    rw [Function.update_apply] at h
    split at h
    case isTrue hi => exact .inr ⟨ha, hi, (Option.some.inj h).symm⟩
    case isFalse => cases h

/-- The open console, which three descriptors name. -/
def consoleFiles (cons : Addr) : Files :=
  let files : Files := { filps := fun _ ↦ none, pipes := fun _ ↦ none }
  filpRef (filpRef (files.setFilp cons (some { Filp.fresh with type := .cons })) cons) cons

/-- The state in which the first task is about to run, written out. -/
theorem boot_eq (mem : Memory) (fs : Minixfs) (t cons : Addr) (mem' : Memory)
    (space brk : Nat) :
    schedStart (procStartInit (schedInit mem fs) t cons mem' space brk) =
      { mem := if space ≠ 0 then { mem' with currentDir := space } else mem'
        fs := fs
        files := consoleFiles cons
        tasks := bootTasks t cons mem.kernelDir space brk
        slots := Function.update (fun _ ↦ none) 0 (some t)
        current := some t
        taskList := some t
        nextPid := 2
        started := true
        foreground := 0 } := by
  by_cases hs : space = 0
  · simp [schedStart, procStartInit, schedInit, schedAlloc, schedAdd, Machine.upd, hs, initTask,
      consoleFds, filpAlloc, freeSlot, maxTasks, findFirst, wrap32, Task.fresh, consoleFiles,
      bootTasks, Files.setFilp_idem]
  · simp [schedStart, procStartInit, schedInit, schedAlloc, schedAdd, Machine.upd, hs, initTask,
      consoleFds, filpAlloc, freeSlot, maxTasks, findFirst, wrap32, Task.fresh, consoleFiles,
      bootTasks, Files.setFilp_idem]

/-- What is known of the beginning. -/
structure Booted (k : Machine) (t cons : Addr) : Prop where
  notIdle : t ≠ idle
  tasks : ∃ kernelDir space brk, k.tasks = bootTasks t cons kernelDir space brk
  slots : k.slots = Function.update (fun _ ↦ none) 0 (some t)
  current : k.current = some t
  taskList : k.taskList = some t
  nextPid : k.nextPid = 2
  started : k.started = true
  files : k.files = consoleFiles cons

variable {k : Machine}

theorem Boot.booted (h : Boot k) : ∃ t cons, Booted k t cons := by
  obtain ⟨mem, fs, t, cons, mem', space, brk, hidle, rfl⟩ := h
  rw [boot_eq]
  exact ⟨t, cons, hidle, ⟨_, _, _, rfl⟩, rfl, rfl, rfl, rfl, rfl, rfl⟩

/-! ## A small machine -/

/-- The small machine when its first task, at the address `1`, is about to run. -/
def sampleBoot : Machine :=
  schedStart (procStartInit (schedInit sampleMemory
    { sb := ⟨0, 0, 0, 0, 0⟩
      mounted := false
      disk := { size := 0, block := fun _ ↦ Bytes.zero, junk := Bytes.zero, trace := [] } })
    1 2 sampleMemory 8192 0)

/-- A fork in a memory that holds nothing but zeros. -/
def forkBlank (k : Machine) (child : Addr) : Machine :=
  match k.current with
  | none => k
  | some parent =>
    match k.tasks parent with
    | none => k
    | some P =>
      (forkWith ((schedAlloc k child).upd child fun C ↦ inherit P C parent) parent child
        (allocFrame k.mem)).2

theorem sysFork_blank (hm : k.mem.mem = Bytes.zero) (hframe : (allocFrame k.mem).1 ≠ 0)
    (child : Addr) : (sysFork k child).2 = forkBlank k child := by
  rw [sysFork, forkBlank]
  cases k.current with
  | none => rfl
  | some parent =>
    dsimp only
    cases k.tasks parent with
    | none => rfl
    | some P =>
      have hclone : halAddrspaceClone
          ((schedAlloc k child).upd child fun C ↦ inherit P C parent).mem P.addrspace =
            allocFrame k.mem :=
        halAddrspaceClone_blank hm hframe P.addrspace
      simp only [hclone]

theorem boot_sampleBoot : Boot sampleBoot := ⟨_, _, 1, 2, _, _, _, by decide, rfl⟩

/-! ## System calls -/

/-- The system calls, with the addresses that `kmalloc` returns on the way. -/
inductive Syscall
  | exit (code : Int)
  | fork (child : Addr)
  | openPath (path : List UInt8) (flags mode : Nat) (f : Addr)
  | close (fd : Nat)
  | wait4 (status : Nat)
  | creat (path : List UInt8) (mode : Nat) (f : Addr)
  | kill (pid : Nat)
  | dup (fd : Nat)
  | dup2 (oldfd newfd : Nat)
  | pipe (rf p wf : Addr)
  | ioctl (fd request arg : Nat)
  | yield

/-- `kmalloc` returns memory that is not in use. -/
def Syscall.Fresh (k : Machine) : Syscall → Prop
  | .fork child => child ≠ idle ∧ k.tasks child = none
  | .openPath _ _ _ f => k.files.filps f = none
  | .creat _ _ f => k.files.filps f = none
  | .pipe rf p wf =>
    k.files.filps rf = none ∧ k.files.filps wf = none ∧ rf ≠ wf ∧ k.files.pipes p = none
  | _ => True

/-- `dispatch`: what a system call of the current task returns, unless the task is
switched out inside it, and the state behind it. -/
def dispatch (k : Machine) : Syscall → Option Int × Machine
  | .exit code => (none, schedExit k code)
  | .fork child => ((sysFork k child).1, (sysFork k child).2)
  | .openPath path flags mode f =>
    ((sysOpen k path flags mode f).1, (sysOpen k path flags mode f).2)
  | .close fd => ((sysClose k fd).1, (sysClose k fd).2)
  | .wait4 status => wait4Round k status
  | .creat path mode f => ((sysCreat k path mode f).1, (sysCreat k path mode f).2)
  | .kill pid => ((sysKill k pid).1, (sysKill k pid).2)
  | .dup fd => ((sysDup k fd).1, (sysDup k fd).2)
  | .dup2 oldfd newfd => ((sysDup2 k oldfd newfd).1, (sysDup2 k oldfd newfd).2)
  | .pipe rf p wf => ((sysPipe k rf p wf).1, (sysPipe k rf p wf).2)
  | .ioctl fd request arg => ((sysIoctl k fd request arg).1, (sysIoctl k fd request arg).2)
  | .yield => (some 0, schedYield k)

/-! ## Steps -/

/-- What drives the kernel: a system call, a task that is back behind its
`sched_block`, the timer, and Ctrl-C on the keyboard. -/
inductive Event
  | call (c : Syscall)
  | resume
  | tick
  | interrupt

/-- The next round of the `wait4` that the current task was switched out of. -/
def resumeWait4 (k : Machine) (status : Nat) : Machine :=
  (wait4Round (k.updCurrent fun T ↦ { T with ctx := .user }) status).2

/-- What the machine does.  Interrupts reach a task in user mode, and the idle task. -/
inductive Step (k : Machine) : Event → Machine → Prop
  | call {t : Addr} {T : Task} {c : Syscall} :
      k.current = some t → t ≠ idle → k.tasks t = some T → T.ctx = .user → c.Fresh k →
      Step k (.call c) (dispatch k c).2
  | resume {t : Addr} {T : Task} {status : Nat} :
      k.current = some t → t ≠ idle → k.tasks t = some T → T.ctx = .wait4 status →
      Step k .resume (resumeWait4 k status)
  | tick {T : Task} : k.currentTask = some T → T.ctx = .user → Step k .tick (schedTick k)
  | interrupt {T : Task} :
      k.currentTask = some T → T.ctx = .user → Step k .interrupt (interruptForeground k)

theorem step_yield (hcur : k.current = some t) (hti : t ≠ idle) (hT : k.tasks t = some T)
    (hctx : T.ctx = .user) : Step k (.call .yield) (schedYield k) :=
  .call hcur hti hT hctx trivial

theorem step_exit (hcur : k.current = some t) (hti : t ≠ idle) (hT : k.tasks t = some T)
    (hctx : T.ctx = .user) (code : Int) : Step k (.call (.exit code)) (schedExit k code) :=
  .call hcur hti hT hctx trivial

theorem step_forkBlank (child : Addr) (hm : k.mem.mem = Bytes.zero)
    (hframe : (allocFrame k.mem).1 ≠ 0) (hcur : k.current = some t) (hti : t ≠ idle)
    (hT : k.tasks t = some T) (hctx : T.ctx = .user) (hci : child ≠ idle)
    (hfresh : k.tasks child = none) : Step k (.call (.fork child)) (forkBlank k child) := by
  rw [← sysFork_blank hm hframe child]
  exact .call hcur hti hT hctx ⟨hci, hfresh⟩

/-- `t` is in memory and has not exited. -/
def Alive (k : Machine) (t : Addr) : Prop := ∃ T, k.tasks t = some T ∧ T.state ≠ .zombie

/-- Any task may act next: the current one, or any other that has not exited.  The
label says who acts. -/
def Turn (k : Machine) (a : Addr × Event) (k' : Machine) : Prop :=
  (k.current = some a.1 ∨ Alive k a.1) ∧ Step { k with current := some a.1 } a.2 k'

/-- The order in which the scheduler runs the tasks is one of the orders. -/
theorem Turn.of_step {k' : Machine} {e : Event} (ht : k.current = some t) (h : Step k e k') :
    Turn k (t, e) k' := by
  refine ⟨.inl ht, ?_⟩
  have : { k with current := some t } = k := by rw [← ht]
  rwa [this]

end FentoOS.Kernel
