import FentoOS.Fs.Minixfs
import FentoOS.Kernel.File
import FentoOS.Mm.Paging

/-!
# Tasks and the scheduler

`kernel/sched/sched.c`.  Task structures live in kernel memory and point to each
other: `next` closes the run list into a ring, `parent` names the task that
forked this one.  A structure that is freed leaves its address behind, and a
later allocation may use it again.  The table `tasks[]` has 64 slots.

The loops along the run list follow `next` pointers and end when they come back
to where they started.  There can be no more tasks in the ring than tasks were
ever allocated, and `next_pid` counts those, so it bounds the loops.

A task that is switched out inside `wait4` goes on inside `wait4` when it is
switched in again.  What a task does next is its context `ctx`; all other
context switches leave from and return to user mode.
-/

namespace FentoOS.Kernel

open FentoOS.Lib FentoOS.Fs FentoOS.Mm

/-- `TASK_READY`, `TASK_RUNNING`, `TASK_BLOCKED` and `TASK_ZOMBIE`. -/
inductive TState
  | ready
  | running
  | blocked
  | zombie
deriving DecidableEq, Repr

/-- Where a task goes on when it is switched in: in user mode, or behind the
`sched_block` of a `wait4` that was given the address `status`. -/
inductive Ctx
  | user
  | wait4 (status : Nat)
deriving DecidableEq, Repr

/-- `struct task`.  Pids are 32-bit patterns. -/
structure Task where
  pid : Nat
  ppid : Nat
  state : TState
  ctx : Ctx
  timeSlice : Nat
  next : Option Addr
  uid : Nat
  gid : Nat
  exitCode : Int
  addrspace : Nat
  files : Nat → Option Addr
  cwd : List UInt8
  parent : Option Addr
  waiting : Bool
  user : Bool
  brk : Nat
  ttyRaw : Bool
  ttyEcho : Bool

/-- The state of the kernel.  `tasks` are the task structures in memory, `slots`
is the table `tasks[]`. -/
structure Machine where
  mem : Memory
  fs : Minixfs
  files : Files
  tasks : Addr → Option Task
  slots : Nat → Option Addr
  current : Option Addr
  taskList : Option Addr
  nextPid : Nat
  started : Bool
  foreground : Nat

/-- `MAX_TASKS`. -/
def maxTasks : Nat := 64

/-- `MAX_FILES`. -/
def maxFiles : Nat := 32

/-- `QUANTUM`. -/
def quantum : Nat := 5

/-- `&idle_task`. -/
def idle : Addr := 0

/-- The part of `idle_task` that `sched_init` sets up. -/
def idleTask (kernelDir : Nat) : Task where
  pid := 0
  ppid := 0
  state := .ready
  ctx := .user
  timeSlice := quantum
  next := none
  uid := 0
  gid := 0
  exitCode := 0
  addrspace := kernelDir
  files := fun _ ↦ none
  cwd := []
  parent := none
  waiting := false
  user := false
  brk := 0
  ttyRaw := false
  ttyEcho := false

namespace Machine

/-- Change the structure of one task, if it is in memory. -/
def upd (k : Machine) (a : Addr) (f : Task → Task) : Machine :=
  { k with tasks := Function.update k.tasks a ((k.tasks a).map f) }

/-- Change the structure of the current task. -/
def updCurrent (k : Machine) (f : Task → Task) : Machine :=
  match k.current with
  | none => k
  | some a => k.upd a f

/-- The structure of the current task. -/
def currentTask (k : Machine) : Option Task := k.current.bind k.tasks

end Machine

theorem upd_tasks (k : Machine) (t : Addr) (f : Task → Task) (a : Addr) :
    (k.upd t f).tasks a = if a = t then (k.tasks t).map f else k.tasks a := by
  by_cases h : a = t
  · subst h
    simp [Machine.upd]
  · simp [Machine.upd, h]

@[simp] theorem upd_files (k : Machine) (t : Addr) (f : Task → Task) :
    (k.upd t f).files = k.files := rfl
@[simp] theorem upd_slots (k : Machine) (t : Addr) (f : Task → Task) :
    (k.upd t f).slots = k.slots := rfl
@[simp] theorem upd_current (k : Machine) (t : Addr) (f : Task → Task) :
    (k.upd t f).current = k.current := rfl

/-! ## Allocation -/

/-- What `sched_alloc` leaves in a fresh `struct task`. -/
def Task.fresh (pid kernelDir : Nat) : Task where
  pid := pid
  ppid := 0
  state := .ready
  ctx := .user
  timeSlice := quantum
  next := none
  uid := 0
  gid := 0
  exitCode := 0
  addrspace := kernelDir
  files := fun _ ↦ none
  cwd := [slash]
  parent := none
  waiting := false
  user := false
  brk := 0
  ttyRaw := false
  ttyEcho := true

/-- The first free slot of `tasks[]`. -/
def freeSlot (k : Machine) : Option Nat :=
  findFirst (fun i ↦ (k.slots i).isNone) 0 maxTasks

/-- `sched_alloc`, with `kmalloc` returning the address `a`. -/
def schedAlloc (k : Machine) (a : Addr) : Machine :=
  { k with
    tasks := Function.update k.tasks a (some (Task.fresh (wrap32 k.nextPid) k.mem.kernelDir))
    nextPid := k.nextPid + 1
    slots := match freeSlot k with
      | none => k.slots
      | some i => Function.update k.slots i (some a) }

/-- The loop of `sched_add`: from `p`, the last task of the ring that starts at
`head`. -/
def ringLast (k : Machine) (head : Addr) : (fuel : Nat) → Addr → Addr
  | 0, p => p
  | fuel + 1, p =>
    match (k.tasks p).bind Task.next with
    | none => p
    | some q => if q = head then p else ringLast k head fuel q

/-- `sched_add`. -/
def schedAdd (k : Machine) (t : Addr) : Machine :=
  match k.taskList with
  | none => { k with taskList := some t }.upd t fun T ↦ { T with next := some t }
  | some head =>
    let p := ringLast k head k.nextPid head
    (k.upd p fun T ↦ { T with next := some t }).upd t fun T ↦ { T with next := some head }

/-- The slot of the first task with a given pid. -/
def pidAt (k : Machine) (pid i : Nat) : Bool :=
  match (k.slots i).bind k.tasks with
  | none => false
  | some T => T.pid = pid

/-- `sched_find`. -/
def schedFind (k : Machine) (pid : Nat) : Option Addr :=
  (findFirst (pidAt k pid) 0 maxTasks).bind k.slots

/-! ## Removal -/

/-- The loop of `sched_reap`: from `p`, the task of the ring whose `next` is `t`. -/
def ringPred (k : Machine) (head t : Addr) : (fuel : Nat) → Addr → Option Addr
  | 0, _ => none
  | fuel + 1, p =>
    match (k.tasks p).bind Task.next with
    | none => none
    | some q => if q = t then some p else if q = head then none else ringPred k head t fuel q

/-- The part of `sched_reap` that takes `t` out of the ring. -/
def ringRemove (k : Machine) (t : Addr) : Machine :=
  match k.taskList with
  | none => k
  | some head =>
    match ringPred k head t k.nextPid head with
    | none => k
    | some p =>
      let tnext := (k.tasks t).bind Task.next
      let k := k.upd p fun T ↦ { T with next := tnext }
      if head = t then { k with taskList := if tnext = some t then none else tnext } else k

@[simp] theorem ringRemove_current (k : Machine) (t : Addr) :
    (ringRemove k t).current = k.current := by
  rw [ringRemove]
  split
  · rfl
  · split
    · rfl
    · simp only
      split <;> rfl

/-- `sched_reap`. -/
def schedReap (k : Machine) (t : Addr) : Machine :=
  let k := ringRemove k t
  let k := { k with slots := fun i ↦ if k.slots i = some t then none else k.slots i }
  let space := ((k.tasks t).map Task.addrspace).getD 0
  let mem :=
    if space ≠ 0 ∧ space ≠ k.mem.kernelDir then halAddrspaceDestroy k.mem space else k.mem
  { k with mem := mem, tasks := Function.update k.tasks t none }

/-! ## Switching -/

/-- `t->state == TASK_READY || t->state == TASK_RUNNING`. -/
def Task.runnable (T : Task) : Bool := T.state = .ready ∨ T.state = .running

/-- The loop of `pick_next`. -/
def pickFrom (k : Machine) (start : Addr) : (fuel : Nat) → Addr → Addr
  | 0, _ => idle
  | fuel + 1, t =>
    match k.tasks t with
    | none => idle
    | some T =>
      if T.runnable then t
      else
        match T.next with
        | none => idle
        | some q => if q = start then idle else pickFrom k start fuel q

/-- `pick_next`. -/
def pickNext (k : Machine) : Addr :=
  let start := match k.current with
    | none => k.taskList
    | some a => (k.tasks a).bind Task.next
  match start with
  | none => idle
  | some s => pickFrom k s k.nextPid s

/-- `switch_to`. -/
def switchTo (k : Machine) (next : Addr) : Machine :=
  let k := { k with current := some next }.upd next fun T ↦
    { T with state := .running, timeSlice := quantum }
  let space := ((k.tasks next).map Task.addrspace).getD 0
  if space ≠ 0 then { k with mem := { k.mem with currentDir := space } } else k

theorem switchTo_tasks (k : Machine) (next : Addr) : (switchTo k next).tasks =
    (k.upd next fun T ↦ { T with state := .running, timeSlice := quantum }).tasks := by
  rw [switchTo]
  split <;> rfl

@[simp] theorem switchTo_files (k : Machine) (next : Addr) :
    (switchTo k next).files = k.files := by
  rw [switchTo]
  split <;> rfl

@[simp] theorem switchTo_slots (k : Machine) (next : Addr) :
    (switchTo k next).slots = k.slots := by
  rw [switchTo]
  split <;> rfl

@[simp] theorem switchTo_current (k : Machine) (next : Addr) :
    (switchTo k next).current = some next := by
  rw [switchTo]
  split <;> rfl

/-- `if (current->state == TASK_RUNNING) current->state = TASK_READY;` -/
def preempt (k : Machine) : Machine :=
  k.updCurrent fun T ↦ if T.state = .running then { T with state := .ready } else T

/-- `sched_yield`. -/
def schedYield (k : Machine) : Machine :=
  if !k.started then k
  else
    let next := pickNext k
    if some next ≠ k.current then switchTo (preempt k) next else k

/-- `sched_tick`. -/
def schedTick (k : Machine) : Machine :=
  if !k.started then k
  else
    match k.currentTask with
    | none => k
    | some _ =>
      let k := k.updCurrent fun T ↦ { T with timeSlice := T.timeSlice - 1 }
      if (k.currentTask.map Task.timeSlice).getD 0 = 0 then
        let next := pickNext k
        if some next ≠ k.current then switchTo (preempt k) next
        else k.updCurrent fun T ↦ { T with timeSlice := quantum }
      else k

/-! ## Waiting and exiting -/

/-- The parent is blocked in `wait4`. -/
def Task.awaits (T : Task) : Bool := T.state = .blocked ∧ T.waiting

/-- `sched_wakeup_parent`. -/
def schedWakeupParent (k : Machine) (t : Addr) : Machine :=
  match (k.tasks t).bind Task.parent with
  | none => k
  | some p =>
    k.upd p fun P ↦ if P.awaits then { P with waiting := false, state := .ready } else P

/-- One iteration of the loop of `sched_exit` over the children of `t`. -/
def orphanSlot (k : Machine) (t : Addr) (i : Nat) : Machine :=
  match k.slots i with
  | none => k
  | some a => k.upd a fun T ↦
      if T.parent = some t then { T with parent := none, ppid := 1 } else T

/-- The loop of `sched_exit` over the children of `t`. -/
def orphan (k : Machine) (t : Addr) : (i n : Nat) → Machine
  | _, 0 => k
  | i, n + 1 => orphan (orphanSlot k t i) t (i + 1) n

/-- `filp_close(t->files[fd]); t->files[fd] = NULL;`, if the descriptor is open. -/
def closeFd (k : Machine) (t : Addr) (fd : Nat) : Machine :=
  match (k.tasks t).bind fun T ↦ T.files fd with
  | none => k
  | some f =>
    { k with files := filpClose k.files f }.upd t fun T ↦
      { T with files := Function.update T.files fd none }

/-- The loop of `sched_exit` over the descriptors of `t`. -/
def closeFds (k : Machine) (t : Addr) : (fd n : Nat) → Machine
  | _, 0 => k
  | fd, n + 1 => closeFds (closeFd k t fd) t (fd + 1) n

/-- What `sched_exit` does to the kernel before it gives up the processor. -/
def exitTask (k : Machine) (t : Addr) (code : Int) : Machine :=
  let k := k.upd t fun T ↦ { T with exitCode := code, state := .zombie }
  let k := orphan k t 0 maxTasks
  let k := closeFds k t 0 maxFiles
  schedWakeupParent k t

/-- `sched_exit`. -/
def schedExit (k : Machine) (code : Int) : Machine :=
  match k.current with
  | none => k
  | some t =>
    let k := exitTask k t code
    switchTo k (pickNext k)

/-- `sched_block`, called from a `wait4` with the given status address. -/
def schedBlock (k : Machine) (status : Nat) : Machine :=
  let k := k.updCurrent fun T ↦ { T with state := .blocked, ctx := .wait4 status }
  let next := pickNext k
  if some next ≠ k.current then switchTo k next else k

end FentoOS.Kernel
