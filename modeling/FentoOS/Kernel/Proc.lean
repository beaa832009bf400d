import FentoOS.Kernel.Sched

/-!
# Processes

`fork` and `wait4` of `kernel/proc/proc.c`, and the two ways in which a task is
terminated by somebody else: `sys_kill` of `kernel/syscall/syscall.c` and the
keyboard's `interrupt_foreground`.
-/

namespace FentoOS.Kernel

open FentoOS.Lib FentoOS.Fs FentoOS.Mm

/-! ## Forking -/

/-- `child->files[fd] = parent->files[fd]; filp_ref(parent->files[fd]);` -/
def shareFd (k : Machine) (parent child : Addr) (fd : Nat) : Machine :=
  match (k.tasks parent).bind fun T ↦ T.files fd with
  | none => k
  | some f =>
    { k with files := filpRef k.files f }.upd child fun T ↦
      { T with files := Function.update T.files fd (some f) }

/-- The loop of `sys_fork_impl` over the descriptors. -/
def shareFds (k : Machine) (parent child : Addr) : (fd n : Nat) → Machine
  | _, 0 => k
  | fd, n + 1 => shareFds (shareFd k parent child fd) parent child (fd + 1) n

/-- What the child takes over from its parent before it has an address space. -/
def inherit (P C : Task) (parent : Addr) : Task :=
  { C with
    ppid := P.pid
    parent := some parent
    uid := P.uid
    gid := P.gid
    user := true
    cwd := P.cwd
    brk := P.brk }

/-- The part of `sys_fork_impl` behind `hal_addrspace_clone`, which returned `r`. -/
def forkWith (k : Machine) (parent child : Addr) (r : Nat × Memory) : Int × Machine :=
  let k := { k with mem := r.2 }.upd child fun C ↦ { C with addrspace := r.1 }
  if r.1 = 0 then (-1, k)
  else
    let k := schedAdd (shareFds k parent child 0 maxFiles) child
    (sint32 (((k.tasks child).map Task.pid).getD 0), k)

/-- `sys_fork_impl`, with `kmalloc` returning the address `child`. -/
def sysFork (k : Machine) (child : Addr) : Int × Machine :=
  match k.current with
  | none => (-1, k)
  | some parent =>
    match k.tasks parent with
    | none => (-1, k)
    | some P =>
      let k := (schedAlloc k child).upd child fun C ↦ inherit P C parent
      forkWith k parent child (halAddrspaceClone k.mem P.addrspace)

/-- The machine in which a task `P` at `t` forks, behind `hal_addrspace_clone`. -/
def forkSpace (k : Machine) (t : Addr) (P : Task) (child : Addr) : Machine :=
  let r := halAddrspaceClone k.mem P.addrspace
  { (schedAlloc k child).upd child fun C ↦ inherit P C t with mem := r.2 }.upd child
    fun C ↦ { C with addrspace := r.1 }

theorem sysFork_eq {k : Machine} {t : Addr} {P : Task} (hcur : k.current = some t)
    (hP : k.tasks t = some P) (child : Addr) :
    sysFork k child =
      if (halAddrspaceClone k.mem P.addrspace).1 = 0 then (-1, forkSpace k t P child)
      else
        let k := schedAdd (shareFds (forkSpace k t P child) t child 0 maxFiles) child
        (sint32 (((k.tasks child).map Task.pid).getD 0), k) := by
  rw [sysFork, hcur]
  simp only [hP]
  rfl

/-! ## Waiting -/

/-- Slot `i` of `tasks[]` holds a child of `parent`. -/
def childAt (k : Machine) (parent : Addr) (i : Nat) : Bool :=
  match (k.slots i).bind k.tasks with
  | none => false
  | some T => T.parent = some parent

/-- Slot `i` of `tasks[]` holds a child of `parent` that has exited. -/
def zombieAt (k : Machine) (parent : Addr) (i : Nat) : Bool :=
  match (k.slots i).bind k.tasks with
  | none => false
  | some T => T.parent = some parent ∧ T.state = .zombie

/-- `int st = (exit_code & 0xFF) << 8`, as the bytes of the word. -/
def statusBytes (exitCode : Int) : Bytes :=
  Bytes.put32 Bytes.zero 0 ((exitCode % 256).toNat * 256)

/-- The end of `sys_wait4_impl`: store the status of the zombie and reap it. -/
def collect (k : Machine) (parent t : Addr) (status : Nat) : Machine :=
  let space := ((k.tasks parent).map Task.addrspace).getD 0
  let code := ((k.tasks t).map Task.exitCode).getD 0
  let mem := if status ≠ 0 then halAddrspaceCopyTo k.mem space status (statusBytes code) 4
    else k.mem
  schedReap { k with mem := mem } t

/-- Apart from memory, collecting a child is reaping it. -/
theorem collect_eq (k : Machine) (parent t : Addr) (status : Nat) :
    ∃ mem, collect k parent t status = schedReap { k with mem := mem } t :=
  ⟨_, rfl⟩

/-- One round of the loop of `sys_wait4_impl`: what it returns, unless it blocks. -/
def wait4Round (k : Machine) (status : Nat) : Option Int × Machine :=
  match k.current with
  | none => (none, k)
  | some parent =>
    match (findFirst (zombieAt k parent) 0 maxTasks).bind k.slots with
    | some t =>
      (some (sint32 (((k.tasks t).map Task.pid).getD 0)), collect k parent t status)
    | none =>
      if findFirst (childAt k parent) 0 maxTasks = none then (some (-1), k)
      else (none, schedBlock (k.upd parent fun T ↦ { T with waiting := true }) status)

variable {k : Machine} {parent : Addr}

theorem childAt_iff {i : Nat} : childAt k parent i = true ↔
    ∃ c C, k.slots i = some c ∧ k.tasks c = some C ∧ C.parent = some parent := by
  rw [childAt]
  cases hc : k.slots i with
  | none => simp
  | some c =>
    cases hC : k.tasks c with
    | none => simp [hC]
    | some C => simp [hC]

theorem zombieAt_iff {i : Nat} : zombieAt k parent i = true ↔
    ∃ c C, k.slots i = some c ∧ k.tasks c = some C ∧ C.parent = some parent ∧
      C.state = .zombie := by
  rw [zombieAt]
  cases hc : k.slots i with
  | none => simp
  | some c =>
    cases hC : k.tasks c with
    | none => simp [hC]
    | some C => simp [hC]

/-- What one round of `wait4` can do: reap a child that has exited, fail because there
is no child, or block because no child has exited. -/
theorem wait4Round_cases (hcur : k.current = some parent) (status : Nat) :
    (∃ i c C, i < maxTasks ∧ k.slots i = some c ∧ k.tasks c = some C ∧ C.parent = some parent ∧
      C.state = .zombie ∧ wait4Round k status = (some (sint32 C.pid), collect k parent c status)) ∨
    ((∀ i, i < maxTasks → childAt k parent i = false) ∧ wait4Round k status = (some (-1), k)) ∨
    ((∃ i, i < maxTasks ∧ childAt k parent i = true) ∧
      (∀ i, i < maxTasks → zombieAt k parent i = false) ∧
      wait4Round k status =
        (none, schedBlock (k.upd parent fun T ↦ { T with waiting := true }) status)) := by
  rw [wait4Round, hcur]
  cases hz : findFirst (zombieAt k parent) 0 maxTasks with
  | some i =>
    obtain ⟨-, hi, hzi, -⟩ := findFirst_eq_some hz
    obtain ⟨c, C, hc, hC, hp, hs⟩ := zombieAt_iff.mp hzi
    refine .inl ⟨i, c, C, by omega, hc, hC, hp, hs, ?_⟩
    simp [hz, hc, hC]
  | none =>
    have hnz := findFirst_eq_none.mp hz
    simp only [hz, Option.bind_none]
    split
    case isTrue hno =>
      exact .inr (.inl ⟨fun i hi ↦ findFirst_eq_none.mp hno i (Nat.zero_le _) (by omega), rfl⟩)
    case isFalse hchild =>
      refine .inr (.inr ⟨?_, fun i hi ↦ hnz i (Nat.zero_le _) (by omega), rfl⟩)
      obtain ⟨i, hi⟩ := Option.ne_none_iff_exists'.mp hchild
      obtain ⟨-, hlt, hci, -⟩ := findFirst_eq_some hi
      exact ⟨i, by omega, hci⟩

/-! ## Being terminated -/

/-- What `sys_kill` and `interrupt_foreground` do to their victim. -/
def terminate (k : Machine) (t : Addr) (code : Int) : Machine :=
  schedWakeupParent (k.upd t fun T ↦ { T with exitCode := code, state := .zombie }) t

/-- `sys_kill`. -/
def sysKill (k : Machine) (pid : Nat) : Int × Machine :=
  match schedFind k pid with
  | none => (-1, k)
  | some t =>
    if (k.tasks t).map Task.state = some .zombie then (0, k) else (0, terminate k t 137)

/-- Slot `i` of `tasks[]` holds a child of `owner` that has not exited. -/
def victimAt (k : Machine) (owner : Addr) (i : Nat) : Option Addr :=
  match k.slots i with
  | none => none
  | some t =>
    match k.tasks t with
    | none => none
    | some T => if T.parent = some owner ∧ T.state ≠ .zombie then some t else none

/-- One iteration of the loop of `interrupt_foreground`. -/
def interruptSlot (k : Machine) (owner : Addr) (i : Nat) : Machine :=
  match victimAt k owner i with
  | none => k
  | some t => terminate k t 130

/-- The loop of `interrupt_foreground`. -/
def interruptFrom (owner : Addr) : (i n : Nat) → Machine → Machine
  | _, 0, k => k
  | i, n + 1, k => interruptFrom owner (i + 1) n (interruptSlot k owner i)

/-- `interrupt_foreground`. -/
def interruptForeground (k : Machine) : Machine :=
  match schedFind k k.foreground with
  | none => k
  | some owner => interruptFrom owner 0 maxTasks k

end FentoOS.Kernel
