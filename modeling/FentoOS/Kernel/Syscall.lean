import FentoOS.Kernel.PathJoin
import FentoOS.Kernel.Proc

/-!
# Descriptors

The system calls of `kernel/syscall/syscall.c` that make, share and drop
descriptors.  They act for the current task.  An address that `kmalloc` returns
is an argument of the call.
-/

namespace FentoOS.Kernel

open FentoOS.Lib FentoOS.Fs

/-- `struct task *t = sched_current();` and then a function of the task. -/
def Machine.withCurrent (k : Machine) (f : Addr → Task → Int × Machine) : Int × Machine :=
  match k.current, k.currentTask with
  | some t, some T => f t T
  | _, _ => (-1, k)

theorem withCurrent_eq {k : Machine} {t : Addr} {T : Task} (hcur : k.current = some t)
    (hT : k.tasks t = some T) (f : Addr → Task → Int × Machine) : k.withCurrent f = f t T := by
  have hcurT : k.currentTask = some T := by rw [Machine.currentTask, hcur, Option.bind_some, hT]
  rw [Machine.withCurrent, hcur, hcurT]

/-- `t->files[fd]`, or `none` also for an `fd` out of range. -/
def fileOf (T : Task) (fd : Nat) : Option Addr := if fd < maxFiles then T.files fd else none

/-- `fd_alloc`. -/
def fdAlloc (T : Task) : Option Nat := findFirst (fun i ↦ (T.files i).isNone) 0 maxFiles

/-- `t->files[fd] = f`. -/
def setFd (k : Machine) (t : Addr) (fd : Nat) (f : Option Addr) : Machine :=
  k.upd t fun T ↦ { T with files := Function.update T.files fd f }

/-- The string that `build_path` leaves in a buffer of 256 bytes. -/
def buildPath (T : Task) (path : List UInt8) : List UInt8 :=
  strIn (buildPathIn T.cwd path Bytes.zero) 256

/-- The part of `sys_open` and `sys_creat` behind the file system: a descriptor
for the open file `F`, at the address `f`. -/
def installFile (k : Machine) (t : Addr) (T : Task) (f : Addr) (F : Filp) : Int × Machine :=
  match fdAlloc T with
  | none => (-1, k)
  | some fd =>
    (fd, setFd { k with files := (filpAlloc k.files f).setFilp f (some F) } t fd (some f))

/-- The open file `sys_open` makes for an inode.  `O_APPEND` is `0x400`. -/
def openedFile (fs : Minixfs) (ino flags : Nat) : Filp :=
  { Filp.fresh with
    type := .inode
    ino := ino
    flags := flags
    isDir := minixfsIsDir fs ino
    offset := if flags &&& 0x400 ≠ 0 then minixfsSize fs ino else 0 }

/-- `sys_open`. -/
def sysOpen (k : Machine) (path : List UInt8) (flags mode : Nat) (f : Addr) : Int × Machine :=
  k.withCurrent fun t T ↦
    let r := minixfsOpen k.fs (buildPath T path) flags (mode % 2 ^ 16)
    let k := { k with fs := r.2 }
    if r.1 < 0 then (-1, k) else installFile k t T f (openedFile k.fs r.1.toNat flags)

/-- `sys_creat`.  `O_WRONLY` is `1`. -/
def sysCreat (k : Machine) (path : List UInt8) (mode : Nat) (f : Addr) : Int × Machine :=
  k.withCurrent fun t T ↦
    let r := minixfsCreat k.fs (buildPath T path) (mode % 2 ^ 16)
    let k := { k with fs := r.2 }
    if r.1 < 0 then (-1, k)
    else installFile k t T f { Filp.fresh with type := .inode, ino := r.1.toNat, flags := 1 }

/-- `sys_close`. -/
def sysClose (k : Machine) (fd : Nat) : Int × Machine :=
  k.withCurrent fun t T ↦
    match fileOf T fd with
    | none => (-1, k)
    | some _ => (0, closeFd k t fd)

/-- `sys_dup`. -/
def sysDup (k : Machine) (fd : Nat) : Int × Machine :=
  k.withCurrent fun t T ↦
    match fileOf T fd with
    | none => (-1, k)
    | some f =>
      match fdAlloc T with
      | none => (-1, k)
      | some nfd =>
        let k := setFd k t nfd (some f)
        (nfd, { k with files := filpRef k.files f })

/-- `sys_dup2`. -/
def sysDup2 (k : Machine) (oldfd newfd : Nat) : Int × Machine :=
  k.withCurrent fun t T ↦
    match fileOf T oldfd with
    | none => (-1, k)
    | some f =>
      if newfd ≥ maxFiles then (-1, k)
      else if oldfd = newfd then (newfd, k)
      else
        let k := match T.files newfd with
          | none => k
          | some h => { k with files := filpClose k.files h }
        let k := setFd k t newfd (some f)
        (newfd, { k with files := filpRef k.files f })

/-- `sys_pipe`, with `kmalloc` returning `rf`, `p` and `wf` in this order.  The
two descriptors go to the caller's array. -/
def sysPipe (k : Machine) (rf p wf : Addr) : Int × Machine :=
  k.withCurrent fun t T ↦
    match fdAlloc T with
    | none => (-1, k)
    | some rfd =>
      let k := setFd { k with files := filpAlloc k.files rf } t rfd (some rf)
      match (k.tasks t).bind fdAlloc with
      | none => (-1, setFd { k with files := filpClose k.files rf } t rfd none)
      | some wfd =>
        let files := filpAlloc (pipeCreate k.files p) wf
        let files := files.setFilp rf ((files.filps rf).map fun F ↦
          { F with type := .pipe, pipe := some p, pipeEnd := 0 })
        let files := files.setFilp wf ((files.filps wf).map fun F ↦
          { F with type := .pipe, pipe := some p, pipeEnd := 1 })
        (0, setFd { k with files := files } t wfd (some wf))

/-- `sys_ioctl`: `TTY_SET_RAW`, `TTY_SET_ECHO` and `TTY_SET_FOREGROUND` on a console. -/
def sysIoctl (k : Machine) (fd request arg : Nat) : Int × Machine :=
  k.withCurrent fun t T ↦
    match (fileOf T fd).bind k.files.filps with
    | none => (-1, k)
    | some F =>
      if F.type ≠ .cons then (-1, k)
      else if request = 1 then (0, k.upd t fun T ↦ { T with ttyRaw := arg ≠ 0 })
      else if request = 2 then (0, k.upd t fun T ↦ { T with ttyEcho := arg ≠ 0 })
      else if request = 3 then (0, { k with foreground := arg })
      else (-1, k)

end FentoOS.Kernel
