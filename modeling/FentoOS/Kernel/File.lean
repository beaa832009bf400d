import FentoOS.Lib.Bytes
import FentoOS.Lib.Word

/-!
# Open files and pipes

The objects of `kernel/fs/file.c`: an open file (`struct filp`) is shared by the
descriptors that name it and counts them; a pipe is a ring of `PIPE_BUF_SIZE`
bytes that counts its open read and write ends.  Both live in kernel memory, so
they are kept in two heaps indexed by address; an address that holds nothing is
free.

`pipe_read` and `pipe_write` loop until they are done, giving up the processor
once in each iteration.  System calls run with interrupts disabled, so what
happens between two calls of `sched_yield` is one atomic turn, and the turn is
what is modelled: `pipeReadTurn` and `pipeWriteTurn` are one iteration of the
outer loop, and say whether the call returns or yields.
-/

namespace FentoOS.Kernel

open FentoOS.Lib Function

/-- A kernel address. -/
abbrev Addr := Nat

/-- `FT_NONE`, `FT_INODE`, `FT_CONS` and `FT_PIPE`. -/
inductive FType
  | none
  | inode
  | cons
  | pipe
deriving DecidableEq, Repr

/-- `struct filp`.  `offset` is the 32-bit pattern of the `off_t`. -/
structure Filp where
  type : FType
  refcount : Int
  ino : Nat
  offset : Nat
  flags : Nat
  isDir : Bool
  pipe : Option Addr
  pipeEnd : Int
deriving DecidableEq

/-- `PIPE_BUF_SIZE`. -/
def pipeBufSize : Nat := 4096

/-- `struct pipe`. -/
structure Pipe where
  buf : Bytes
  rpos : Nat
  wpos : Nat
  count : Nat
  readers : Int
  writers : Int

/-- The open files and pipes in kernel memory. -/
structure Files where
  filps : Addr → Option Filp
  pipes : Addr → Option Pipe

namespace Files

def setFilp (s : Files) (f : Addr) (F : Option Filp) : Files :=
  { s with filps := Function.update s.filps f F }

def setPipe (s : Files) (p : Addr) (P : Option Pipe) : Files :=
  { s with pipes := Function.update s.pipes p P }

@[simp] theorem setFilp_filps (s : Files) (f : Addr) (F : Option Filp) :
    (s.setFilp f F).filps = update s.filps f F := rfl
@[simp] theorem setFilp_pipes (s : Files) (f : Addr) (F : Option Filp) :
    (s.setFilp f F).pipes = s.pipes := rfl
@[simp] theorem setPipe_filps (s : Files) (p : Addr) (P : Option Pipe) :
    (s.setPipe p P).filps = s.filps := rfl
@[simp] theorem setPipe_pipes (s : Files) (p : Addr) (P : Option Pipe) :
    (s.setPipe p P).pipes = update s.pipes p P := rfl

theorem setFilp_comm {s : Files} {f f' : Addr} (hne : f ≠ f') (F F' : Option Filp) :
    (s.setFilp f F).setFilp f' F' = (s.setFilp f' F').setFilp f F := by
  simp only [Files.setFilp, update_comm hne]

theorem setFilp_idem {s : Files} {f : Addr} (F F' : Option Filp) :
    (s.setFilp f F).setFilp f F' = s.setFilp f F' := by
  simp only [Files.setFilp, update_idem]

end Files

/-! ## Open files -/

/-- What `filp_alloc` leaves in a fresh `struct filp`. -/
def Filp.fresh : Filp where
  type := .none
  refcount := 1
  ino := 0
  offset := 0
  flags := 0
  isDir := false
  pipe := none
  pipeEnd := 0

/-- `filp_alloc`, with `kmalloc` returning the address `f`. -/
def filpAlloc (s : Files) (f : Addr) : Files := s.setFilp f (some Filp.fresh)

/-- `filp_ref`. -/
def filpRef (s : Files) (f : Addr) : Files :=
  match s.filps f with
  | none => s
  | some F => s.setFilp f (some { F with refcount := F.refcount + 1 })

/-- One end of a pipe fewer; the pipe is freed with its last end. -/
def Pipe.dropEnd (P : Pipe) (pipeEnd : Int) : Option Pipe :=
  let P' := if pipeEnd = 0 then { P with readers := P.readers - 1 }
    else { P with writers := P.writers - 1 }
  if P'.readers = 0 ∧ P'.writers = 0 then none else some P'

/-- The part of `filp_close` that the last reference to a pipe end reaches. -/
def closePipeEnd (s : Files) (F : Filp) : Files :=
  match F.type, F.pipe with
  | .pipe, some p =>
    match s.pipes p with
    | none => s
    | some P => s.setPipe p (P.dropEnd F.pipeEnd)
  | _, _ => s

/-- `filp_close`. -/
def filpClose (s : Files) (f : Addr) : Files :=
  match s.filps f with
  | none => s
  | some F =>
    if F.refcount - 1 > 0 then s.setFilp f (some { F with refcount := F.refcount - 1 })
    else (closePipeEnd s F).setFilp f none

/-! ## Pipes -/

/-- What `pipe_create` leaves in a fresh `struct pipe`. -/
def Pipe.fresh : Pipe where
  buf := Bytes.zero
  rpos := 0
  wpos := 0
  count := 0
  readers := 1
  writers := 1

/-- `pipe_create`, with `kmalloc` returning the address `p`. -/
def pipeCreate (s : Files) (p : Addr) : Files := s.setPipe p (some Pipe.fresh)

/-- The inner loop of `pipe_read`: move bytes from the ring to the caller's
buffer, of which `room` bytes are unused. -/
def drain (P : Pipe) (out : List UInt8) : (room : Nat) → Pipe × List UInt8
  | 0 => (P, out)
  | room + 1 =>
    if P.count > 0 then
      drain { P with rpos := (P.rpos + 1) % pipeBufSize, count := P.count - 1 }
        (out ++ [P.buf P.rpos]) room
    else (P, out)

/-- One iteration of `pipe_read`: the ring afterwards, the bytes moved, and the
return value if the call returns. -/
def pipeReadTurn (P : Pipe) (count : Nat) : Pipe × List UInt8 × Option Int :=
  let r := drain P [] count
  if r.2.length > 0 then (r.1, r.2, some (sint32 r.2.length))
  else if r.1.writers = 0 then (r.1, r.2, some 0)
  else (r.1, r.2, none)

/-- The inner loop of `pipe_write`: move bytes of the caller's buffer into the
ring until it is full; the number of bytes moved. -/
def fill (P : Pipe) : List UInt8 → Pipe × Nat
  | [] => (P, 0)
  | x :: rest =>
    if P.count < pipeBufSize then
      let r := fill { P with
        buf := P.buf.put8 P.wpos x
        wpos := (P.wpos + 1) % pipeBufSize
        count := P.count + 1 } rest
      (r.1, r.2 + 1)
    else (P, 0)

/-- One iteration of `pipe_write` on a buffer of which `done` bytes are written:
the ring afterwards, the new `done`, and the return value if the call returns. -/
def pipeWriteTurn (P : Pipe) (buf : List UInt8) (done : Nat) : Pipe × Nat × Option Int :=
  if done < buf.length then
    if P.readers = 0 then (P, done, some (sint32 done))
    else
      let r := fill P (buf.drop done)
      let done := done + r.2
      -- the outer loop's test, made again after the last byte went in
      if done < buf.length then (r.1, done, none) else (r.1, done, some (sint32 done))
  else (P, done, some (sint32 done))

end FentoOS.Kernel
