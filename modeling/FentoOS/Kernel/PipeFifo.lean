import FentoOS.Kernel.File
import FentoOS.Lib.Ring
import FentoOS.Lib.Run

/-!
# Pipes are lossless queues

Any number of tasks read and write one pipe while others duplicate and close its
descriptors.  A call of `pipe_read` or `pipe_write` takes its turns one at a
time, and the turns of all calls in progress interleave freely.

Every byte is followed through the pipe by two histories, of the bytes taken
from writers and of the bytes handed to readers, each tagged with the call that
moved it.  What ties them to the ring is `PipeSys.Inv`: the bytes delivered,
followed by the bytes in the ring, are the bytes accepted.

A task inside a call cannot close anything, so it still owns the descriptor it
made the call through.  This is the guard `Idle`: a descriptor can be used,
duplicated or closed only by a task that is not inside a call, and there is one
for as long as the open file has more references than calls in progress.  It is
what keeps the pipe allocated while somebody reads or writes it.
-/

namespace FentoOS.Kernel

open FentoOS.Lib Function

/-! ## The ring -/

namespace Pipe

/-- The bytes in the ring, oldest first. -/
def contents (P : Pipe) : List UInt8 := ringList pipeBufSize P.buf P.rpos P.count

/-- The cursors of the ring agree with its count. -/
structure Wf (P : Pipe) : Prop where
  count_le : P.count ≤ pipeBufSize
  rpos_lt : P.rpos < pipeBufSize
  wpos_eq : P.wpos = (P.rpos + P.count) % pipeBufSize

@[simp] theorem length_contents (P : Pipe) : P.contents.length = P.count := length_ringList _ _ _

theorem fresh_wf : Wf fresh := ⟨by decide, by decide, by decide⟩

variable {P : Pipe}

/-- Taking the oldest byte out. -/
theorem Wf.pop (h : P.Wf) (hc : 0 < P.count) :
    Wf { P with rpos := (P.rpos + 1) % pipeBufSize, count := P.count - 1 } where
  count_le := by have := h.count_le; simp only; omega
  rpos_lt := Nat.mod_lt _ (by decide)
  wpos_eq := by
    simp only [h.wpos_eq, Nat.mod_add_mod]
    congr 1
    omega

theorem contents_pop (h : P.Wf) (hc : 0 < P.count) :
    P.contents = P.buf P.rpos ::
      contents { P with rpos := (P.rpos + 1) % pipeBufSize, count := P.count - 1 } := by
  obtain ⟨n, hn⟩ : ∃ n, P.count = n + 1 := ⟨P.count - 1, by omega⟩
  simp only [contents, hn, ringList_succ, Nat.add_sub_cancel, Nat.mod_eq_of_lt h.rpos_lt]

/-- Putting a byte in behind the newest one. -/
theorem Wf.push (h : P.Wf) (hc : P.count < pipeBufSize) (x : UInt8) :
    Wf { P with
      buf := P.buf.put8 P.wpos x
      wpos := (P.wpos + 1) % pipeBufSize
      count := P.count + 1 } where
  count_le := hc
  rpos_lt := h.rpos_lt
  wpos_eq := by simp only [h.wpos_eq, Nat.mod_add_mod, Nat.add_assoc]

theorem contents_push (h : P.Wf) (hc : P.count < pipeBufSize) (x : UInt8) :
    contents { P with
      buf := P.buf.put8 P.wpos x
      wpos := (P.wpos + 1) % pipeBufSize
      count := P.count + 1 } = P.contents ++ [x] := by
  simp only [contents, h.wpos_eq]
  exact ringList_snoc P.buf P.rpos x hc

variable {e : Int}

/-- The ends left after one is dropped. -/
theorem dropEnd_eq_none :
    P.dropEnd e = none ↔ P.readers = (if e = 0 then 1 else 0) ∧
      P.writers = (if e = 0 then 0 else 1) := by
  unfold dropEnd
  by_cases he : e = 0
  · simp only [he, if_true, ite_eq_left_iff, reduceCtorEq, imp_false, not_not]
    omega
  · simp only [he, if_false, ite_eq_left_iff, reduceCtorEq, imp_false, not_not]
    omega

variable {P' : Pipe}

/-- Dropping an end of a pipe that stays allocated keeps the ring as it is. -/
theorem dropEnd_eq_some (h : P.dropEnd e = some P') :
    (P.Wf → P'.Wf) ∧ P'.contents = P.contents ∧
      P'.readers = P.readers - (if e = 0 then 1 else 0) ∧
      P'.writers = P.writers - (if e = 0 then 0 else 1) := by
  unfold dropEnd at h
  by_cases he : e = 0
  · simp only [he, if_true, Option.ite_none_left_eq_some, Option.some.injEq] at h
    obtain ⟨-, rfl⟩ := h
    exact ⟨fun hP ↦ ⟨hP.count_le, hP.rpos_lt, hP.wpos_eq⟩, rfl, by simp [he], by simp [he]⟩
  · simp only [he, if_false, Option.ite_none_left_eq_some, Option.some.injEq] at h
    obtain ⟨-, rfl⟩ := h
    exact ⟨fun hP ↦ ⟨hP.count_le, hP.rpos_lt, hP.wpos_eq⟩, rfl, by simp [he], by simp [he]⟩

end Pipe

/-! ## The turns

Each inner loop moves a prefix of what is there, and says so by the lists it
leaves behind. -/

/-- What the inner loop of `pipe_read` does. -/
theorem drain_spec (h : P.Wf) (out : List UInt8) (room : Nat) :
    (drain P out room).1.Wf ∧ (drain P out room).1.readers = P.readers ∧
      (drain P out room).1.writers = P.writers ∧
      ∃ moved, (drain P out room).2 = out ++ moved ∧
        moved ++ (drain P out room).1.contents = P.contents ∧
        moved.length = min room P.count := by
  induction room generalizing P out with
  | zero => exact ⟨h, rfl, rfl, [], by simp [drain], rfl, by simp⟩
  | succ room ih =>
    rw [drain]
    split
    case isTrue hc =>
      obtain ⟨hwf, hr, hw, moved, hout, hcont, hlen⟩ :=
        ih (h.pop hc) (out ++ [P.buf P.rpos])
      refine ⟨hwf, hr, hw, P.buf P.rpos :: moved, by simpa using hout, ?_, ?_⟩
      · rw [Pipe.contents_pop h hc, List.cons_append, hcont]
      · simp only [List.length_cons, hlen]
        omega
    case isFalse hc =>
      exact ⟨h, rfl, rfl, [], by simp, rfl, by simp only [List.length_nil]; omega⟩

variable {ret : Option Int}

/-- What one iteration of `pipe_read` does. -/
theorem pipeReadTurn_spec (h : P.Wf) {count : Nat} (hpos : 0 < count) (hlt : count < 2 ^ 31)
    {out : List UInt8} (hturn : pipeReadTurn P count = (P', out, ret)) :
    P'.Wf ∧ P'.readers = P.readers ∧ P'.writers = P.writers ∧
      out ++ P'.contents = P.contents ∧
      (ret = none → out = []) ∧ (∀ v, ret = some v → v = out.length) ∧
      (ret = some 0 → P.count = 0 ∧ P.writers = 0) := by
  obtain ⟨hwf, hr, hw, moved, hout, hcont, hlen⟩ := drain_spec h [] count
  rw [List.nil_append] at hout
  rw [pipeReadTurn] at hturn
  simp only [hout] at hturn
  split at hturn
  case isTrue hm =>
    obtain ⟨rfl, rfl, rfl⟩ := hturn
    have hret : sint32 out.length = out.length := sint32_of_lt (by omega)
    refine ⟨hwf, hr, hw, hcont, by simp, fun v hv ↦ ?_, fun h0 ↦ ?_⟩
    · rw [← Option.some.inj hv, hret]
    · rw [hret] at h0
      have := Option.some.inj h0
      omega
  case isFalse hm =>
    have hnil : moved = [] := List.length_eq_zero_iff.mp (by omega)
    subst hnil
    split at hturn
    case isTrue hw0 =>
      obtain ⟨rfl, rfl, rfl⟩ := hturn
      refine ⟨hwf, hr, hw, hcont, fun _ ↦ rfl, fun v hv ↦ ?_, fun _ ↦ ⟨?_, hw ▸ hw0⟩⟩
      · rw [← Option.some.inj hv]
        rfl
      · simp only [List.length_nil] at hlen
        omega
    case isFalse hw0 =>
      obtain ⟨rfl, rfl, rfl⟩ := hturn
      exact ⟨hwf, hr, hw, hcont, fun _ ↦ rfl, by simp, by simp⟩

/-- What the inner loop of `pipe_write` does. -/
theorem fill_spec (h : P.Wf) (input : List UInt8) :
    (fill P input).1.Wf ∧ (fill P input).1.readers = P.readers ∧
      (fill P input).1.writers = P.writers ∧ (fill P input).2 ≤ input.length ∧
      (fill P input).1.contents = P.contents ++ input.take (fill P input).2 := by
  induction input generalizing P with
  | nil => exact ⟨h, rfl, rfl, le_refl _, by simp [fill]⟩
  | cons x rest ih =>
    rw [fill]
    split
    case isTrue hc =>
      obtain ⟨hwf, hr, hw, hle, hcont⟩ := ih (h.push hc x)
      refine ⟨hwf, hr, hw, by simpa using hle, ?_⟩
      rw [hcont, Pipe.contents_push h hc, List.take_succ_cons, List.append_assoc]
      rfl
    case isFalse => exact ⟨h, rfl, rfl, Nat.zero_le _, by simp⟩

/-- What one iteration of `pipe_write` does. -/
theorem pipeWriteTurn_spec (h : P.Wf) {buf : List UInt8} {done : Nat} (hle : done ≤ buf.length)
    (hlt : buf.length < 2 ^ 31) {done' : Nat}
    (hturn : pipeWriteTurn P buf done = (P', done', ret)) :
    P'.Wf ∧ P'.readers = P.readers ∧ P'.writers = P.writers ∧
      done ≤ done' ∧ done' ≤ buf.length ∧
      P'.contents = P.contents ++ (buf.drop done).take (done' - done) ∧
      (∀ v, ret = some v → v = done') := by
  rw [pipeWriteTurn] at hturn
  split at hturn
  case isTrue hd =>
    split at hturn
    case isTrue =>
      obtain ⟨rfl, rfl, rfl⟩ := hturn
      refine ⟨h, rfl, rfl, le_refl _, hle, by simp, fun v hv ↦ ?_⟩
      rw [← Option.some.inj hv, sint32_of_lt (by omega)]
    case isFalse =>
      obtain ⟨hwf, hr, hw, hn, hcont⟩ := fill_spec h (buf.drop done)
      rw [List.length_drop] at hn
      simp only at hturn
      split at hturn
      all_goals
        obtain ⟨rfl, rfl, rfl⟩ := hturn
        refine ⟨hwf, hr, hw, by omega, by omega, by simpa using hcont, fun v hv ↦ ?_⟩
      · simp at hv
      · rw [← Option.some.inj hv, sint32_of_lt (by omega)]
  case isFalse =>
    obtain ⟨rfl, rfl, rfl⟩ := hturn
    refine ⟨h, rfl, rfl, le_refl _, hle, by simp, fun v hv ↦ ?_⟩
    rw [← Option.some.inj hv, sint32_of_lt (by omega)]

/-! ## The system -/

/-- What a task inside a call is doing. -/
inductive CallKind
  | read (count : Nat)
  | write (buf : List UInt8) (done : Nat)

/-- A call in progress, made through the open file `filp`. -/
structure Call where
  id : Nat
  filp : Addr
  kind : CallKind

/-- One pipe and the calls on it.  `accepted` and `delivered` are the bytes taken
from writers and handed to readers so far, in order, each with the call that
moved it; `returned` lists the calls that returned, with their values. -/
structure PipeSys where
  files : Files
  calls : List Call
  nextId : Nat
  accepted : List (Nat × UInt8)
  delivered : List (Nat × UInt8)
  returned : List (Nat × Int)

inductive PipeOp
  | ref (f : Addr)
  | close (f : Addr)
  | read (f : Addr) (count : Nat)
  | write (f : Addr) (buf : List UInt8)
  | turn (id : Nat)

namespace PipeSys

/-- The number of calls in progress through an open file. -/
def busy (s : PipeSys) (f : Addr) : Nat := s.calls.countP fun c ↦ c.filp = f

/-- Some task that holds a descriptor of `f` is not inside a call. -/
def Idle (s : PipeSys) (f : Addr) (F : Filp) : Prop :=
  s.files.filps f = some F ∧ (s.busy f : Int) < F.refcount

/-- The number of bytes a call has moved. -/
def moved (s : PipeSys) (id : Nat) : Nat :=
  s.accepted.countP (fun x ↦ x.1 = id) + s.delivered.countP (fun x ↦ x.1 = id)

/-- A call that has not returned stays in progress. -/
def pending (ret : Option Int) (c : Call) : List Call := if ret.isNone then [c] else []

/-- The steps of the system, for the pipe at `pa` with its ends at `rf` and `wf`. -/
inductive Step (rf wf pa : Addr) : PipeSys → PipeOp → PipeSys → Prop
  /-- `dup`, `dup2` and `fork` share the open file. -/
  | ref {s : PipeSys} {f : Addr} {F : Filp} (hf : f = rf ∨ f = wf) (hidle : s.Idle f F) :
      Step rf wf pa s (.ref f) { s with files := filpRef s.files f }
  | close {s : PipeSys} {f : Addr} {F : Filp} (hf : f = rf ∨ f = wf) (hidle : s.Idle f F) :
      Step rf wf pa s (.close f) { s with files := filpClose s.files f }
  /-- `sys_read` on a read end enters `pipe_read`. -/
  | read {s : PipeSys} {f : Addr} {F : Filp} {count : Nat} (hf : f = rf ∨ f = wf)
      (hidle : s.Idle f F) (hend : F.pipeEnd = 0) (hpos : 0 < count) (hlt : count < 2 ^ 31) :
      Step rf wf pa s (.read f count)
        { s with calls := ⟨s.nextId, f, .read count⟩ :: s.calls, nextId := s.nextId + 1 }
  /-- `sys_write` on a write end enters `pipe_write`. -/
  | write {s : PipeSys} {f : Addr} {F : Filp} {buf : List UInt8} (hf : f = rf ∨ f = wf)
      (hidle : s.Idle f F) (hend : F.pipeEnd = 1) (hpos : 0 < buf.length)
      (hlt : buf.length < 2 ^ 31) :
      Step rf wf pa s (.write f buf)
        { s with calls := ⟨s.nextId, f, .write buf 0⟩ :: s.calls, nextId := s.nextId + 1 }
  | readTurn {s : PipeSys} {l₁ l₂ : List Call} {id count : Nat} {f : Addr} {P P' : Pipe}
      {out : List UInt8} {ret : Option Int}
      (hcalls : s.calls = l₁ ++ ⟨id, f, .read count⟩ :: l₂)
      (hpipe : s.files.pipes pa = some P) (hturn : pipeReadTurn P count = (P', out, ret)) :
      Step rf wf pa s (.turn id)
        { s with
          files := s.files.setPipe pa (some P')
          calls := l₁ ++ pending ret ⟨id, f, .read count⟩ ++ l₂
          delivered := s.delivered ++ out.map (id, ·)
          returned := s.returned ++ ret.toList.map (id, ·) }
  | writeTurn {s : PipeSys} {l₁ l₂ : List Call} {id done done' : Nat} {buf : List UInt8}
      {f : Addr} {P P' : Pipe} {ret : Option Int}
      (hcalls : s.calls = l₁ ++ ⟨id, f, .write buf done⟩ :: l₂)
      (hpipe : s.files.pipes pa = some P)
      (hturn : pipeWriteTurn P buf done = (P', done', ret)) :
      Step rf wf pa s (.turn id)
        { s with
          files := s.files.setPipe pa (some P')
          calls := l₁ ++ pending ret ⟨id, f, .write buf done'⟩ ++ l₂
          accepted := s.accepted ++ ((buf.drop done).take (done' - done)).map (id, ·)
          returned := s.returned ++ ret.toList.map (id, ·) }

/-- What `sys_pipe` leaves: a fresh pipe and one open file for each of its ends. -/
structure Init (rf wf pa : Addr) (s : PipeSys) : Prop where
  ne : rf ≠ wf
  rf_eq : s.files.filps rf =
    some { Filp.fresh with type := .pipe, pipe := some pa, pipeEnd := 0 }
  wf_eq : s.files.filps wf =
    some { Filp.fresh with type := .pipe, pipe := some pa, pipeEnd := 1 }
  pipe_eq : s.files.pipes pa = some Pipe.fresh
  calls_eq : s.calls = []
  accepted_eq : s.accepted = []
  delivered_eq : s.delivered = []
  returned_eq : s.returned = []

/-! ## The invariant -/

/-- `1` if the open file is allocated, `0` once it is freed. -/
def openEnds (s : PipeSys) (f : Addr) : Int := if (s.files.filps f).isSome then 1 else 0

/-- The open file of one end: as long as it is allocated it names the pipe and
has a reference for every call in progress through it. -/
structure EndInv (pa : Addr) (s : PipeSys) (f : Addr) (e : Int) : Prop where
  live : ∀ F, s.files.filps f = some F → F.type = .pipe ∧ F.pipe = some pa ∧ F.pipeEnd = e ∧
    (s.busy f : Int) ≤ F.refcount ∧ 0 < F.refcount
  freed : s.files.filps f = none → s.busy f = 0

/-- A call in progress is on the right end and has moved what it thinks it has. -/
def CallOk (rf wf : Addr) (s : PipeSys) (c : Call) : Prop :=
  c.id < s.nextId ∧
    match c.kind with
    | .read count => c.filp = rf ∧ 0 < count ∧ count < 2 ^ 31 ∧ s.moved c.id = 0
    | .write buf done =>
      c.filp = wf ∧ done ≤ buf.length ∧ buf.length < 2 ^ 31 ∧ s.moved c.id = done

/-- The ring holds exactly what was accepted and not delivered yet. -/
structure RingInv (rf wf : Addr) (s : PipeSys) (P : Pipe) : Prop where
  cursors : P.Wf
  readers : P.readers = s.openEnds rf
  writers : P.writers = s.openEnds wf
  fifo : s.delivered.map Prod.snd ++ P.contents = s.accepted.map Prod.snd

structure Inv (rf wf pa : Addr) (s : PipeSys) : Prop where
  readEnd : EndInv pa s rf 0
  writeEnd : EndInv pa s wf 1
  freed : s.files.pipes pa = none → s.files.filps rf = none ∧ s.files.filps wf = none
  ring : ∀ P, s.files.pipes pa = some P → RingInv rf wf s P
  call : ∀ c ∈ s.calls, CallOk rf wf s c
  ids : (s.calls.map Call.id).Nodup
  tags : ∀ id, s.nextId ≤ id → s.moved id = 0
  ret : ∀ r ∈ s.returned, r.1 < s.nextId ∧ r.1 ∉ s.calls.map Call.id ∧ r.2 = s.moved r.1

variable {rf wf pa : Addr} {s : PipeSys}

theorem Init.inv (h : Init rf wf pa s) : Inv rf wf pa s where
  readEnd := by
    refine ⟨fun F hF ↦ ?_, fun hF ↦ by simp [h.rf_eq] at hF⟩
    rw [h.rf_eq] at hF
    obtain rfl := Option.some.inj hF
    simp [busy, h.calls_eq, Filp.fresh]
  writeEnd := by
    refine ⟨fun F hF ↦ ?_, fun hF ↦ by simp [h.wf_eq] at hF⟩
    rw [h.wf_eq] at hF
    obtain rfl := Option.some.inj hF
    simp [busy, h.calls_eq, Filp.fresh]
  freed := fun hp ↦ by simp [h.pipe_eq] at hp
  ring := by
    intro P hP
    rw [h.pipe_eq] at hP
    obtain rfl := Option.some.inj hP
    refine ⟨Pipe.fresh_wf, ?_, ?_, ?_⟩
    · simp [openEnds, h.rf_eq, Pipe.fresh]
    · simp [openEnds, h.wf_eq, Pipe.fresh]
    · simp [h.accepted_eq, h.delivered_eq, Pipe.contents, Pipe.fresh]
  call := by simp [h.calls_eq]
  ids := by simp [h.calls_eq]
  tags := by simp [moved, h.accepted_eq, h.delivered_eq]
  ret := by simp [h.returned_eq]

variable {f : Addr} {F : Filp}

/-- The pipe is allocated as long as one of its ends is open. -/
theorem Inv.pipe_of_open (h : Inv rf wf pa s) (hf : f = rf ∨ f = wf) (hF : s.files.filps f = some F)
    : ∃ P, s.files.pipes pa = some P := by
  cases hP : s.files.pipes pa with
  | some P => exact ⟨P, rfl⟩
  | none =>
    obtain ⟨hr, hw⟩ := h.freed hP
    rcases hf with rfl | rfl
    · simp [hr] at hF
    · simp [hw] at hF

variable {c : Call}

/-- The pipe is allocated as long as a call on it is in progress. -/
theorem Inv.pipe_of_call (h : Inv rf wf pa s) (hc : c ∈ s.calls) :
    ∃ P, s.files.pipes pa = some P := by
  have hbusy : 0 < s.busy c.filp := List.countP_pos_iff.mpr ⟨c, hc, by simp⟩
  have hend : c.filp = rf ∨ c.filp = wf := by
    have hok := (h.call c hc).2
    cases hk : c.kind with
    | read count => rw [hk] at hok; exact .inl hok.1
    | write buf done => rw [hk] at hok; exact .inr hok.1
  cases hF : s.files.filps c.filp with
  | some F => exact h.pipe_of_open hend hF
  | none =>
    rcases hend with he | he
    · have := h.readEnd.freed (he ▸ hF); rw [he] at hbusy; omega
    · have := h.writeEnd.freed (he ▸ hF); rw [he] at hbusy; omega

/-! ## Sharing and closing descriptors -/

variable {g : Addr}

theorem EndInv.ref (h : EndInv pa s g e) : EndInv pa { s with files := filpRef s.files f } g e := by
  unfold filpRef
  cases hf : s.files.filps f with
  | none => exact h
  | some F =>
    by_cases hg : g = f
    · subst hg
      refine ⟨fun G hG ↦ ?_, fun hG ↦ by simp at hG⟩
      simp only [Files.setFilp_filps, update_self, Option.some.injEq] at hG
      subst hG
      obtain ⟨h₁, h₂, h₃, h₄, h₅⟩ := h.live F hf
      refine ⟨h₁, h₂, h₃, ?_, ?_⟩
      · change (s.busy g : Int) ≤ F.refcount + 1
        omega
      · change 0 < F.refcount + 1
        omega
    · refine ⟨fun G hG ↦ h.live G ?_, fun hG ↦ h.freed ?_⟩
      · simpa [update_of_ne hg] using hG
      · simpa [update_of_ne hg] using hG

theorem openEnds_ref (s : PipeSys) (f g : Addr) :
    openEnds { s with files := filpRef s.files f } g = s.openEnds g := by
  unfold filpRef
  cases hf : s.files.filps f with
  | none => rfl
  | some F =>
    by_cases hg : g = f
    · subst hg; simp [openEnds, hf]
    · simp [openEnds, update_of_ne hg]

theorem filpRef_pipes (t : Files) (f : Addr) : (filpRef t f).pipes = t.pipes := by
  unfold filpRef
  cases t.filps f <;> rfl

theorem Inv.ref (h : Inv rf wf pa s) (f : Addr) :
    Inv rf wf pa { s with files := filpRef s.files f } where
  readEnd := h.readEnd.ref
  writeEnd := h.writeEnd.ref
  freed := by
    intro hp
    obtain ⟨hr, hw⟩ := h.freed (by rw [← filpRef_pipes s.files f]; exact hp)
    have hkeep : ∀ g, s.files.filps g = none → (filpRef s.files f).filps g = none := by
      intro g hg
      have := openEnds_ref s f g
      cases hG : (filpRef s.files f).filps g with
      | none => rfl
      | some G => simp [openEnds, hg, hG] at this
    exact ⟨hkeep rf hr, hkeep wf hw⟩
  ring := by
    intro P hP
    have hring := h.ring P (by rw [← filpRef_pipes s.files f]; exact hP)
    exact ⟨hring.cursors, by rw [openEnds_ref]; exact hring.readers,
      by rw [openEnds_ref]; exact hring.writers, hring.fifo⟩
  call := h.call
  ids := h.ids
  tags := h.tags
  ret := h.ret

theorem filpClose_shared {t : Files} (hF : t.filps f = some F) (hpos : 1 < F.refcount) :
    filpClose t f = t.setFilp f (some { F with refcount := F.refcount - 1 }) := by
  rw [filpClose, hF]
  exact if_pos (by omega)

theorem filpClose_last {t : Files} {p : Addr} (hF : t.filps f = some F) (hlast : F.refcount ≤ 1)
    (htype : F.type = .pipe) (hpipe : F.pipe = some p) (hP : t.pipes p = some P) :
    filpClose t f = (t.setPipe p (P.dropEnd F.pipeEnd)).setFilp f none := by
  rw [filpClose, hF]
  simp only [closePipeEnd, htype, hpipe, hP]
  exact if_neg (by omega)

/-- One reference fewer to an end that stays open. -/
theorem EndInv.shared (h : EndInv pa s g e) (hidle : s.Idle f F) (hpos : 1 < F.refcount) :
    EndInv pa { s with files := s.files.setFilp f (some { F with refcount := F.refcount - 1 }) }
      g e := by
  by_cases hg : g = f
  · subst hg
    refine ⟨fun G hG ↦ ?_, fun hG ↦ by simp at hG⟩
    simp only [Files.setFilp_filps, update_self, Option.some.injEq] at hG
    subst hG
    obtain ⟨h₁, h₂, h₃, -, -⟩ := h.live F hidle.1
    have hlt := hidle.2
    refine ⟨h₁, h₂, h₃, ?_, ?_⟩
    · change (s.busy g : Int) ≤ F.refcount - 1
      omega
    · change 0 < F.refcount - 1
      omega
  · refine ⟨fun G hG ↦ h.live G ?_, fun hG ↦ h.freed ?_⟩
    · simpa [update_of_ne hg] using hG
    · simpa [update_of_ne hg] using hG

theorem Inv.close_shared (h : Inv rf wf pa s) (hidle : s.Idle f F) (hpos : 1 < F.refcount) :
    Inv rf wf pa { s with
      files := s.files.setFilp f (some { F with refcount := F.refcount - 1 }) } := by
  have hopen : ∀ g, openEnds { s with
      files := s.files.setFilp f (some { F with refcount := F.refcount - 1 }) } g
        = s.openEnds g := by
    intro g
    by_cases hg : g = f
    · subst hg; simp [openEnds, hidle.1]
    · simp [openEnds, update_of_ne hg]
  refine ⟨h.readEnd.shared hidle hpos, h.writeEnd.shared hidle hpos, fun hp ↦ ?_,
    fun P hP ↦ ?_, h.call, h.ids, h.tags, h.ret⟩
  · obtain ⟨hr, hw⟩ := h.freed hp
    have hne : ∀ g, s.files.filps g = none → g ≠ f := fun g hg hgf ↦ by
      rw [hgf, hidle.1] at hg
      simp at hg
    exact ⟨by simpa [update_of_ne (hne rf hr)] using hr,
      by simpa [update_of_ne (hne wf hw)] using hw⟩
  · have hring := h.ring P hP
    exact ⟨hring.cursors, by rw [hopen]; exact hring.readers,
      by rw [hopen]; exact hring.writers, hring.fifo⟩

/-- The last reference to an end: the end is freed, and no call was using it. -/
theorem EndInv.last {t : Option Pipe} (h : EndInv pa s g e) (hidle : s.Idle f F)
    (hlast : F.refcount ≤ 1) :
    EndInv pa { s with files := (s.files.setPipe pa t).setFilp f none } g e := by
  by_cases hg : g = f
  · subst hg
    refine ⟨fun G hG ↦ by simp at hG, fun _ ↦ ?_⟩
    have hlt := hidle.2
    change s.busy g = 0
    omega
  · refine ⟨fun G hG ↦ h.live G ?_, fun hG ↦ h.freed ?_⟩
    · simpa [update_of_ne hg] using hG
    · simpa [update_of_ne hg] using hG

theorem openEnds_eq_one (h : s.files.filps f = some F) :
    s.openEnds f = 1 := by simp [openEnds, h]

theorem openEnds_eq_zero : s.openEnds f = 0 ↔ s.files.filps f = none := by
  cases h : s.files.filps f <;> simp [openEnds, h]

theorem openEnds_last (t : Option Pipe) (f g : Addr) :
    openEnds { s with files := (s.files.setPipe pa t).setFilp f none } g =
      if g = f then 0 else s.openEnds g := by
  by_cases hg : g = f
  · subst hg; simp [openEnds]
  · simp [openEnds, hg]

theorem Inv.close_last (h : Inv rf wf pa s) (hne : rf ≠ wf) (hf : f = rf ∧ e = 0 ∨ f = wf ∧ e = 1)
    (hidle : s.Idle f F) (hlast : F.refcount ≤ 1) (hP : s.files.pipes pa = some P) :
    Inv rf wf pa { s with files := (s.files.setPipe pa (P.dropEnd e)).setFilp f none } := by
  have hring := h.ring P hP
  have hopen := openEnds_eq_one hidle.1
  refine ⟨h.readEnd.last hidle hlast, h.writeEnd.last hidle hlast, fun hp ↦ ?_, fun P' hP' ↦ ?_,
    h.call, h.ids, h.tags, h.ret⟩
  · -- the pipe goes only when the other end is gone already
    rw [Files.setFilp_pipes, Files.setPipe_pipes, update_self,
      Pipe.dropEnd_eq_none, hring.readers, hring.writers] at hp
    rcases hf with ⟨rfl, rfl⟩ | ⟨rfl, rfl⟩
    · have hw := openEnds_eq_zero.mp hp.2
      exact ⟨by simp, by simpa [update_of_ne hne.symm] using hw⟩
    · have hr := openEnds_eq_zero.mp hp.1
      exact ⟨by simpa [update_of_ne hne] using hr, by simp⟩
  · rw [Files.setFilp_pipes, Files.setPipe_pipes, update_self] at hP'
    obtain ⟨hwf, hcont, hr, hw⟩ := Pipe.dropEnd_eq_some hP'
    refine ⟨hwf hring.cursors, ?_, ?_, by rw [hcont]; exact hring.fifo⟩
    · rw [hr, hring.readers, openEnds_last]
      rcases hf with ⟨rfl, rfl⟩ | ⟨rfl, rfl⟩
      · simp [hopen]
      · simp [hne]
    · rw [hw, hring.writers, openEnds_last]
      rcases hf with ⟨rfl, rfl⟩ | ⟨rfl, rfl⟩
      · simp [hne.symm]
      · simp [hopen]

theorem Inv.close (h : Inv rf wf pa s) (hne : rf ≠ wf) (hf : f = rf ∨ f = wf) (hidle : s.Idle f F) :
    Inv rf wf pa { s with files := filpClose s.files f } := by
  by_cases hpos : 1 < F.refcount
  · rw [filpClose_shared hidle.1 hpos]
    exact h.close_shared hidle hpos
  · obtain ⟨P, hP⟩ := h.pipe_of_open hf hidle.1
    have hend : ∃ e, (f = rf ∧ e = 0 ∨ f = wf ∧ e = 1) ∧ F.type = .pipe ∧ F.pipe = some pa ∧
        F.pipeEnd = e := by
      rcases hf with rfl | rfl
      · obtain ⟨h₁, h₂, h₃, -⟩ := h.readEnd.live F hidle.1
        exact ⟨0, .inl ⟨rfl, rfl⟩, h₁, h₂, h₃⟩
      · obtain ⟨h₁, h₂, h₃, -⟩ := h.writeEnd.live F hidle.1
        exact ⟨1, .inr ⟨rfl, rfl⟩, h₁, h₂, h₃⟩
    obtain ⟨e, hfe, htype, hpipe, he⟩ := hend
    rw [filpClose_last hidle.1 (by omega) htype hpipe hP, he]
    exact h.close_last hne hfe hidle (by omega) hP

/-! ## Calls -/

/-- A call enters: some idle task goes on to be busy. -/
theorem EndInv.start (h : EndInv pa s g e) (hidle : s.Idle f F) (hc : c.filp = f) (n : Nat) :
    EndInv pa { s with calls := c :: s.calls, nextId := n } g e := by
  by_cases hg : g = f
  · subst hg
    have hbusy : busy { s with calls := c :: s.calls, nextId := n } g = s.busy g + 1 := by
      simp [busy, hc]
    refine ⟨fun G hG ↦ ?_, fun hG ↦ ?_⟩
    · obtain ⟨h₁, h₂, h₃, -, h₅⟩ := h.live G hG
      obtain rfl : F = G := Option.some.inj (hidle.1.symm.trans hG)
      have hlt := hidle.2
      exact ⟨h₁, h₂, h₃, by rw [hbusy]; omega, h₅⟩
    · have := hidle.1
      simp only at hG
      simp [hG] at this
  · have hbusy : busy { s with calls := c :: s.calls, nextId := n } g = s.busy g := by
      simp [busy, hc, Ne.symm hg]
    exact ⟨fun G hG ↦ by rw [hbusy]; exact h.live G hG, fun hG ↦ by rw [hbusy]; exact h.freed hG⟩

theorem Inv.start (h : Inv rf wf pa s) (hidle : s.Idle f F) {kind : CallKind}
    (hok : CallOk rf wf { s with nextId := s.nextId + 1 } ⟨s.nextId, f, kind⟩) :
    Inv rf wf pa
      { s with calls := ⟨s.nextId, f, kind⟩ :: s.calls, nextId := s.nextId + 1 } where
  readEnd := h.readEnd.start hidle rfl _
  writeEnd := h.writeEnd.start hidle rfl _
  freed := h.freed
  ring := fun P hP ↦ ⟨(h.ring P hP).cursors, (h.ring P hP).readers, (h.ring P hP).writers,
    (h.ring P hP).fifo⟩
  call := by
    intro c hc
    rcases List.mem_cons.mp hc with rfl | hc
    · exact hok
    · exact ⟨Nat.lt_succ_of_lt (h.call c hc).1, (h.call c hc).2⟩
  ids := by
    refine List.nodup_cons.mpr ⟨fun hmem ↦ ?_, h.ids⟩
    obtain ⟨c, hc, hid⟩ := List.mem_map.mp hmem
    exact absurd (h.call c hc).1 (by rw [hid]; exact lt_irrefl _)
  tags := fun id hid ↦ h.tags id (Nat.le_of_succ_le hid)
  ret := by
    intro r hr
    obtain ⟨h₁, h₂, h₃⟩ := h.ret r hr
    refine ⟨Nat.lt_succ_of_lt h₁, fun hmem ↦ ?_, h₃⟩
    rcases List.mem_cons.mp hmem with heq | hmem
    · exact absurd h₁ (by rw [heq]; exact lt_irrefl _)
    · exact h₂ hmem

theorem countP_tag (id id' : Nat) (l : List UInt8) :
    (l.map (id, ·)).countP (fun x ↦ x.1 = id') = if id = id' then l.length else 0 := by
  induction l with
  | nil => simp
  | cons x l ih =>
    rw [List.map_cons, List.countP_cons, ih]
    by_cases h : id = id' <;> simp [h]

/-- The shape every turn has, whichever way its bytes went: `acc` came in from a
writer, `del` went out to a reader. -/
def turned (s : PipeSys) (pa : Addr) (P' : Pipe) (l₁ l₂ : List Call) (c' : Call)
    (acc del : List UInt8) (ret : Option Int) : PipeSys :=
  { s with
    files := s.files.setPipe pa (some P')
    calls := l₁ ++ pending ret c' ++ l₂
    accepted := s.accepted ++ acc.map (c'.id, ·)
    delivered := s.delivered ++ del.map (c'.id, ·)
    returned := s.returned ++ ret.toList.map (c'.id, ·) }

theorem moved_turned (P' : Pipe) (l₁ l₂ : List Call) (c' : Call) (acc del : List UInt8)
    (ret : Option Int) (id : Nat) :
    (s.turned pa P' l₁ l₂ c' acc del ret).moved id =
      s.moved id + if c'.id = id then acc.length + del.length else 0 := by
  simp only [turned, moved, List.countP_append, countP_tag]
  split <;> omega

variable {l₁ l₂ : List Call} {c' : Call}

theorem busy_turned (hcalls : s.calls = l₁ ++ c :: l₂) (P' : Pipe) (hfilp : c'.filp = c.filp)
    (acc del : List UInt8) (ret : Option Int) (f : Addr) :
    (s.turned pa P' l₁ l₂ c' acc del ret).busy f ≤ s.busy f := by
  simp only [turned, busy, hcalls, pending, List.countP_append, List.countP_cons]
  split
  · simp only [List.countP_cons, List.countP_nil, hfilp]
    omega
  · simp

theorem EndInv.turned (h : EndInv pa s f e) (hcalls : s.calls = l₁ ++ c :: l₂) (P' : Pipe)
    (hfilp : c'.filp = c.filp) (acc del : List UInt8) (ret : Option Int) :
    EndInv pa (s.turned pa P' l₁ l₂ c' acc del ret) f e := by
  have hbusy : (s.turned pa P' l₁ l₂ c' acc del ret).busy f ≤ s.busy f :=
    busy_turned hcalls P' hfilp acc del ret f
  refine ⟨fun G hG ↦ ?_, fun hG ↦ ?_⟩
  · obtain ⟨h₁, h₂, h₃, h₄, h₅⟩ := h.live G hG
    exact ⟨h₁, h₂, h₃, by omega, h₅⟩
  · have := h.freed hG
    omega

/-- **One turn.**  Whatever the turn took from the front of the ring it
delivered, whatever it put at the back it accepted. -/
theorem Inv.turned (h : Inv rf wf pa s) {acc del : List UInt8} (hcalls : s.calls = l₁ ++ c :: l₂)
    (hid : c'.id = c.id) (hfilp : c'.filp = c.filp) (hP : s.files.pipes pa = some P) (hcur : P'.Wf)
    (hr : P'.readers = P.readers) (hw : P'.writers = P.writers)
    (hfifo : del ++ P'.contents = P.contents ++ acc)
    (hok : ret = none → CallOk rf wf (s.turned pa P' l₁ l₂ c' acc del ret) c')
    (hret : ∀ v, ret = some v → v = s.moved c.id + (acc.length + del.length)) :
    Inv rf wf pa (s.turned pa P' l₁ l₂ c' acc del ret) := by
  have hnodup : (l₁.map Call.id ++ c.id :: l₂.map Call.id).Nodup := by
    simpa [hcalls] using h.ids
  have hsub : List.Sublist ((s.turned pa P' l₁ l₂ c' acc del ret).calls.map Call.id)
      (l₁.map Call.id ++ c.id :: l₂.map Call.id) := by
    cases ret with
    | none => simp [PipeSys.turned, pending, hid]
    | some v => simp [PipeSys.turned, pending]
  -- the other calls moved nothing
  have hother : ∀ id, id ≠ c.id → (s.turned pa P' l₁ l₂ c' acc del ret).moved id = s.moved id := by
    intro id hne
    rw [moved_turned, if_neg (by rw [hid]; exact hne.symm), Nat.add_zero]
  have hmem : c ∈ s.calls := by simp [hcalls]
  refine ⟨h.readEnd.turned hcalls P' hfilp acc del ret,
    h.writeEnd.turned hcalls P' hfilp acc del ret, fun hp ↦ by simp [PipeSys.turned] at hp,
    fun Q hQ ↦ ?_, fun d hd ↦ ?_, hnodup.sublist hsub, fun id hle ↦ ?_, fun r hr' ↦ ?_⟩
  · have hring := h.ring P hP
    simp only [PipeSys.turned, Files.setPipe_pipes, update_self, Option.some.injEq] at hQ
    subst hQ
    refine ⟨hcur, hr.trans hring.readers, hw.trans hring.writers, ?_⟩
    simp only [PipeSys.turned, List.map_append, List.map_map, Function.comp_def, List.map_id',
      List.append_assoc, hfifo]
    rw [← List.append_assoc, hring.fifo]
  · simp only [PipeSys.turned, List.append_assoc, List.mem_append] at hd
    have hold : ∀ d ∈ s.calls, d.id ≠ c.id →
        CallOk rf wf (s.turned pa P' l₁ l₂ c' acc del ret) d := by
      intro d hd hne
      have := h.call d hd
      unfold CallOk at this ⊢
      rw [hother d.id hne]
      exact this
    rw [List.nodup_append] at hnodup
    obtain ⟨-, hcons, hdisj⟩ := hnodup
    rcases hd with hd | hd | hd
    · exact hold d (by simp [hcalls, hd])
        (hdisj d.id (List.mem_map_of_mem hd) c.id (by simp))
    · rw [pending] at hd
      split at hd
      case isTrue hnone =>
        obtain rfl := List.mem_singleton.mp hd
        exact hok (by simpa using hnone)
      case isFalse => simp at hd
    · refine hold d (by simp [hcalls, hd]) fun hc ↦ ?_
      exact (List.nodup_cons.mp hcons).1 (hc ▸ List.mem_map_of_mem hd)
  · rw [hother id (fun hc ↦ ?_)]
    · exact h.tags id hle
    · have := (h.call c hmem).1
      change s.nextId ≤ id at hle
      omega
  · simp only [PipeSys.turned, List.mem_append] at hr'
    rcases hr' with hr' | hr'
    · obtain ⟨h₁, h₂, h₃⟩ := h.ret r hr'
      refine ⟨h₁, fun hc ↦ h₂ ?_, ?_⟩
      · simpa [hcalls] using hsub.subset hc
      · rw [hother r.1 (fun hc ↦ h₂ (by rw [hc]; exact List.mem_map_of_mem hmem))]
        exact h₃
    · cases ret with
      | none => simp at hr'
      | some v =>
        simp only [Option.toList_some, List.map_cons, List.map_nil, List.mem_singleton] at hr'
        subst hr'
        refine ⟨by rw [hid]; exact (h.call c hmem).1, ?_, ?_⟩
        · rw [List.nodup_middle, List.nodup_cons] at hnodup
          simpa [PipeSys.turned, pending, hid] using hnodup.1
        · rw [moved_turned, if_pos rfl, hid]
          exact hret v rfl

theorem Inv.readTurn (h : Inv rf wf pa s) {id count : Nat} {out : List UInt8}
    (hcalls : s.calls = l₁ ++ ⟨id, f, .read count⟩ :: l₂) (hP : s.files.pipes pa = some P)
    (hturn : pipeReadTurn P count = (P', out, ret)) :
    Inv rf wf pa (s.turned pa P' l₁ l₂ ⟨id, f, .read count⟩ [] out ret) := by
  have hmem : (⟨id, f, .read count⟩ : Call) ∈ s.calls := by simp [hcalls]
  obtain ⟨hid, hf, hpos, hlt, hmoved⟩ := h.call _ hmem
  obtain ⟨hcur, hr, hw, hcont, hnone, hsome, -⟩ :=
    pipeReadTurn_spec (h.ring P hP).cursors hpos hlt hturn
  refine h.turned hcalls rfl rfl hP hcur hr hw (by simpa using hcont) (fun hret ↦ ?_) fun v hv ↦ ?_
  · refine ⟨hid, hf, hpos, hlt, ?_⟩
    rw [moved_turned, hmoved, hnone hret]
    simp
  · rw [hsome v hv, hmoved]
    simp

theorem Inv.writeTurn (h : Inv rf wf pa s) {id done done' : Nat} {buf : List UInt8}
    (hcalls : s.calls = l₁ ++ ⟨id, f, .write buf done⟩ :: l₂) (hP : s.files.pipes pa = some P)
    (hturn : pipeWriteTurn P buf done = (P', done', ret)) :
    Inv rf wf pa (s.turned pa P' l₁ l₂ ⟨id, f, .write buf done'⟩
      ((buf.drop done).take (done' - done)) [] ret) := by
  have hmem : (⟨id, f, .write buf done⟩ : Call) ∈ s.calls := by simp [hcalls]
  obtain ⟨hid, hf, hle, hlt, hmoved⟩ := h.call _ hmem
  obtain ⟨hcur, hr, hw, hmono, hle', hcont, hsome⟩ :=
    pipeWriteTurn_spec (h.ring P hP).cursors hle hlt hturn
  have hlen : ((buf.drop done).take (done' - done)).length = done' - done := by
    rw [List.length_take, List.length_drop]
    omega
  have hmoved' : s.moved id + (done' - done) = done' := by
    simp only at hmoved
    omega
  refine h.turned hcalls rfl rfl hP hcur hr hw (by simpa using hcont) (fun hret ↦ ?_) fun v hv ↦ ?_
  · refine ⟨hid, hf, hle', hlt, ?_⟩
    rw [moved_turned, if_pos rfl, hlen]
    simpa using hmoved'
  · rw [hsome v hv, hlen, List.length_nil]
    omega

/-- **Every step keeps the invariant.** -/
theorem Inv.step (h : Inv rf wf pa s) (hne : rf ≠ wf) {op : PipeOp} {s' : PipeSys}
    (hs : Step rf wf pa s op s') : Inv rf wf pa s' := by
  cases hs with
  | ref hf hidle => exact h.ref _
  | close hf hidle => exact h.close hne hf hidle
  | @read f F count hf hidle hend hpos hlt =>
    have hrf : f = rf := hf.resolve_right fun hc ↦ by
      obtain ⟨-, -, he, -⟩ := h.writeEnd.live F (hc ▸ hidle.1)
      omega
    exact h.start hidle ⟨Nat.lt_succ_self _, hrf, hpos, hlt, h.tags _ (le_refl _)⟩
  | @write f F buf hf hidle hend hpos hlt =>
    have hwf : f = wf := hf.resolve_left fun hc ↦ by
      obtain ⟨-, -, he, -⟩ := h.readEnd.live F (hc ▸ hidle.1)
      omega
    exact h.start hidle
      ⟨Nat.lt_succ_self _, hwf, Nat.zero_le _, hlt, h.tags _ (le_refl _)⟩
  | readTurn hcalls hP hturn =>
    have hturned := h.readTurn hcalls hP hturn
    simpa only [PipeSys.turned, List.map_nil, List.append_nil] using hturned
  | writeTurn hcalls hP hturn =>
    have hturned := h.writeTurn hcalls hP hturn
    simpa only [PipeSys.turned, List.map_nil, List.append_nil] using hturned

end PipeSys

/-- **Pipes are lossless queues.**  At every point of every run, as long as the
pipe is allocated: the cursors of its ring agree with its count, and the bytes
delivered so far followed by the bytes in the ring are the bytes accepted so
far.  Every call that returned, returned the number of bytes it moved.  A call
in progress finds the pipe still allocated, and a read turn returns `0` only on
an empty ring with no write end left, when all that was accepted has been
delivered. -/
theorem pipe_lossless {rf wf pa : Addr} {s : PipeSys}
    (h : Reach (PipeSys.Init rf wf pa) (PipeSys.Step rf wf pa) s) :
    (∀ P, s.files.pipes pa = some P →
      P.count ≤ pipeBufSize ∧ P.wpos = (P.rpos + P.count) % pipeBufSize ∧
      s.delivered.map Prod.snd ++ ringList pipeBufSize P.buf P.rpos P.count =
        s.accepted.map Prod.snd) ∧
    (∀ id v, (id, v) ∈ s.returned → v = s.moved id) ∧
    (∀ c ∈ s.calls, ∃ P, s.files.pipes pa = some P ∧
      ∀ count, c.kind = .read count → (pipeReadTurn P count).2.2 = some 0 →
        P.count = 0 ∧ P.writers = 0 ∧ s.files.filps wf = none ∧
        s.delivered.map Prod.snd = s.accepted.map Prod.snd) := by
  have hinv : rf ≠ wf ∧ PipeSys.Inv rf wf pa s :=
    Reach.invariant (P := fun s ↦ rf ≠ wf ∧ PipeSys.Inv rf wf pa s)
      (fun s hs ↦ ⟨hs.ne, hs.inv⟩) (fun s op s' hs hstep ↦ ⟨hs.1, hs.2.step hs.1 hstep⟩) h
  obtain ⟨-, hinv⟩ := hinv
  refine ⟨fun P hP ↦ ?_, fun id v hv ↦ (hinv.ret _ hv).2.2, fun c hc ↦ ?_⟩
  · have hring := hinv.ring P hP
    exact ⟨hring.cursors.count_le, hring.cursors.wpos_eq, hring.fifo⟩
  · obtain ⟨P, hP⟩ := hinv.pipe_of_call hc
    refine ⟨P, hP, fun count hk hret ↦ ?_⟩
    have hring := hinv.ring P hP
    have hok := (hinv.call c hc).2
    rw [hk] at hok
    obtain ⟨-, -, -, -, -, -, hzero⟩ := pipeReadTurn_spec hring.cursors hok.2.1 hok.2.2.1 rfl
    obtain ⟨hcount, hwriters⟩ := hzero hret
    refine ⟨hcount, hwriters, PipeSys.openEnds_eq_zero.mp (hring.writers ▸ hwriters), ?_⟩
    have hnil : P.contents = [] := List.length_eq_zero_iff.mp (by simpa using hcount)
    have := hring.fifo
    rwa [hnil, List.append_nil] at this

/-- A pipe with its ends at `1` and `2`, as `sys_pipe` makes it. -/
def PipeSys.sample : PipeSys where
  files :=
    { filps := fun f ↦
        if f = 1 then some { Filp.fresh with type := .pipe, pipe := some 3, pipeEnd := 0 }
        else if f = 2 then some { Filp.fresh with type := .pipe, pipe := some 3, pipeEnd := 1 }
        else none
      pipes := fun p ↦ if p = 3 then some Pipe.fresh else none }
  calls := []
  nextId := 0
  accepted := []
  delivered := []
  returned := []

/-- Two bytes are written and one of them is read back. -/
theorem pipe_lossless_two_bytes : ∃ s : PipeSys, Reach (PipeSys.Init 1 2 3) (PipeSys.Step 1 2 3) s ∧
    s.returned = [(0, 2), (1, 1)] ∧ s.delivered = [(1, 7)] ∧
    ∀ P, s.files.pipes 3 = some P →
      s.delivered.map Prod.snd ++ ringList pipeBufSize P.buf P.rpos P.count =
        s.accepted.map Prod.snd := by
  have h₀ : Reach (PipeSys.Init 1 2 3) (PipeSys.Step 1 2 3) PipeSys.sample :=
    .init ⟨by decide, rfl, rfl, rfl, rfl, rfl, rfl, rfl⟩
  have h₁ := h₀.step (.write (.inr rfl) ⟨rfl, by decide⟩ rfl (by decide) (by decide) :
    PipeSys.Step 1 2 3 _ (.write 2 [7, 8]) _)
  have hcalls : [(⟨0, 2, .write [7, 8] 0⟩ : Call)] = [] ++ ⟨0, 2, .write [7, 8] 0⟩ :: [] := rfl
  have h₂ := h₁.step (.writeTurn hcalls rfl rfl)
  have h₃ := h₂.step (.read (.inl rfl) ⟨rfl, by decide⟩ rfl (by decide) (by decide) :
    PipeSys.Step 1 2 3 _ (.read 1 1) _)
  have hcalls' : [(⟨1, 1, .read 1⟩ : Call)] = [] ++ ⟨1, 1, .read 1⟩ :: [] := rfl
  have h₄ := h₃.step (.readTurn hcalls' rfl rfl)
  exact ⟨_, h₄, by decide, by decide, fun P hP ↦ ((pipe_lossless h₄).1 P hP).2.2⟩

end FentoOS.Kernel
