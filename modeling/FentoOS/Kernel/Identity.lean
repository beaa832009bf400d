import FentoOS.Kernel.Core

/-!
# What a task keeps

Between its fork and its exit a task keeps its pid, its parent and its saved
context, and whether it is a zombie.  `Task.Stays` collects these; most functions
of the scheduler change tasks by it, because they only move the processor, wake a
parent or link the ring.  Who gets the processor is never a zombie: `pick_next`
returns a task that is ready or running, or the idle task.
-/

namespace FentoOS.Kernel

open FentoOS.Lib FentoOS.Fs FentoOS.Mm

/-- The task keeps its pid, its parent, its exit code and its context, and it is a zombie
if it was one. -/
structure Task.Stays (T T' : Task) : Prop where
  pid : T'.pid = T.pid
  ppid : T'.ppid = T.ppid
  parent : T'.parent = T.parent
  exitCode : T'.exitCode = T.exitCode
  ctx : T'.ctx = T.ctx
  zombie : T'.state = .zombie ↔ T.state = .zombie

theorem Task.Stays.refl (T : Task) : T.Stays T := ⟨rfl, rfl, rfl, rfl, rfl, .rfl⟩

variable {T T' : Task}

theorem Task.Stays.trans {T'' : Task} (h : T.Stays T') (h' : T'.Stays T'') : T.Stays T'' :=
  ⟨h'.pid.trans h.pid, h'.ppid.trans h.ppid, h'.parent.trans h.parent,
    h'.exitCode.trans h.exitCode, h'.ctx.trans h.ctx, h'.zombie.trans h.zombie⟩

theorem Task.Mild.stays (h : T.Mild T') : T.Stays T' := by
  obtain ⟨_, _, _, rfl⟩ := h
  exact ⟨rfl, rfl, rfl, rfl, rfl, .rfl⟩

/-- The tasks stay what they are. -/
def Stay (k k' : Machine) : Prop := Evolves Task.Stays k k'

variable {k k' : Machine}

theorem Stay.of_tasks (h : k'.tasks = k.tasks) : Stay k k' :=
  Evolves.of_tasks .refl h

theorem Stay.refl (k : Machine) : Stay k k := .of_tasks rfl

theorem Stay.trans {k'' : Machine} (h : Stay k k') (h' : Stay k' k'') : Stay k k'' :=
  Evolves.trans .trans h h'

theorem Stay.eq_some (h : Stay k k') {a : Addr} (hT : k.tasks a = some T) :
    ∃ T', k'.tasks a = some T' ∧ T.Stays T' :=
  Evolves.eq_some h hT

theorem Stay.of_eq_some (h : Stay k k') {a : Addr} (hT' : k'.tasks a = some T') :
    ∃ T, k.tasks a = some T ∧ T.Stays T' :=
  Evolves.of_eq_some h hT'

theorem Mild.stay (h : Mild k k') : Stay k k' :=
  h.tasks.mono fun _ _ ↦ Task.Mild.stays

variable {t : Addr}

theorem Stay.upd {f : Task → Task} (hf : ∀ T, k.tasks t = some T → T.Stays (f T)) :
    Stay k (k.upd t f) :=
  Evolves.upd .refl hf

theorem Stay.updCurrent {f : Task → Task} (hf : ∀ T : Task, T.Stays (f T)) :
    Stay k (k.updCurrent f) := by
  rw [Machine.updCurrent]
  split
  · exact .refl k
  · exact .upd fun T _ ↦ hf T

/-! ## Who gets the processor -/

/-- A task that is not a zombie, if it is in memory. -/
def NoZombie (k : Machine) (t : Addr) : Prop := ∀ T, k.tasks t = some T → T.state ≠ .zombie

theorem Stay.noZombie (h : Stay k k') (ht : NoZombie k t) : NoZombie k' t := by
  intro T' hT' hz
  obtain ⟨T, hT, hs⟩ := h.of_eq_some hT'
  exact ht T hT (hs.zombie.mp hz)

theorem noZombie_pickFrom (hidle : NoZombie k idle) (start : Addr) (fuel : Nat) (t : Addr) :
    NoZombie k (pickFrom k start fuel t) := by
  induction fuel generalizing t with
  | zero => exact hidle
  | succ fuel ih =>
    rw [pickFrom]
    split
    · exact hidle
    case h_2 T hT =>
      split
      case isTrue hr =>
        intro T₀ hT₀ hz
        obtain rfl := Option.some.inj (hT.symm.trans hT₀)
        simp [Task.runnable, hz] at hr
      case isFalse =>
        split
        · exact hidle
        · split
          · exact hidle
          · exact ih _

theorem noZombie_pickNext (hidle : NoZombie k idle) : NoZombie k (pickNext k) := by
  rw [pickNext]
  split
  · exact hidle
  · exact noZombie_pickFrom hidle _ _ _

/-- `pick_next` does not come back to a task that is blocked. -/
theorem pickFrom_ne_blocked (hidle : t ≠ idle) (hT : k.tasks t = some T) (hs : T.state = .blocked)
    (start : Addr) (fuel : Nat) (s : Addr) : pickFrom k start fuel s ≠ t := by
  induction fuel generalizing s with
  | zero => exact hidle.symm
  | succ fuel ih =>
    rw [pickFrom]
    split
    · exact hidle.symm
    case h_2 S hS =>
      split
      case isTrue hr =>
        rintro rfl
        obtain rfl := Option.some.inj (hT.symm.trans hS)
        simp [Task.runnable, hs] at hr
      case isFalse =>
        split
        · exact hidle.symm
        · split
          · exact hidle.symm
          · exact ih _

theorem pickNext_ne_blocked (hidle : t ≠ idle) (hT : k.tasks t = some T) (hs : T.state = .blocked) :
    pickNext k ≠ t := by
  rw [pickNext]
  split
  · exact hidle.symm
  · exact pickFrom_ne_blocked hidle hT hs _ _ _

/-! ## The scheduler -/

theorem stay_switchTo {next : Addr} (h : NoZombie k next) : Stay k (switchTo k next) := by
  have hupd : Stay k (k.upd next fun T ↦ { T with state := .running, timeSlice := quantum }) :=
    .upd fun T hT ↦ ⟨rfl, rfl, rfl, rfl, rfl, by simpa using h T hT⟩
  refine hupd.trans (.of_tasks ?_)
  rw [switchTo_tasks]

theorem stay_preempt (k : Machine) : Stay k (preempt k) := by
  refine .updCurrent fun T ↦ ?_
  split
  case isTrue hr => exact ⟨rfl, rfl, rfl, rfl, rfl, by simp [hr]⟩
  case isFalse => exact .refl T

theorem stay_schedYield (hidle : NoZombie k idle) : Stay k (schedYield k) := by
  obtain heq | ⟨-, heq⟩ := schedYield_cases k
  · rw [heq]
    exact .refl k
  · rw [heq]
    have hp := stay_preempt k
    exact hp.trans (stay_switchTo (hp.noZombie (noZombie_pickNext hidle)))

theorem stay_counts (h : Evolves Task.Counts k k') : Stay k k' := by
  refine h.mono fun T T' hT ↦ ?_
  obtain ⟨n, rfl⟩ := hT
  exact ⟨rfl, rfl, rfl, rfl, rfl, .rfl⟩

theorem stay_schedTick (hidle : NoZombie k idle) : Stay k (schedTick k) := by
  obtain ⟨k₁, -, hcounts, heq | ⟨-, heq⟩⟩ := schedTick_cases k
  · rw [heq]
    exact stay_counts hcounts
  · rw [heq]
    have hk₁ := stay_counts hcounts
    have hp := stay_preempt k₁
    exact hk₁.trans (hp.trans (stay_switchTo (hp.noZombie
      (noZombie_pickNext (hk₁.noZombie hidle)))))

theorem stay_schedWakeupParent (k : Machine) (t : Addr) : Stay k (schedWakeupParent k t) := by
  rw [schedWakeupParent]
  split
  · exact .refl k
  · refine .upd fun P _ ↦ ?_
    split
    case isTrue hb =>
      have hs : P.state = .blocked := by
        rw [Task.awaits, decide_eq_true_eq] at hb
        exact hb.1
      exact ⟨rfl, rfl, rfl, rfl, rfl, by simp [hs]⟩
    case isFalse => exact .refl P

theorem stay_next (k : Machine) (t : Addr) (next : Option Addr) :
    Stay k (k.upd t fun T ↦ { T with next := next }) :=
  .upd fun _ _ ↦ ⟨rfl, rfl, rfl, rfl, rfl, .rfl⟩

theorem stay_schedAdd (k : Machine) (t : Addr) : Stay k (schedAdd k t) := by
  rw [schedAdd]
  split
  · exact stay_next { k with taskList := some t } t (some t)
  · exact (stay_next _ _ _).trans (stay_next _ _ _)

theorem stay_ringRemove (k : Machine) (t : Addr) : Stay k (ringRemove k t) := by
  rw [ringRemove]
  split
  · exact .refl k
  · split
    · exact .refl k
    case h_2 p _ =>
      simp only
      split
      · exact stay_next k p _
      · exact stay_next k p _

/-- Reaping a task leaves the others alone. -/
theorem schedReap_tasks (k : Machine) (t a : Addr) :
    (schedReap k t).tasks a = if a = t then none else (ringRemove k t).tasks a :=
  Function.update_apply ..

/-- A fork adds one task, and leaves the others what they are. -/
theorem sysFork_tasks {P : Task} (hcur : k.current = some t) (hP : k.tasks t = some P)
    (child : Addr) :
    ∃ k₂, Stay k₂ (sysFork k child).2 ∧ (sysFork k child).2.slots = (schedAlloc k child).slots ∧
      (sysFork k child).2.current = k.current ∧
      ∃ C, k₂.tasks = Function.update k.tasks child (some C) ∧
        C.pid = wrap32 k.nextPid ∧ C.ppid = P.pid ∧ C.parent = some t ∧ C.ctx = .user ∧
        C.state = .ready := by
  have htasks : (forkSpace k t P child).tasks = Function.update k.tasks child
      (some { inherit P (Task.fresh (wrap32 k.nextPid) k.mem.kernelDir) t with
        addrspace := (halAddrspaceClone k.mem P.addrspace).1 }) := by
    funext a
    by_cases hac : a = child
    · simp [forkSpace, upd_tasks, schedAlloc, hac]
    · simp [forkSpace, upd_tasks, schedAlloc, hac]
  refine ⟨_, ?_, ?_, ?_, _, htasks, rfl, rfl, rfl, rfl, rfl⟩ <;> rw [sysFork_eq hcur hP] <;> split
  · exact .refl _
  · exact (mild_shareFds _ t child 0 maxFiles).stay.trans (stay_schedAdd _ _)
  · rfl
  · rw [slots_schedAdd, (mild_shareFds _ t child 0 maxFiles).slots]
    rfl
  · rfl
  · rw [schedAdd_current, (mild_shareFds _ t child 0 maxFiles).current]
    rfl

end FentoOS.Kernel
