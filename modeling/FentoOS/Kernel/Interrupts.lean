import FentoOS.Kernel.Core
import FentoOS.Lib.Run

/-!
# The timer interrupt and its acknowledgement

The interrupt controller keeps an in-service bit for the timer.  Delivering the
interrupt sets it, `hal_irq_eoi` clears it, and as long as it is set neither the
timer nor the keyboard gets through.  `irq_dispatch` acknowledges after the
handler has returned, and the handler of the timer is `sched_tick`, which may
switch to another task.  The acknowledgement is then still to come, on the stack
of the task that was switched out, and what happens next depends on how the
successor lost the processor: inside its own `irq_dispatch`, which goes on with
`hal_irq_eoi`, inside a system call, or not yet at all, as a child that starts in
`proc_fork_return`.  Only the first acknowledges.
-/

namespace FentoOS.Kernel

open FentoOS.Lib FentoOS.Fs FentoOS.Mm Function

/-- Where a task was when it lost the processor. -/
inductive Left
  /-- In `sched_tick`: `irq_dispatch` goes on with `hal_irq_eoi`. -/
  | irqDispatch
  /-- In `sched_yield`, `sched_block` or `sched_exit`. -/
  | syscall
  /-- In front of its first instruction. -/
  | entry
deriving DecidableEq

/-- The machine with the timer's in-service bit, and where each task was left. -/
structure Cpu where
  machine : Machine
  inService : Bool
  left : Addr → Left

/-- The machine has moved on to `k`, and its current task is behind the call `here` of the
scheduler.  Whoever is current now goes on where it was left; behind `sched_tick` that is
`hal_irq_eoi`. -/
def Cpu.goOn (c : Cpu) (here : Left) (k : Machine) : Cpu :=
  let left := match c.machine.current with
    | none => c.left
    | some t => Function.update c.left t here
  let last := match k.current with
    | none => here
    | some t => left t
  { machine := k
    inService := if last = .irqDispatch then false else c.inService
    left := left }

/-- `irq_dispatch` for the timer, whose handler leaves the machine as `k`. -/
def Cpu.irqDispatch (c : Cpu) (k : Machine) : Cpu :=
  { c with inService := true }.goOn .irqDispatch k

/-- A forked child will start in `proc_fork_return`. -/
def Cpu.enter (c : Cpu) : Syscall → Cpu
  | .fork child => { c with left := Function.update c.left child .entry }
  | _ => c

/-- The steps of the machine.  The timer and the keyboard wait for the acknowledgement. -/
inductive Cpu.Step (c : Cpu) : Event → Cpu → Prop
  | call {s : Syscall} {k : Machine} :
      Kernel.Step c.machine (.call s) k → Step c (.call s) ((c.enter s).goOn .syscall k)
  | resume {k : Machine} :
      Kernel.Step c.machine .resume k → Step c .resume (c.goOn .syscall k)
  | tick {k : Machine} : c.inService = false → Kernel.Step c.machine .tick k →
      Step c .tick (c.irqDispatch k)
  | interrupt {k : Machine} : c.inService = false → Kernel.Step c.machine .interrupt k →
      Step c .interrupt { c with machine := k }

/-- The first task is about to run, and no interrupt is being served. -/
def Cpu.Boot (c : Cpu) : Prop :=
  Kernel.Boot c.machine ∧ c.inService = false ∧ ∀ t, c.left t = .entry

/-- The processor executes a task in user mode. -/
def Cpu.InUser (c : Cpu) : Prop :=
  ∃ t T, c.machine.current = some t ∧ t ≠ idle ∧ c.machine.tasks t = some T ∧ T.ctx = .user

/-- If it gets the processor, `t` acknowledges or does not run user code: it was left inside
`irq_dispatch`, it is the idle task, or it goes on inside `wait4`. -/
def Cpu.Onward (c : Cpu) (t : Addr) : Prop :=
  t = idle ∨ c.left t = .irqDispatch ∨
    ∃ T status, c.machine.tasks t = some T ∧ T.ctx = .wait4 status

/-- A timer interrupt at the end of a time slice switches to such a task only.  A task that
gets the processor that way inside `wait4` has children, none of them a zombie, so that it
blocks again, and its successor is such a task. -/
def Cpu.Prompt (c : Cpu) : Event → Prop
  | .tick => ∀ T, c.machine.currentTask = some T → T.timeSlice ≤ 1 →
      some (pickNext c.machine) ≠ c.machine.current → c.Onward (pickNext c.machine)
  | .resume => c.inService = true → ∀ t, c.machine.current = some t →
      (∃ i, i < maxTasks ∧ childAt c.machine t i = true) ∧
      (∀ i, i < maxTasks → zombieAt c.machine t i = false) ∧
      c.Onward (pickNext (c.machine.upd t fun T ↦ { T with state := .blocked }))
  | _ => True

/-! ## The successor -/

section

variable {k k' : Machine} {t : Addr}

/-- `pick_next` looks at the states of the tasks and at the links. -/
theorem pickFrom_congr
    (h : ∀ a, (k'.tasks a).map (fun T ↦ (T.state, T.next)) =
      (k.tasks a).map fun T ↦ (T.state, T.next)) (start : Addr) (fuel : Nat) (s : Addr) :
    pickFrom k' start fuel s = pickFrom k start fuel s := by
  induction fuel generalizing s with
  | zero => rfl
  | succ fuel ih =>
    have hs := h s
    rw [pickFrom, pickFrom]
    cases hT : k.tasks s with
    | none =>
      rw [hT, Option.map_none, Option.map_eq_none_iff] at hs
      rw [hs]
    | some T =>
      rw [hT, Option.map_some] at hs
      obtain ⟨T', hT', heq⟩ := Option.map_eq_some_iff.mp hs
      obtain ⟨hstate, hnext⟩ := Prod.mk.inj heq
      have hrun : T'.runnable = T.runnable := by rw [Task.runnable, Task.runnable, hstate]
      rw [hT']
      simp only [hrun, hnext]
      split
      · rfl
      · split
        · rfl
        · rw [ih]

theorem pickNext_congr
    (h : ∀ a, (k'.tasks a).map (fun T ↦ (T.state, T.next)) =
      (k.tasks a).map fun T ↦ (T.state, T.next)) (hcur : k'.current = k.current)
    (hlist : k'.taskList = k.taskList) (hpid : k'.nextPid = k.nextPid) :
    pickNext k' = pickNext k := by
  have hnext : ∀ a, (k'.tasks a).bind Task.next = (k.tasks a).bind Task.next := by
    intro a
    have ha := congrArg (fun o ↦ o.bind Prod.snd) (h a)
    simpa only [Option.bind_map] using! ha
  simp only [pickNext, hcur, hlist, hpid, hnext, pickFrom_congr h]

/-- A timer interrupt switches at the end of the time slice, to the task that `pick_next`
returns. -/
theorem schedTick_switch (h : (schedTick k).current ≠ k.current) :
    ∃ T, k.currentTask = some T ∧ T.timeSlice ≤ 1 ∧ some (pickNext k) ≠ k.current ∧
      (schedTick k).current = some (pickNext k) := by
  rw [schedTick] at h ⊢
  split at h
  · exact absurd rfl h
  case isFalse hstarted =>
  rw [if_neg hstarted]
  split at h
  · exact absurd rfl h
  case h_2 T hT =>
  obtain ⟨t, hcur, hTt⟩ := Option.bind_eq_some_iff.mp hT
  set k₁ := k.updCurrent fun T ↦ { T with timeSlice := T.timeSlice - 1 } with hk₁
  have hinert : Inert k k₁ := .updCurrent k fun _ ↦ rfl
  have htasks : ∀ a, k₁.tasks a =
      if a = t then (k.tasks t).map fun T ↦ { T with timeSlice := T.timeSlice - 1 }
      else k.tasks a := by
    intro a
    rw [hk₁, Machine.updCurrent, hcur]
    exact upd_tasks ..
  have hpick : pickNext k₁ = pickNext k := by
    refine pickNext_congr (fun a ↦ ?_) hinert.current hinert.taskList hinert.nextPid
    rw [htasks]
    split
    case isTrue hat =>
      rw [hat, hTt]
      rfl
    case isFalse => rfl
  have hT₁ : k₁.currentTask = some { T with timeSlice := T.timeSlice - 1 } := by
    rw [Machine.currentTask, hinert.current, hcur, Option.bind_some, htasks, if_pos rfl, hTt]
    rfl
  simp only [hT₁, Option.map_some, Option.getD_some, hpick] at h ⊢
  split at h
  case isFalse => exact absurd hinert.current h
  case isTrue hzero =>
    rw [if_pos hzero]
    split at h
    case isFalse =>
      refine absurd ?_ h
      exact (Inert.updCurrent k₁ (f := fun T ↦ { T with timeSlice := quantum })
        fun _ ↦ rfl).current.trans hinert.current
    case isTrue hne =>
      rw [if_pos hne]
      exact ⟨T, hT, by omega, hinert.current ▸ hne, switchTo_current _ _⟩

/-- A task that is inside `wait4` stays there. -/
def Task.Lingers (T T' : Task) : Prop :=
  ∀ status, T.ctx = .wait4 status → ∃ status', T'.ctx = .wait4 status'

theorem Task.Lingers.of_eq {T T' : Task} (h : T'.ctx = T.ctx) : T.Lingers T' :=
  fun status hT ↦ ⟨status, h.trans hT⟩

theorem Task.Lingers.trans {T T' T'' : Task} (h : T.Lingers T') (h' : T'.Lingers T'') :
    T.Lingers T'' := by
  intro status hT
  obtain ⟨status', hT'⟩ := h status hT
  exact h' status' hT'

theorem lingers_switchTo (k : Machine) (next : Addr) :
    Evolves Task.Lingers k (switchTo k next) := by
  have hupd : Evolves Task.Lingers k
      (k.upd next fun T ↦ { T with state := .running, timeSlice := quantum }) :=
    .upd (fun _ ↦ .of_eq rfl) fun _ _ ↦ .of_eq rfl
  exact hupd.trans .trans (.of_tasks (fun _ ↦ .of_eq rfl) (switchTo_tasks k next))

theorem lingers_preempt (k : Machine) : Evolves Task.Lingers k (preempt k) := by
  rw [preempt, Machine.updCurrent]
  split
  · exact .of_tasks (fun _ ↦ .of_eq rfl) rfl
  · refine .upd (fun _ ↦ .of_eq rfl) fun T _ ↦ ?_
    split <;> exact .of_eq rfl

theorem lingers_schedTick (k : Machine) : Evolves Task.Lingers k (schedTick k) := by
  obtain ⟨k₁, -, hcounts, h⟩ := schedTick_cases k
  have hk₁ : Evolves Task.Lingers k k₁ := by
    refine hcounts.mono fun T T' hT ↦ ?_
    obtain ⟨n, rfl⟩ := hT
    exact .of_eq rfl
  rcases h with heq | ⟨-, heq⟩
  · rwa [heq]
  · rw [heq]
    exact hk₁.trans .trans ((lingers_preempt k₁).trans .trans (lingers_switchTo _ _))

theorem childAt_iff_core {p : Addr} {i : Nat} : childAt k p i = true ↔
    ∃ c d, k.slots i = some c ∧ k.core c = some d ∧ d.parent = some p := by
  rw [childAt_iff]
  constructor
  · rintro ⟨c, C, hc, hC, hp⟩
    exact ⟨c, C.core, hc, by rw [Machine.core, hC, Option.map_some], hp⟩
  · rintro ⟨c, d, hc, hd, hp⟩
    obtain ⟨C, hC, rfl⟩ := Option.map_eq_some_iff.mp hd
    exact ⟨c, C, hc, hC, hp⟩

theorem zombieAt_iff_core {p : Addr} {i : Nat} : zombieAt k p i = true ↔
    ∃ c d, k.slots i = some c ∧ k.core c = some d ∧ d.parent = some p ∧ d.state = .zombie := by
  rw [zombieAt_iff]
  constructor
  · rintro ⟨c, C, hc, hC, hp⟩
    exact ⟨c, C.core, hc, by rw [Machine.core, hC, Option.map_some], hp⟩
  · rintro ⟨c, d, hc, hd, hp⟩
    obtain ⟨C, hC, rfl⟩ := Option.map_eq_some_iff.mp hd
    exact ⟨c, C, hc, hC, hp⟩

theorem Inert.childAt (h : Inert k k') (p : Addr) (i : Nat) : childAt k' p i = childAt k p i := by
  rw [Bool.eq_iff_iff, childAt_iff_core, childAt_iff_core, h.slots, h.core]

theorem Inert.zombieAt (h : Inert k k') (p : Addr) (i : Nat) :
    zombieAt k' p i = zombieAt k p i := by
  rw [Bool.eq_iff_iff, zombieAt_iff_core, zombieAt_iff_core, h.slots, h.core]

/-- The next round of a `wait4` with children, none of them a zombie: the task blocks again. -/
theorem resumeWait4_blocks (status : Nat) (hcur : k.current = some t)
    (hchild : ∃ i, i < maxTasks ∧ childAt k t i = true)
    (hzombie : ∀ i, i < maxTasks → zombieAt k t i = false) :
    Evolves Task.Lingers k (resumeWait4 k status) ∧
      (∀ T, (resumeWait4 k status).tasks t = some T → ∃ status', T.ctx = .wait4 status') ∧
      ((resumeWait4 k status).current = some t ∨
        pickNext (k.upd t fun T ↦ { T with state := .blocked }) ≠ t ∧
        (resumeWait4 k status).current =
          some (pickNext (k.upd t fun T ↦ { T with state := .blocked }))) := by
  set k₀ := k.updCurrent fun T ↦ { T with ctx := .user } with hk₀
  have hinert : Inert k k₀ := .updCurrent k fun _ ↦ rfl
  have hcur₀ : k₀.current = some t := hinert.current.trans hcur
  set k₁ := (k₀.upd t fun T ↦ { T with waiting := true }).updCurrent fun T ↦
    { T with state := .blocked, ctx := .wait4 status } with hk₁
  have hk₁t : k₁ = (k₀.upd t fun T ↦ { T with waiting := true }).upd t fun T ↦
      { T with state := .blocked, ctx := .wait4 status } := by
    rw [hk₁, Machine.updCurrent, upd_current, hcur₀]
  have hframe : Frame k k₁ := by
    rw [hk₁t]
    exact (hinert.toFrame.trans (.upd ..)).trans (.upd ..)
  have htasks : k₁.tasks = (k.upd t fun T ↦
      { T with waiting := true, state := .blocked, ctx := .wait4 status }).tasks := by
    funext a
    rw [hk₁t, upd_tasks, upd_tasks, upd_tasks, upd_tasks, if_pos rfl, hk₀, Machine.updCurrent,
      hcur, upd_tasks, upd_tasks, if_pos rfl, Option.map_map, Option.map_map]
    split <;> rfl
  have hpick : pickNext k₁ = pickNext (k.upd t fun T ↦ { T with state := .blocked }) := by
    refine pickNext_congr (fun a ↦ ?_) hframe.current hframe.taskList hframe.nextPid
    rw [htasks, upd_tasks, upd_tasks]
    split
    · rw [Option.map_map, Option.map_map]
      rfl
    · rfl
  have hblock : resumeWait4 k status =
      if some (pickNext k₁) ≠ k₁.current then switchTo k₁ (pickNext k₁) else k₁ := by
    obtain ⟨i, c, C, hi, hc, hC, hp, hs, -⟩ | ⟨hnone, -⟩ | ⟨-, -, heq⟩ :=
      wait4Round_cases hcur₀ status
    · have hz : zombieAt k₀ t i = true := zombieAt_iff.mpr ⟨c, C, hc, hC, hp, hs⟩
      rw [hinert.zombieAt, hzombie i hi] at hz
      cases hz
    · obtain ⟨i, hi, hc⟩ := hchild
      rw [← hinert.childAt, hnone i hi] at hc
      cases hc
    · rw [resumeWait4, heq, schedBlock]
  have hlinger : Evolves Task.Lingers k k₁ :=
    Evolves.trans .trans (.upd (fun _ ↦ .of_eq rfl) fun _ _ _ _ ↦ ⟨status, rfl⟩)
      (.of_tasks (fun _ ↦ .of_eq rfl) htasks)
  have hself : ∀ T, k₁.tasks t = some T → ∃ status', T.ctx = .wait4 status' := by
    intro T hT
    rw [htasks, upd_tasks, if_pos rfl] at hT
    obtain ⟨T₀, -, rfl⟩ := Option.map_eq_some_iff.mp hT
    exact ⟨status, rfl⟩
  rw [hblock]
  split
  case isTrue hne =>
    refine ⟨hlinger.trans .trans (lingers_switchTo _ _), fun T hT ↦ ?_, ?_⟩
    · obtain ⟨T₁, hT₁, hl⟩ := (lingers_switchTo k₁ (pickNext k₁)).of_eq_some hT
      obtain ⟨status', hctx⟩ := hself T₁ hT₁
      exact hl status' hctx
    · rw [hframe.current, hcur, hpick] at hne
      rw [switchTo_current, hpick]
      exact .inr ⟨fun heq ↦ hne (congrArg some heq), rfl⟩
  case isFalse => exact ⟨hlinger, hself, .inl (hframe.current.trans hcur)⟩

/-! ## Runs -/

variable {c c' : Cpu} {e : Event}

/-- Going on never sets the bit. -/
theorem Cpu.inService_of_goOn {here : Left} (h : (c.goOn here k).inService = true) :
    c.inService = true := by
  cases hb : c.inService with
  | true => rfl
  | false => simp [Cpu.goOn, hb] at h

theorem Cpu.left_of_goOn {here : Left} (h : (c.goOn here k).inService = true)
    (hcur : c.machine.current = some t) {s : Addr} (hs : k.current = some s) :
    update c.left t here s ≠ .irqDispatch := by
  rw [Cpu.goOn] at h
  simp only [hcur, hs] at h
  split at h
  · cases h
  case isFalse hleft => exact hleft

theorem Cpu.enter_inService (c : Cpu) (s : Syscall) : (c.enter s).inService = c.inService := by
  cases s <;> rfl

/-- A task that gets the processor without an acknowledgement does not run user code. -/
theorem Cpu.Onward.not_inUser {s : Addr} (h : c.Onward s) (hs : k.current = some s)
    (hleft : c.left s ≠ .irqDispatch) (hl : Evolves Task.Lingers c.machine k)
    (hm : c'.machine = k) : ¬c'.InUser := by
  rintro ⟨s', T', hs', hidle, hT', hctx⟩
  rw [hm] at hs' hT'
  obtain rfl := Option.some.inj (hs.symm.trans hs')
  rcases h with hi | hirq | ⟨T, status, hT, hwait⟩
  · exact hidle hi
  · exact hleft hirq
  · obtain ⟨T₂, hT₂, hlinger⟩ := hl.eq_some hT
    obtain rfl := Option.some.inj (hT₂.symm.trans hT')
    obtain ⟨status', hwait'⟩ := hlinger status hwait
    rw [hctx] at hwait'
    cases hwait'

theorem Cpu.inService_step (h : c.inService = true → ¬c.InUser) (hprompt : c.Prompt e)
    (hstep : c.Step e c') : c'.inService = true → ¬c'.InUser := by
  intro hbit
  cases hstep with
  | @call s k hs =>
    cases hs with
    | @call t T _ hcur hti hT hctx _ =>
      -- the caller was in user mode, so the bit was clear
      have hset : c.inService = true :=
        (c.enter_inService s).symm.trans (Cpu.inService_of_goOn hbit)
      exact absurd ⟨t, T, hcur, hti, hT, hctx⟩ (h hset)
  | @resume k hs =>
    cases hs with
    | @resume t T status hcur hti hT hctx =>
      obtain ⟨hchild, hzombie, honward⟩ := hprompt (Cpu.inService_of_goOn hbit) t hcur
      obtain ⟨hlinger, hself, hnext | ⟨hne, hnext⟩⟩ :=
        resumeWait4_blocks status hcur hchild hzombie
      · rintro ⟨s, S, hs, -, hS, huser⟩
        obtain rfl := Option.some.inj (hnext.symm.trans hs)
        obtain ⟨status', hwait⟩ := hself S hS
        rw [huser] at hwait
        cases hwait
      · have hleft := Cpu.left_of_goOn hbit hcur hnext
        rw [update_of_ne hne] at hleft
        exact honward.not_inUser hnext hleft hlinger rfl
  | @tick k hclear hs =>
    cases hs with
    | @tick T hT hctx =>
      obtain ⟨t, hcur, hTt⟩ := Option.bind_eq_some_iff.mp hT
      by_cases hsame : (schedTick c.machine).current = c.machine.current
      · have hleft := Cpu.left_of_goOn hbit hcur (hsame.trans hcur)
        exact absurd (update_self ..) hleft
      · obtain ⟨T, hT, hslice, hne, hnext⟩ := schedTick_switch hsame
        have hleft := Cpu.left_of_goOn hbit hcur hnext
        have hne' : pickNext c.machine ≠ t := fun heq ↦ hne (heq ▸ hcur.symm)
        rw [update_of_ne hne'] at hleft
        exact (hprompt T hT hslice hne).not_inUser hnext hleft (lingers_schedTick _) rfl
  | @interrupt k hclear hs =>
    rw [show c.inService = true from hbit] at hclear
    cases hclear

end

/-- **Acknowledged before user code runs.**  In every run in which timer interrupts only
switch to tasks that were left inside `irq_dispatch` (or to the idle task, or to a `wait4`
that blocks again), the in-service bit is clear whenever the processor executes a task in
user mode. -/
theorem acknowledged_in_user {c : Cpu} (h : Reach Cpu.Boot (Under Cpu.Prompt Cpu.Step) c)
    (huser : c.InUser) : c.inService = false := by
  have hinv : c.inService = true → ¬c.InUser :=
    h.invariant (P := fun c ↦ c.inService = true → ¬c.InUser)
      (fun c hb hbit ↦ absurd (hb.2.1.symm.trans hbit) Bool.false_ne_true)
      fun _ _ _ hinv hs ↦ Cpu.inService_step hinv hs.1 hs.2
  exact Bool.eq_false_of_not_eq_true fun hbit ↦ hinv hbit huser

/-- The small machine with its interrupt controller, when its first task has forked a
child. -/
def sampleFork : Cpu :=
  (Cpu.enter ⟨sampleBoot, false, fun _ ↦ .entry⟩ (.fork 3)).goOn .syscall (forkBlank sampleBoot 3)

theorem step_sampleFork :
    Cpu.Step ⟨sampleBoot, false, fun _ ↦ .entry⟩ (.call (.fork 3)) sampleFork :=
  .call (step_forkBlank (t := 1) 3 rfl (by decide) rfl (by decide) rfl rfl (by decide) rfl)

/-- The first task has yielded to its child. -/
def sampleYield : Cpu := sampleFork.goOn .syscall (schedYield sampleFork.machine)

/-- A timer interrupt has reached the child. -/
def sampleChild : Cpu := sampleYield.irqDispatch (schedTick sampleYield.machine)

theorem acknowledged_in_user_child : sampleChild.machine.current = some 3 ∧ sampleChild.InUser ∧
    sampleChild.inService = false := by
  have hyield : sampleFork.Step (.call .yield) sampleYield :=
    .call (step_yield (t := 1) rfl (by decide) rfl rfl)
  have htick : sampleYield.Step .tick sampleChild := .tick rfl (.tick rfl rfl)
  have hreach₂ : Reach Cpu.Boot (Under Cpu.Prompt Cpu.Step) sampleYield :=
    .step (a := .call .yield) (.step (a := .call (.fork 3))
      (.init ⟨boot_sampleBoot, rfl, fun _ ↦ rfl⟩) ⟨trivial, step_sampleFork⟩) ⟨trivial, hyield⟩
  have hreach : Reach Cpu.Boot (Under Cpu.Prompt Cpu.Step) sampleChild := by
    refine .step hreach₂ ⟨?_, htick⟩
    intro T hT hslice
    obtain rfl := Option.some.inj hT
    exact absurd hslice (by decide)
  have huser : sampleChild.InUser := ⟨3, _, rfl, by decide, rfl, rfl⟩
  exact ⟨rfl, huser, acknowledged_in_user hreach huser⟩

/-- The first task forks a child, and `n` timer interrupts are delivered. -/
def sampleTicks : Nat → Cpu
  | 0 => sampleFork
  | n + 1 => (sampleTicks n).irqDispatch (schedTick (sampleTicks n).machine)

/-- The fifth interrupt ends the time slice of the first task and starts the child, in user
mode and with the interrupt still in service. -/
theorem child_starts_unacknowledged :
    Reach Cpu.Boot Cpu.Step (sampleTicks 5) ∧ (sampleTicks 5).machine.current = some 3 ∧
      (sampleTicks 5).InUser ∧ (sampleTicks 5).inService = true := by
  have htick : ∀ n, n < 5 → (sampleTicks n).Step .tick (sampleTicks (n + 1)) := by
    intro n hn
    interval_cases n <;> exact .tick rfl (.tick rfl rfl)
  have hreach : ∀ n, n ≤ 5 → Reach Cpu.Boot Cpu.Step (sampleTicks n) := by
    intro n hn
    induction n with
    | zero => exact .step (.init ⟨boot_sampleBoot, rfl, fun _ ↦ rfl⟩) step_sampleFork
    | succ n ih => exact .step (ih (by omega)) (htick n (by omega))
  exact ⟨hreach 5 (le_refl _), rfl, ⟨3, _, rfl, by decide, rfl, rfl⟩, rfl⟩

end FentoOS.Kernel
