import FentoOS.Kernel.Parents
import FentoOS.Kernel.RunList

/-!
# No lost wake-up

A task blocks in `wait4` when it has a child and no child has exited, and only
an exit of a child wakes it.  It is not forgotten, because at every moment it
has a child that will still exit: `Waits` says that every blocked task is marked
as waiting and has a child that is not a zombie.

A chain of blocked tasks, each waiting for the next, ends: children are younger
than their parents, which `Waits.descent` keeps as a rank.  The youngest task
that has not exited is therefore not blocked, so `pick_next` always finds a
task, unless all have exited.
-/

namespace FentoOS.Kernel

open FentoOS.Lib FentoOS.Fs FentoOS.Mm Function

/-! ## Who waits for whom -/

/-- Every blocked task waits, and for a child that has not exited; and children are younger
than their parents. -/
structure Waits (k : Machine) : Prop where
  blocked : ∀ {t c}, k.core t = some c → c.state = .blocked → c.waiting = true ∧
    ∃ s d, k.core s = some d ∧ d.parent = some t ∧ d.state ≠ .zombie
  descent : ∃ rank : Addr → Nat, ∀ {t c p}, k.core t = some c → c.parent = some p →
    rank p < rank t

/-- The tasks in memory, apart from the idle task, are those of the ring. -/
structure Listed (k : Machine) (L : List Addr) : Prop where
  ring : Ring k L
  bound : L.length ≤ k.nextPid
  mem_iff : ∀ {t}, t ∈ L ↔ t ≠ idle ∧ k.core t ≠ none
  idleNext : nextOf k idle = none

/-- What holds also while the scheduler is deciding who is next. -/
structure Settled (k : Machine) (L : List Addr) : Prop where
  family : Family k
  waits : Waits k
  listed : Listed k L

/-- Every task of the ring has exited. -/
def AllZombies (k : Machine) (L : List Addr) : Prop :=
  ∀ t ∈ L, ∀ c, k.core t = some c → c.state = .zombie

/-- Nobody has the processor. -/
def NoneRunning (k : Machine) : Prop := ∀ t c, k.core t = some c → c.state ≠ .running

/-- Between two steps one task is running, or all have exited and the idle task has the
processor. -/
structure Scheduled (k : Machine) (L : List Addr) : Prop extends Settled k L where
  running : ∀ {t c}, k.core t = some c → c.state = .running → k.current = some t
  current : (∃ t c, k.current = some t ∧ t ∈ L ∧ k.core t = some c ∧ c.state = .running) ∨
    (k.current = some idle ∧ AllZombies k L)

variable {s t : Addr} {d c : Core}

section

variable {k k' : Machine} {L : List Addr}

/-- A child is in the ring. -/
theorem Settled.child_mem (h : Settled k L) {p : Addr} (hd : k.core s = some d)
    (hp : d.parent = some p) : s ∈ L := by
  refine h.listed.mem_iff.mpr ⟨?_, by rw [hd]; simp⟩
  rintro rfl
  rw [h.family.idleParent hd] at hp
  cases hp

/-- **Progress.**  The youngest task that has not exited can run. -/
theorem Settled.exists_runnable (h : Settled k L) (hs : s ∈ L) (hc : k.core s = some c)
    (hstate : c.state ≠ .zombie) : ∃ t ∈ L, Runnable k t := by
  obtain ⟨rank, hrank⟩ := h.waits.descent
  -- induction along the chain of children, which climbs in a finite set of ranks
  obtain ⟨n, hn⟩ : ∃ n, ∀ t ∈ L, rank t < n :=
    ⟨(L.map rank).sum + 1, fun t ht ↦
      Nat.lt_succ_of_le (List.single_le_sum (by simp) _ (List.mem_map_of_mem ht))⟩
  induction hm : n - rank s using Nat.strong_induction_on generalizing s c with
  | _ m ih =>
    cases hcs : c.state with
    | ready => exact ⟨s, hs, c, hc, .inl hcs⟩
    | running => exact ⟨s, hs, c, hc, .inr hcs⟩
    | zombie => exact absurd hcs hstate
    | blocked =>
      obtain ⟨-, s', d, hd, hp, hz⟩ := h.waits.blocked hc hcs
      have hs' := h.child_mem hd hp
      have hlt := hrank hd hp
      have hbound := hn s' hs'
      exact ih (n - rank s') (by omega) hs' hd hz rfl

theorem Settled.all_zombies (h : Settled k L) (hnone : ∀ t ∈ L, ¬Runnable k t) :
    AllZombies k L := by
  intro t ht c hc
  by_contra hz
  obtain ⟨s, hs, hr⟩ := h.exists_runnable ht hc hz
  exact hnone s hs hr

/-! ## Steps that leave the families alone -/

theorem Waits.calm (h : Waits k) (hcalm : Calm k k')
    (hblocked : ∀ {t c'}, k'.core t = some c' → c'.state = .blocked → c'.waiting = true ∧
      ∃ s d, k.core s = some d ∧ d.parent = some t ∧ d.state ≠ .zombie) : Waits k' := by
  constructor
  · intro t c' hc' hs'
    obtain ⟨hw, s, d, hd, hp, hz⟩ := hblocked hc' hs'
    obtain ⟨d', hd'⟩ := Option.ne_none_iff_exists'.mp (hcalm.stays (a := s) (by rw [hd]; simp))
    obtain ⟨d₀, hd₀, hp', hz'⟩ := hcalm.core hd'
    obtain rfl := Option.some.inj (hd.symm.trans hd₀)
    exact ⟨hw, s, d', hd', hp'.trans hp, fun hzd ↦ hz (hz' hzd)⟩
  · obtain ⟨rank, hrank⟩ := h.descent
    refine ⟨rank, fun hc' hp ↦ ?_⟩
    obtain ⟨c, hc, hpc, -⟩ := hcalm.core hc'
    exact hrank hc (hpc ▸ hp)

theorem Listed.congr (h : Listed k L) (hhead : k'.taskList = k.taskList)
    (hpid : k'.nextPid = k.nextPid)
    (hnext : ∀ a, (k'.core a).map Core.next = (k.core a).map Core.next) : Listed k' L := by
  have hnone : ∀ a, k'.core a = none ↔ k.core a = none := by
    intro a
    rw [← Option.map_eq_none_iff (f := Core.next), hnext, Option.map_eq_none_iff]
  refine ⟨h.ring.congr hhead fun x ↦ nextOf_congr (hnext x), hpid ▸ h.bound, fun {t} ↦ ?_, ?_⟩
  · rw [h.mem_iff, Ne, Ne, Ne, hnone]
  · rw [nextOf_congr (hnext idle), h.idleNext]

/-- One task changes, but not its place in the ring. -/
theorem Listed.of_core {g : Core → Core} (h : Listed k L) (hhead : k'.taskList = k.taskList)
    (hpid : k'.nextPid = k.nextPid)
    (hcore : ∀ a, k'.core a = if a = t then (k.core a).map g else k.core a)
    (hg : ∀ c, (g c).next = c.next) : Listed k' L := by
  refine h.congr hhead hpid fun a ↦ ?_
  rw [hcore]
  split
  · rw [Option.map_map]
    exact Option.map_congr fun c _ ↦ hg c
  · rfl

theorem Scheduled.inert (h : Scheduled k L) (hi : Inert k k') : Scheduled k' L := by
  have hcalm := Calm.of_inert hi
  have hcore := hi.core
  refine ⟨⟨h.family.calm hcalm, h.waits.calm hcalm fun hc hs ↦ ?_, ?_⟩, fun hc hs ↦ ?_, ?_⟩
  · exact h.waits.blocked (hcore ▸ hc) hs
  · exact h.listed.congr hi.taskList hi.nextPid fun a ↦ by rw [hcore]
  · rw [hi.current]
    exact h.running (hcore ▸ hc) hs
  · rw [hi.current]
    unfold AllZombies
    rw [hcore]
    exact h.current

/-! ## Switching -/

/-- The processor goes to a task that can run, or to the idle task when all have exited. -/
theorem Settled.switch (h : Settled k L) (hnone : NoneRunning k) {next : Addr}
    (hnext : (next ∈ L ∧ Runnable k next) ∨ (next = idle ∧ AllZombies k L)) :
    Scheduled (switchTo k next) L := by
  have hcore := core_switchTo k next
  have hother : ∀ {a c'}, (switchTo k next).core a = some c' → c'.state ≠ .running →
      a ≠ next ∧ k.core a = some c' := by
    intro a c' hc' hs
    rw [hcore] at hc'
    split at hc'
    · obtain ⟨c, -, rfl⟩ := Option.map_eq_some_iff.mp hc'
      exact absurd rfl hs
    case isFalse ha => exact ⟨ha, hc'⟩
  have hcalm := calm_switchTo k next
  refine ⟨⟨h.family.calm hcalm, h.waits.calm hcalm fun hc hs ↦ ?_, ?_⟩, fun {a c'} hc hs ↦ ?_, ?_⟩
  · exact h.waits.blocked (hother hc (by rw [hs]; exact TState.noConfusion)).2 hs
  · exact h.listed.of_core (switchTo_taskList k next) (switchTo_nextPid k next) hcore fun _ ↦ rfl
  · rw [switchTo_current]
    rw [hcore] at hc
    split at hc
    case isTrue ha => rw [ha]
    case isFalse => exact absurd hs (hnone a c' hc)
  · rw [switchTo_current]
    rcases hnext with ⟨hmem, c, hc, -⟩ | ⟨rfl, hz⟩
    · refine .inl ⟨next, { c with state := .running }, rfl, hmem, ?_, rfl⟩
      rw [hcore, if_pos rfl, hc, Option.map_some]
    · refine .inr ⟨rfl, fun t ht c' hc' ↦ ?_⟩
      have hidle : t ≠ idle := (h.listed.mem_iff.mp ht).1
      rw [hcore, if_neg hidle] at hc'
      exact hz t ht c' hc'

/-- What `pick_next` finds for a task of the ring. -/
theorem Settled.pickNext (h : Settled k L) (hcur : k.current = some t) (ht : t ∈ L) :
    (pickNext k ∈ L ∧ Runnable k (pickNext k)) ∨ (pickNext k = idle ∧ AllZombies k L) := by
  rcases h.listed.ring.pickNext hcur ht h.listed.bound with hfound | ⟨hidle, hnone⟩
  · exact .inl hfound
  · exact .inr ⟨hidle, h.all_zombies hnone⟩

theorem Scheduled.ne_idle (h : Scheduled k L) (hcur : k.current = some t) (hidle : t ≠ idle) :
    t ∈ L ∧ ∃ c, k.core t = some c ∧ c.state = .running := by
  rcases h.current with ⟨t', c, hcur', ht, hc, hs⟩ | ⟨hcur', -⟩
  · obtain rfl := Option.some.inj (hcur.symm.trans hcur')
    exact ⟨ht, c, hc, hs⟩
  · exact absurd (Option.some.inj (hcur.symm.trans hcur')) hidle

/-- The idle task never finds another. -/
theorem pickNext_idle (h : nextOf k idle = none) (hcur : k.current = some idle) :
    pickNext k = idle := by
  rw [Kernel.pickNext, hcur]
  simp only [nextOf_eq, h]

/-- The current task is preempted. -/
theorem Scheduled.preempt (h : Scheduled k L) (hne : some (Kernel.pickNext k) ≠ k.current) :
    Scheduled (switchTo (preempt k) (Kernel.pickNext k)) L := by
  rcases h.current with ⟨t, c, hcur, ht, hc, hs⟩ | ⟨hcur, -⟩
  · have hcore := core_preempt hcur
    have hcalm := calm_preempt hcur
    have hstate : ∀ d : Core, d.preempt.state ≠ .running ∧
        (d.preempt.state = .blocked → d.state = .blocked ∧ d.preempt = d) ∧
        d.preempt.next = d.next := by
      intro d
      rw [Core.preempt]
      split
      · exact ⟨TState.noConfusion, (fun hd ↦ by cases hd), rfl⟩
      case isFalse hd => exact ⟨hd, fun hb ↦ ⟨hb, rfl⟩, rfl⟩
    refine Settled.switch ⟨h.family.calm hcalm, h.waits.calm hcalm fun {a c'} hc' hb ↦ ?_, ?_⟩ ?_ ?_
    · rw [hcore] at hc'
      split at hc'
      · obtain ⟨d, hd, rfl⟩ := Option.map_eq_some_iff.mp hc'
        obtain ⟨hdb, heq⟩ := (hstate d).2.1 hb
        rw [heq]
        exact h.waits.blocked hd hdb
      · exact h.waits.blocked hc' hb
    · exact h.listed.of_core (frame_preempt k).taskList (frame_preempt k).nextPid hcore
        fun d ↦ (hstate d).2.2
    · intro a c' hc' hr
      rw [hcore] at hc'
      split at hc'
      · obtain ⟨d, -, rfl⟩ := Option.map_eq_some_iff.mp hc'
        exact (hstate d).1 hr
      case isFalse hat =>
        have := h.running hc' hr
        rw [hcur] at this
        exact hat (Option.some.inj this).symm
    · rcases h.pickNext hcur ht with ⟨hmem, d, hd, hr⟩ | ⟨-, hz⟩
      · have hnt : Kernel.pickNext k ≠ t := by
          intro heq
          rw [heq, hcur] at hne
          exact hne rfl
        exact .inl ⟨hmem, d, by rw [hcore, if_neg hnt, hd], hr⟩
      · rw [hz t ht c hc] at hs
        cases hs
  · rw [pickNext_idle h.listed.idleNext hcur, hcur] at hne
    exact absurd rfl hne

theorem Scheduled.schedYield (h : Scheduled k L) : Scheduled (schedYield k) L := by
  rcases schedYield_cases k with heq | ⟨hne, heq⟩
  · rwa [heq]
  · rw [heq]
    exact h.preempt hne

theorem Scheduled.schedTick (h : Scheduled k L) : Scheduled (schedTick k) L := by
  obtain ⟨k₁, hinert, -, heq | ⟨hne, heq⟩⟩ := schedTick_cases k
  · rw [heq]
    exact h.inert hinert
  · rw [heq]
    refine (h.inert hinert).preempt ?_
    rwa [hinert.current]

/-! ## Waiting -/

/-- A task with a child that has not exited blocks. -/
theorem Scheduled.block (h : Scheduled k L) (hcur : k.current = some t) (hidle : t ≠ idle)
    (hd : k.core s = some d) (hp : d.parent = some t) (hz : d.state ≠ .zombie) (status : Nat) :
    Scheduled (schedBlock (k.upd t fun T ↦ { T with waiting := true }) status) L := by
  obtain ⟨ht, c, hc, hs⟩ := h.ne_idle hcur hidle
  have hcurw : (k.upd t fun T ↦ { T with waiting := true }).current = some t := hcur
  obtain ⟨k₁, hframe, hcore₁, hblock⟩ := schedBlock_cases hcurw status
  have hcore : ∀ a, k₁.core a = if a = t then
      (k.core a).map fun c ↦ { c with waiting := true, state := .blocked } else k.core a := by
    intro a
    rw [hcore₁, core_upd (g := fun c ↦ { c with waiting := true }) fun _ ↦ rfl]
    split
    · rw [Option.map_map]
      rfl
    · rfl
  have hcalm : Calm k k₁ :=
    .of_core hframe.slots hcore (fun _ ↦ rfl) fun _ hb ↦ by cases hb
  have hsettled : Settled k₁ L := by
    refine ⟨h.family.calm hcalm, h.waits.calm hcalm fun {a c'} hc' hb ↦ ?_, ?_⟩
    · rw [hcore] at hc'
      split at hc'
      case isTrue hat =>
        obtain ⟨e, -, rfl⟩ := Option.map_eq_some_iff.mp hc'
        exact ⟨rfl, s, d, hd, hat ▸ hp, hz⟩
      case isFalse => exact h.waits.blocked hc' hb
    · exact h.listed.of_core hframe.taskList hframe.nextPid hcore fun _ ↦ rfl
  have hnone : NoneRunning k₁ := by
    intro a c' hc' hr
    rw [hcore] at hc'
    split at hc'
    · obtain ⟨e, -, rfl⟩ := Option.map_eq_some_iff.mp hc'
      cases hr
    case isFalse hat =>
      have := h.running hc' hr
      rw [hcur] at this
      exact hat (Option.some.inj this).symm
  have hpick := hsettled.pickNext (hframe.current.trans hcurw) ht
  rcases hblock with ⟨heq, -⟩ | heq
  · -- the loop of `pick_next` does not come back to a task that is blocked
    rw [heq] at hpick
    rcases hpick with ⟨-, e, he, hr⟩ | ⟨hti, -⟩
    · rw [hcore, if_pos rfl, hc, Option.map_some] at he
      obtain rfl := Option.some.inj he
      rcases hr with hr | hr <;> cases hr
    · exact absurd hti hidle
  · rw [heq]
    exact hsettled.switch hnone hpick

/-! ## Exiting -/

/-- What the exit of `t`, a child of `parent`, makes of the core of `a`. -/
def Core.exited (t : Addr) (parent : Option Addr) (a : Addr) (c : Core) : Core :=
  if parent = some a then ((c.marked t a).disown t).wake else (c.marked t a).disown t

theorem Core.wake_parent (c : Core) : c.wake.parent = c.parent := by
  rw [Core.wake]
  split <;> rfl

theorem Core.wake_next (c : Core) : c.wake.next = c.next := by
  rw [Core.wake]
  split <;> rfl

theorem Core.wake_of_ne (h : c.state ≠ .blocked) : c.wake = c :=
  if_neg fun hb ↦ h hb.1

theorem Core.disown_state (t : Addr) (c : Core) : (c.disown t).state = c.state := by
  rw [Core.disown]
  split <;> rfl

theorem Core.disown_waiting (t : Addr) (c : Core) : (c.disown t).waiting = c.waiting := by
  rw [Core.disown]
  split <;> rfl

theorem Core.disown_next (t : Addr) (c : Core) : (c.disown t).next = c.next := by
  rw [Core.disown]
  split <;> rfl

theorem Core.disown_parent (t : Addr) (c : Core) :
    (c.disown t).parent = if c.parent = some t then none else c.parent := by
  rw [Core.disown]
  split <;> rfl

theorem Core.exited_next (t : Addr) (parent : Option Addr) (a : Addr) (c : Core) :
    (c.exited t parent a).next = c.next := by
  have hmarked : (c.marked t a).next = c.next := by
    rw [Core.marked]
    split <;> rfl
  rw [Core.exited]
  split
  · rw [Core.wake_next, Core.disown_next, hmarked]
  · rw [Core.disown_next, hmarked]

theorem Core.exited_parent (t : Addr) (parent : Option Addr) (a : Addr) (c : Core) :
    (c.exited t parent a).parent = if c.parent = some t then none else c.parent := by
  rw [Core.exited]
  split
  · rw [Core.wake_parent, Core.disown_parent, Core.marked_parent]
  · rw [Core.disown_parent, Core.marked_parent]

/-- The task that exits is a zombie. -/
theorem Core.exited_self (t : Addr) (parent : Option Addr) (c : Core) :
    (c.exited t parent t).state = .zombie := by
  have hs : ((c.marked t t).disown t).state = .zombie := by
    rw [Core.disown_state, Core.marked, if_pos rfl]
  rw [Core.exited]
  split
  · rw [Core.wake_of_ne (by rw [hs]; exact TState.noConfusion), hs]
  · exact hs

/-- The others stay as they are, unless they wait for the task that exits. -/
theorem Core.exited_other {a : Addr} (hat : a ≠ t) (parent : Option Addr) (c : Core) :
    ((c.exited t parent a).state = c.state ∧ (c.exited t parent a).waiting = c.waiting ∧
      ¬(parent = some a ∧ c.state = .blocked ∧ c.waiting = true)) ∨
    (c.exited t parent a).state = .ready := by
  have hm : c.marked t a = c := if_neg hat
  rw [Core.exited, hm]
  split
  case isTrue hp =>
    rw [Core.wake, Core.disown_state, Core.disown_waiting]
    split
    · exact .inr rfl
    case isFalse hb =>
      exact .inl ⟨c.disown_state t, c.disown_waiting t, fun h ↦ hb h.2⟩
  case isFalse hp => exact .inl ⟨c.disown_state t, c.disown_waiting t, fun h ↦ hp h.1⟩

theorem Settled.not_own_parent (h : Settled k L) (hc : k.core t = some c) : c.parent ≠ some t := by
  obtain ⟨rank, hrank⟩ := h.waits.descent
  exact fun hp ↦ lt_irrefl _ (hrank hc hp)

theorem Settled.core_exitTask (h : Settled k L) (hc : k.core t = some c) (code : Int) :
    Frame k (exitTask k t code) ∧
      ∀ a, (exitTask k t code).core a = (k.core a).map (Core.exited t c.parent a) := by
  obtain ⟨k₁, heq, hframe, hcore⟩ := h.family.exitTask_cases t code
  have hc₁ : k₁.core t = some ((c.marked t t).disown t) := by
    rw [hcore, hc, Option.map_some, Function.comp_apply]
  have hparent : ((c.marked t t).disown t).parent = c.parent := by
    rw [Core.disown_parent, Core.marked_parent, if_neg (h.not_own_parent hc)]
  refine ⟨heq ▸ hframe.trans (frame_schedWakeupParent k₁ t), fun a ↦ ?_⟩
  rw [heq, core_schedWakeupParent hc₁, hparent, hcore]
  split
  case isTrue hp =>
    rw [Option.map_map]
    exact Option.map_congr fun e _ ↦ (if_pos hp).symm
  case isFalse hp => exact Option.map_congr fun e _ ↦ (if_neg hp).symm

/-- Who waited for the task that exits is woken, and who waits for another goes on
waiting. -/
theorem Settled.waits_exitTask (h : Settled k L) (hc : k.core t = some c) (code : Int) :
    Waits (exitTask k t code) := by
  have hcore := (h.core_exitTask hc code).2
  constructor
  · intro a c' hc' hb
    rw [hcore] at hc'
    obtain ⟨e, he, rfl⟩ := Option.map_eq_some_iff.mp hc'
    have hat : a ≠ t := by
      rintro rfl
      rw [Core.exited_self] at hb
      cases hb
    rcases Core.exited_other hat c.parent e with ⟨hs, hw, hnot⟩ | hs
    · obtain ⟨hwait, s, d, hd, hp, hz⟩ := h.waits.blocked he (hs ▸ hb)
      have hst : s ≠ t := by
        rintro rfl
        obtain rfl := Option.some.inj (hc.symm.trans hd)
        exact hnot ⟨hp, hs ▸ hb, hwait⟩
      refine ⟨hw.trans hwait, s, d.exited t c.parent s, by rw [hcore, hd, Option.map_some], ?_, ?_⟩
      · rw [Core.exited_parent, if_neg, hp]
        rw [hp]
        simpa using hat
      · rcases Core.exited_other hst c.parent d with ⟨hs, -⟩ | hs
        · rwa [hs]
        · rw [hs]
          exact TState.noConfusion
    · rw [hs] at hb
      cases hb
  · obtain ⟨rank, hrank⟩ := h.waits.descent
    refine ⟨rank, fun {a c' p} hc' hp ↦ ?_⟩
    rw [hcore] at hc'
    obtain ⟨e, he, rfl⟩ := Option.map_eq_some_iff.mp hc'
    rw [Core.exited_parent] at hp
    split at hp
    · cases hp
    · exact hrank he hp

theorem Scheduled.schedExit (h : Scheduled k L) (hcur : k.current = some t) (hidle : t ≠ idle)
    (code : Int) : Scheduled (schedExit k code) L := by
  obtain ⟨ht, c, hc, hs⟩ := h.ne_idle hcur hidle
  obtain ⟨hframe, hcore⟩ := h.core_exitTask hc code
  have hsettled : Settled (exitTask k t code) L := by
    refine ⟨h.family.exitTask (by rw [hc]; simp) code, h.waits_exitTask hc code, ?_⟩
    refine h.listed.congr hframe.taskList hframe.nextPid fun a ↦ ?_
    rw [hcore, Option.map_map]
    exact Option.map_congr fun e _ ↦ e.exited_next t c.parent a
  have hnone : NoneRunning (exitTask k t code) := by
    intro a c' hc' hr
    rw [hcore] at hc'
    obtain ⟨e, he, rfl⟩ := Option.map_eq_some_iff.mp hc'
    by_cases hat : a = t
    · subst hat
      rw [Core.exited_self] at hr
      cases hr
    · rcases Core.exited_other hat c.parent e with ⟨hs, -⟩ | hs
      · have := h.running he (hs ▸ hr)
        rw [hcur] at this
        exact hat (Option.some.inj this).symm
      · rw [hs] at hr
        cases hr
  rw [Kernel.schedExit, hcur]
  exact hsettled.switch hnone (hsettled.pickNext (hframe.current.trans hcur) ht)

/-! ## Reaping -/

/-- The ring changes. -/
theorem Waits.of_unlinked (h : Waits k)
    (hcore : ∀ a, (k'.core a).map Core.unlinked = (k.core a).map Core.unlinked) : Waits k' := by
  constructor
  · intro t c' hc' hb
    obtain ⟨c, hc, hs, hw, -⟩ := eq_some_of_unlinked (hcore t) hc'
    obtain ⟨hwait, s, d, hd, hp, hz⟩ := h.blocked hc (hs ▸ hb)
    obtain ⟨d', hd', hs', -, hp'⟩ := eq_some_of_unlinked (hcore s).symm hd
    exact ⟨hw.trans hwait, s, d', hd', hp'.symm.trans hp, hs' ▸ hz⟩
  · obtain ⟨rank, hrank⟩ := h.descent
    refine ⟨rank, fun {t c' p} hc' hp ↦ ?_⟩
    obtain ⟨c, hc, -, -, hp'⟩ := eq_some_of_unlinked (hcore t) hc'
    exact hrank hc (hp' ▸ hp)

/-- A task that has exited is reaped. -/
theorem Scheduled.schedReap (h : Scheduled k L) {z : Addr} (hmem : z ∈ L) (hd : k.core z = some d)
    (hz : d.state = .zombie) : Scheduled (schedReap k z) (L.erase z) := by
  have hunlinked := unlinked_ringRemove k z
  have hwaits : Waits (ringRemove k z) := h.waits.of_unlinked hunlinked
  have hcore := core_schedReap k z
  have hold : ∀ {a c}, (Kernel.schedReap k z).core a = some c →
      a ≠ z ∧ (ringRemove k z).core a = some c := by
    intro a c hc
    rw [hcore] at hc
    split at hc
    · cases hc
    case isFalse haz => exact ⟨haz, hc⟩
  obtain ⟨hring, hnext⟩ := h.listed.ring.schedReap hmem h.listed.bound
  have hcurrent : (Kernel.schedReap k z).current = k.current := ringRemove_current k z
  refine ⟨⟨h.family.schedReap hd hz, ⟨?_, ?_⟩, hring, ?_, fun {t} ↦ ?_, ?_⟩, ?_, ?_⟩
  · intro t c hc hb
    obtain ⟨hw, s, e, he, hp, hs⟩ := hwaits.blocked (hold hc).2 hb
    have hsz : s ≠ z := by
      rintro rfl
      obtain ⟨e', he', hse, -, -⟩ := eq_some_of_unlinked (hunlinked s) he
      obtain rfl := Option.some.inj (hd.symm.trans he')
      exact hs (hse.trans hz)
    exact ⟨hw, s, e, by rw [hcore, if_neg hsz, he], hp, hs⟩
  · obtain ⟨rank, hrank⟩ := hwaits.descent
    exact ⟨rank, fun hc hp ↦ hrank (hold hc).2 hp⟩
  · change (L.erase z).length ≤ (ringRemove k z).nextPid
    rw [ringRemove_nextPid]
    exact (List.length_erase_le).trans h.listed.bound
  · have hlive : (ringRemove k z).core t ≠ none ↔ k.core t ≠ none := by
      rw [Ne, Ne, ← Option.map_eq_none_iff (f := Core.unlinked), hunlinked,
        Option.map_eq_none_iff]
    rw [h.listed.ring.nodup.mem_erase_iff, h.listed.mem_iff, hcore]
    by_cases htz : t = z
    · simp [htz]
    · rw [if_neg htz, hlive]
      tauto
  · rw [hnext fun hi ↦ (h.listed.mem_iff.mp hi).1 rfl, h.listed.idleNext]
  · intro t c hc hr
    obtain ⟨c₀, hc₀, hs, -, -⟩ := eq_some_of_unlinked (hunlinked t) (hold hc).2
    rw [hcurrent]
    exact h.running hc₀ (hs ▸ hr)
  · rw [hcurrent]
    rcases h.current with ⟨t, c, hcur, ht, hc, hr⟩ | ⟨hcur, hall⟩
    · have htz : t ≠ z := by
        rintro rfl
        obtain rfl := Option.some.inj (hd.symm.trans hc)
        rw [hz] at hr
        cases hr
      obtain ⟨c', hc', hs, -, -⟩ := eq_some_of_unlinked (hunlinked t).symm hc
      refine .inl ⟨t, c', hcur, ?_, by rw [hcore, if_neg htz, hc'], hs ▸ hr⟩
      exact (List.mem_erase_of_ne htz).mpr ht
    · refine .inr ⟨hcur, fun t ht c hc ↦ ?_⟩
      obtain ⟨c₀, hc₀, hs, -, -⟩ := eq_some_of_unlinked (hunlinked t) (hold hc).2
      exact hs.trans (hall t (List.mem_of_mem_erase ht) c₀ hc₀)

theorem Scheduled.wait4Round (h : Scheduled k L) (hcur : k.current = some t) (hidle : t ≠ idle)
    (status : Nat) : ∃ L', Scheduled (wait4Round k status).2 L' := by
  obtain ⟨i, z, Z, -, -, hZ, hp, hz, heq⟩ | ⟨-, heq⟩ | ⟨⟨i, hi, hchild⟩, hnone, heq⟩ :=
    wait4Round_cases hcur status
  · obtain ⟨mem, hmem⟩ := collect_eq k t z status
    rw [heq, hmem]
    have hk : Scheduled { k with mem := mem } L := h.inert ⟨⟨rfl, rfl, rfl, rfl, rfl⟩, rfl⟩
    have hc : Machine.core { k with mem := mem } z = some Z.core :=
      core_of_task (k := { k with mem := mem }) hZ
    exact ⟨L.erase z, hk.schedReap (hk.child_mem hc hp) hc hz⟩
  · rw [heq]
    exact ⟨L, h⟩
  · rw [heq]
    obtain ⟨s, S, hs, hS, hp⟩ := childAt_iff.mp hchild
    refine ⟨L, h.block hcur hidle (core_of_task hS) hp (fun hz ↦ ?_) status⟩
    have := hnone i hi
    rw [zombieAt_iff.mpr ⟨s, S, hs, hS, hp, hz⟩] at this
    cases this

/-! ## Forking -/

theorem Waits.fork (h : Waits k) {child : Addr} (hfamily : Family k) (hfresh : k.core child = none)
    (ht : t ≠ child)
    (hcore : ∀ a, k'.core a =
      if a = child then some { Core.fresh with parent := some t } else k.core a) : Waits k' := by
  have hold : ∀ {a c}, a ≠ child → k'.core a = some c → k.core a = some c := by
    intro a c ha hc
    rwa [hcore, if_neg ha] at hc
  have hnew : ∀ {c}, k'.core child = some c → c = { Core.fresh with parent := some t } := by
    intro c hc
    rw [hcore, if_pos rfl] at hc
    exact (Option.some.inj hc).symm
  constructor
  · intro a c hc hb
    have hac : a ≠ child := by
      rintro rfl
      rw [hnew hc] at hb
      cases hb
    obtain ⟨hw, s, d, hd, hp, hz⟩ := h.blocked (hold hac hc) hb
    have hsc : s ≠ child := by
      rintro rfl
      rw [hfresh] at hd
      cases hd
    exact ⟨hw, s, d, by rw [hcore, if_neg hsc, hd], hp, hz⟩
  · obtain ⟨rank, hrank⟩ := h.descent
    refine ⟨update rank child (rank t + 1), fun {a c p} hc hp ↦ ?_⟩
    by_cases hac : a = child
    · subst hac
      rw [hnew hc] at hp
      obtain rfl := Option.some.inj hp
      rw [update_self, update_of_ne ht]
      exact Nat.lt_succ_self _
    · have hpc : p ≠ child := by
        rintro rfl
        exact (hfamily.parentLive (hold hac hc) hp).2 hfresh
      rw [update_of_ne hac, update_of_ne hpc]
      exact hrank (hold hac hc) hp

theorem Scheduled.sysFork (h : Scheduled k L) {child : Addr} {P : Task} (hcur : k.current = some t)
    (hP : k.tasks t = some P) (hidle : t ≠ idle) (hchild : child ≠ idle)
    (hfresh : k.tasks child = none) (hslot : freeSlot k ≠ none)
    (hclone : (halAddrspaceClone k.mem P.addrspace).1 ≠ 0) :
    Scheduled (sysFork k child).2 (L ++ [child]) := by
  obtain ⟨ht, c, hc, hs⟩ := h.ne_idle hcur hidle
  have hPc : P.core = c := Option.some.inj ((core_of_task hP).symm.trans hc)
  have halive : P.state ≠ .zombie := by
    have : P.core.state = .running := hPc ▸ hs
    change P.core.state ≠ .zombie
    rw [this]
    exact TState.noConfusion
  have hfamily := h.family.sysFork hcur hP hidle halive hchild hfresh hslot
  obtain ⟨k₂, hframe, hcore, ⟨hzero, -⟩ | ⟨-, heq⟩⟩ := sysFork_cases hcur hP child
  · exact absurd hzero hclone
  have hnone : k.core child = none := core_eq_none.mpr hfresh
  have hnmem : child ∉ L := fun hmem ↦ (h.listed.mem_iff.mp hmem).2 hnone
  have htc : t ≠ child := fun htc ↦ hnmem (htc ▸ ht)
  have hnextOf : ∀ {a}, a ≠ child → nextOf k₂ a = nextOf k a := by
    intro a ha
    rw [nextOf, hcore, if_neg ha, nextOf]
  have hring₂ : Ring k₂ L := by
    refine ⟨h.listed.ring.nodup, hframe.taskList.trans h.listed.ring.head, fun ha ↦ ?_⟩
    exact (h.listed.ring.linked ha).congr fun x hx ↦ hnextOf fun hxc ↦ hnmem (hxc ▸ hx)
  have hpid₂ : k₂.nextPid = k.nextPid + 1 := hframe.nextPid
  have hbound := h.listed.bound
  obtain ⟨hring, hnext⟩ := hring₂.schedAdd hnmem (by rw [hcore, if_pos rfl]; simp)
    (by rw [hpid₂]; omega)
  have hunlinked := unlinked_schedAdd k₂ child
  have hcurrent : (schedAdd k₂ child).current = k.current := by
    rw [schedAdd_current]
    exact hframe.current
  rw [heq] at hfamily ⊢
  refine ⟨⟨hfamily, (h.waits.fork h.family hnone htc hcore).of_unlinked hunlinked, hring, ?_,
    fun {a} ↦ ?_, ?_⟩, ?_, .inl ?_⟩
  · rw [schedAdd_nextPid, hpid₂, List.length_append]
    exact Nat.add_le_add_right hbound 1
  · have hlive : (schedAdd k₂ child).core a ≠ none ↔ k₂.core a ≠ none := by
      rw [Ne, Ne, ← Option.map_eq_none_iff (f := Core.unlinked), hunlinked,
        Option.map_eq_none_iff]
    rw [hlive, hcore, List.mem_append, List.mem_singleton, h.listed.mem_iff]
    by_cases hac : a = child
    · simp [hac, hchild]
    · simp [hac]
  · rw [hnext, hnextOf hchild.symm, h.listed.idleNext]
    rw [List.mem_append, not_or]
    exact ⟨fun hi ↦ (h.listed.mem_iff.mp hi).1 rfl, by simpa using hchild.symm⟩
  · intro a c' hc' hr
    obtain ⟨c₂, hc₂, hs₂, -, -⟩ := eq_some_of_unlinked (hunlinked a) hc'
    rw [hcore] at hc₂
    split at hc₂
    · obtain rfl := Option.some.inj hc₂
      rw [hs₂] at hr
      cases hr
    · rw [hcurrent]
      exact h.running hc₂ (hs₂ ▸ hr)
  · have hc₂ : k₂.core t = some c := by rw [hcore, if_neg htc, hc]
    obtain ⟨c', hc', hs', -, -⟩ := eq_some_of_unlinked (hunlinked t).symm hc₂
    exact ⟨t, c', hcurrent.trans hcur, List.mem_append_left _ ht, hc', hs' ▸ hs⟩

/-! ## Runs -/

/-- Nobody is killed, and forks find a slot and memory. -/
def Unkilled (k : Machine) : Event → Prop
  | .call (.fork _) => freeSlot k ≠ none ∧
      ∀ P, k.currentTask = some P → (halAddrspaceClone k.mem P.addrspace).1 ≠ 0
  | .call (.kill _) => False
  | .interrupt => False
  | _ => True

theorem Scheduled.step (h : Scheduled k L) {e : Event} (hsafe : Unkilled k e)
    (hstep : Step k e k') : ∃ L', Scheduled k' L' := by
  cases hstep with
  | @call t T c hcur hidle hT hctx hfresh =>
    cases c with
    | exit code => exact ⟨L, h.schedExit hcur hidle code⟩
    | fork child =>
      have hclone := hsafe.2 T (by rw [Machine.currentTask, hcur]; exact hT)
      exact ⟨_, h.sysFork hcur hT hidle hfresh.1 hfresh.2 hsafe.1 hclone⟩
    | wait4 status => exact h.wait4Round hcur hidle status
    | kill pid => exact hsafe.elim
    | yield => exact ⟨L, h.schedYield⟩
    | _ => exact ⟨L, h.inert (mild_dispatch (by trivial)).inert⟩
  | @resume t T status hcur hidle hT hctx =>
    have hctx : Inert k (k.updCurrent fun T ↦ { T with ctx := .user }) :=
      .updCurrent k fun _ ↦ rfl
    exact (h.inert hctx).wait4Round (hctx.current.trans hcur) hidle status
  | tick => exact ⟨L, h.schedTick⟩
  | interrupt => exact hsafe.elim

theorem scheduled_boot (h : Boot k) : ∃ L, Scheduled k L := by
  have hfamily := family_boot h
  obtain ⟨t, cons, hb⟩ := h.booted
  have hcore := hb.core
  have hidle : idle ≠ t := hb.notIdle.symm
  have hstate : ∀ {a c}, k.core a = some c → c.state ≠ .blocked ∧ c.parent = none ∧
      (c.state = .running → a = t) := by
    intro a c hc
    rw [hcore] at hc
    split at hc
    case isTrue hat =>
      obtain rfl := Option.some.inj hc
      exact ⟨TState.noConfusion, rfl, fun _ ↦ hat⟩
    case isFalse =>
      split at hc
      · obtain rfl := Option.some.inj hc
        exact ⟨TState.noConfusion, rfl, fun hr ↦ by cases hr⟩
      · cases hc
  have ht : nextOf k t = some t := by rw [nextOf, hcore, if_pos rfl, Option.bind_some]
  refine ⟨[t], ⟨hfamily, ⟨fun hc hb ↦ absurd hb (hstate hc).1, fun _ ↦ 0, fun hc hp ↦ ?_⟩,
    ⟨by simp, hb.taskList, fun {a} ha ↦ ?_⟩, ?_, fun {a} ↦ ?_, ?_⟩, fun hc hr ↦ ?_, .inl ?_⟩
  · rw [(hstate hc).2.1] at hp
    cases hp
  · obtain rfl := Option.some.inj ha
    exact ⟨ht, trivial⟩
  · rw [hb.nextPid, List.length_singleton]
    decide
  · rw [hcore, List.mem_singleton]
    by_cases hat : a = t
    · simp [hat, hidle.symm]
    · simp [hat]
  · rw [nextOf, hcore, if_neg hidle, if_pos rfl]
    rfl
  · rw [hb.current, (hstate hc).2.2 hr]
  · exact ⟨t, _, hb.current, by simp, by rw [hcore, if_pos rfl], rfl⟩

theorem scheduled_run (h : Reach Boot (Under Unkilled Step) k) : ∃ L, Scheduled k L :=
  h.invariant (fun _ ↦ scheduled_boot) fun _ _ _ hinv hs ↦ hinv.elim fun _ h ↦ h.step hs.1 hs.2

end

/-- **No lost wake-up.**  In every run of the machine without kills, whose forks find a slot
and memory, at every state reached: a task that is running is the current one; a blocked task
is waiting and has a child in `tasks[]` that is not a zombie; and unless all tasks of the ring
are zombies, one of them is ready or running, `pick_next` finds one, and the processor is not
with the idle task. -/
theorem no_lost_wakeup {k : Machine} (h : Reach Boot (Under Unkilled Step) k) :
    (∀ t T, k.tasks t = some T → T.state = .running → k.current = some t) ∧
    (∀ t T, k.tasks t = some T → T.state = .blocked → T.waiting = true ∧
      ∃ i c C, i < maxTasks ∧ k.slots i = some c ∧ k.tasks c = some C ∧ C.parent = some t ∧
        C.state ≠ .zombie) ∧
    ((∃ t T, InRing k t ∧ k.tasks t = some T ∧ T.state ≠ .zombie) →
      (∃ t T, InRing k t ∧ k.tasks t = some T ∧ (T.state = .ready ∨ T.state = .running)) ∧
      pickNext k ≠ idle ∧ k.current ≠ some idle) := by
  obtain ⟨L, hk⟩ := scheduled_run h
  refine ⟨fun t T hT hs ↦ hk.running (core_of_task hT) hs, fun t T hT hs ↦ ?_, ?_⟩
  · obtain ⟨hw, c, d, hd, hp, hz⟩ := hk.waits.blocked (core_of_task hT) hs
    obtain ⟨hci, hlive⟩ := hk.listed.mem_iff.mp (hk.child_mem hd hp)
    obtain ⟨i, hi, hic⟩ := hk.family.hasSlot hlive hci
    obtain ⟨C, hC, rfl⟩ := core_eq_some.mp hd
    exact ⟨hw, i, c, C, hi, hic, hC, hp, hz⟩
  · rintro ⟨t, T, hring, hT, hs⟩
    have ht : t ∈ L := hk.listed.ring.inRing_iff.mp hring
    have hnz : ¬AllZombies k L := fun hall ↦ hs (hall t ht T.core (core_of_task hT))
    obtain ⟨s, hs, c, hc, hr⟩ := hk.exists_runnable ht (core_of_task hT) hs
    obtain ⟨S, hS, rfl⟩ := core_eq_some.mp hc
    refine ⟨⟨s, S, hk.listed.ring.inRing_iff.mpr hs, hS, hr⟩, ?_⟩
    rcases hk.current with ⟨t', -, hcur, ht', -, -⟩ | ⟨-, hall⟩
    · have hne : ∀ {a}, a ∈ L → a ≠ idle := fun ha ↦ (hk.listed.mem_iff.mp ha).1
      refine ⟨?_, ?_⟩
      · rcases hk.pickNext hcur ht' with ⟨hmem, -⟩ | ⟨-, hall⟩
        · exact hne hmem
        · exact absurd hall hnz
      · rw [hcur]
        exact fun h ↦ hne ht' (Option.some.inj h)
    · exact absurd hall hnz

/-- On the small machine, the first task forks a child and waits for it. -/
def sampleWaiting : Machine := (wait4Round (forkBlank sampleBoot 3) 0).2

/-- The first task is blocked, and the child it waits for is in slot 1 and has not exited. -/
theorem no_lost_wakeup_waiting : (sampleWaiting.tasks 1).map Task.state = some .blocked ∧
    ∃ i c C, i < maxTasks ∧ sampleWaiting.slots i = some c ∧ sampleWaiting.tasks c = some C ∧
      C.parent = some 1 ∧ C.state ≠ .zombie := by
  have h₁ := step_forkBlank (k := sampleBoot) (t := 1) 3 rfl (by decide) rfl (by decide)
    rfl rfl (by decide) rfl
  have h₂ : Step (forkBlank sampleBoot 3) (.call (.wait4 0)) sampleWaiting :=
    .call (t := 1) (c := .wait4 0) rfl (by decide) rfl rfl trivial
  have hclone : ∀ P, sampleBoot.currentTask = some P →
      (halAddrspaceClone sampleBoot.mem P.addrspace).1 ≠ 0 := by
    intro P _
    rw [halAddrspaceClone_blank rfl (by decide)]
    decide
  have hreach : Reach Boot (Under Unkilled Step) sampleWaiting :=
    .step (a := .call (.wait4 0)) (.step (a := .call (.fork 3)) (.init boot_sampleBoot)
      ⟨⟨by decide, hclone⟩, h₁⟩) ⟨trivial, h₂⟩
  exact ⟨rfl, ((no_lost_wakeup hreach).2.1 1 _ rfl rfl).2⟩

end FentoOS.Kernel
