import FentoOS.Kernel.Identity
import FentoOS.Kernel.Parents

/-!
# Zombies

A task that has exited should stay a zombie until it is reaped.  The functions
that write the state of a task ask for it first, except two: `sched_block` and
`sched_exit` write the state of the current task whatever it is.  So a task that
is killed while it is the current one, by itself or by Ctrl-C, can come back from
the dead as long as it has the processor: a `wait4` that blocks makes it a blocked
task, and an exit changes its exit code.

In runs that avoid these two, a zombie keeps its state, its exit code and its
slot, and it keeps its parent unless the parent exits; so the `wait4` of its
parent finds it.
-/

namespace FentoOS.Kernel

open FentoOS.Lib FentoOS.Fs FentoOS.Mm

/-- If `t` is a zombie it stays one, with its exit code and its place in the table; and it
keeps its parent unless it becomes an orphan. -/
def Rests (t : Addr) (k k' : Machine) : Prop :=
  (∀ T, k.tasks t = some T → T.state = .zombie → ∃ T', k'.tasks t = some T' ∧
    T'.state = .zombie ∧ T'.exitCode = T.exitCode ∧ (T'.parent = T.parent ∨ T'.parent = none)) ∧
  ∀ i, k.slots i = some t → k'.slots i = some t

section

variable {k k' k'' : Machine} {t : Addr}

theorem Rests.trans (h : Rests t k k') (h' : Rests t k' k'') : Rests t k k'' := by
  refine ⟨fun T hT hz ↦ ?_, fun i hi ↦ h'.2 i (h.2 i hi)⟩
  obtain ⟨T', hT', hz', hcode, hp⟩ := h.1 T hT hz
  obtain ⟨T'', hT'', hz'', hcode', hp'⟩ := h'.1 T' hT' hz'
  refine ⟨T'', hT'', hz'', hcode'.trans hcode, ?_⟩
  rcases hp' with hp' | hp'
  · rwa [hp']
  · exact .inr hp'

theorem Stay.rests (h : Stay k k') (hslots : k'.slots = k.slots) (t : Addr) : Rests t k k' := by
  refine ⟨fun T hT hz ↦ ?_, fun i hi ↦ by rwa [hslots]⟩
  obtain ⟨T', hT', hs⟩ := h.eq_some hT
  exact ⟨T', hT', hs.zombie.mpr hz, hs.exitCode, .inl hs.parent⟩

theorem Rests.refl (k : Machine) (t : Addr) : Rests t k k := (Stay.refl k).rests rfl t

/-- What keeps the dead dead: the idle task is alive and not in the table, and a task that
is switched in inside a system call is not a zombie. -/
structure Fit (k : Machine) : Prop where
  idleLive : NoZombie k idle
  slots : ∀ i, k.slots i ≠ some idle
  current : ∀ T, k.currentTask = some T → T.ctx = .user ∨ T.state ≠ .zombie

/-- The processor is in user mode. -/
def InUser (k : Machine) : Prop := ∀ T, k.currentTask = some T → T.ctx = .user

theorem Fit.of_inUser (hidle : NoZombie k idle) (hslots : ∀ i, k.slots i ≠ some idle)
    (huser : InUser k) : Fit k :=
  ⟨hidle, hslots, fun T hT ↦ .inl (huser T hT)⟩

theorem currentTask_eq_some {T : Task} :
    k.currentTask = some T ↔ ∃ t, k.current = some t ∧ k.tasks t = some T :=
  Option.bind_eq_some_iff

theorem Fit.stay (h : Fit k) (hs : Stay k k') (hslots : k'.slots = k.slots)
    (hcur : k'.current = k.current) : Fit k' := by
  refine ⟨hs.noZombie h.idleLive, fun i ↦ hslots ▸ h.slots i, fun T' hT' ↦ ?_⟩
  obtain ⟨t, ht, hT'⟩ := currentTask_eq_some.mp hT'
  obtain ⟨T, hT, hst⟩ := hs.of_eq_some hT'
  rcases h.current T (currentTask_eq_some.mpr ⟨t, hcur ▸ ht, hT⟩) with huser | hz
  · exact .inl (hst.ctx.trans huser)
  · exact .inr fun hz' ↦ hz (hst.zombie.mp hz')

/-- The processor goes to a task that is not a zombie. -/
theorem fit_switchTo (hidle : NoZombie k idle) (hslots : ∀ i, k.slots i ≠ some idle)
    {next : Addr} (hnext : NoZombie k next) : Fit (switchTo k next) := by
  refine ⟨(stay_switchTo hnext).noZombie hidle, fun i ↦ by rw [switchTo_slots]; exact hslots i,
    fun T hT ↦ .inr ?_⟩
  rw [Machine.currentTask, switchTo_current, Option.bind_some] at hT
  exact (stay_switchTo hnext).noZombie hnext T hT

theorem Fit.preempt (h : Fit k) : Fit (switchTo (preempt k) (pickNext k)) := by
  have hp := stay_preempt k
  refine fit_switchTo (hp.noZombie h.idleLive) (fun i ↦ ?_)
    (hp.noZombie (noZombie_pickNext h.idleLive))
  rw [(frame_preempt k).slots]
  exact h.slots i

theorem Fit.schedYield (h : Fit k) : Fit (schedYield k) := by
  obtain heq | ⟨-, heq⟩ := schedYield_cases k
  · rwa [heq]
  · rw [heq]
    exact h.preempt

theorem Fit.schedTick (h : Fit k) : Fit (schedTick k) := by
  obtain ⟨k₁, hk₁, hcounts, heq | ⟨-, heq⟩⟩ := schedTick_cases k
  · rw [heq]
    exact h.stay (stay_counts hcounts) hk₁.slots hk₁.current
  · rw [heq]
    exact (h.stay (stay_counts hcounts) hk₁.slots hk₁.current).preempt

theorem slots_schedYield (k : Machine) : (schedYield k).slots = k.slots := by
  obtain heq | ⟨-, heq⟩ := schedYield_cases k
  · rw [heq]
  · rw [heq, switchTo_slots, (frame_preempt k).slots]

theorem slots_schedTick (k : Machine) : (schedTick k).slots = k.slots := by
  obtain ⟨k₁, hk₁, -, heq | ⟨-, heq⟩⟩ := schedTick_cases k
  · rw [heq, hk₁.slots]
  · rw [heq, switchTo_slots, (frame_preempt k₁).slots, hk₁.slots]

/-! ## Dying -/

/-- A task is marked as a zombie: another zombie does not notice, and it does not notice
itself if the code is the same. -/
theorem rests_mark (code : Int)
    (hcode : ∀ T, k.tasks t = some T → T.state = .zombie → T.exitCode = code) (a : Addr) :
    Rests a k (k.upd t fun T ↦ { T with exitCode := code, state := .zombie }) := by
  refine ⟨fun T hT hz ↦ ?_, fun i hi ↦ hi⟩
  rw [upd_tasks]
  split
  case isTrue hat =>
    subst hat
    rw [hT]
    exact ⟨_, rfl, rfl, (hcode T hT hz).symm, .inl rfl⟩
  case isFalse => exact ⟨T, hT, hz, rfl, .inl rfl⟩

theorem noZombie_mark {code : Int} {a : Addr} (hat : a ≠ t) (ha : NoZombie k a) :
    NoZombie (k.upd t fun T ↦ { T with exitCode := code, state := .zombie }) a := by
  intro T hT
  rw [upd_tasks, if_neg hat] at hT
  exact ha T hT

/-- The children of a task become orphans. -/
theorem evolves_orphan (t : Addr) (k : Machine) (i n : Nat) :
    Evolves (fun T T' ↦ T'.state = T.state ∧ T'.exitCode = T.exitCode ∧
      (T'.parent = T.parent ∨ T'.parent = none)) k (orphan k t i n) := by
  induction n generalizing k i with
  | zero => exact .of_tasks (fun _ ↦ ⟨rfl, rfl, .inl rfl⟩) rfl
  | succ n ih =>
    rw [orphan]
    refine Evolves.trans ?_ ?_ (ih (orphanSlot k t i) _)
    · rintro T T' T'' ⟨hs, hc, hp⟩ ⟨hs', hc', hp' | hp'⟩
      · exact ⟨hs'.trans hs, hc'.trans hc, by rwa [hp']⟩
      · exact ⟨hs'.trans hs, hc'.trans hc, .inr hp'⟩
    · rw [orphanSlot]
      split
      · exact .of_tasks (fun _ ↦ ⟨rfl, rfl, .inl rfl⟩) rfl
      · refine .upd (fun _ ↦ ⟨rfl, rfl, .inl rfl⟩) fun T _ ↦ ?_
        split
        · exact ⟨rfl, rfl, .inr rfl⟩
        · exact ⟨rfl, rfl, .inl rfl⟩

theorem exitTask_rests {code : Int}
    (hcode : ∀ T, k.tasks t = some T → T.state = .zombie → T.exitCode = code) :
    (∀ a, Rests a k (exitTask k t code)) ∧ (exitTask k t code).slots = k.slots ∧
      ∀ a, a ≠ t → NoZombie k a → NoZombie (exitTask k t code) a := by
  have hmark := rests_mark code hcode
  set k₁ := k.upd t fun T ↦ { T with exitCode := code, state := .zombie } with hk₁
  have horphan := evolves_orphan t k₁ 0 maxTasks
  have hslots₁ := (frame_orphan t k₁ 0 maxTasks).slots
  set k₂ := orphan k₁ t 0 maxTasks with hk₂
  have hclose := mild_closeFds k₂ t 0 maxFiles
  have heq : exitTask k t code = schedWakeupParent (closeFds k₂ t 0 maxFiles) t := by
    rw [exitTask]
  have hstay : Stay k₂ (exitTask k t code) := heq ▸ hclose.stay.trans (stay_schedWakeupParent _ t)
  have hslots₂ : (exitTask k t code).slots = k₂.slots :=
    heq ▸ (frame_schedWakeupParent _ t).slots.trans hclose.slots
  have hrest₁ : ∀ a, Rests a k₁ k₂ := by
    refine fun a ↦ ⟨fun T hT hz ↦ ?_, fun i hi ↦ by rwa [hslots₁]⟩
    obtain ⟨T', hT', hs, hc, hp⟩ := horphan.eq_some hT
    exact ⟨T', hT', hs.trans hz, hc, hp⟩
  refine ⟨fun a ↦ (hmark a).trans ((hrest₁ a).trans (hstay.rests hslots₂ a)),
    hslots₂.trans hslots₁, fun a hat ha ↦ hstay.noZombie fun T hT hz ↦ ?_⟩
  obtain ⟨T₁, hT₁, hs, -, -⟩ := horphan.of_eq_some hT
  exact noZombie_mark hat ha T₁ hT₁ (hs ▸ hz)

/-- `sys_kill` and Ctrl-C on a task that is not a zombie. -/
theorem terminate_rests (hlive : NoZombie k t) (code : Int) :
    (∀ a, Rests a k (terminate k t code)) ∧ (terminate k t code).slots = k.slots ∧
      (∀ a, a ≠ t → NoZombie k a → NoZombie (terminate k t code) a) ∧
      (InUser k → InUser (terminate k t code)) := by
  have hmark := rests_mark (t := t) code fun T hT hz ↦ absurd hz (hlive T hT)
  set k₁ := k.upd t fun T ↦ { T with exitCode := code, state := .zombie } with hk₁
  have hstay : Stay k₁ (terminate k t code) := stay_schedWakeupParent k₁ t
  have hframe : Frame k₁ (terminate k t code) := frame_schedWakeupParent k₁ t
  refine ⟨fun a ↦ (hmark a).trans (hstay.rests hframe.slots a), hframe.slots,
    fun a hat ha ↦ hstay.noZombie (noZombie_mark hat ha), fun huser T' hT' ↦ ?_⟩
  obtain ⟨s, hs, hT'⟩ := currentTask_eq_some.mp hT'
  obtain ⟨T₁, hT₁, hst⟩ := hstay.of_eq_some hT'
  have hs₁ : k.current = some s := hframe.current.symm.trans hs
  rw [hk₁, upd_tasks] at hT₁
  rw [hst.ctx]
  split at hT₁
  case isTrue hst =>
    subst hst
    obtain ⟨T, hT, rfl⟩ := Option.map_eq_some_iff.mp hT₁
    exact huser T (currentTask_eq_some.mpr ⟨s, hs₁, hT⟩)
  case isFalse => exact huser T₁ (currentTask_eq_some.mpr ⟨s, hs₁, hT₁⟩)

theorem victimAt_live {owner : Addr} {i : Nat} (h : victimAt k owner i = some t) :
    k.slots i = some t ∧ NoZombie k t := by
  obtain ⟨hi, c, hc, -, hz⟩ := victimAt_eq_some.mp h
  refine ⟨hi, fun T hT ↦ ?_⟩
  rw [core_of_task hT] at hc
  obtain rfl := Option.some.inj hc
  exact hz

theorem interruptFrom_rests (owner : Addr) (i n : Nat) (hidle : NoZombie k idle)
    (hslots : ∀ i, k.slots i ≠ some idle) (huser : InUser k) :
    (∀ a, Rests a k (interruptFrom owner i n k)) ∧ Fit (interruptFrom owner i n k) := by
  induction n generalizing k i with
  | zero => exact ⟨fun a ↦ .refl k a, .of_inUser hidle hslots huser⟩
  | succ n ih =>
    rw [interruptFrom, interruptSlot]
    split
    · exact ih _ hidle hslots huser
    case h_2 t ht =>
      obtain ⟨hi, hlive⟩ := victimAt_live ht
      have hti : idle ≠ t := fun hti ↦ hslots i (hti ▸ hi)
      obtain ⟨hrest, hslots', hnz, hu⟩ := terminate_rests hlive 130
      obtain ⟨hrest', hfit⟩ := ih (i + 1) (hnz _ hti hidle) (fun j ↦ hslots' ▸ hslots j) (hu huser)
      exact ⟨fun a ↦ (hrest a).trans (hrest' a), hfit⟩

/-! ## Waiting -/

/-- The current task, which is not a zombie, blocks. -/
theorem schedBlock_rests (hcur : k.current = some t) (hti : t ≠ idle) (hidle : NoZombie k idle)
    (hslots : ∀ i, k.slots i ≠ some idle) (hlive : NoZombie k t) (status : Nat) :
    (∀ a, Rests a k (schedBlock k status)) ∧ Fit (schedBlock k status) := by
  set k₁ := k.upd t fun T ↦ { T with state := .blocked, ctx := .wait4 status } with hk₁
  have hne : ∀ {a}, a ≠ t → k₁.tasks a = k.tasks a := fun ha ↦ by rw [hk₁, upd_tasks, if_neg ha]
  have hidle₁ : NoZombie k₁ idle := fun T hT ↦ hidle T (by rwa [hne hti.symm] at hT)
  have hrest₁ : ∀ a, Rests a k k₁ := by
    refine fun a ↦ ⟨fun T hT hz ↦ ?_, fun i hi ↦ hi⟩
    have hat : a ≠ t := by
      rintro rfl
      exact hlive T hT hz
    exact ⟨T, by rw [hne hat, hT], hz, rfl, .inl rfl⟩
  have hnext := noZombie_pickNext hidle₁
  have hblock : schedBlock k status = k₁ ∧ k₁.tasks t = none ∨
      schedBlock k status = switchTo k₁ (pickNext k₁) := by
    rw [schedBlock, Machine.updCurrent, hcur]
    simp only
    split
    case isTrue => exact .inr rfl
    case isFalse h =>
      refine .inl ⟨rfl, ?_⟩
      have hpick : pickNext k₁ = t := by
        rw [not_not] at h
        exact Option.some.inj (h.trans hcur)
      by_contra hsome
      obtain ⟨T₁, hT₁⟩ := Option.ne_none_iff_exists'.mp hsome
      refine pickNext_ne_blocked hti hT₁ ?_ hpick
      rw [hk₁, upd_tasks, if_pos rfl] at hT₁
      obtain ⟨T, -, rfl⟩ := Option.map_eq_some_iff.mp hT₁
      rfl
  obtain ⟨heq, hnone⟩ | heq := hblock
  · rw [heq]
    refine ⟨hrest₁, hidle₁, hslots, fun T hT ↦ ?_⟩
    obtain ⟨s, hs, hT⟩ := currentTask_eq_some.mp hT
    obtain rfl : s = t := Option.some.inj (hs.symm.trans hcur)
    rw [hnone] at hT
    cases hT
  · rw [heq]
    exact ⟨fun a ↦ (hrest₁ a).trans ((stay_switchTo hnext).rests (switchTo_slots ..) a),
      fit_switchTo hidle₁ hslots hnext⟩

/-- The task is not a zombie, or its `wait4` does not block. -/
def NoBlock (k : Machine) (t : Addr) : Prop :=
  NoZombie k t ∨ (∃ i, i < maxTasks ∧ zombieAt k t i = true) ∨ Childless k t

theorem wait4Round_rests (hcur : k.current = some t) (hti : t ≠ idle) (hidle : NoZombie k idle)
    (hslots : ∀ i, k.slots i ≠ some idle) (huser : InUser k) (hno : NoBlock k t)
    (status : Nat) :
    Fit (wait4Round k status).2 ∧
      ∀ a, (wait4Round k status).2.tasks a = none ∨ Rests a k (wait4Round k status).2 := by
  obtain ⟨i, c, C, -, hc, hC, -, hs, heq⟩ | ⟨-, heq⟩ | ⟨⟨i, hi, hchild⟩, hnz, heq⟩ :=
    wait4Round_cases hcur status
  · obtain ⟨mem, hmem⟩ := collect_eq k t c status
    rw [heq]
    simp only [hmem]
    set m : Machine := { k with mem := mem } with hm
    have hring : Stay m (ringRemove m c) := stay_ringRemove m c
    have hci : idle ≠ c := fun hci ↦ hslots i (hci ▸ hc)
    have hother : ∀ {a}, a ≠ c → (schedReap m c).tasks a = (ringRemove m c).tasks a :=
      fun ha ↦ (schedReap_tasks m c _).trans (if_neg ha)
    refine ⟨⟨fun T hT ↦ ?_, fun j ↦ ?_, fun T hT ↦ ?_⟩, fun a ↦ ?_⟩
    · rw [hother hci] at hT
      exact hring.noZombie (k := m) hidle T hT
    · rw [slots_schedReap]
      split
      · simp
      · exact hslots j
    · obtain ⟨s, hs, hT⟩ := currentTask_eq_some.mp hT
      have hsc : s ≠ c := by
        rintro rfl
        rw [schedReap_tasks, if_pos rfl] at hT
        cases hT
      rw [hother hsc] at hT
      obtain ⟨T₀, hT₀, hst⟩ := hring.of_eq_some hT
      have hs' : k.current = some s := (ringRemove_current m c).symm.trans hs
      exact .inl (hst.ctx.trans (huser T₀ (currentTask_eq_some.mpr ⟨s, hs', hT₀⟩)))
    · by_cases hac : a = c
      · exact .inl (by rw [schedReap_tasks, if_pos hac])
      · refine .inr ⟨fun T hT hz ↦ ?_, fun j hj ↦ ?_⟩
        · obtain ⟨T', hT', hst⟩ := hring.eq_some hT
          exact ⟨T', (hother hac).trans hT', hst.zombie.mpr hz, hst.exitCode, .inl hst.parent⟩
        · rw [slots_schedReap, if_neg]
          · exact hj
          · change k.slots j ≠ some c
            rw [hj]
            simpa using hac
  · rw [heq]
    exact ⟨.of_inUser hidle hslots huser, fun a ↦ .inr (.refl k a)⟩
  · -- no child has exited and there is one, so the task is not a zombie
    have hlive : NoZombie k t := by
      rcases hno with hlive | ⟨j, hj, hz⟩ | hnone
      · exact hlive
      · rw [hnz j hj] at hz
        cases hz
      · rw [hnone i hi] at hchild
        cases hchild
    rw [heq]
    have hwait : Stay k (k.upd t fun T ↦ { T with waiting := true }) :=
      .upd fun _ _ ↦ ⟨rfl, rfl, rfl, rfl, rfl, .rfl⟩
    obtain ⟨hrest, hfit⟩ := schedBlock_rests (k := k.upd t fun T ↦ { T with waiting := true })
      hcur hti (hwait.noZombie hidle) hslots (hwait.noZombie hlive) status
    exact ⟨hfit, fun a ↦ .inr ((hwait.rests rfl a).trans (hrest a))⟩

/-- Back behind its `sched_block`, a task that is not a zombie goes into the next round. -/
theorem Fit.back (h : Fit k) (hcur : k.current = some t) (hti : t ≠ idle) (hlive : NoZombie k t)
    (status : Nat) : Fit (resumeWait4 k status) ∧
      ∀ a, (resumeWait4 k status).tasks a = none ∨ Rests a k (resumeWait4 k status) := by
  set k₁ := k.updCurrent fun T ↦ { T with ctx := .user } with hk₁
  have heq : k₁ = k.upd t fun T ↦ { T with ctx := .user } := by
    rw [hk₁, Machine.updCurrent, hcur]
  have hsame : Evolves (fun T T' ↦ T'.state = T.state ∧ T'.exitCode = T.exitCode ∧
      T'.parent = T.parent) k k₁ := by
    rw [heq]
    exact .upd (fun _ ↦ ⟨rfl, rfl, rfl⟩) fun _ _ ↦ ⟨rfl, rfl, rfl⟩
  have hnz : ∀ {a}, NoZombie k a → NoZombie k₁ a := by
    intro a ha T' hT'
    obtain ⟨T, hT, hs, -, -⟩ := hsame.of_eq_some hT'
    rw [hs]
    exact ha T hT
  have hrest : ∀ a, Rests a k k₁ := by
    refine fun a ↦ ⟨fun T hT hz ↦ ?_, fun i hi ↦ by rwa [heq]⟩
    obtain ⟨T', hT', hs, hc, hp⟩ := hsame.eq_some hT
    exact ⟨T', hT', hs.trans hz, hc, .inl hp⟩
  have hcur₁ : k₁.current = some t := by rw [heq, upd_current, hcur]
  have huser : InUser k₁ := by
    intro T' hT'
    obtain ⟨s, hs, hT'⟩ := currentTask_eq_some.mp hT'
    obtain rfl : s = t := Option.some.inj (hs.symm.trans hcur₁)
    rw [heq, upd_tasks, if_pos rfl] at hT'
    obtain ⟨T, -, rfl⟩ := Option.map_eq_some_iff.mp hT'
    rfl
  obtain ⟨hfit, hround⟩ := wait4Round_rests hcur₁ hti (hnz h.idleLive)
    (fun i ↦ by rw [heq]; exact h.slots i) huser (.inl (hnz hlive)) status
  refine ⟨hfit, fun a ↦ ?_⟩
  rcases hround a with hnone | hr
  · exact .inl hnone
  · exact .inr ((hrest a).trans hr)

theorem Fit.mild (h : Fit k) (hm : Mild k k') : Fit k' ∧ ∀ a, k'.tasks a = none ∨ Rests a k k' :=
  ⟨h.stay hm.stay hm.slots hm.current, fun a ↦ .inr (hm.stay.rests hm.slots a)⟩

/-! ## Runs -/

/-- A task that was killed while it has the processor calls neither a `wait4` that blocks
nor an exit with another code. -/
def Patient (k : Machine) : Event → Prop
  | .call (.exit code) => ∀ T, k.currentTask = some T → T.state = .zombie → T.exitCode = code
  | .call (.wait4 _) => ∀ t, k.current = some t → NoBlock k t
  | _ => True

theorem Fit.schedExit {code : Int} (h : Fit k) (hcur : k.current = some t) (hti : t ≠ idle)
    (hcond : Patient k (.call (.exit code))) :
    Fit (schedExit k code) ∧
      ∀ a, (schedExit k code).tasks a = none ∨ Rests a k (schedExit k code) := by
  have hcode : ∀ T, k.tasks t = some T → T.state = .zombie → T.exitCode = code :=
    fun T hT ↦ hcond T (currentTask_eq_some.mpr ⟨t, hcur, hT⟩)
  obtain ⟨hrest, hslots, hnz⟩ := exitTask_rests hcode
  have heq : Kernel.schedExit k code =
      switchTo (exitTask k t code) (pickNext (exitTask k t code)) := by
    simp only [Kernel.schedExit, hcur]
  rw [heq]
  generalize exitTask k t code = k₁ at hrest hslots hnz
  have hidle := hnz _ hti.symm h.idleLive
  have hnext := noZombie_pickNext hidle
  refine ⟨fit_switchTo hidle (fun i ↦ ?_) hnext, fun a ↦
    .inr ((hrest a).trans ((stay_switchTo hnext).rests (switchTo_slots ..) a))⟩
  rw [hslots]
  exact h.slots i

/-- A fork adds a task that is not a zombie, in a slot that was free. -/
theorem Fit.sysFork {T : Task} {child : Addr} (h : Fit k) (hcur : k.current = some t)
    (hT : k.tasks t = some T) (hctx : T.ctx = .user) (hci : child ≠ idle)
    (hnone : k.tasks child = none) :
    Fit (sysFork k child).2 ∧ ∀ a, Rests a k (sysFork k child).2 := by
  obtain ⟨k₂, hstay, hslots, hcur', C, htasks, -⟩ := sysFork_tasks hcur hT child
  have hold : ∀ {a T₀}, k.tasks a = some T₀ → k₂.tasks a = some T₀ := by
    intro a T₀ hT₀
    have hac : a ≠ child := by
      rintro rfl
      rw [hnone] at hT₀
      cases hT₀
    rw [htasks, Function.update_of_ne hac, hT₀]
  refine ⟨⟨hstay.noZombie fun T₀ hT₀ ↦ ?_, fun i hi ↦ ?_, fun T' hT' ↦ .inl ?_⟩,
    fun a ↦ ⟨fun T₀ hT₀ hz ↦ ?_, fun i hi ↦ ?_⟩⟩
  · rw [htasks, Function.update_of_ne hci.symm] at hT₀
    exact h.idleLive T₀ hT₀
  · rw [hslots] at hi
    rcases slots_schedAlloc_cases hi with hi | ⟨-, hi⟩
    · exact h.slots i hi
    · exact hci hi.symm
  · obtain ⟨s, hs, hT'⟩ := currentTask_eq_some.mp hT'
    obtain ⟨T₂, hT₂, hst⟩ := hstay.of_eq_some hT'
    obtain rfl : s = t := Option.some.inj (hs.symm.trans (hcur'.trans hcur))
    rw [hold hT] at hT₂
    obtain rfl := Option.some.inj hT₂
    exact hst.ctx.trans hctx
  · obtain ⟨T', hT', hst⟩ := hstay.eq_some (hold hT₀)
    exact ⟨T', hT', hst.zombie.mpr hz, hst.exitCode, .inl hst.parent⟩
  · rw [hslots]
    exact slots_schedAlloc_of_some hi child

/-- One step: a zombie is reaped or rests. -/
theorem Fit.step {e : Event} (h : Fit k) (hcond : Patient k e) (hstep : Step k e k') :
    Fit k' ∧ ∀ a, k'.tasks a = none ∨ Rests a k k' := by
  cases hstep with
  | @call t T c hcur hti hT hctx hfresh =>
    have hcurT : k.currentTask = some T := currentTask_eq_some.mpr ⟨t, hcur, hT⟩
    have huser : InUser k := by
      intro T' hT'
      rwa [← Option.some.inj (hcurT.symm.trans hT')]
    cases c with
    | exit code => exact h.schedExit hcur hti hcond
    | fork child =>
      obtain ⟨hfit, hrest⟩ := h.sysFork hcur hT hctx hfresh.1 hfresh.2
      exact ⟨hfit, fun a ↦ .inr (hrest a)⟩
    | wait4 status =>
      exact wait4Round_rests hcur hti h.idleLive h.slots huser (hcond t hcur) status
    | kill pid =>
      change Fit (sysKill k pid).2 ∧ ∀ a, (sysKill k pid).2.tasks a = none ∨
        Rests a k (sysKill k pid).2
      rw [sysKill]
      split
      · exact ⟨h, fun a ↦ .inr (.refl k a)⟩
      case h_2 z hz =>
        split
        · exact ⟨h, fun a ↦ .inr (.refl k a)⟩
        case isFalse hs =>
          obtain ⟨i, -, hi⟩ := Option.bind_eq_some_iff.mp hz
          have hlive : NoZombie k z := by
            intro Z hZ hzs
            rw [hZ, Option.map_some, hzs] at hs
            exact hs rfl
          obtain ⟨hrest, hslots, hnz, hu⟩ := terminate_rests hlive 137
          refine ⟨.of_inUser (hnz _ ?_ h.idleLive) (fun j ↦ hslots ▸ h.slots j) (hu huser),
            fun a ↦ .inr (hrest a)⟩
          rintro rfl
          exact h.slots i hi
    | yield =>
      exact ⟨h.schedYield, fun a ↦
        .inr ((stay_schedYield h.idleLive).rests (slots_schedYield k) a)⟩
    | _ =>
      refine h.mild ?_
      exact mild_dispatch (by trivial)
  | @resume t T status hcur hti hT hctx =>
    have hlive : NoZombie k t := by
      intro T₀ hT₀
      obtain rfl := Option.some.inj (hT.symm.trans hT₀)
      rcases h.current T (currentTask_eq_some.mpr ⟨t, hcur, hT⟩) with huser | hz
      · rw [hctx] at huser
        cases huser
      · exact hz
    obtain ⟨hfit, hrest⟩ := h.back hcur hti hlive status
    exact ⟨hfit, hrest⟩
  | tick =>
    exact ⟨h.schedTick, fun a ↦
      .inr ((stay_schedTick h.idleLive).rests (slots_schedTick k) a)⟩
  | @interrupt T hcurT hctx =>
    have huser : InUser k := by
      intro T' hT'
      rwa [← Option.some.inj (hcurT.symm.trans hT')]
    rw [interruptForeground]
    split
    · exact ⟨h, fun a ↦ .inr (.refl k a)⟩
    case h_2 owner _ =>
      obtain ⟨hrest, hfit⟩ :=
        interruptFrom_rests owner 0 maxTasks h.idleLive h.slots huser
      exact ⟨hfit, fun a ↦ .inr (hrest a)⟩

theorem fit_boot (h : Boot k) : Fit k := by
  obtain ⟨t, cons, hb⟩ := h.booted
  obtain ⟨kernelDir, space, brk, htasks⟩ := hb.tasks
  refine ⟨fun T hT ↦ ?_, fun i hi ↦ ?_, fun T hT ↦ .inl ?_⟩
  · rw [htasks] at hT
    rcases bootTasks_eq_some hT with ⟨hti, -⟩ | ⟨-, -, rfl⟩
    · exact absurd hti.symm hb.notIdle
    · exact TState.noConfusion
  · rw [hb.slots, Function.update_apply] at hi
    split at hi
    · exact hb.notIdle (Option.some.inj hi)
    · cases hi
  · obtain ⟨s, hs, hT⟩ := currentTask_eq_some.mp hT
    rw [htasks] at hT
    rcases bootTasks_eq_some hT with ⟨-, rfl⟩ | ⟨-, -, rfl⟩
    · rfl
    · rfl

end

/-- **A zombie stays a zombie.**  In every run in which a task that was killed while it has
the processor calls neither a `wait4` that blocks nor an exit with another code: from the
moment on that a task is a zombie, as long as it is not reaped, it is a zombie with the same
exit code in the same slot, and its parent is the same unless it has become an orphan. -/
theorem zombie_absorbing {k k' : Machine} {t : Addr} {T : Task}
    (h : Reach Boot (Under Patient Step) k) (hT : k.tasks t = some T) (hz : T.state = .zombie)
    (hrun : Relation.ReflTransGen
      (fun a b ↦ (∃ e, Under Patient Step a e b) ∧ b.tasks t ≠ none) k k') :
    (∃ T', k'.tasks t = some T' ∧ T'.state = .zombie ∧ T'.exitCode = T.exitCode ∧
      (T'.parent = T.parent ∨ T'.parent = none)) ∧
    ∀ i, k.slots i = some t → k'.slots i = some t := by
  have hfit : Fit k := h.invariant (P := Fit) (fun _ ↦ fit_boot)
    fun _ _ _ hi hs ↦ (hi.step hs.1 hs.2).1
  -- along the rest of the run, the machine is fit and the zombie rests
  have hrest : Fit k' ∧ Rests t k k' := by
    induction hrun with
    | refl => exact ⟨hfit, .refl k t⟩
    | tail _ hstep ih =>
      obtain ⟨⟨e, hcond, hstep⟩, hlive⟩ := hstep
      obtain ⟨hfit', hr⟩ := ih.1.step hcond hstep
      exact ⟨hfit', ih.2.trans ((hr t).resolve_left hlive)⟩
  exact ⟨hrest.2.1 T hT hz, hrest.2.2⟩

/-- On the small machine, the first task forks a child, which exits with the code 7. -/
def sampleZombie : Machine := schedExit (schedYield (forkBlank sampleBoot 3)) 7

theorem reach_sampleZombie : Reach Boot (Under Patient Step) sampleZombie := by
  have h₁ := step_forkBlank (k := sampleBoot) (t := 1) 3 rfl (by decide) rfl (by decide)
    rfl rfl (by decide) rfl
  have h₂ := step_yield (k := forkBlank sampleBoot 3) (t := 1) rfl (by decide) rfl rfl
  have h₃ := step_exit (k := schedYield (forkBlank sampleBoot 3)) (t := 3) rfl (by decide) rfl rfl 7
  rw [sampleZombie]
  refine .step (a := .call (.exit 7)) (.step (a := .call .yield) (.step (a := .call (.fork 3))
    (.init boot_sampleBoot) ⟨trivial, h₁⟩) ⟨trivial, h₂⟩) ⟨?_, h₃⟩
  intro T hT hz
  obtain rfl := Option.some.inj hT
  cases hz

/-- After a yield of the first task, the child is still a zombie in slot 1. -/
theorem zombie_absorbing_yield :
    ∃ T', (schedYield sampleZombie).tasks 3 = some T' ∧ T'.state = .zombie ∧ T'.exitCode = 7 := by
  have hcur : sampleZombie.current = some 1 := by decide +kernel
  obtain ⟨T₁, hT₁, hctx⟩ : ∃ T, sampleZombie.tasks 1 = some T ∧ T.ctx = .user :=
    Option.map_eq_some_iff.mp (by decide +kernel)
  obtain ⟨T, hT, hTs⟩ : ∃ T, sampleZombie.tasks 3 = some T ∧ (T.state, T.exitCode) = (.zombie, 7) :=
    Option.map_eq_some_iff.mp (by decide +kernel)
  have hstep := step_yield hcur (by decide) hT₁ hctx
  have hlive : (schedYield sampleZombie).tasks 3 ≠ none := by
    rw [← Option.isSome_iff_ne_none]
    decide +kernel
  obtain ⟨⟨T', hT', hz, hcode, -⟩, -⟩ := zombie_absorbing reach_sampleZombie hT
    (congrArg Prod.fst hTs) (.single ⟨⟨.call .yield, trivial, hstep⟩, hlive⟩)
  exact ⟨T', hT', hz, hcode.trans (congrArg Prod.snd hTs)⟩

/-- On the small machine, the first task forks a child and kills itself. -/
def sampleKilled : Machine := (sysKill (forkBlank sampleBoot 3) 1).2

/-- A task that has killed itself calls `wait4`, and is a blocked task again. -/
theorem killed_task_blocks : Reach Boot Step sampleKilled ∧
    (sampleKilled.tasks 1).map Task.state = some .zombie ∧
    Step sampleKilled (.call (.wait4 0)) (wait4Round sampleKilled 0).2 ∧
    ((wait4Round sampleKilled 0).2.tasks 1).map Task.state = some .blocked := by
  have h₁ := step_forkBlank (k := sampleBoot) (t := 1) 3 rfl (by decide) rfl (by decide)
    rfl rfl (by decide) rfl
  have h₂ : Step (forkBlank sampleBoot 3) (.call (.kill 1)) sampleKilled :=
    .call (t := 1) (c := .kill 1) rfl (by decide) rfl rfl trivial
  exact ⟨.step (.step (.init boot_sampleBoot) h₁) h₂, rfl,
    .call (t := 1) (c := .wait4 0) rfl (by decide) rfl rfl trivial, rfl⟩

end FentoOS.Kernel
