import FentoOS.Kernel.Core
import FentoOS.Lib.Run

/-!
# Parents

A task points to the task that forked it.  `sched_exit` cuts the pointers of the
children of a task that exits, so that when the task is reaped nobody points to
it; `sys_kill` and Ctrl-C do not, and the children of a task that was killed keep
a pointer to memory that `sched_reap` frees.

The pointers stay good in runs that avoid this and two further traps.  A task
for which `sched_alloc` found no slot is not in `tasks[]`, so its own children
point outside the table; and a task that was killed while it is the current one
goes on until it is switched out, and can still fork.
-/

namespace FentoOS.Kernel

open FentoOS.Lib FentoOS.Fs FentoOS.Mm Function

/-- Every task is in the table and its parent is a task; a task that has exited has no
children. -/
structure Family (k : Machine) : Prop where
  slotLive : ∀ {i t}, k.slots i = some t → k.core t ≠ none
  hasSlot : ∀ {t}, k.core t ≠ none → t ≠ idle → ∃ i, i < maxTasks ∧ k.slots i = some t
  parentLive : ∀ {t c p}, k.core t = some c → c.parent = some p → p ≠ idle ∧ k.core p ≠ none
  childless : ∀ {z d t c}, k.core z = some d → d.state = .zombie → k.core t = some c →
    c.parent ≠ some z
  idleParent : ∀ {c}, k.core idle = some c → c.parent = none

/-! ## What leaves families alone -/

/-- No parent changes, no task comes or goes, and none exits. -/
structure Calm (k k' : Machine) : Prop where
  slots : k'.slots = k.slots
  stays : ∀ {a}, k.core a ≠ none → k'.core a ≠ none
  core : ∀ {a c'}, k'.core a = some c' → ∃ c, k.core a = some c ∧ c'.parent = c.parent ∧
    (c'.state = .zombie → c.state = .zombie)

theorem Calm.refl (k : Machine) : Calm k k := ⟨rfl, id, fun h ↦ ⟨_, h, rfl, id⟩⟩

variable {k k' : Machine}

theorem Calm.trans {k'' : Machine} (h : Calm k k') (h' : Calm k' k'') : Calm k k'' := by
  refine ⟨h'.slots.trans h.slots, fun ha ↦ h'.stays (h.stays ha), fun hc ↦ ?_⟩
  obtain ⟨c', hc', hp', hz'⟩ := h'.core hc
  obtain ⟨c, hc, hp, hz⟩ := h.core hc'
  exact ⟨c, hc, hp'.trans hp, fun h ↦ hz (hz' h)⟩

variable {t : Addr}

/-- One task changes, but neither its parent nor into a task that has exited. -/
theorem Calm.of_core {g : Core → Core} (hslots : k'.slots = k.slots)
    (hcore : ∀ a, k'.core a = if a = t then (k.core a).map g else k.core a)
    (hparent : ∀ c, (g c).parent = c.parent)
    (hstate : ∀ c, (g c).state = .zombie → c.state = .zombie) : Calm k k' := by
  refine ⟨hslots, fun {a} ha ↦ ?_, fun {a c'} hc' ↦ ?_⟩
  · rw [hcore]
    split
    · simpa using ha
    · exact ha
  · rw [hcore] at hc'
    split at hc'
    · obtain ⟨c, hc, rfl⟩ := Option.map_eq_some_iff.mp hc'
      exact ⟨c, hc, hparent c, hstate c⟩
    · exact ⟨c', hc', rfl, id⟩

/-- The ring changes. -/
theorem Calm.of_unlinked (hslots : k'.slots = k.slots)
    (hcore : ∀ a, (k'.core a).map Core.unlinked = (k.core a).map Core.unlinked) : Calm k k' := by
  refine ⟨hslots, fun {a} ha hnone ↦ ?_, fun {a c'} hc' ↦ ?_⟩
  · have := hcore a
    rw [hnone, Option.map_none, eq_comm, Option.map_eq_none_iff] at this
    exact ha this
  · obtain ⟨c, hc, hs, -, hp⟩ := eq_some_of_unlinked (hcore a) hc'
    exact ⟨c, hc, hp, fun hz ↦ hs ▸ hz⟩

theorem Calm.of_inert (h : Inert k k') : Calm k k' := by
  refine ⟨h.slots, fun ha ↦ by rwa [h.core], fun hc ↦ ⟨_, h.core ▸ hc, rfl, id⟩⟩

theorem calm_switchTo (k : Machine) (next : Addr) : Calm k (switchTo k next) :=
  .of_core (switchTo_slots k next) (core_switchTo k next) (fun _ ↦ rfl) fun _ h ↦ by cases h

theorem calm_preempt (hcur : k.current = some t) : Calm k (preempt k) := by
  refine .of_core (frame_preempt k).slots (core_preempt hcur) (fun c ↦ ?_) fun c hc ↦ ?_
  · rw [Core.preempt]
    split <;> rfl
  · rw [Core.preempt] at hc
    split at hc
    · cases hc
    · exact hc

theorem calm_schedYield (hcur : k.current = some t) : Calm k (schedYield k) := by
  obtain heq | ⟨-, heq⟩ := schedYield_cases k
  · rw [heq]
    exact .refl k
  · rw [heq]
    exact (calm_preempt hcur).trans (calm_switchTo _ _)

theorem calm_schedTick (hcur : k.current = some t) : Calm k (schedTick k) := by
  obtain ⟨k₁, hk₁, -, heq | ⟨-, heq⟩⟩ := schedTick_cases k
  · rw [heq]
    exact .of_inert hk₁
  · rw [heq]
    have hcur₁ : k₁.current = some t := by rw [hk₁.current, hcur]
    exact (Calm.of_inert hk₁).trans ((calm_preempt hcur₁).trans (calm_switchTo _ _))

theorem calm_schedBlock (hcur : k.current = some t) (status : Nat) :
    Calm k (schedBlock k status) := by
  obtain ⟨k₁, hframe, hcore, h⟩ := schedBlock_cases hcur status
  have hk₁ : Calm k k₁ := .of_core hframe.slots hcore (fun _ ↦ rfl) fun _ h ↦ by cases h
  obtain ⟨-, heq⟩ | heq := h
  · rw [heq]
    exact hk₁
  · rw [heq]
    exact hk₁.trans (calm_switchTo _ _)

theorem calm_schedWakeupParent (ht : k.core t ≠ none) : Calm k (schedWakeupParent k t) := by
  obtain ⟨c, hc⟩ := Option.ne_none_iff_exists'.mp ht
  have hslots := (frame_schedWakeupParent k t).slots
  have hcore := core_schedWakeupParent hc
  cases hp : c.parent with
  | none =>
    have hsame : (schedWakeupParent k t).core = k.core := by
      funext a
      rw [hcore, hp, if_neg (by simp)]
    exact .of_inert ⟨frame_schedWakeupParent k t, hsame⟩
  | some p =>
    refine .of_core (t := p) (g := Core.wake) hslots (fun a ↦ ?_) (fun d ↦ ?_) fun d hd ↦ ?_
    · rw [hcore, hp]
      simp only [Option.some.injEq, eq_comm (a := p)]
    · rw [Core.wake]
      split <;> rfl
    · rw [Core.wake] at hd
      split at hd
      · cases hd
      · exact hd

theorem Family.calm (h : Family k) (hc : Calm k k') : Family k' := by
  have hback : ∀ {a}, k'.core a ≠ none → k.core a ≠ none := by
    intro a ha hnone
    obtain ⟨c', hc'⟩ := Option.ne_none_iff_exists'.mp ha
    obtain ⟨c, hcc, -⟩ := hc.core hc'
    rw [hnone] at hcc
    cases hcc
  refine ⟨fun hi ↦ ?_, fun ht hidle ↦ ?_, fun ht hp ↦ ?_, fun hz hs ht hp ↦ ?_, fun hi ↦ ?_⟩
  · exact hc.stays (h.slotLive (hc.slots ▸ hi))
  · rw [hc.slots]
    exact h.hasSlot (hback ht) hidle
  · obtain ⟨c, hcc, hpc, -⟩ := hc.core ht
    obtain ⟨hidle, hlive⟩ := h.parentLive hcc (hpc ▸ hp)
    exact ⟨hidle, hc.stays hlive⟩
  · obtain ⟨d, hd, -, hsd⟩ := hc.core hz
    obtain ⟨c, hcc, hpc, -⟩ := hc.core ht
    exact h.childless hd (hsd hs) hcc (hpc ▸ hp)
  · obtain ⟨c, hcc, hpc, -⟩ := hc.core hi
    rw [hpc]
    exact h.idleParent hcc

/-! ## Forks, exits and reaps -/

/-- A fork by a task that has not exited, into a free slot. -/
theorem Family.sysFork {child : Addr} {P : Task} (h : Family k) (hcur : k.current = some t)
    (hP : k.tasks t = some P) (hidle : t ≠ idle) (hstate : P.state ≠ .zombie)
    (hchild : child ≠ idle) (hfresh : k.tasks child = none) (hslot : freeSlot k ≠ none) :
    Family (sysFork k child).2 := by
  obtain ⟨k₂, hframe, hcore, hfork⟩ := sysFork_cases hcur hP child
  obtain ⟨i, hi⟩ := Option.ne_none_iff_exists'.mp hslot
  obtain ⟨hlt, hfree⟩ := freeSlot_eq_some hi
  have hslots : k₂.slots = update k.slots i (some child) :=
    hframe.slots.trans (slots_schedAlloc hi child)
  have hnone : k.core child = none := core_eq_none.mpr hfresh
  have htP : k.core t = some P.core := core_of_task hP
  have hlive : ∀ {a}, k.core a ≠ none → k₂.core a ≠ none := by
    intro a ha
    rw [hcore]
    split
    · simp
    · exact ha
  have hold : ∀ {a c}, a ≠ child → k₂.core a = some c → k.core a = some c := by
    intro a c ha hc
    rwa [hcore, if_neg ha] at hc
  have hnew : ∀ {c}, k₂.core child = some c → c = { Core.fresh with parent := some t } := by
    intro c hc
    rw [hcore, if_pos rfl] at hc
    exact (Option.some.inj hc).symm
  have hk₂ : Family k₂ := by
    refine ⟨fun {j a} hj ↦ ?_, fun {a} ha hai ↦ ?_, fun {a c p} hc hp ↦ ?_,
      fun {z d a c} hd hz hc hp ↦ ?_, fun hc ↦ ?_⟩
    · by_cases hji : j = i
      · subst hji
        rw [hslots, update_self] at hj
        obtain rfl := Option.some.inj hj
        simp [hcore]
      · rw [hslots, update_of_ne hji] at hj
        exact hlive (h.slotLive hj)
    · by_cases hac : a = child
      · exact ⟨i, hlt, by rw [hslots, hac, update_self]⟩
      · rw [hcore, if_neg hac] at ha
        obtain ⟨j, hj, hja⟩ := h.hasSlot ha hai
        have hji : j ≠ i := by
          rintro rfl
          rw [hfree] at hja
          cases hja
        exact ⟨j, hj, by rw [hslots, update_of_ne hji, hja]⟩
    · by_cases hac : a = child
      · subst hac
        obtain rfl := hnew hc
        obtain rfl := Option.some.inj hp
        exact ⟨hidle, hlive (by rw [htP]; simp)⟩
      · obtain ⟨hpi, hpl⟩ := h.parentLive (hold hac hc) hp
        exact ⟨hpi, hlive hpl⟩
    · have hzc : z ≠ child := by
        rintro rfl
        rw [hnew hd] at hz
        cases hz
      have hd' := hold hzc hd
      by_cases hac : a = child
      · subst hac
        obtain rfl := hnew hc
        obtain rfl := Option.some.inj hp
        rw [htP] at hd'
        obtain rfl := Option.some.inj hd'
        exact hstate hz
      · exact h.childless hd' hz (hold hac hc) hp
    · exact h.idleParent (hold hchild.symm hc)
  obtain ⟨-, heq⟩ | ⟨-, heq⟩ := hfork
  · rw [heq]
    exact hk₂
  · rw [heq]
    exact hk₂.calm (.of_unlinked (slots_schedAdd _ _) (unlinked_schedAdd _ _))

/-- A task dies and nobody points to it. -/
theorem Family.dies (h : Family k) (hslots : k'.slots = k.slots)
    (hstays : ∀ {a}, k.core a ≠ none → k'.core a ≠ none)
    (hcore : ∀ {a c'}, k'.core a = some c' → ∃ c, k.core a = some c ∧
      (c'.parent = c.parent ∨ c'.parent = none) ∧ c'.parent ≠ some t ∧
      (a ≠ t → c'.state = .zombie → c.state = .zombie)) : Family k' := by
  have hparent : ∀ {a c' p}, k'.core a = some c' → c'.parent = some p →
      ∃ c, k.core a = some c ∧ c.parent = some p := by
    intro a c' p hc' hp
    obtain ⟨c, hc, hpc | hpc, -, -⟩ := hcore hc'
    · exact ⟨c, hc, hpc ▸ hp⟩
    · rw [hpc] at hp
      cases hp
  refine ⟨fun hi ↦ ?_, fun {a} ha hai ↦ ?_, fun hc hp ↦ ?_, fun {z d a c} hd hz hc hp ↦ ?_,
    fun hc ↦ ?_⟩
  · exact hstays (h.slotLive (hslots ▸ hi))
  · obtain ⟨c', hc'⟩ := Option.ne_none_iff_exists'.mp ha
    obtain ⟨c, hc, -⟩ := hcore hc'
    rw [hslots]
    exact h.hasSlot (by rw [hc]; simp) hai
  · obtain ⟨c, hc, hpc⟩ := hparent hc hp
    obtain ⟨hpi, hpl⟩ := h.parentLive hc hpc
    exact ⟨hpi, hstays hpl⟩
  · by_cases hzt : z = t
    · subst hzt
      obtain ⟨-, -, -, hne, -⟩ := hcore hc
      exact hne hp
    · obtain ⟨d₀, hd₀, -, -, hs⟩ := hcore hd
      obtain ⟨c₀, hc₀, hp₀⟩ := hparent hc hp
      exact h.childless hd₀ (hs hzt hz) hc₀ hp₀
  · obtain ⟨c₀, hc₀, hp | hp, -, -⟩ := hcore hc
    · rw [hp]
      exact h.idleParent hc₀
    · exact hp

/-- Without a child in the table, no task points to `t`. -/
theorem Family.no_child (h : Family k) (hno : ∀ i, i < maxTasks → childAt k t i = false) {a : Addr}
    {c : Core} (hc : k.core a = some c) : c.parent ≠ some t := by
  intro hp
  by_cases hai : a = idle
  · subst hai
    rw [h.idleParent hc] at hp
    cases hp
  · obtain ⟨i, hi, hia⟩ := h.hasSlot (by rw [hc]; simp) hai
    obtain ⟨T, hT, rfl⟩ := core_eq_some.mp hc
    have := hno i hi
    rw [childAt_iff.mpr ⟨a, T, hia, hT, hp⟩] at this
    cases this

/-- `sys_kill` and Ctrl-C on a task that has no child. -/
theorem Family.terminate (h : Family k) (ht : k.core t ≠ none)
    (hno : ∀ i, i < maxTasks → childAt k t i = false) (code : Int) :
    Family (terminate k t code) := by
  have hcore := core_marked k t code
  set k₁ := k.upd t fun T ↦ { T with exitCode := code, state := .zombie } with hk₁
  have hlive : ∀ {a}, k.core a ≠ none → k₁.core a ≠ none := by
    intro a ha
    rw [hcore]
    simpa using ha
  suffices hdead : Family k₁ from hdead.calm (calm_schedWakeupParent (hlive ht))
  refine h.dies (t := t) rfl hlive fun {a c'} hc' ↦ ?_
  rw [hcore] at hc'
  obtain ⟨c, hc, rfl⟩ := Option.map_eq_some_iff.mp hc'
  have hp := c.marked_parent t a
  refine ⟨c, hc, .inl hp, hp ▸ h.no_child hno hc, fun hne hz ↦ ?_⟩
  rwa [Core.marked, if_neg hne] at hz

/-- What `sched_exit` does before it wakes the parent: all children are in the table, so
all become orphans. -/
theorem Family.exitTask_cases (h : Family k) (t : Addr) (code : Int) :
    ∃ k₁, exitTask k t code = schedWakeupParent k₁ t ∧ Frame k k₁ ∧
      ∀ a, k₁.core a = (k.core a).map (Core.disown t ∘ Core.marked t a) := by
  obtain ⟨k₁, heq, hframe, hcore⟩ := Kernel.exitTask_cases k t code
  refine ⟨k₁, heq, hframe, fun a ↦ ?_⟩
  obtain ⟨-, hca⟩ | ⟨hno, hca⟩ := hcore a
  · exact hca
  · -- only the idle task is outside the table, and it has no parent
    rw [hca]
    cases hc : k.core a with
    | none => rfl
    | some c =>
      have hidle : a = idle := by
        by_contra hai
        obtain ⟨j, hj, hja⟩ := h.hasSlot (by rw [hc]; simp) hai
        exact hno j hj hja
      subst hidle
      have hp : (c.marked t idle).parent ≠ some t := by
        rw [Core.marked_parent, h.idleParent hc]
        simp
      rw [Option.map_some, Option.map_some, Function.comp_apply, Core.disown, if_neg hp]

/-- An exit makes orphans of the children. -/
theorem Family.exitTask (h : Family k) (ht : k.core t ≠ none) (code : Int) :
    Family (exitTask k t code) := by
  obtain ⟨k₁, heq, hframe, hcore⟩ := h.exitTask_cases t code
  have hlive : ∀ {a}, k.core a ≠ none → k₁.core a ≠ none := by
    intro a ha
    rw [hcore]
    simpa using ha
  rw [heq]
  suffices hdead : Family k₁ from hdead.calm (calm_schedWakeupParent (hlive ht))
  refine h.dies (t := t) hframe.slots hlive fun {a c'} hc' ↦ ?_
  rw [hcore] at hc'
  obtain ⟨c, hc, rfl⟩ := Option.map_eq_some_iff.mp hc'
  have hs : a ≠ t → (c.marked t a).state = .zombie → c.state = .zombie := by
    intro hne hz
    rwa [Core.marked, if_neg hne] at hz
  by_cases hpt : (c.marked t a).parent = some t
  · have hd : (Core.disown t ∘ Core.marked t a) c = { c.marked t a with parent := none } :=
      if_pos hpt
    rw [hd]
    exact ⟨c, hc, .inr rfl, by simp, hs⟩
  · have hd : (Core.disown t ∘ Core.marked t a) c = c.marked t a := if_neg hpt
    rw [hd]
    exact ⟨c, hc, .inl (c.marked_parent t a), hpt, hs⟩

/-- Reaping a task that has exited. -/
theorem Family.schedReap {d : Core} (h : Family k) (hd : k.core t = some d) (hz : d.state = .zombie)
    : Family (schedReap k t) := by
  have hring : Family (ringRemove k t) :=
    h.calm (.of_unlinked (slots_ringRemove k t) (unlinked_ringRemove k t))
  have hcalm : Calm k (ringRemove k t) :=
    .of_unlinked (slots_ringRemove k t) (unlinked_ringRemove k t)
  have hold : ∀ {a c}, (Kernel.schedReap k t).core a = some c →
      a ≠ t ∧ (ringRemove k t).core a = some c := by
    intro a c hc
    rw [core_schedReap] at hc
    split at hc
    · cases hc
    case isFalse hat => exact ⟨hat, hc⟩
  have hnoparent : ∀ {a c}, (Kernel.schedReap k t).core a = some c → c.parent ≠ some t := by
    intro a c hc hp
    obtain ⟨c₀, hc₀, hp₀, -⟩ := hcalm.core (hold hc).2
    exact h.childless hd hz hc₀ (hp₀ ▸ hp)
  refine ⟨fun {i a} hi ↦ ?_, fun {a} ha hai ↦ ?_, fun {a c p} hc hp ↦ ?_,
    fun {z d a c} hd hz hc ↦ ?_, fun hc ↦ ?_⟩
  · rw [slots_schedReap] at hi
    split at hi
    · cases hi
    case isFalse hne =>
      have hat : a ≠ t := by
        rintro rfl
        exact hne hi
      rw [core_schedReap, if_neg hat]
      exact hcalm.stays (h.slotLive hi)
  · obtain ⟨c, hc⟩ := Option.ne_none_iff_exists'.mp ha
    obtain ⟨hat, hc⟩ := hold hc
    obtain ⟨i, hi, hia⟩ := hring.hasSlot (by rw [hc]; simp) hai
    rw [slots_ringRemove] at hia
    refine ⟨i, hi, ?_⟩
    rw [slots_schedReap, if_neg, hia]
    rw [hia]
    simpa using hat
  · obtain ⟨hpi, hpl⟩ := hring.parentLive (hold hc).2 hp
    refine ⟨hpi, ?_⟩
    rw [core_schedReap, if_neg]
    · exact hpl
    · rintro rfl
      exact hnoparent hc hp
  · exact hring.childless (hold hd).2 hz (hold hc).2
  · exact hring.idleParent (hold hc).2

/-! ## Being terminated -/

/-- `t` has no child in the table. -/
def Childless (k : Machine) (t : Addr) : Prop := ∀ i, i < maxTasks → childAt k t i = false

theorem childAt_of_parents (hslots : k'.slots = k.slots)
    (hparents : ∀ a, (k'.core a).map Core.parent = (k.core a).map Core.parent) (t : Addr) (i : Nat)
    : childAt k' t i = childAt k t i := by
  have hiff : ∀ k : Machine, childAt k t i = true ↔
      ∃ a, k.slots i = some a ∧ (k.core a).map Core.parent = some (some t) := by
    intro k
    rw [childAt_iff]
    constructor
    · rintro ⟨a, C, ha, hC, hp⟩
      exact ⟨a, ha, by rw [core_of_task hC, Option.map_some]; exact congrArg some hp⟩
    · rintro ⟨a, ha, hp⟩
      obtain ⟨c, hc, hp⟩ := Option.map_eq_some_iff.mp hp
      obtain ⟨C, hC, rfl⟩ := core_eq_some.mp hc
      exact ⟨a, C, ha, hC, hp⟩
  rw [Bool.eq_iff_iff, hiff, hiff, hslots]
  simp only [hparents]

theorem victimAt_eq_some {owner : Addr} {i : Nat} :
    victimAt k owner i = some t ↔ k.slots i = some t ∧
      ∃ c, k.core t = some c ∧ c.parent = some owner ∧ c.state ≠ .zombie := by
  rw [victimAt]
  cases hi : k.slots i with
  | none => simp
  | some a =>
    cases hT : k.tasks a with
    | none =>
      simp only [hT, reduceCtorEq, Option.some.injEq, false_iff, not_and]
      rintro rfl ⟨c, hc, -⟩
      rw [core_eq_none.mpr hT] at hc
      cases hc
    | some T =>
      simp only [hT, Option.some.injEq]
      constructor
      · intro h
        split at h
        case isTrue hv =>
          obtain rfl := Option.some.inj h
          exact ⟨rfl, T.core, core_of_task hT, hv⟩
        case isFalse => cases h
      · rintro ⟨rfl, c, hc, hv⟩
        rw [core_of_task hT] at hc
        obtain rfl := Option.some.inj hc
        exact if_pos hv

/-- Terminating a task changes no parent, and brings no task back. -/
theorem terminate_spec (ht : k.core t ≠ none) (code : Int) :
    (terminate k t code).slots = k.slots ∧
      (∀ a, ((terminate k t code).core a).map Core.parent = (k.core a).map Core.parent) ∧
      ∀ {a c'}, (terminate k t code).core a = some c' → c'.state ≠ .zombie →
        ∃ c, k.core a = some c ∧ c.parent = c'.parent ∧ c.state ≠ .zombie := by
  have hmark := core_marked k t code
  set k₁ := k.upd t fun T ↦ { T with exitCode := code, state := .zombie } with hk₁
  obtain ⟨d, hd⟩ := Option.ne_none_iff_exists'.mp ht
  have hd₁ : k₁.core t = some (d.marked t t) := by rw [hmark, hd, Option.map_some]
  have hwake := core_schedWakeupParent hd₁
  have hmarked : ∀ (a : Addr) (c : Core), (c.marked t a).parent = c.parent ∧
      ((c.marked t a).state ≠ .zombie → c.state ≠ .zombie) := by
    intro a c
    rw [Core.marked]
    split
    · exact ⟨rfl, fun h ↦ absurd rfl h⟩
    · exact ⟨rfl, id⟩
  have hwoken : ∀ c : Core, c.wake.parent = c.parent ∧
      (c.wake.state ≠ .zombie → c.state ≠ .zombie) := by
    intro c
    rw [Core.wake]
    split
    case isTrue h => exact ⟨rfl, fun _ hz ↦ by rw [hz] at h; cases h.1⟩
    case isFalse => exact ⟨rfl, id⟩
  refine ⟨(frame_schedWakeupParent k₁ t).slots, fun a ↦ ?_, fun {a c'} hc' hz ↦ ?_⟩
  · rw [terminate, hwake, hmark]
    split
    · rw [Option.map_map, Option.map_map]
      congr 1
      funext c
      exact (hwoken _).1.trans (hmarked a c).1
    · rw [Option.map_map]
      congr 1
      funext c
      exact (hmarked a c).1
  · rw [terminate, hwake, hmark] at hc'
    split at hc'
    · rw [Option.map_map] at hc'
      obtain ⟨c, hc, rfl⟩ := Option.map_eq_some_iff.mp hc'
      exact ⟨c, hc, ((hwoken _).1.trans (hmarked a c).1).symm, (hmarked a c).2 ((hwoken _).2 hz)⟩
    · obtain ⟨c, hc, rfl⟩ := Option.map_eq_some_iff.mp hc'
      exact ⟨c, hc, (hmarked a c).1.symm, (hmarked a c).2 hz⟩

theorem Family.interruptFrom {owner : Addr} (h : Family k) {i n : Nat} (hn : i + n ≤ maxTasks)
    (hvictims : ∀ j t, j < maxTasks → victimAt k owner j = some t → Childless k t) :
    Family (interruptFrom owner i n k) := by
  induction n generalizing k i with
  | zero => exact h
  | succ n ih =>
    rw [Kernel.interruptFrom, interruptSlot]
    split
    · exact ih h (by omega) hvictims
    case h_2 t ht =>
      obtain ⟨hi, c, hc, -, -⟩ := victimAt_eq_some.mp ht
      have hlive : k.core t ≠ none := by rw [hc]; simp
      obtain ⟨hslots, hparents, hback⟩ := terminate_spec hlive 130
      refine ih (h.terminate hlive (hvictims i t (by omega) ht) 130) (by omega) ?_
      intro j x hj hx l hl
      rw [childAt_of_parents hslots hparents]
      obtain ⟨hxs, c', hc', hp', hz'⟩ := victimAt_eq_some.mp hx
      obtain ⟨c₀, hc₀, hp₀, hz₀⟩ := hback hc' hz'
      exact hvictims j x hj (victimAt_eq_some.mpr ⟨hslots ▸ hxs, c₀, hc₀, hp₀.trans hp', hz₀⟩)
        l hl

/-! ## Runs -/

/-- The steps that keep the pointers good: a fork by a task that has not exited, into a
free slot; `sys_kill` and Ctrl-C on tasks without children. -/
def Careful (k : Machine) (a : Addr × Event) : Prop :=
  match a.2 with
  | .call (.fork _) => Alive k a.1 ∧ freeSlot k ≠ none
  | .call (.kill pid) => ∀ t, schedFind k pid = some t → Childless k t
  | .interrupt => ∀ owner, schedFind k k.foreground = some owner →
      ∀ i t, i < maxTasks → victimAt k owner i = some t → Childless k t
  | _ => True

theorem Family.wait4Round (h : Family k) (hcur : k.current = some t) (status : Nat) :
    Family (wait4Round k status).2 := by
  obtain ⟨i, c, C, -, -, hC, -, hs, heq⟩ | ⟨-, heq⟩ | ⟨-, -, heq⟩ := wait4Round_cases hcur status
  · obtain ⟨mem, hmem⟩ := collect_eq k t c status
    rw [heq, hmem]
    have hk : Family { k with mem := mem } := h.calm (.of_inert ⟨⟨rfl, rfl, rfl, rfl, rfl⟩, rfl⟩)
    exact hk.schedReap (core_of_task (k := { k with mem := mem }) hC) hs
  · rw [heq]
    exact h
  · rw [heq]
    have hwait : Calm k (k.upd t fun T ↦ { T with waiting := true }) :=
      .of_core rfl (core_upd (g := fun c ↦ { c with waiting := true }) fun _ ↦ rfl)
        (fun _ ↦ rfl) fun _ ↦ id
    exact h.calm (hwait.trans (calm_schedBlock (by rw [upd_current, hcur]) status))

theorem Family.step {e : Event} (h : Family k) (hcur : k.current = some t)
    (hsafe : Careful k (t, e)) (hstep : Step k e k') : Family k' := by
  cases hstep with
  | @call t' T c hcur' hidle hT hctx hfresh =>
    obtain rfl : t' = t := Option.some.inj (hcur'.symm.trans hcur)
    have hlive : k.core t' ≠ none := by rw [core_of_task hT]; simp
    cases c with
    | exit code =>
      have hexit := h.exitTask hlive code
      change Family (schedExit k code)
      rw [schedExit, hcur]
      exact hexit.calm (calm_switchTo _ _)
    | fork child =>
      obtain ⟨⟨T', hT', hs⟩, hslot⟩ := hsafe
      exact h.sysFork hcur hT' hidle hs hfresh.1 hfresh.2 hslot
    | wait4 status => exact h.wait4Round hcur status
    | kill pid =>
      change Family (sysKill k pid).2
      rw [sysKill]
      split
      · exact h
      case h_2 z hz =>
        split
        · exact h
        · obtain ⟨i, -, hi⟩ := Option.bind_eq_some_iff.mp hz
          exact h.terminate (h.slotLive hi) (hsafe z hz) 137
    | yield => exact h.calm (calm_schedYield hcur)
    | _ => exact h.calm (.of_inert (mild_dispatch (by trivial)).inert)
  | @resume t' T status hcur' hidle hT hctx =>
    have hctx : Inert k (k.updCurrent fun T ↦ { T with ctx := .user }) :=
      .updCurrent k fun _ ↦ rfl
    exact (h.calm (.of_inert hctx)).wait4Round (hctx.current.trans hcur) status
  | tick => exact h.calm (calm_schedTick hcur)
  | interrupt =>
    rw [interruptForeground]
    split
    · exact h
    case h_2 owner howner =>
      exact h.interruptFrom (Nat.zero_add _).le (hsafe owner howner)

theorem Family.turn {a : Addr × Event} (h : Family k) (hsafe : Careful k a) (hturn : Turn k a k') :
    Family k' :=
  Family.step (k := { k with current := some a.1 })
    ⟨h.slotLive, h.hasSlot, h.parentLive, h.childless, h.idleParent⟩ rfl hsafe hturn.2

theorem family_boot (h : Boot k) : Family k := by
  obtain ⟨t, cons, hb⟩ := h.booted
  have hcore : ∀ {a c}, k.core a = some c → (a = t ∨ a = idle) ∧ c.parent = none ∧
      c.state ≠ .zombie := by
    intro a c hc
    rw [hb.core] at hc
    split at hc
    case isTrue hat =>
      obtain rfl := Option.some.inj hc
      exact ⟨.inl hat, rfl, TState.noConfusion⟩
    case isFalse =>
      split at hc
      case isTrue hai =>
        obtain rfl := Option.some.inj hc
        exact ⟨.inr hai, rfl, TState.noConfusion⟩
      case isFalse => cases hc
  have hlive : k.core t ≠ none := by
    rw [hb.core, if_pos rfl]
    simp
  refine ⟨fun {i a} hi ↦ ?_, fun {a} ha hai ↦ ?_, fun hc hp ↦ ?_, fun hd hz ↦ ?_, fun hc ↦ ?_⟩
  · rw [hb.slots, update_apply] at hi
    split at hi
    · obtain rfl := Option.some.inj hi
      exact hlive
    · cases hi
  · obtain ⟨c, hc⟩ := Option.ne_none_iff_exists'.mp ha
    obtain rfl := (hcore hc).1.resolve_right hai
    exact ⟨0, by decide, by rw [hb.slots, update_self]⟩
  · rw [(hcore hc).2.1] at hp
    cases hp
  · exact absurd hz (hcore hd).2.2
  · exact (hcore hc).2.1

/-- **No dangling parent pointer.**  In every run, by any tasks in any order, in which
forks find a free slot and are not made by a task that was killed, and `sys_kill` and
Ctrl-C hit tasks without children: the parent of every task in the table is `NULL` or a
task in the table, which is not freed. -/
theorem no_dangling_parent {k : Machine} (h : Reach Boot (Under Careful Turn) k) :
    ∀ i t T p, i < maxTasks → k.slots i = some t → k.tasks t = some T → T.parent = some p →
      ∃ j, j < maxTasks ∧ k.slots j = some p ∧ k.tasks p ≠ none := by
  have hinv : Family k := h.invariant (P := Family) (fun _ ↦ family_boot)
    fun _ _ _ hi hs ↦ hi.turn hs.1 hs.2
  intro i t T p _ _ hT hp
  obtain ⟨hidle, hlive⟩ := hinv.parentLive (core_of_task hT) hp
  obtain ⟨j, hj, hjp⟩ := hinv.hasSlot hlive hidle
  exact ⟨j, hj, hjp, fun hnone ↦ hlive (core_eq_none.mpr hnone)⟩

/-- On the small machine, the first task forks a child at the address `3`, which forks a
child at `4`; the two children yield in turn. -/
def sampleGrandchild : Machine :=
  schedYield (schedYield (forkBlank (schedYield (forkBlank sampleBoot 3)) 4))

theorem reach_sampleGrandchild : Reach Boot (Under Careful Turn) sampleGrandchild := by
  have h₁ := step_forkBlank (k := sampleBoot) (t := 1) 3 rfl (by decide) rfl (by decide)
    rfl rfl (by decide) rfl
  have h₂ := step_yield (k := forkBlank sampleBoot 3) (t := 1) rfl (by decide) rfl rfl
  have h₃ := step_forkBlank (k := schedYield (forkBlank sampleBoot 3)) (t := 3) 4 rfl
    (by decide) rfl (by decide) rfl rfl (by decide) rfl
  have h₄ := step_yield (k := forkBlank (schedYield (forkBlank sampleBoot 3)) 4) (t := 3) rfl
    (by decide) rfl rfl
  have h₅ := step_yield (k := schedYield (forkBlank (schedYield (forkBlank sampleBoot 3)) 4))
    (t := 4) rfl (by decide) rfl rfl
  refine .step (a := (4, .call .yield)) (.step (a := (3, .call .yield)) (.step
    (a := (3, .call (.fork 4))) (.step (a := (1, .call .yield)) (.step (a := (1, .call (.fork 3)))
      (.init boot_sampleBoot) ⟨⟨⟨_, rfl, TState.noConfusion⟩, by decide⟩, .of_step rfl h₁⟩)
      ⟨trivial, .of_step rfl h₂⟩) ⟨⟨⟨_, rfl, TState.noConfusion⟩, by decide⟩, .of_step rfl h₃⟩)
      ⟨trivial, .of_step rfl h₄⟩) ⟨trivial, .of_step rfl h₅⟩

/-- The grandchild is in slot 2, and its parent is in the table. -/
theorem no_dangling_parent_grandchild :
    ((sampleGrandchild.tasks 4).bind Task.parent = some 3) ∧
    ∃ j, j < maxTasks ∧ sampleGrandchild.slots j = some 3 ∧ sampleGrandchild.tasks 3 ≠ none :=
  ⟨rfl, no_dangling_parent reach_sampleGrandchild 2 4 _ 3 (by decide) rfl rfl rfl⟩

/-- The first task kills its child and collects it. -/
def sampleDangling : Machine := (wait4Round (sysKill sampleGrandchild 2).2 0).2

/-- The grandchild is still in the table and points to the structure of its parent, which
is freed and in no slot. -/
theorem killed_parent_dangles : Reach Boot Turn sampleDangling ∧
    sampleDangling.slots 2 = some 4 ∧ (sampleDangling.tasks 4).bind Task.parent = some 3 ∧
    sampleDangling.tasks 3 = none ∧ ∀ j, j < maxTasks → sampleDangling.slots j ≠ some 3 := by
  have h₁ : Step sampleGrandchild (.call (.kill 2)) (sysKill sampleGrandchild 2).2 :=
    .call (t := 1) (c := .kill 2) rfl (by decide) rfl rfl trivial
  have h₂ : Step (sysKill sampleGrandchild 2).2 (.call (.wait4 0)) sampleDangling :=
    .call (t := 1) (c := .wait4 0) rfl (by decide) rfl rfl trivial
  refine ⟨.step (.step reach_sampleGrandchild.of_under (.of_step rfl h₁)) (.of_step rfl h₂),
    rfl, rfl, rfl, ?_⟩
  intro j hj
  rw [maxTasks] at hj
  interval_cases j <;> decide

end FentoOS.Kernel
