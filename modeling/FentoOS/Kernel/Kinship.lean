import FentoOS.Kernel.Zombies

/-!
# Parent pids

A task knows its parent twice: by the pointer `parent`, which `wait4` and the
wake-up follow, and by the number `ppid`, which `getppid` returns.  `fork` writes
both.  `sched_exit` writes both for the children of the task that exits, but it
sets the number to 1 and the pointer to `NULL`, so these children are announced to
the first task and nobody will ever collect them.

The two agree in runs in which only tasks without children exit.  Then a zombie
has a parent that is not one, and whose `wait4` finds it.
-/

namespace FentoOS.Kernel

open FentoOS.Lib FentoOS.Fs FentoOS.Mm Function

/-- The task keeps its pid and its parent, and it is a zombie if it was one. -/
structure Task.Akin (T T' : Task) : Prop where
  pid : T'.pid = T.pid
  ppid : T'.ppid = T.ppid
  parent : T'.parent = T.parent
  zombie : T'.state = .zombie ↔ T.state = .zombie

theorem Task.Akin.refl (T : Task) : T.Akin T := ⟨rfl, rfl, rfl, .rfl⟩

theorem Task.Stays.akin {T T' : Task} (h : T.Stays T') : T.Akin T' :=
  ⟨h.pid, h.ppid, h.parent, h.zombie⟩

/-- `t` is the first task, or its parent is a task that has not exited and has the pid
`ppid`. -/
def Parented (k : Machine) (T : Task) : Prop :=
  (T.parent = none ∧ T.pid = 1) ∨
    ∃ p P, T.parent = some p ∧ k.tasks p = some P ∧ P.pid = T.ppid ∧ P.state ≠ .zombie

/-- Every task of the table has its parent, and the current task is not a zombie. -/
structure Kin (k : Machine) : Prop where
  slots : ∀ {i t}, k.slots i = some t → i < maxTasks ∧ t ≠ idle
  parented : ∀ {i t T}, k.slots i = some t → k.tasks t = some T → Parented k T
  idleLive : NoZombie k idle
  current : ∀ {t}, k.current = some t → NoZombie k t

section

variable {k k' : Machine} {t : Addr}

theorem Evolves.noZombie (h : Evolves Task.Akin k k') {a : Addr} (ha : NoZombie k a) :
    NoZombie k' a := by
  intro T' hT' hz
  obtain ⟨T, hT, hs⟩ := h.of_eq_some hT'
  exact ha T hT (hs.zombie.mp hz)

/-- The parents are the same. -/
theorem Parented.akin {T T' : Task} (h : Parented k T) (hT : T.Akin T')
    (hk : Evolves Task.Akin k k') : Parented k' T' := by
  rcases h with ⟨hp, hpid⟩ | ⟨p, P, hp, hP, hpid, hz⟩
  · exact .inl ⟨hT.parent.trans hp, hT.pid.trans hpid⟩
  · obtain ⟨P', hP', hs⟩ := hk.eq_some hP
    refine .inr ⟨p, P', hT.parent.trans hp, hP', ?_, fun hz' ↦ hz (hs.zombie.mp hz')⟩
    rw [hs.pid, hpid, hT.ppid]

theorem Kin.akin (h : Kin k) (hk : Evolves Task.Akin k k') (hslots : k'.slots = k.slots)
    (hcur : ∀ {t}, k'.current = some t → NoZombie k' t) : Kin k' := by
  refine ⟨fun hi ↦ h.slots (hslots ▸ hi), fun {i t T'} hi hT' ↦ ?_, hk.noZombie h.idleLive, hcur⟩
  obtain ⟨T, hT, hs⟩ := hk.of_eq_some hT'
  exact (h.parented (hslots ▸ hi) hT).akin hs hk

theorem Kin.stay (h : Kin k) (hs : Stay k k') (hslots : k'.slots = k.slots)
    (hcur : k'.current = k.current) : Kin k' :=
  h.akin (hs.mono fun _ _ ↦ Task.Stays.akin) hslots fun ht ↦ hs.noZombie (h.current (hcur ▸ ht))

theorem Kin.mild (h : Kin k) (hm : Mild k k') : Kin k' := h.stay hm.stay hm.slots hm.current

/-- The processor goes to a task that is not a zombie. -/
theorem Kin.switchTo (h : Kin k) {next : Addr} (hnext : NoZombie k next) :
    Kin (switchTo k next) := by
  have hs := stay_switchTo hnext
  refine h.akin (hs.mono fun _ _ ↦ Task.Stays.akin) (switchTo_slots k next) fun {t} ht ↦ ?_
  rw [switchTo_current] at ht
  obtain rfl := Option.some.inj ht
  exact hs.noZombie hnext

theorem Kin.preempt (h : Kin k) : Kin (Kernel.switchTo (preempt k) (pickNext k)) := by
  have hp := stay_preempt k
  have hframe := frame_preempt k
  exact (h.stay hp hframe.slots hframe.current).switchTo
    (hp.noZombie (noZombie_pickNext h.idleLive))

theorem Kin.schedYield (h : Kin k) : Kin (schedYield k) := by
  obtain heq | ⟨-, heq⟩ := schedYield_cases k
  · rwa [heq]
  · rw [heq]
    exact h.preempt

theorem Kin.schedTick (h : Kin k) : Kin (schedTick k) := by
  obtain ⟨k₁, hk₁, hcounts, heq | ⟨-, heq⟩⟩ := schedTick_cases k
  · rw [heq]
    exact h.stay (stay_counts hcounts) hk₁.slots hk₁.current
  · rw [heq]
    exact (h.stay (stay_counts hcounts) hk₁.slots hk₁.current).preempt

/-! ## Forks, exits and reaps -/

theorem Kin.sysFork {P : Task} {child : Addr} (h : Kin k) (hcur : k.current = some t)
    (hP : k.tasks t = some P) (hci : child ≠ idle) (hnone : k.tasks child = none) :
    Kin (sysFork k child).2 := by
  obtain ⟨k₂, hstay, hslots, hcur', C, htasks, -, hppid, hparent, -, hs⟩ :=
    sysFork_tasks hcur hP child
  have hold : ∀ {a T}, k.tasks a = some T → a ≠ child ∧ k₂.tasks a = some T := by
    intro a T hT
    have hac : a ≠ child := by
      rintro rfl
      rw [hnone] at hT
      cases hT
    exact ⟨hac, by rw [htasks, update_of_ne hac, hT]⟩
  have hnz : ∀ {a}, NoZombie k a → NoZombie k₂ a := by
    intro a ha T hT
    rw [htasks, update_apply] at hT
    split at hT
    · obtain rfl := Option.some.inj hT
      rw [hs]
      exact TState.noConfusion
    · exact ha T hT
  have hk₂ : Evolves Task.Akin k₂ (Kernel.sysFork k child).2 :=
    hstay.mono fun _ _ ↦ Task.Stays.akin
  refine ⟨fun {i a} hi ↦ ?_, fun {i a T'} hi hT' ↦ ?_, hstay.noZombie (hnz h.idleLive),
    fun {a} ha ↦ ?_⟩
  · rw [hslots] at hi
    rcases slots_schedAlloc_cases hi with hi | ⟨hlt, rfl⟩
    · exact h.slots hi
    · exact ⟨hlt, hci⟩
  · obtain ⟨T, hT, hst⟩ := hstay.of_eq_some hT'
    refine Parented.akin ?_ hst.akin hk₂
    by_cases hac : a = child
    · subst hac
      rw [htasks, update_self] at hT
      obtain rfl := Option.some.inj hT
      exact .inr ⟨t, P, hparent, (hold hP).2, hppid.symm, h.current hcur P hP⟩
    · rw [htasks, update_of_ne hac] at hT
      rw [hslots] at hi
      have hi := (slots_schedAlloc_cases hi).resolve_right fun hc ↦ hac hc.2
      rcases h.parented hi hT with hfirst | ⟨p, Q, hp, hQ, hpid, hz⟩
      · exact .inl hfirst
      · exact .inr ⟨p, Q, hp, (hold hQ).2, hpid, hz⟩
  · exact hstay.noZombie (hnz (h.current (hcur' ▸ ha)))

/-- Without children, the loop of `sched_exit` over the children does nothing. -/
theorem orphan_tasks (hno : ∀ {i a T}, i < maxTasks → k.slots i = some a → k.tasks a = some T →
    T.parent ≠ some t) {i n : Nat} (hn : i + n ≤ maxTasks) : (orphan k t i n).tasks = k.tasks := by
  induction n generalizing k i with
  | zero => rfl
  | succ n ih =>
    have hslot : (orphanSlot k t i).tasks = k.tasks := by
      rw [orphanSlot]
      cases ha : k.slots i with
      | none => rfl
      | some a =>
        funext b
        simp only [upd_tasks]
        split
        case isTrue hb =>
          subst hb
          cases hT : k.tasks b with
          | none => rfl
          | some T =>
            rw [Option.map_some, if_neg (hno (by omega) ha hT)]
        case isFalse => rfl
    rw [orphan, ih (k := orphanSlot k t i) (i := i + 1) ?_ (by omega), hslot]
    intro j a T hj ha hT
    rw [slots_orphanSlot] at ha
    rw [hslot] at hT
    exact hno hj ha hT

/-- A task without children exits. -/
theorem Kin.schedExit (h : Kin k) (hcur : k.current = some t) (hti : t ≠ idle)
    (hno : Childless k t) (code : Int) :
    Kin (schedExit k code) := by
  have hnochild : ∀ {i a T}, i < maxTasks → k.slots i = some a → k.tasks a = some T →
      T.parent ≠ some t := by
    intro i a T hi ha hT hp
    have := hno i hi
    rw [childAt_iff.mpr ⟨a, T, ha, hT, hp⟩] at this
    cases this
  set k₁ := k.upd t fun T ↦ { T with exitCode := code, state := .zombie } with hk₁
  have hk₁t : ∀ {a T₁}, k₁.tasks a = some T₁ → ∃ T, k.tasks a = some T ∧ T₁.parent = T.parent ∧
      T₁.pid = T.pid ∧ T₁.ppid = T.ppid ∧ (a ≠ t → T₁ = T) := by
    intro a T₁ hT₁
    rw [hk₁, upd_tasks] at hT₁
    split at hT₁
    case isTrue hat =>
      subst hat
      obtain ⟨T, hT, rfl⟩ := Option.map_eq_some_iff.mp hT₁
      exact ⟨T, hT, rfl, rfl, rfl, fun hne ↦ absurd rfl hne⟩
    case isFalse => exact ⟨T₁, hT₁, rfl, rfl, rfl, fun _ ↦ rfl⟩
  have horphan : (orphan k₁ t 0 maxTasks).tasks = k₁.tasks := by
    refine orphan_tasks (fun {i a T₁} hi ha hT₁ ↦ ?_) (Nat.zero_add _).le
    obtain ⟨T, hT, hp, -⟩ := hk₁t hT₁
    rw [hp]
    exact hnochild hi ha hT
  have heq : exitTask k t code =
      schedWakeupParent (closeFds (orphan k₁ t 0 maxTasks) t 0 maxFiles) t := by rw [exitTask]
  have hstay : Stay k₁ (exitTask k t code) := by
    rw [heq]
    exact (Stay.of_tasks horphan).trans
      ((mild_closeFds _ t 0 maxFiles).stay.trans (stay_schedWakeupParent _ t))
  have hslots' : (exitTask k t code).slots = k.slots := by
    rw [heq, (frame_schedWakeupParent _ t).slots, (mild_closeFds _ t 0 maxFiles).slots,
      (frame_orphan t k₁ 0 maxTasks).slots]
    rfl
  have hidle : NoZombie (exitTask k t code) idle := by
    refine hstay.noZombie fun T hT ↦ ?_
    rw [hk₁, upd_tasks, if_neg hti.symm] at hT
    exact h.idleLive T hT
  have hswitch : Kernel.schedExit k code =
      Kernel.switchTo (exitTask k t code) (pickNext (exitTask k t code)) := by
    simp only [Kernel.schedExit, hcur]
  rw [hswitch]
  generalize exitTask k t code = k₂ at hstay hslots' hidle
  have hnext := noZombie_pickNext hidle
  have hfinal := hstay.trans (stay_switchTo hnext)
  refine ⟨fun {i a} hi ↦ ?_, fun {i a T'} hi hT' ↦ ?_, (stay_switchTo hnext).noZombie hidle,
    fun {a} ha ↦ ?_⟩
  · rw [switchTo_slots, hslots'] at hi
    exact h.slots hi
  · rw [switchTo_slots, hslots'] at hi
    obtain ⟨T₁, hT₁, hst⟩ := hfinal.of_eq_some hT'
    refine Parented.akin ?_ hst.akin (hfinal.mono fun _ _ ↦ Task.Stays.akin)
    obtain ⟨T, hT, hp₁, hpid₁, hppid₁, -⟩ := hk₁t hT₁
    rcases h.parented hi hT with ⟨hp, hpid⟩ | ⟨p, P, hp, hP, hpid, hz⟩
    · exact .inl ⟨hp₁.trans hp, hpid₁.trans hpid⟩
    · have hpt : p ≠ t := by
        rintro rfl
        exact hnochild (h.slots hi).1 hi hT hp
      refine .inr ⟨p, P, hp₁.trans hp, ?_, by rw [hppid₁, hpid], hz⟩
      rw [hk₁, upd_tasks, if_neg hpt, hP]
  · rw [switchTo_current] at ha
    obtain rfl := Option.some.inj ha
    exact (stay_switchTo hnext).noZombie hnext

theorem Kin.schedReap {c : Addr} {C : Task} (h : Kin k) (hC : k.tasks c = some C)
    (hz : C.state = .zombie) : Kin (schedReap k c) := by
  have hring := stay_ringRemove k c
  have hother : ∀ {a T}, (Kernel.schedReap k c).tasks a = some T →
      a ≠ c ∧ (ringRemove k c).tasks a = some T := by
    intro a T hT
    rw [schedReap_tasks] at hT
    split at hT
    · cases hT
    case isFalse hac => exact ⟨hac, hT⟩
  have hkeep : ∀ {a}, a ≠ c → (Kernel.schedReap k c).tasks a = (ringRemove k c).tasks a :=
    fun ha ↦ (schedReap_tasks k c _).trans (if_neg ha)
  refine ⟨fun {i a} hi ↦ ?_, fun {i a T'} hi hT' ↦ ?_, fun T hT ↦ ?_, fun {a} ha T hT ↦ ?_⟩
  · rw [slots_schedReap] at hi
    split at hi
    · cases hi
    · exact h.slots hi
  · obtain ⟨hac, hT'⟩ := hother hT'
    obtain ⟨T, hT, hst⟩ := hring.of_eq_some hT'
    rw [slots_schedReap] at hi
    split at hi
    · cases hi
    · rcases h.parented hi hT with ⟨hp, hpid⟩ | ⟨p, P, hp, hP, hpid, hzp⟩
      · exact .inl ⟨hst.parent.trans hp, hst.pid.trans hpid⟩
      · have hpc : p ≠ c := by
          rintro rfl
          obtain rfl := Option.some.inj (hC.symm.trans hP)
          exact hzp hz
        obtain ⟨P', hP', hsP⟩ := hring.eq_some hP
        refine .inr ⟨p, P', hst.parent.trans hp, (hkeep hpc).trans hP', ?_,
          fun hz' ↦ hzp (hsP.zombie.mp hz')⟩
        rw [hsP.pid, hpid, hst.ppid]
  · exact hring.noZombie h.idleLive T (hother hT).2
  · have ha' : k.current = some a := (ringRemove_current k c).symm.trans ha
    exact hring.noZombie (h.current ha') T (hother hT).2

/-- The current task blocks. -/
theorem Kin.schedBlock (h : Kin k) (hcur : k.current = some t) (status : Nat) :
    Kin (schedBlock k status) := by
  set k₁ := k.upd t fun T ↦ { T with state := .blocked, ctx := .wait4 status } with hk₁
  have hk : Evolves Task.Akin k k₁ :=
    .upd .refl fun T hT ↦ ⟨rfl, rfl, rfl, by simpa using h.current hcur T hT⟩
  have hkin₁ : Kin k₁ := h.akin hk rfl fun ha ↦ hk.noZombie (h.current ha)
  rw [Kernel.schedBlock, Machine.updCurrent, hcur]
  simp only
  split
  · exact hkin₁.switchTo (noZombie_pickNext hkin₁.idleLive)
  · exact hkin₁

theorem Kin.wait4Round (h : Kin k) (hcur : k.current = some t) (status : Nat) :
    Kin (wait4Round k status).2 := by
  obtain ⟨i, c, C, -, -, hC, -, hs, heq⟩ | ⟨-, heq⟩ | ⟨-, -, heq⟩ := wait4Round_cases hcur status
  · obtain ⟨mem, hmem⟩ := collect_eq k t c status
    rw [heq, hmem]
    have hk : Kin { k with mem := mem } := h.stay (.of_tasks rfl) rfl rfl
    exact hk.schedReap hC hs
  · rw [heq]
    exact h
  · rw [heq]
    have hwait : Stay k (k.upd t fun T ↦ { T with waiting := true }) :=
      .upd fun _ _ ↦ ⟨rfl, rfl, rfl, rfl, rfl, .rfl⟩
    exact (h.stay hwait rfl rfl).schedBlock hcur status

/-! ## Runs -/

/-- Nobody is killed, and a task exits when it has no child left. -/
def Tidy (k : Machine) (a : Addr × Event) : Prop :=
  match a.2 with
  | .call (.exit _) => Childless k a.1
  | .call (.kill _) => False
  | .interrupt => False
  | _ => True

theorem Kin.step {e : Event} (h : Kin k) (hcur : k.current = some t) (hsafe : Tidy k (t, e))
    (hstep : Step k e k') : Kin k' := by
  cases hstep with
  | @call t' T c hcur' hti hT hctx hfresh =>
    obtain rfl : t' = t := Option.some.inj (hcur'.symm.trans hcur)
    cases c with
    | exit code => exact h.schedExit hcur hti hsafe code
    | fork child => exact h.sysFork hcur hT hfresh.1 hfresh.2
    | wait4 status => exact h.wait4Round hcur status
    | kill pid => exact hsafe.elim
    | yield => exact h.schedYield
    | _ => exact h.mild (mild_dispatch (by trivial))
  | @resume t' T status hcur' hti hT hctx =>
    have hk : Evolves Task.Akin k (k.updCurrent fun T ↦ { T with ctx := .user }) := by
      rw [Machine.updCurrent, hcur]
      exact .upd .refl fun _ _ ↦ ⟨rfl, rfl, rfl, .rfl⟩
    have hframe : Inert k (k.updCurrent fun T ↦ { T with ctx := .user }) :=
      .updCurrent k fun _ ↦ rfl
    have h₁ := h.akin hk hframe.slots fun ha ↦ hk.noZombie (h.current (hframe.current ▸ ha))
    exact h₁.wait4Round (hframe.current.trans hcur) status
  | tick => exact h.schedTick
  | interrupt => exact hsafe.elim

theorem Kin.turn {a : Addr × Event} (h : Kin k) (hsafe : Tidy k a) (hturn : Turn k a k') :
    Kin k' := by
  have hact : NoZombie k a.1 := by
    rcases hturn.1 with hcur | ⟨T, hT, hs⟩
    · exact h.current hcur
    · intro T' hT'
      obtain rfl := Option.some.inj (hT.symm.trans hT')
      exact hs
  have h₁ : Kin { k with current := some a.1 } := by
    refine ⟨h.slots, h.parented, h.idleLive, fun {t} ht ↦ ?_⟩
    obtain rfl := Option.some.inj ht
    exact hact
  exact h₁.step rfl hsafe hturn.2

end

end FentoOS.Kernel
