import FentoOS.Kernel.Identity
import FentoOS.Kernel.RunList
import FentoOS.Lib.Run

/-!
# The task table

A task is entered twice when it is created: `sched_alloc` puts it in the first
free slot of `tasks[]`, and `sched_add` appends it to the run list.  `sched_reap`
takes it out of both.  The run list has no bound and the table has 64 slots, and
`sched_alloc` does not fail when the table is full: the task is then run but in no
slot, so that `sched_find`, `wait4` and `kill` do not see it.

As long as forks find a free slot the two hold the same tasks, each once.
-/

namespace FentoOS.Kernel

open FentoOS.Lib FentoOS.Fs FentoOS.Mm Function

/-- The task keeps its pid and its place in the ring. -/
def Task.Placed (T T' : Task) : Prop := T'.pid = T.pid ∧ T'.next = T.next

theorem Task.Placed.refl (T : Task) : T.Placed T := ⟨rfl, rfl⟩

theorem Task.Placed.trans {T T' T'' : Task} (h : T.Placed T') (h' : T'.Placed T'') :
    T.Placed T'' :=
  ⟨h'.1.trans h.1, h'.2.trans h.2⟩

/-- The tasks keep their pids and their places; the table and the ring's head stay. -/
structure Placid (k k' : Machine) : Prop where
  tasks : Evolves Task.Placed k k'
  slots : k'.slots = k.slots
  taskList : k'.taskList = k.taskList
  nextPid : k'.nextPid = k.nextPid

variable {P : Task} {child : Addr}

section

variable {k k' k'' : Machine} {t : Addr}

theorem Placid.trans (h : Placid k k') (h' : Placid k' k'') : Placid k k'' :=
  ⟨h.tasks.trans .trans h'.tasks, h'.slots.trans h.slots, h'.taskList.trans h.taskList,
    h'.nextPid.trans h.nextPid⟩

theorem Placid.of_tasks (htasks : k'.tasks = k.tasks) (hframe : Frame k k') : Placid k k' :=
  ⟨.of_tasks .refl htasks, hframe.slots, hframe.taskList, hframe.nextPid⟩

theorem Placid.refl (k : Machine) : Placid k k := .of_tasks rfl (.refl k)

theorem Placid.upd (k : Machine) (t : Addr) {f : Task → Task} (hf : ∀ T : Task, T.Placed (f T)) :
    Placid k (k.upd t f) :=
  ⟨.upd .refl fun T _ ↦ hf T, rfl, rfl, rfl⟩

theorem Placid.updCurrent (k : Machine) {f : Task → Task} (hf : ∀ T : Task, T.Placed (f T)) :
    Placid k (k.updCurrent f) := by
  rw [Machine.updCurrent]
  split
  · exact .refl k
  · exact .upd k _ hf

theorem Mild.placid (h : Mild k k') : Placid k k' := by
  refine ⟨h.tasks.mono fun T T' hT ↦ ?_, h.slots, h.taskList, h.nextPid⟩
  obtain ⟨_, _, _, rfl⟩ := hT
  exact ⟨rfl, rfl⟩

theorem placid_switchTo (k : Machine) (next : Addr) : Placid k (switchTo k next) := by
  have h := Placid.upd k next (f := fun T ↦ { T with state := .running, timeSlice := quantum })
    fun _ ↦ ⟨rfl, rfl⟩
  refine ⟨h.tasks.trans .trans (.of_tasks .refl (switchTo_tasks k next)), switchTo_slots k next,
    switchTo_taskList k next, switchTo_nextPid k next⟩

theorem placid_preempt (k : Machine) : Placid k (preempt k) := by
  refine .updCurrent k fun T ↦ ?_
  split <;> exact ⟨rfl, rfl⟩

theorem placid_schedYield (k : Machine) : Placid k (schedYield k) := by
  obtain heq | ⟨-, heq⟩ := schedYield_cases k
  · rw [heq]
    exact .refl k
  · rw [heq]
    exact (placid_preempt k).trans (placid_switchTo _ _)

theorem placid_schedTick (k : Machine) : Placid k (schedTick k) := by
  obtain ⟨k₁, hk₁, hcounts, h⟩ := schedTick_cases k
  have hp : Placid k k₁ := by
    refine ⟨hcounts.mono fun T T' hT ↦ ?_, hk₁.slots, hk₁.taskList, hk₁.nextPid⟩
    obtain ⟨n, rfl⟩ := hT
    exact ⟨rfl, rfl⟩
  obtain heq | ⟨-, heq⟩ := h
  · rw [heq]
    exact hp
  · rw [heq]
    exact hp.trans ((placid_preempt k₁).trans (placid_switchTo _ _))

theorem placid_schedWakeupParent (k : Machine) (t : Addr) : Placid k (schedWakeupParent k t) := by
  rw [schedWakeupParent]
  split
  · exact .refl k
  · refine .upd k _ fun P ↦ ?_
    split <;> exact ⟨rfl, rfl⟩

theorem placid_orphan (t : Addr) (k : Machine) (i n : Nat) : Placid k (orphan k t i n) := by
  induction n generalizing k i with
  | zero => exact .refl k
  | succ n ih =>
    refine Placid.trans ?_ (ih _ _)
    rw [orphanSlot]
    split
    · exact .refl k
    · refine .upd k _ fun T ↦ ?_
      split <;> exact ⟨rfl, rfl⟩

theorem placid_mark (k : Machine) (t : Addr) (code : Int) :
    Placid k (k.upd t fun T ↦ { T with exitCode := code, state := .zombie }) :=
  .upd k t fun _ ↦ ⟨rfl, rfl⟩

theorem placid_schedExit (k : Machine) (code : Int) : Placid k (schedExit k code) := by
  rw [schedExit]
  split
  · exact .refl k
  case h_2 t _ =>
    have hexit : Placid k (exitTask k t code) :=
      (placid_mark k t code).trans ((placid_orphan t _ 0 maxTasks).trans
        ((mild_closeFds _ t 0 maxFiles).placid.trans (placid_schedWakeupParent _ t)))
    exact hexit.trans (placid_switchTo _ _)

theorem placid_terminate (k : Machine) (t : Addr) (code : Int) : Placid k (terminate k t code) :=
  (placid_mark k t code).trans (placid_schedWakeupParent _ t)

theorem placid_sysKill (k : Machine) (pid : Nat) : Placid k (sysKill k pid).2 := by
  rw [sysKill]
  split
  · exact .refl k
  · split
    · exact .refl k
    · exact placid_terminate ..

theorem placid_interruptFrom (owner : Addr) (i n : Nat) (k : Machine) :
    Placid k (interruptFrom owner i n k) := by
  induction n generalizing i k with
  | zero => exact .refl k
  | succ n ih =>
    refine Placid.trans ?_ (ih _ _)
    rw [interruptSlot]
    split
    · exact .refl k
    · exact placid_terminate ..

theorem placid_schedBlock (k : Machine) (status : Nat) : Placid k (schedBlock k status) := by
  have hblock : Placid k
      (k.updCurrent fun T ↦ { T with state := .blocked, ctx := .wait4 status }) :=
    .updCurrent k fun _ ↦ ⟨rfl, rfl⟩
  rw [schedBlock]
  split
  · exact hblock.trans (placid_switchTo _ _)
  · exact hblock

/-- A round of `wait4` reaps a child that is in the table, or leaves the tasks where they are. -/
theorem wait4Round_placid (hcur : k.current = some t) (status : Nat) :
    Placid k (wait4Round k status).2 ∨ ∃ k₁ i c, Placid k k₁ ∧ k₁.slots i = some c ∧
      (wait4Round k status).2 = schedReap k₁ c := by
  obtain ⟨i, c, C, -, hc, -, -, -, heq⟩ | ⟨-, heq⟩ | ⟨-, -, heq⟩ := wait4Round_cases hcur status
  · obtain ⟨mem, hmem⟩ := collect_eq k t c status
    rw [heq, hmem]
    exact .inr ⟨{ k with mem := mem }, i, c, .of_tasks rfl ⟨rfl, rfl, rfl, rfl, rfl⟩, hc, rfl⟩
  · rw [heq]
    exact .inl (.refl k)
  · rw [heq]
    have hwait : Placid k (k.upd t fun T ↦ { T with waiting := true }) :=
      .upd k t fun _ ↦ ⟨rfl, rfl⟩
    exact .inl (hwait.trans (placid_schedBlock _ _))

/-- What a step can do to the table and the ring: it leaves them alone, or it is a fork, or a
`wait4` that reaps a task of the table. -/
theorem Step.placid_cases {e : Event} (hcur : k.current = some t) (hstep : Step k e k') :
    Placid k k' ∨
    (∃ child T, e = .call (.fork child) ∧ k.tasks t = some T ∧ (Syscall.fork child).Fresh k ∧
      k' = (sysFork k child).2) ∨
    ∃ k₁ i c, Placid k k₁ ∧ k₁.slots i = some c ∧ k' = schedReap k₁ c := by
  cases hstep with
  | @call t' T c hcur' hti hT hctx hfresh =>
    obtain rfl : t' = t := Option.some.inj (hcur'.symm.trans hcur)
    cases c with
    | exit code => exact .inl (placid_schedExit k code)
    | fork child => exact .inr (.inl ⟨child, T, rfl, hT, hfresh, rfl⟩)
    | wait4 status => exact (wait4Round_placid hcur status).imp_right .inr
    | kill pid => exact .inl (placid_sysKill k pid)
    | yield => exact .inl (placid_schedYield k)
    | _ => exact .inl (mild_dispatch (by trivial)).placid
  | @resume t' T status hcur' hti hT hctx =>
    have hctx : Placid k (k.updCurrent fun T ↦ { T with ctx := .user }) :=
      .updCurrent k fun _ ↦ ⟨rfl, rfl⟩
    have hcur₁ : (k.updCurrent fun T ↦ { T with ctx := .user }).current = some t :=
      (Inert.updCurrent (f := fun T ↦ { T with ctx := .user }) k fun _ ↦ rfl).current.trans hcur
    obtain hp | ⟨k₁, i, c, hp, hc, heq⟩ := wait4Round_placid hcur₁ status
    · exact .inl (hctx.trans hp)
    · exact .inr (.inr ⟨k₁, i, c, hctx.trans hp, hc, heq⟩)
  | tick => exact .inl (placid_schedTick k)
  | interrupt =>
    rw [interruptForeground]
    split
    · exact .inl (.refl k)
    · exact .inl (placid_interruptFrom ..)

/-! ## Table and ring -/

/-- The table and the ring hold the same tasks, each once, and as long as pids have not
wrapped around no two have the same pid. -/
structure Tabled (k : Machine) (L : List Addr) : Prop where
  ring : Ring k L
  bound : L.length ≤ k.nextPid
  slot : ∀ {i t}, k.slots i = some t → i < maxTasks ∧ t ∈ L
  mem : ∀ {t}, t ∈ L → ∃ i, k.slots i = some t
  inj : ∀ {i j t}, k.slots i = some t → k.slots j = some t → i = j
  pids : k.nextPid ≤ 2 ^ 32 → ∀ {t T}, t ∈ L → k.tasks t = some T → T.pid < k.nextPid ∧
    ∀ {s S}, s ∈ L → k.tasks s = some S → S.pid = T.pid → s = t

variable {L : List Addr}

theorem nextOf_of_evolves (h : Evolves Task.Placed k k') (a : Addr) : nextOf k' a = nextOf k a := by
  rw [← nextOf_eq, ← nextOf_eq]
  obtain ⟨hT, hT'⟩ | ⟨T, T', hT, hT', hp⟩ := h a
  · rw [hT, hT']
  · rw [hT, hT', Option.bind_some, Option.bind_some, hp.2]

theorem Tabled.placid (h : Tabled k L) (hp : Placid k k') : Tabled k' L := by
  refine ⟨h.ring.congr hp.taskList (nextOf_of_evolves hp.tasks), hp.nextPid ▸ h.bound,
    fun hi ↦ h.slot (hp.slots ▸ hi), fun ht ↦ hp.slots ▸ h.mem ht,
    fun hi hj ↦ h.inj (hp.slots ▸ hi) (hp.slots ▸ hj), fun hle {t T'} ht hT' ↦ ?_⟩
  rw [hp.nextPid] at hle ⊢
  obtain ⟨T, hT, hs⟩ := hp.tasks.of_eq_some hT'
  obtain ⟨hlt, hinj⟩ := h.pids hle ht hT
  refine ⟨hs.1 ▸ hlt, fun {s S'} hs' hS' heq ↦ ?_⟩
  obtain ⟨S, hS, hsS⟩ := hp.tasks.of_eq_some hS'
  exact hinj hs' hS (hsS.1.symm.trans (heq.trans hs.1))

theorem sysFork_nextPid (hcur : k.current = some t) (hP : k.tasks t = some P) (child : Addr) :
    (sysFork k child).2.nextPid = k.nextPid + 1 := by
  obtain ⟨k₂, hframe, -, ⟨-, heq⟩ | ⟨-, heq⟩⟩ := sysFork_cases hcur hP child
  · rw [heq]
    exact hframe.nextPid
  · rw [heq, schedAdd_nextPid]
    exact hframe.nextPid

/-- A fork appends the child to the ring, whether it has a slot or not. -/
theorem Ring.sysFork (h : Ring k L) (hbound : L.length ≤ k.nextPid) (hcur : k.current = some t)
    (hP : k.tasks t = some P) (hfresh : k.tasks child = none)
    (hclone : (halAddrspaceClone k.mem P.addrspace).1 ≠ 0) :
    Ring (sysFork k child).2 (L ++ [child]) := by
  obtain ⟨k₂, hframe, hcore, ⟨hzero, -⟩ | ⟨-, heq⟩⟩ := sysFork_cases hcur hP child
  · exact absurd hzero hclone
  have hnmem : child ∉ L := fun hmem ↦ h.core_ne_none hmem (core_eq_none.mpr hfresh)
  have hring₂ : Ring k₂ L := by
    refine ⟨h.nodup, hframe.taskList.trans h.head, fun ha ↦ (h.linked ha).congr fun x hx ↦ ?_⟩
    have hxc : x ≠ child := fun hxc ↦ hnmem (hxc ▸ hx)
    rw [nextOf, hcore, if_neg hxc, nextOf]
  have hpid₂ : k₂.nextPid = k.nextPid + 1 := hframe.nextPid
  rw [heq]
  exact (hring₂.schedAdd hnmem (by rw [hcore, if_pos rfl]; simp) (by rw [hpid₂]; omega)).1

/-- A fork into a free slot. -/
theorem Tabled.sysFork (h : Tabled k L) (hcur : k.current = some t) (hP : k.tasks t = some P)
    (hfresh : k.tasks child = none) (hslot : freeSlot k ≠ none)
    (hclone : (halAddrspaceClone k.mem P.addrspace).1 ≠ 0) :
    Tabled (sysFork k child).2 (L ++ [child]) := by
  have hring := h.ring.sysFork h.bound hcur hP hfresh hclone
  have hpid := sysFork_nextPid hcur hP child
  obtain ⟨k₂, hstay, hslots, -, C, htasks, hCpid, -⟩ := sysFork_tasks hcur hP child
  have hnmem : child ∉ L := fun hmem ↦ h.ring.core_ne_none hmem (core_eq_none.mpr hfresh)
  obtain ⟨i, hi⟩ := Option.ne_none_iff_exists'.mp hslot
  obtain ⟨hlt, hfree⟩ := freeSlot_eq_some hi
  rw [slots_schedAlloc hi] at hslots
  -- where a task of the new table stands
  have hcases : ∀ {j a}, (Kernel.sysFork k child).2.slots j = some a →
      (j = i ∧ a = child) ∨ (j ≠ i ∧ k.slots j = some a) := by
    intro j a hj
    rw [hslots, update_apply] at hj
    split at hj
    case isTrue hji => exact .inl ⟨hji, (Option.some.inj hj).symm⟩
    case isFalse hji => exact .inr ⟨hji, hj⟩
  have hpids : k.nextPid + 1 ≤ 2 ^ 32 → ∀ {a A}, a ∈ L ++ [child] →
      (Kernel.sysFork k child).2.tasks a = some A →
        (a = child ∧ A.pid = k.nextPid) ∨ (a ∈ L ∧ ∃ A₀, k.tasks a = some A₀ ∧ A.pid = A₀.pid) := by
    intro hle a A ha hA
    obtain ⟨A₂, hA₂, hs⟩ := hstay.of_eq_some hA
    rw [htasks, update_apply] at hA₂
    split at hA₂
    case isTrue hac =>
      obtain rfl := Option.some.inj hA₂
      refine .inl ⟨hac, ?_⟩
      rw [hs.pid, hCpid, wrap32, Nat.mod_eq_of_lt (by omega)]
    case isFalse hac =>
      have hmem : a ∈ L := by simpa [hac] using ha
      exact .inr ⟨hmem, A₂, hA₂, hs.pid⟩
  refine ⟨hring, ?_, fun {j a} hj ↦ ?_, fun {a} ha ↦ ?_, fun {j l a} hj hl ↦ ?_,
    fun hle {a A} ha hA ↦ ?_⟩
  · rw [hpid, List.length_append]
    exact Nat.add_le_add_right h.bound 1
  · rcases hcases hj with ⟨rfl, rfl⟩ | ⟨-, hj⟩
    · exact ⟨hlt, by simp⟩
    · exact ⟨(h.slot hj).1, List.mem_append_left _ (h.slot hj).2⟩
  · rcases List.mem_append.mp ha with ha | ha
    · obtain ⟨j, hj⟩ := h.mem ha
      have hji : j ≠ i := by
        rintro rfl
        rw [hfree] at hj
        cases hj
      exact ⟨j, by rw [hslots, update_of_ne hji, hj]⟩
    · obtain rfl : a = child := by simpa using ha
      exact ⟨i, by rw [hslots, update_self]⟩
  · rcases hcases hj with ⟨hji, hac⟩ | ⟨-, hj⟩
    · rcases hcases hl with ⟨hli, -⟩ | ⟨-, hl⟩
      · exact hji.trans hli.symm
      · exact absurd (hac ▸ (h.slot hl).2) hnmem
    · rcases hcases hl with ⟨-, hac⟩ | ⟨-, hl⟩
      · exact absurd (hac ▸ (h.slot hj).2) hnmem
      · exact h.inj hj hl
  · rw [hpid] at hle ⊢
    have hle₀ : k.nextPid ≤ 2 ^ 32 := by omega
    rcases hpids hle ha hA with ⟨rfl, hApid⟩ | ⟨ha, A₀, hA₀, hApid⟩
    · refine ⟨by omega, fun {s S} hs hS heq ↦ ?_⟩
      rcases hpids hle hs hS with ⟨hsc, -⟩ | ⟨hs, S₀, hS₀, hSpid⟩
      · exact hsc
      · have := (h.pids hle₀ hs hS₀).1
        omega
    · obtain ⟨hltA, hinj⟩ := h.pids hle₀ ha hA₀
      refine ⟨by omega, fun {s S} hs hS heq ↦ ?_⟩
      rcases hpids hle hs hS with ⟨-, hSpid⟩ | ⟨hs, S₀, hS₀, hSpid⟩
      · omega
      · exact hinj hs hS₀ (by omega)

theorem Tabled.schedReap (h : Tabled k L) {c : Addr} {i : Nat} (hc : k.slots i = some c) :
    Tabled (schedReap k c) (L.erase c) := by
  have hmem := (h.slot hc).2
  obtain ⟨hring, -⟩ := h.ring.schedReap hmem h.bound
  have hpid : (Kernel.schedReap k c).nextPid = k.nextPid := ringRemove_nextPid k c
  have hslot : ∀ {j a}, (Kernel.schedReap k c).slots j = some a → a ≠ c ∧ k.slots j = some a := by
    intro j a hj
    rw [slots_schedReap] at hj
    split at hj
    · cases hj
    case isFalse hne =>
      refine ⟨?_, hj⟩
      rintro rfl
      exact hne hj
  have htask : ∀ {a A}, (Kernel.schedReap k c).tasks a = some A →
      ∃ A₀, k.tasks a = some A₀ ∧ A.pid = A₀.pid := by
    intro a A hA
    rw [schedReap_tasks] at hA
    split at hA
    · cases hA
    · obtain ⟨A₀, hA₀, hs⟩ := (stay_ringRemove k c).of_eq_some hA
      exact ⟨A₀, hA₀, hs.pid⟩
  refine ⟨hring, ?_, fun {j a} hj ↦ ?_, fun {a} ha ↦ ?_, fun {j l a} hj hl ↦ ?_,
    fun hle {a A} ha hA ↦ ?_⟩
  · rw [hpid]
    exact List.length_erase_le.trans h.bound
  · obtain ⟨hac, hj⟩ := hslot hj
    exact ⟨(h.slot hj).1, (List.mem_erase_of_ne hac).mpr (h.slot hj).2⟩
  · obtain ⟨hac, ha⟩ := (h.ring.nodup.mem_erase_iff).mp ha
    obtain ⟨j, hj⟩ := h.mem ha
    refine ⟨j, ?_⟩
    rw [slots_schedReap, if_neg, hj]
    rw [hj]
    simpa using hac
  · exact h.inj (hslot hj).2 (hslot hl).2
  · rw [hpid] at hle ⊢
    obtain ⟨A₀, hA₀, hApid⟩ := htask hA
    obtain ⟨hlt, hinj⟩ := h.pids hle (List.mem_of_mem_erase ha) hA₀
    refine ⟨by omega, fun {s S} hs hS heq ↦ ?_⟩
    obtain ⟨S₀, hS₀, hSpid⟩ := htask hS
    exact hinj (List.mem_of_mem_erase hs) hS₀ (by omega)

/-- Every task of the ring is found by its pid. -/
theorem Tabled.schedFind (h : Tabled k L) {T : Task} (ht : t ∈ L) (hT : k.tasks t = some T)
    (hle : k.nextPid ≤ 2 ^ 32) : schedFind k T.pid = some t := by
  obtain ⟨i, hi⟩ := h.mem ht
  have hat : pidAt k T.pid i = true := by simp [pidAt, hi, hT]
  rw [Kernel.schedFind]
  cases hf : findFirst (pidAt k T.pid) 0 maxTasks with
  | none =>
    have := findFirst_eq_none.mp hf i (Nat.zero_le _) (by simpa using (h.slot hi).1)
    rw [hat] at this
    cases this
  | some j =>
    obtain ⟨-, -, hj, -⟩ := findFirst_eq_some hf
    rw [Option.bind_some]
    rw [pidAt] at hj
    split at hj
    · cases hj
    case h_2 S hS =>
      obtain ⟨s, hs, hS⟩ := Option.bind_eq_some_iff.mp hS
      rw [hs, (h.pids hle ht hT).2 (h.slot hs).2 hS (by simpa using hj)]

/-! ## Runs -/

/-- Forks find a free slot, and frames for the new address space. -/
def Roomy (k : Machine) (a : Addr × Event) : Prop :=
  match a.2 with
  | .call (.fork _) => freeSlot k ≠ none ∧
      ∀ P, k.tasks a.1 = some P → (halAddrspaceClone k.mem P.addrspace).1 ≠ 0
  | _ => True

theorem Tabled.step (h : Tabled k L) {e : Event} (hcur : k.current = some t)
    (hroom : Roomy k (t, e)) (hstep : Step k e k') : ∃ L', Tabled k' L' := by
  obtain hp | ⟨child, T, rfl, hT, hfresh, rfl⟩ | ⟨k₁, i, c, hp, hc, rfl⟩ := hstep.placid_cases hcur
  · exact ⟨L, h.placid hp⟩
  · exact ⟨_, h.sysFork hcur hT hfresh.2 hroom.1 (hroom.2 T hT)⟩
  · exact ⟨_, (h.placid hp).schedReap hc⟩

theorem Tabled.turn (h : Tabled k L) {a : Addr × Event} (hroom : Roomy k a)
    (hturn : Turn k a k') : ∃ L', Tabled k' L' :=
  Tabled.step (k := { k with current := some a.1 })
    (h.placid ⟨.of_tasks .refl rfl, rfl, rfl, rfl⟩) rfl hroom hturn.2

theorem tabled_boot (h : Boot k) : ∃ L, Tabled k L := by
  obtain ⟨t, cons, hb⟩ := h.booted
  have hslot : ∀ {i a}, k.slots i = some a → i = 0 ∧ a = t := by
    intro i a hi
    rw [hb.slots, update_apply] at hi
    split at hi
    case isTrue h0 => exact ⟨h0, (Option.some.inj hi).symm⟩
    case isFalse => cases hi
  have ht : nextOf k t = some t := by rw [nextOf, hb.core, if_pos rfl, Option.bind_some]
  refine ⟨[t], ⟨by simp, hb.taskList, fun {a} ha ↦ ?_⟩, ?_, fun {i a} hi ↦ ?_, fun {a} ha ↦ ?_,
    fun hi hj ↦ (hslot hi).1.trans (hslot hj).1.symm, fun _ {a A} ha hA ↦ ⟨?_, ?_⟩⟩
  · obtain rfl := Option.some.inj ha
    exact ⟨ht, trivial⟩
  · rw [hb.nextPid, List.length_singleton]
    decide
  · obtain ⟨rfl, rfl⟩ := hslot hi
    exact ⟨by decide, by simp⟩
  · obtain rfl : a = t := by simpa using ha
    exact ⟨0, by rw [hb.slots, update_self]⟩
  · obtain ⟨kernelDir, space, brk, htasks⟩ := hb.tasks
    rw [htasks] at hA
    rw [hb.nextPid]
    rcases bootTasks_eq_some hA with ⟨-, rfl⟩ | ⟨-, -, rfl⟩
    · exact Nat.lt_succ_self 1
    · exact Nat.zero_lt_two
  · intro s S hs _ _
    obtain rfl : a = t := by simpa using ha
    simpa using hs

theorem tabled_run (h : Reach Boot (Under Roomy Turn) k) : ∃ L, Tabled k L :=
  h.invariant (fun _ ↦ tabled_boot) fun _ _ _ hinv hs ↦ hinv.elim fun _ h ↦ h.turn hs.1 hs.2

end

/-- **Run ring and task table agree.**  In every run of forks, exits, kills and `wait4` calls,
by any tasks in any order, in which every fork finds a free slot and frames: the run list is a
ring of distinct tasks, each task of the ring is in exactly one slot, each task of the table is
in the ring, and, as long as pids have not wrapped around, `sched_find` finds each of them. -/
theorem ring_table_agree {k : Machine} (h : Reach Boot (Under Roomy Turn) k) :
    ∃ L, Ring k L ∧ (∀ t ∈ L, ∃! i, i < maxTasks ∧ k.slots i = some t) ∧
      (∀ i t, k.slots i = some t → t ∈ L) ∧
      ∀ t T, t ∈ L → k.tasks t = some T → k.nextPid ≤ 2 ^ 32 → schedFind k T.pid = some t := by
  obtain ⟨L, hk⟩ := tabled_run h
  refine ⟨L, hk.ring, fun t ht ↦ ?_, fun i t hi ↦ (hk.slot hi).2,
    fun t T ht hT hle ↦ hk.schedFind ht hT hle⟩
  obtain ⟨i, hi⟩ := hk.mem ht
  exact ⟨i, ⟨(hk.slot hi).1, hi⟩, fun j hj ↦ hk.inj hj.2 hi⟩

/-- The first task forks one child: both are in the ring, each has its slot, and `sched_find`
finds the child under its pid. -/
theorem ring_table_agree_fork : ∃ L, Ring (forkBlank sampleBoot 3) L ∧ 3 ∈ L ∧
    (∃! i, i < maxTasks ∧ (forkBlank sampleBoot 3).slots i = some 3) ∧
    schedFind (forkBlank sampleBoot 3) 2 = some 3 := by
  have hroom : Roomy sampleBoot (1, .call (.fork 3)) := by
    refine ⟨by decide, fun P _ ↦ ?_⟩
    rw [halAddrspaceClone_blank rfl (by decide)]
    decide
  have hfork : Step sampleBoot (.call (.fork 3)) (forkBlank sampleBoot 3) :=
    step_forkBlank 3 rfl (by decide) rfl (by decide) rfl rfl (by decide) rfl
  have hreach : Reach Boot (Under Roomy Turn) (forkBlank sampleBoot 3) :=
    .step (.init boot_sampleBoot) ⟨hroom, .of_step rfl hfork⟩
  obtain ⟨L, hring, hslot, hmem, hfind⟩ := ring_table_agree hreach
  have h3 : 3 ∈ L := hmem 1 3 rfl
  exact ⟨L, hring, h3, hslot 3 h3, hfind 3 _ h3 rfl (by decide)⟩

/-! ## More forks than slots -/

/-- A machine with memory for more than 64 tasks, after its first task has forked `n` times. -/
def crowd : Nat → Machine
  | 0 => schedStart (procStartInit (schedInit sampleMemory
      { sb := ⟨0, 0, 0, 0, 0⟩
        mounted := false
        disk := { size := 0, block := fun _ ↦ Bytes.zero, junk := Bytes.zero, trace := [] } })
      1 2 { sampleMemory with pmm := { sampleMemory.pmm with totalFrames := 96, freeFrames := 92 } }
      8192 0)
  | n + 1 => (sysFork (crowd n) (n + 3)).2

/-- The first `n + 1` slots are taken, as far as there are so many, and the first `n + 4`
frames. -/
structure Crowded (n : Nat) (k : Machine) : Prop where
  mem : k.mem.mem = Bytes.zero
  used : ∀ f, k.mem.pmm.used f = decide (f < n + 4)
  frames : k.mem.pmm.totalFrames = 96
  current : k.current = some 1
  nextPid : k.nextPid = n + 2
  first : ∃ T, k.tasks 1 = some T ∧ T.ctx = .user
  fresh : ∀ a, n + 3 ≤ a → k.tasks a = none
  free : ∀ i, k.slots i = none ↔ min n 63 < i
  slots : ∀ i a, k.slots i = some a → a < n + 3

section

variable {n : Nat} {k : Machine}

theorem Crowded.allocFrame (h : Crowded n k) (hn : n ≤ 64) : allocFrame k.mem =
    ((n + 4) * 4096, { k.mem with
      pmm := { k.mem.pmm with
        used := update k.mem.pmm.used (n + 4) true
        freeFrames := k.mem.pmm.freeFrames - 1 } }) := by
  have hnext : nextFrame k.mem.pmm = some (n + 4) := by
    refine findFirst_of_least (Nat.zero_le _) (by rw [h.frames]; omega) ?_ fun j _ hj ↦ ?_
    · simp [h.used]
    · simp [h.used, hj]
  rw [Mm.allocFrame, pmmAllocFrame, hnext]

theorem Crowded.clone (h : Crowded n k) (hn : n ≤ 64) (space : Nat) :
    halAddrspaceClone k.mem space = Mm.allocFrame k.mem := by
  refine halAddrspaceClone_blank h.mem ?_ space
  rw [h.allocFrame hn]
  exact Nat.succ_ne_zero _

theorem Crowded.clone_ne_zero (h : Crowded n k) (hn : n ≤ 64) (space : Nat) :
    (halAddrspaceClone k.mem space).1 ≠ 0 := by
  rw [h.clone hn, h.allocFrame hn]
  exact Nat.succ_ne_zero _

theorem Crowded.freeSlot (h : Crowded n k) (hn : n < 63) : freeSlot k = some (n + 1) := by
  have hfree : ∀ i, k.slots i = none ↔ n < i := by
    intro i
    rw [h.free, Nat.min_eq_left hn.le]
  refine findFirst_of_least (Nat.zero_le _) (by simp only [maxTasks]; omega) ?_ fun j _ hj ↦ ?_
  · rw [Option.isNone_iff_eq_none, hfree]
    exact Nat.lt_succ_self n
  · rw [← Bool.not_eq_true, Option.isNone_iff_eq_none, hfree]
    omega

theorem Crowded.freeSlot_eq_none (h : Crowded n k) (hn : 63 ≤ n) : Kernel.freeSlot k = none := by
  refine findFirst_eq_none.mpr fun j _ hj ↦ ?_
  rw [← Bool.not_eq_true, Option.isNone_iff_eq_none, h.free, Nat.min_eq_right hn]
  simp only [maxTasks] at hj
  omega

theorem Crowded.turn (h : Crowded n k) :
    Turn k (1, .call (.fork (n + 3))) (sysFork k (n + 3)).2 := by
  obtain ⟨T, hT, hctx⟩ := h.first
  have hfork : Step k (.call (.fork (n + 3))) (sysFork k (n + 3)).2 :=
    .call h.current (by decide) hT hctx ⟨by simp [idle], h.fresh _ (le_refl _)⟩
  exact .of_step h.current hfork

theorem shareFds_mem (k : Machine) (parent child : Addr) (fd n : Nat) :
    (shareFds k parent child fd n).mem = k.mem := by
  induction n generalizing k fd with
  | zero => rfl
  | succ n ih =>
    rw [shareFds, ih, shareFd]
    split <;> rfl

theorem sysFork_mem {t : Addr} (hcur : k.current = some t) (hP : k.tasks t = some P) (child : Addr)
    : (sysFork k child).2.mem = (halAddrspaceClone k.mem P.addrspace).2 := by
  rw [sysFork_eq hcur hP]
  split
  · rfl
  · rw [schedAdd]
    split <;> exact shareFds_mem ..

/-- A fork that has its address space returns the pid of the child. -/
theorem sysFork_fst {t : Addr} (hcur : k.current = some t) (hP : k.tasks t = some P)
    (hclone : (halAddrspaceClone k.mem P.addrspace).1 ≠ 0) :
    (sysFork k child).1 = sint32 (wrap32 k.nextPid) := by
  obtain ⟨k₂, hstay, -, -, C, htasks, hCpid, -⟩ := sysFork_tasks hcur hP child
  have hC : k₂.tasks child = some C := by rw [htasks, update_self]
  obtain ⟨C', hC', hs⟩ := hstay.eq_some hC
  have hret : (sysFork k child).1 =
      sint32 ((((sysFork k child).2.tasks child).map Task.pid).getD 0) := by
    rw [sysFork_eq hcur hP, if_neg hclone]
  rw [hret, hC', Option.map_some, Option.getD_some, hs.pid, hCpid]

theorem Crowded.slots_fork (h : Crowded n k) :
    (∀ i, (schedAlloc k (n + 3)).slots i = none ↔ min (n + 1) 63 < i) ∧
      ∀ i a, (schedAlloc k (n + 3)).slots i = some a → a < n + 1 + 3 := by
  refine ⟨fun i ↦ ?_, fun i a hi ↦ ?_⟩
  · rcases Nat.lt_or_ge n 63 with hn | hn
    · rw [slots_schedAlloc (h.freeSlot hn), update_apply]
      split
      · simp only [reduceCtorEq, false_iff]
        omega
      · rw [h.free]
        omega
    · rw [schedAlloc, h.freeSlot_eq_none hn]
      change k.slots i = none ↔ _
      rw [h.free]
      omega
  · rcases slots_schedAlloc_cases hi with hi | ⟨-, rfl⟩
    · exact Nat.lt_succ_of_lt (h.slots i a hi)
    · exact Nat.lt_succ_self _

theorem Crowded.sysFork (h : Crowded n k) (hn : n ≤ 63) :
    Crowded (n + 1) (sysFork k (n + 3)).2 := by
  obtain ⟨P, hP, hctx⟩ := h.first
  have hmem := sysFork_mem h.current hP (n + 3)
  rw [h.clone (by omega), h.allocFrame (by omega)] at hmem
  obtain ⟨k₂, hstay, hslots, hcur, C, htasks, -⟩ := sysFork_tasks h.current hP (n + 3)
  obtain ⟨hfree, hheld⟩ := h.slots_fork
  refine ⟨by rw [hmem]; exact h.mem, fun f ↦ ?_, by rw [hmem]; exact h.frames,
    hcur.trans h.current, ?_, ?_, fun a ha ↦ ?_, by rwa [hslots], by rwa [hslots]⟩
  · rw [hmem]
    simp only [update_apply, h.used]
    split
    · exact (decide_eq_true (by omega)).symm
    · exact decide_eq_decide.mpr (by omega)
  · rw [sysFork_nextPid h.current hP (n + 3), h.nextPid]
  · have h1 : k₂.tasks 1 = some P := by
      rw [htasks, update_of_ne (Nat.ne_of_lt (by omega : 1 < n + 3)), hP]
    obtain ⟨P', hP', hs⟩ := hstay.eq_some h1
    exact ⟨P', hP', hs.ctx.trans hctx⟩
  · have ha₂ : k₂.tasks a = none := by
      rw [htasks, update_of_ne (Nat.ne_of_gt ha)]
      exact h.fresh a (Nat.le_of_succ_le ha)
    cases hA : (Kernel.sysFork k (n + 3)).2.tasks a with
    | none => rfl
    | some A =>
      obtain ⟨A₂, hA₂, -⟩ := hstay.of_eq_some hA
      rw [ha₂] at hA₂
      cases hA₂

end

theorem crowded_crowd {n : Nat} (hn : n ≤ 64) : Crowded n (crowd n) := by
  induction n with
  | zero =>
    refine ⟨rfl, fun _ ↦ rfl, rfl, rfl, rfl, ⟨_, rfl, rfl⟩, fun a ha ↦ ?_, fun i ↦ ?_,
      fun i a hi ↦ ?_⟩
    · rw [crowd, boot_eq]
      change bootTasks _ _ _ _ _ a = none
      rw [bootTasks, update_of_ne (Nat.ne_of_gt (Nat.lt_of_lt_of_le (by decide) ha)),
        update_of_ne (Nat.ne_of_gt (Nat.lt_of_lt_of_le (by decide) ha))]
    · rw [crowd, boot_eq]
      change update (fun _ ↦ none) 0 (some 1) i = none ↔ _
      rw [update_apply]
      split
      · simp only [reduceCtorEq, false_iff]
        omega
      · simp only [true_iff]
        omega
    · rw [crowd, boot_eq] at hi
      change update (fun _ ↦ none) 0 (some 1) i = some a at hi
      rw [update_apply] at hi
      split at hi
      · obtain rfl := Option.some.inj hi
        decide
      · cases hi
  | succ n ih => exact (ih (by omega)).sysFork (by omega)

theorem reach_crowd {n : Nat} (hn : n ≤ 63) : Reach Boot (Under Roomy Turn) (crowd n) := by
  induction n with
  | zero => exact .init ⟨_, _, 1, 2, _, _, _, by decide, rfl⟩
  | succ n ih =>
    have h := crowded_crowd (n := n) (by omega)
    have hroom : Roomy (crowd n) (1, .call (.fork (n + 3))) := by
      refine ⟨?_, fun P _ ↦ h.clone_ne_zero (by omega) _⟩
      rw [h.freeSlot (by omega)]
      exact Option.some_ne_none _
    exact .step (ih (by omega)) ⟨hroom, h.turn⟩

/-- The 64th fork finds the table full.  There are frames for the child, which is appended to
the run list and is in no slot; the caller gets its pid, which `sched_find` does not know. -/
theorem fork_without_slot : ∃ k, Reach Boot Turn k ∧
    Turn k (1, .call (.fork 66)) (sysFork k 66).2 ∧ (sysFork k 66).1 = 65 ∧
    InRing (sysFork k 66).2 66 ∧ (∀ i, (sysFork k 66).2.slots i ≠ some 66) ∧
    ∀ pid, schedFind (sysFork k 66).2 pid ≠ some 66 := by
  obtain ⟨k, h, hreach⟩ : ∃ k, Crowded 63 k ∧ Reach Boot (Under Roomy Turn) k :=
    ⟨_, crowded_crowd (by decide), reach_crowd (le_refl _)⟩
  obtain ⟨L, hL⟩ := tabled_run hreach
  obtain ⟨P, hP, hctx⟩ := h.first
  have hclone := h.clone_ne_zero (by decide) P.addrspace
  have hring := hL.ring.sysFork hL.bound h.current hP (h.fresh 66 (le_refl _)) hclone
  have hslot : ∀ i, (sysFork k 66).2.slots i ≠ some 66 := by
    intro i hi
    obtain ⟨-, -, hslots, -⟩ := sysFork_tasks h.current hP 66
    rw [hslots, schedAlloc, h.freeSlot_eq_none (le_refl _)] at hi
    exact absurd (h.slots i 66 hi) (by decide)
  refine ⟨k, hreach.of_under, h.turn, ?_, hring.inRing_iff.mpr (by simp), hslot,
    fun pid hfind ↦ ?_⟩
  · rw [sysFork_fst h.current hP hclone, h.nextPid]
    decide
  · obtain ⟨i, -, hi⟩ := Option.bind_eq_some_iff.mp hfind
    exact hslot i hi

end FentoOS.Kernel
