import FentoOS.Kernel.TaskTable

/-!
# Round robin

What the scheduler of `kernel/sched/sched.c` promises to a task that waits for the
processor.  The run list is a ring whatever `sched_add` and `sched_reap` have done to it,
`pick_next` goes through it from the current task on, and so the current task comes closer
to the one that waits with every switch, whatever the other tasks do.

The distance is the number of tasks that `pick_next` would try first: with the ring
written from behind the current task on, `X ++ t :: (Y ++ [c])` for the current task `c`
and a task `t` that waits, it is the length of `X`.
-/

namespace FentoOS.Kernel

open FentoOS.Lib

/-! ## Run lists -/

/-- `sched_add` and `sched_reap` have been called any number of times, and `n` tasks have been
added.  In between the kernel may do what it likes, except for the head of the list and the
links of the tasks.  Every task that is added has been allocated, and `next_pid` counts
these. -/
inductive Built : Machine → Nat → Prop
  | start {k : Machine} (h : k.taskList = none) : Built k 0
  | schedAdd {k : Machine} {n : Nat} {t : Addr} (h : Built k n) (hnew : ¬InRing k t)
      (hlive : k.tasks t ≠ none) (hpid : n < k.nextPid) : Built (schedAdd k t) (n + 1)
  | schedReap {k : Machine} {n : Nat} {t : Addr} (h : Built k n) (ht : InRing k t) :
      Built (schedReap k t) n
  | other {k k' : Machine} {n : Nat} (h : Built k n) (hlist : k'.taskList = k.taskList)
      (hnext : ∀ a, nextOf k' a = nextOf k a) (hpid : k.nextPid ≤ k'.nextPid) : Built k' n

section

variable {k k' : Machine} {L : List Addr} {t : Addr} {n : Nat}

theorem ring_nil (h : k.taskList = none) : Ring k [] :=
  ⟨List.nodup_nil, h, fun ha ↦ by cases ha⟩

theorem schedReap_nextPid (k : Machine) (t : Addr) : (schedReap k t).nextPid = k.nextPid :=
  ringRemove_nextPid k t

/-- The run list is a ring. -/
theorem Built.ring (h : Built k n) : ∃ L, Ring k L ∧ L.length ≤ n ∧ n ≤ k.nextPid := by
  induction h with
  | start h => exact ⟨[], ring_nil h, Nat.le_refl 0, Nat.zero_le _⟩
  | @schedAdd k n t _ hnew hlive hpid ih =>
    obtain ⟨L, hL, hlen, -⟩ := ih
    have ht : t ∉ L := fun ht ↦ hnew (hL.inRing_iff.mpr ht)
    refine ⟨L ++ [t], (hL.schedAdd ht (mt core_eq_none.mp hlive) (by omega)).1, ?_, ?_⟩
    · rw [List.length_append]
      exact Nat.succ_le_succ hlen
    · rw [schedAdd_nextPid]
      exact hpid
  | @schedReap k n t _ ht ih =>
    obtain ⟨L, hL, hlen, hpid⟩ := ih
    refine ⟨L.erase t, (hL.schedReap (hL.inRing_iff.mp ht) (hlen.trans hpid)).1, ?_, ?_⟩
    · exact List.length_erase_le.trans hlen
    · rw [schedReap_nextPid]
      exact hpid
  | other _ hlist hnext hpid ih =>
    obtain ⟨L, hL, hlen, hle⟩ := ih
    exact ⟨L, hL.congr hlist hnext, hlen, hle.trans hpid⟩

/-! ## Waiting for the processor -/

/-- The task waits for the processor. -/
def Waiting (k : Machine) (t : Addr) : Prop :=
  (∃ T, k.tasks t = some T ∧ T.state = .ready) ∧ k.current ≠ some t

/-- The next tick ends the time slice of the current task. -/
def Expiring (k : Machine) : Prop := ∃ T, k.currentTask = some T ∧ T.timeSlice ≤ 1

/-- `n` yields and ticks that end a time slice, with `t` waiting before each of them.  In
between other tasks may block, wake up or exit. -/
inductive Turns (t : Addr) (k : Machine) : Nat → Machine → Prop
  | refl : Turns t k 0 k
  | schedYield {n : Nat} {k' : Machine} (h : Turns t k n k') (hw : Waiting k' t) :
      Turns t k (n + 1) (schedYield k')
  | schedTick {n : Nat} {k' : Machine} (h : Turns t k n k') (hw : Waiting k' t)
      (hexp : Expiring k') : Turns t k (n + 1) (schedTick k')
  | other {n : Nat} {k' k'' : Machine} (h : Turns t k n k') (hw : Waiting k' t)
      (hplaces : Placid k' k'') (hcur : k''.current = k'.current)
      (hstart : k''.started = k'.started) : Turns t k n k''

/-- Behind the current task there are `d` tasks in front of `t`, in a ring of `N`. -/
structure Ahead (k : Machine) (t : Addr) (N d : Nat) : Prop where
  started : k.started = true
  bound : N ≤ k.nextPid
  place : ∃ X Y c, IsCycle (nextOf k) (X ++ t :: (Y ++ [c])) ∧ k.current = some c ∧
    X.length = d ∧ (X ++ t :: (Y ++ [c])).length = N

variable {N d : Nat}

theorem Ahead.lt (h : Ahead k t N d) : d + 1 < N := by
  obtain ⟨X, Y, c, -, -, rfl, rfl⟩ := h.place
  simp only [List.length_append, List.length_cons, List.length_nil]
  omega

theorem Ahead.placid (h : Ahead k t N d) (hp : Placid k k') (hcur : k'.current = k.current)
    (hstart : k'.started = k.started) : Ahead k' t N d := by
  refine ⟨hstart.trans h.started, hp.nextPid ▸ h.bound, ?_⟩
  obtain ⟨X, Y, c, hcycle, hc, hd, hN⟩ := h.place
  exact ⟨X, Y, c, hcycle.congr (nextOf_of_evolves hp.tasks), hcur.trans hc, hd, hN⟩

/-- In a ring a task that is not the current one is somewhere ahead. -/
theorem Ring.ahead (h : Ring k L) (hbound : L.length ≤ k.nextPid) {c : Addr}
    (hcur : k.current = some c) (hc : c ∈ L) (ht : t ∈ L) (hne : t ≠ c)
    (hstart : k.started = true) : ∃ d, Ahead k t L.length d := by
  obtain ⟨A, B, rfl⟩ := List.append_of_mem hc
  have ht' : t ∈ B ++ A := by
    rcases List.mem_append.mp ht with ht | ht
    · exact List.mem_append_right B ht
    · exact List.mem_append_left A ((List.mem_cons.mp ht).resolve_left hne)
  obtain ⟨X, Y, hXY⟩ := List.append_of_mem ht'
  have hcycle := h.behind
  rw [hXY, List.append_assoc, List.cons_append] at hcycle
  refine ⟨X.length, hstart, hbound, X, Y, c, hcycle, hcur, rfl, ?_⟩
  have hlen := congrArg List.length hXY
  simp only [List.length_append, List.length_cons, List.length_nil] at hlen ⊢
  omega

/-- The first task of a list for which a test holds stands in front of any other one. -/
theorem find?_before {p : Addr → Bool} {X Z : List Addr} (ht : p t = true) :
    (X ++ t :: Z).find? p = some t ∨
      ∃ X₁ x X₂, X = X₁ ++ x :: X₂ ∧ (X ++ t :: Z).find? p = some x := by
  rw [List.find?_append]
  cases hX : X.find? p with
  | none => exact .inl (by rw [Option.none_or, List.find?_cons_of_pos ht])
  | some x =>
    obtain ⟨-, X₁, X₂, rfl, -⟩ := List.find?_eq_some_iff_append.mp hX
    exact .inr ⟨X₁, x, X₂, rfl, rfl⟩

/-- `pick_next` gives the processor to the task that is waiting, or to one in front of it. -/
theorem Ahead.pickNext (h : Ahead k t N d) (hw : Waiting k t) :
    some (pickNext k) ≠ k.current ∧
      ∀ {k'}, Placid k k' → k'.started = k.started → k'.current = some (pickNext k) →
        k'.current = some t ∨ ∃ d' < d, Ahead k' t N d' := by
  obtain ⟨X, Y, c, hcycle, hcur, rfl, rfl⟩ := h.place
  obtain ⟨⟨T, hT, hready⟩, hne⟩ := hw
  have hrun : canRun k t = true :=
    canRun_iff.mpr ((runnable_of_task hT).mpr (decide_eq_true (.inl hready)))
  have hpick : Kernel.pickNext k =
      ((X ++ t :: (Y ++ [c])).find? (canRun k)).getD idle := by
    have happ : X ++ t :: (Y ++ [c]) = (X ++ t :: Y) ++ [c] := by simp
    have hbound := h.bound
    rw [happ] at hcycle hbound ⊢
    rw [List.length_append] at hbound
    exact pickNext_eq hcycle hcur hbound
  rw [hpick, hcur]
  rcases find?_before (X := X) (Z := Y ++ [c]) hrun with hfind | ⟨X₁, x, X₂, rfl, hfind⟩
  · rw [hfind]
    refine ⟨fun htc ↦ hne (hcur.trans htc.symm), fun _ _ hcur' ↦ .inl hcur'⟩
  · rw [hfind]
    refine ⟨fun hxc ↦ ?_, fun {k'} hp hstart hcur' ↦ .inr ⟨X₂.length, ?_, ?_⟩⟩
    · -- the current task comes last
      obtain rfl : x = c := Option.some.inj hxc
      exact (List.nodup_append.mp hcycle.nodup).2.2 x (by simp) x (by simp) rfl
    · simp only [List.length_append, List.length_cons]
      omega
    · refine ⟨hstart.trans h.started, hp.nextPid ▸ h.bound, X₂, Y ++ [c] ++ X₁, x, ?_, hcur', rfl,
        by simp; omega⟩
      have happ : X₁ ++ x :: X₂ ++ t :: (Y ++ [c]) = (X₁ ++ [x]) ++ (X₂ ++ t :: (Y ++ [c])) := by
        simp
      rw [happ] at hcycle
      have hrot := hcycle.rotate.congr (nextOf_of_evolves hp.tasks)
      simpa using hrot

theorem switchTo_started (k : Machine) (next : Addr) : (switchTo k next).started = k.started := by
  rw [switchTo]
  split <;> rfl

/-- A yield brings the waiting task closer to the processor. -/
theorem Ahead.schedYield (h : Ahead k t N d) (hw : Waiting k t) :
    (schedYield k).current = some t ∨ ∃ d' < d, Ahead (schedYield k) t N d' := by
  obtain ⟨hswitch, hnext⟩ := h.pickNext hw
  have heq : Kernel.schedYield k = switchTo (preempt k) (Kernel.pickNext k) := by
    rw [Kernel.schedYield, h.started]
    exact if_pos hswitch
  refine hnext (placid_schedYield k) ?_ ?_
  · rw [heq, switchTo_started, (frame_preempt k).started]
  · rw [heq, switchTo_current]

/-- So does a tick that ends a time slice. -/
theorem Ahead.schedTick (h : Ahead k t N d) (hw : Waiting k t) (hexp : Expiring k) :
    (schedTick k).current = some t ∨ ∃ d' < d, Ahead (schedTick k) t N d' := by
  obtain ⟨T, hT, hslice⟩ := hexp
  obtain ⟨c, hcur, hc⟩ := Option.bind_eq_some_iff.mp hT
  set k₁ := k.updCurrent fun T ↦ { T with timeSlice := T.timeSlice - 1 } with hk₁
  have hk₁' : k₁ = k.upd c fun T ↦ { T with timeSlice := T.timeSlice - 1 } := by
    rw [hk₁, Machine.updCurrent, hcur]
  have hp : Placid k k₁ := .updCurrent k fun _ ↦ ⟨rfl, rfl⟩
  have hframe : Frame k k₁ := hk₁' ▸ .upd ..
  have htc : t ≠ c := fun htc ↦ hw.2 (htc ▸ hcur)
  have hw₁ : Waiting k₁ t := by
    refine ⟨?_, hframe.current ▸ hw.2⟩
    rw [hk₁', upd_tasks, if_neg htc]
    exact hw.1
  have hzero : (k₁.currentTask.map Task.timeSlice).getD 0 = 0 := by
    rw [Machine.currentTask, hframe.current, hcur, Option.bind_some, hk₁', upd_tasks, if_pos rfl,
      hc]
    exact Nat.sub_eq_zero_of_le hslice
  obtain ⟨hswitch, hnext⟩ := (h.placid hp hframe.current hframe.started).pickNext hw₁
  have heq : Kernel.schedTick k = switchTo (preempt k₁) (Kernel.pickNext k₁) := by
    rw [Kernel.schedTick, h.started, hT]
    simp only [Bool.not_true, Bool.false_eq_true, if_false, ← hk₁, if_pos hzero, if_pos hswitch]
  have hplaces : Placid k₁ (Kernel.schedTick k) := by
    rw [heq]
    exact (placid_preempt k₁).trans (placid_switchTo _ _)
  refine hnext hplaces ?_ ?_
  · rw [heq, switchTo_started, (frame_preempt k₁).started]
  · rw [heq, switchTo_current]

/-- A task that has the processor does not wait. -/
theorem Turns.current (h : Turns t k n k') (hcur : k.current = some t) : k'.current = some t := by
  induction h with
  | refl => exact hcur
  | schedYield _ hw ih => exact absurd ih hw.2
  | schedTick _ hw _ ih => exact absurd ih hw.2
  | other _ hw _ _ _ ih => exact absurd ih hw.2

/-- Along a whole run the waiting task comes closer, until it has the processor. -/
theorem Turns.ahead (h : Turns t k n k') (ha : Ahead k t N d) :
    k'.current = some t ∨ ∃ d', d' + n ≤ d ∧ Ahead k' t N d' := by
  induction h with
  | refl => exact .inr ⟨d, le_rfl, ha⟩
  | schedYield _ hw ih =>
    obtain ⟨d', hle, ha'⟩ := ih.resolve_left hw.2
    refine (ha'.schedYield hw).imp_right ?_
    rintro ⟨d'', hlt, ha''⟩
    exact ⟨d'', by omega, ha''⟩
  | schedTick _ hw hexp ih =>
    obtain ⟨d', hle, ha'⟩ := ih.resolve_left hw.2
    refine (ha'.schedTick hw hexp).imp_right ?_
    rintro ⟨d'', hlt, ha''⟩
    exact ⟨d'', by omega, ha''⟩
  | other _ hw hplaces hcur hstart ih =>
    obtain ⟨d', hle, ha'⟩ := ih.resolve_left hw.2
    exact .inr ⟨d', hle, ha'.placid hplaces hcur hstart⟩

end

/-- The run list that `sched_add` and `sched_reap` have built is a ring.  `sched_add` appends to
it, in front of the head, and `sched_reap` erases one task.  `pick_next` takes the first task
behind the current one that can run, the current one last.  A task that waits gets the processor
after at most as many yields and expired time slices as there are other tasks. -/
theorem round_robin {k : Machine} {n : Nat} (h : Built k n) : ∃ L, Ring k L ∧
    (∀ t ∉ L, k.tasks t ≠ none → Ring (schedAdd k t) (L ++ [t])) ∧
    (∀ t ∈ L, Ring (schedReap k t) (L.erase t)) ∧
    (∀ A c B, L = A ++ c :: B → k.current = some c →
      pickNext k = ((B ++ A ++ [c]).find? (canRun k)).getD idle) ∧
    ∀ t ∈ L, ∀ c ∈ L, k.current = some c → k.started = true →
      ∀ m k', Turns t k m k' → k'.current = some t ∨ m < L.length - 1 := by
  obtain ⟨L, hL, hlen, hpid⟩ := h.ring
  have hbound := hlen.trans hpid
  refine ⟨L, hL, fun t ht hlive ↦ ?_, fun t ht ↦ ?_, ?_, ?_⟩
  · exact (hL.schedAdd ht (mt core_eq_none.mp hlive) hbound).1
  · exact (hL.schedReap ht hbound).1
  · rintro A c B rfl hcur
    refine pickNext_eq hL.behind hcur ?_
    simp only [List.length_append, List.length_cons] at hbound ⊢
    omega
  · intro t ht c hc hcur hstart m k' hturns
    by_cases htc : t = c
    · exact .inl (hturns.current (htc ▸ hcur))
    · obtain ⟨d, hd⟩ := hL.ahead hbound hcur hc ht htc hstart
      refine (hturns.ahead hd).imp_right ?_
      rintro ⟨d', hle, hd'⟩
      have := hd.lt
      omega

/-- The small machine with its first task and another one, of which neither is in the run
list. -/
def unlisted : Machine := schedAlloc { sampleBoot with taskList := none } 3

theorem unlisted_built : Built (schedAdd (schedAdd unlisted 1) 3) 2 := by
  have hfirst : Built (schedAdd unlisted 1) 1 := by
    refine .schedAdd (.start rfl) ?_ (by decide) (by decide)
    rintro ⟨head, hhead, -⟩
    cases hhead
  have hring : Ring (schedAdd unlisted 1) [1] :=
    ((ring_nil (k := unlisted) rfl).schedAdd List.not_mem_nil (by decide) (Nat.zero_le _)).1
  refine .schedAdd hfirst (fun h ↦ ?_) (by decide) (by decide)
  exact absurd (hring.inRing_iff.mp h) (by decide)

theorem round_robin_two : (schedAdd (schedAdd unlisted 1) 3).taskList = some 1 ∧
    ∃ L, Ring (schedAdd (schedAdd unlisted 1) 3) L ∧
      (∀ t ∉ L, (schedAdd (schedAdd unlisted 1) 3).tasks t ≠ none →
        Ring (schedAdd (schedAdd (schedAdd unlisted 1) 3) t) (L ++ [t])) ∧
      (∀ t ∈ L, Ring (schedReap (schedAdd (schedAdd unlisted 1) 3) t) (L.erase t)) ∧
      (∀ A c B, L = A ++ c :: B → (schedAdd (schedAdd unlisted 1) 3).current = some c →
        pickNext (schedAdd (schedAdd unlisted 1) 3) =
          ((B ++ A ++ [c]).find? (canRun (schedAdd (schedAdd unlisted 1) 3))).getD idle) ∧
      ∀ t ∈ L, ∀ c ∈ L, (schedAdd (schedAdd unlisted 1) 3).current = some c →
        (schedAdd (schedAdd unlisted 1) 3).started = true →
        ∀ m k', Turns t (schedAdd (schedAdd unlisted 1) 3) m k' →
          k'.current = some t ∨ m < L.length - 1 :=
  ⟨by decide, round_robin unlisted_built⟩

end FentoOS.Kernel
