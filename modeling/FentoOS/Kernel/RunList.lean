import FentoOS.Kernel.Core
import FentoOS.Lib.Linked

/-!
# The run list

The run list is a ring of `next` pointers.  `Ring k L` says that the ring holds
the tasks `L`, in this order from the head.  Under it the three loops of the
scheduler do what they are for: `sched_add` appends, `sched_reap` erases, and
`pick_next` finds a task that can run if there is one, wherever in the ring it
starts.
-/

namespace FentoOS.Kernel

open FentoOS.Lib

/-- `t->next`. -/
def nextOf (k : Machine) (t : Addr) : Option Addr := (k.core t).bind Core.next

theorem nextOf_eq (k : Machine) (t : Addr) : (k.tasks t).bind Task.next = nextOf k t := by
  rw [nextOf, Machine.core]
  cases k.tasks t <;> rfl

variable {k : Machine}

theorem nextOf_congr {k' : Machine} {a : Addr}
    (h : (k'.core a).map Core.next = (k.core a).map Core.next) : nextOf k' a = nextOf k a := by
  have hjoin : ∀ m : Machine, nextOf m a = ((m.core a).map Core.next).join := by
    intro m
    rw [nextOf]
    cases m.core a <;> rfl
  rw [hjoin, hjoin, h]

/-- The ring holds the tasks `L`. -/
structure Ring (k : Machine) (L : List Addr) : Prop where
  nodup : L.Nodup
  head : k.taskList = L.head?
  linked : ∀ {h}, L.head? = some h → Linked (nextOf k) L h

theorem Ring.congr {k' : Machine} {L : List Addr} (h : Ring k L) (hhead : k'.taskList = k.taskList)
    (hnext : ∀ a, nextOf k' a = nextOf k a) : Ring k' L :=
  ⟨h.nodup, hhead.trans h.head, fun ha ↦ (h.linked ha).congr fun x _ ↦ hnext x⟩

variable {head x : Addr} {A : List Addr}

/-! ## The loops -/

/-- The loop of `sched_add` ends at the last task. -/
theorem ringLast_eq (hlinked : Linked (nextOf k) (A ++ [x]) head)
    (hne : ∀ y ∈ (A ++ [x]).tail, y ≠ head) (fuel : Nat) (hfuel : A.length < fuel) :
    ringLast k head fuel ((A ++ [x]).headD x) = x := by
  induction A generalizing fuel with
  | nil =>
    obtain ⟨fuel, rfl⟩ := Nat.exists_eq_add_of_lt hfuel
    have hx : nextOf k x = some head := hlinked.1
    simp [ringLast, nextOf_eq, hx]
  | cons y A ih =>
    obtain ⟨fuel, rfl⟩ : ∃ n, fuel = n + 1 := ⟨fuel - 1, by omega⟩
    have hy : nextOf k y = some ((A ++ [x]).headD x) := by
      rw [hlinked.1]
      cases A <;> rfl
    have hmem : (A ++ [x]).headD x ∈ A ++ [x] := by
      cases A <;> simp
    have hnh := hne _ hmem
    simp only [List.cons_append, List.headD_cons, ringLast, nextOf_eq, hy, if_neg hnh]
    refine ih hlinked.2 (fun z hz ↦ hne z (List.mem_of_mem_tail hz)) fuel ?_
    simpa using hfuel

variable {t : Addr}

/-- The loop of `sched_reap` ends at the task in front of `t`. -/
theorem ringPred_eq (hlinked : Linked (nextOf k) (A ++ [x]) t)
    (hne : ∀ y ∈ (A ++ [x]).tail, y ≠ t ∧ y ≠ head) (fuel : Nat) (hfuel : A.length < fuel) :
    ringPred k head t fuel ((A ++ [x]).headD x) = some x := by
  induction A generalizing fuel with
  | nil =>
    obtain ⟨fuel, rfl⟩ : ∃ n, fuel = n + 1 := ⟨fuel - 1, by simp at hfuel; omega⟩
    have hx : nextOf k x = some t := hlinked.1
    simp [ringPred, nextOf_eq, hx]
  | cons y A ih =>
    obtain ⟨fuel, rfl⟩ : ∃ n, fuel = n + 1 := ⟨fuel - 1, by omega⟩
    have hy : nextOf k y = some ((A ++ [x]).headD x) := by
      rw [hlinked.1]
      cases A <;> rfl
    have hmem : (A ++ [x]).headD x ∈ A ++ [x] := by
      cases A <;> simp
    obtain ⟨hnt, hnh⟩ := hne _ hmem
    simp only [List.cons_append, List.headD_cons, ringPred, nextOf_eq, hy, if_neg hnt, if_neg hnh]
    refine ih hlinked.2 (fun z hz ↦ hne z (List.mem_of_mem_tail hz)) fuel ?_
    simpa using hfuel

/-- `t` is ready or running. -/
def Runnable (k : Machine) (t : Addr) : Prop :=
  ∃ c, k.core t = some c ∧ (c.state = .ready ∨ c.state = .running)

theorem runnable_of_task {T : Task} (hT : k.tasks t = some T) :
    Runnable k t ↔ T.runnable = true := by
  rw [Task.runnable, decide_eq_true_eq]
  constructor
  · rintro ⟨c, hc, hs⟩
    rw [core_of_task hT] at hc
    obtain rfl := Option.some.inj hc
    exact hs
  · exact fun hs ↦ ⟨T.core, core_of_task hT, hs⟩

/-- `t` is ready or running, as a test. -/
def canRun (k : Machine) (t : Addr) : Bool := ((k.tasks t).map Task.runnable).getD false

theorem canRun_iff : canRun k t = true ↔ Runnable k t := by
  cases hT : k.tasks t with
  | none =>
    refine iff_of_false (by simp [canRun, hT]) ?_
    rintro ⟨c, hc, -⟩
    rw [core_eq_none.mpr hT] at hc
    cases hc
  | some T => rw [runnable_of_task hT, canRun, hT, Option.map_some, Option.getD_some]

theorem pickFrom_succ {q : Addr} (hq : nextOf k t = some q) (start : Addr) (fuel : Nat) :
    pickFrom k start (fuel + 1) t =
      if canRun k t then t else if q = start then idle else pickFrom k start fuel q := by
  obtain ⟨c, hc, hcq⟩ := Option.bind_eq_some_iff.mp hq
  obtain ⟨T, hT, rfl⟩ := core_eq_some.mp hc
  have hTq : T.next = some q := hcq
  rw [pickFrom, canRun, hT]
  simp only [Option.map_some, Option.getD_some, hTq]

/-- The loop of `pick_next` finds the first task that can run. -/
theorem pickFrom_eq {start : Addr} {L : List Addr} (hlinked : Linked (nextOf k) (t :: L) start)
    (hne : start ∉ L) (fuel : Nat) (hfuel : L.length < fuel) :
    pickFrom k start fuel t = ((t :: L).find? (canRun k)).getD idle := by
  induction L generalizing t fuel with
  | nil =>
    obtain ⟨fuel, rfl⟩ := Nat.exists_eq_add_of_lt hfuel
    rw [pickFrom_succ hlinked.1, List.find?_cons]
    cases canRun k t <;> simp
  | cons y L ih =>
    obtain ⟨fuel, rfl⟩ := Nat.exists_eq_add_of_lt (Nat.zero_lt_of_lt hfuel)
    have hys : y ≠ start := fun h ↦ hne (h ▸ List.mem_cons_self)
    rw [pickFrom_succ hlinked.1, List.find?_cons]
    cases canRun k t with
    | true => rfl
    | false =>
      rw [List.headD_cons, if_neg hys]
      refine ih hlinked.2 (fun h ↦ hne (List.mem_cons_of_mem y h)) _ ?_
      rw [List.length_cons] at hfuel
      omega

/-! ## Rings -/

section Ring

variable {k : Machine} {L : List Addr}

theorem ne_head_of_mem_tail {M : List Addr} {a y : Addr} (hnodup : M.Nodup) (ha : M.head? = some a)
    (hy : y ∈ M.tail) : y ≠ a := by
  cases M with
  | nil => cases ha
  | cons b M =>
    obtain rfl : b = a := Option.some.inj ha
    rintro rfl
    exact (List.nodup_cons.mp hnodup).1 hy

theorem Ring.next_mem (h : Ring k L) (ht : t ∈ L) : ∃ s, nextOf k t = some s ∧ s ∈ L := by
  cases L with
  | nil => cases ht
  | cons a L =>
    have hlinked := h.linked (h := a) rfl
    obtain ⟨s, hs⟩ := hlinked.next_eq_some ht
    rcases hlinked.next_mem ht hs with hmem | rfl
    · exact ⟨s, hs, hmem⟩
    · exact ⟨s, hs, List.mem_cons_self⟩

theorem Ring.cycle (h : Ring k L) : IsCycle (nextOf k) L := ⟨h.nodup, h.linked⟩

/-- `pick_next` goes through the ring from the current task on, and comes to the current task
last. -/
theorem pickNext_eq {c : Addr} {M : List Addr} (h : IsCycle (nextOf k) (M ++ [c]))
    (hcur : k.current = some c) (hfuel : M.length < k.nextPid) :
    pickNext k = ((M ++ [c]).find? (canRun k)).getD idle := by
  have hnext := h.next_last
  have hpick : pickNext k = pickFrom k (M.headD c) k.nextPid (M.headD c) := by
    rw [pickNext, hcur]
    simp only [nextOf_eq, hnext]
  rw [hpick]
  cases M with
  | nil => exact pickFrom_eq (h.linked (h := c) rfl) List.not_mem_nil _ hfuel
  | cons s M =>
    refine pickFrom_eq (h.linked (h := s) rfl) (List.nodup_cons.mp h.nodup).1 _ ?_
    simpa using hfuel

/-- The ring behind a task and in front of it, and the task last. -/
theorem Ring.behind {B : List Addr} {c : Addr} (h : Ring k (A ++ c :: B)) :
    IsCycle (nextOf k) (B ++ A ++ [c]) := by
  have hcycle := h.cycle
  rw [← List.singleton_append, ← List.append_assoc] at hcycle
  rw [List.append_assoc]
  exact hcycle.rotate

/-- **`pick_next` finds a task that can run**, wherever in the ring the current task is. -/
theorem Ring.pickNext (h : Ring k L) (hcur : k.current = some t) (ht : t ∈ L)
    (hfuel : L.length ≤ k.nextPid) :
    (pickNext k ∈ L ∧ Runnable k (pickNext k)) ∨
      (pickNext k = idle ∧ ∀ x ∈ L, ¬Runnable k x) := by
  obtain ⟨A, B, rfl⟩ := List.append_of_mem ht
  have hmem : ∀ x, x ∈ B ++ A ++ [t] ↔ x ∈ A ++ t :: B := by
    intro x
    simp only [List.mem_cons, List.mem_append, List.not_mem_nil, or_false]
    tauto
  rw [pickNext_eq h.behind hcur (by simp at hfuel ⊢; omega)]
  cases hfind : (B ++ A ++ [t]).find? (canRun k) with
  | none =>
    refine .inr ⟨rfl, fun x hx hrun ↦ ?_⟩
    exact List.find?_eq_none.mp hfind x ((hmem x).mpr hx) (canRun_iff.mpr hrun)
  | some x =>
    refine .inl ⟨(hmem x).mp (List.mem_of_find?_eq_some hfind), ?_⟩
    exact canRun_iff.mp (List.find?_some hfind)

theorem nextOf_upd_next (k : Machine) (hlive : k.core t ≠ none) (v : Option Addr) (a : Addr) :
    nextOf (k.upd t fun T ↦ { T with next := v }) a =
      if a = t then v else nextOf k a := by
  rw [nextOf, core_upd (g := fun c ↦ { c with next := v }) fun _ ↦ rfl]
  split
  case isTrue h =>
    subst h
    obtain ⟨c, hc⟩ := Option.ne_none_iff_exists'.mp hlive
    rw [hc]
    rfl
  case isFalse => rfl

theorem Ring.core_ne_none (h : Ring k L) (ht : t ∈ L) : k.core t ≠ none := by
  obtain ⟨s, hs, -⟩ := h.next_mem ht
  intro hnone
  rw [nextOf, hnone] at hs
  cases hs

/-- `sched_add` appends, and leaves what is not in the ring alone. -/
theorem Ring.schedAdd (h : Ring k L) (ht : t ∉ L) (hlive : k.core t ≠ none)
    (hfuel : L.length ≤ k.nextPid) : Ring (schedAdd k t) (L ++ [t]) ∧
      ∀ {y}, y ∉ L ++ [t] → nextOf (schedAdd k t) y = nextOf k y := by
  rcases List.eq_nil_or_concat L with rfl | ⟨A, x, hL⟩
  · have hnone : k.taskList = none := h.head
    rw [Kernel.schedAdd, hnone]
    have hnext := nextOf_upd_next { k with taskList := some t } (t := t) hlive (some t)
    refine ⟨⟨by simp, rfl, fun {a} ha ↦ ?_⟩, fun {y} hy ↦ ?_⟩
    · obtain rfl : t = a := by simpa using ha
      exact ⟨(hnext t).trans (if_pos rfl), trivial⟩
    · exact (hnext y).trans (if_neg (by simpa using hy))
  · rw [List.concat_eq_append] at hL
    subst hL
    set head := (A ++ [x]).headD x with hhead
    have hhead' : (A ++ [x]).head? = some head := by
      rw [hhead]
      cases A <;> rfl
    have hlinked := h.linked hhead'
    have hlast : ringLast k head k.nextPid head = x :=
      ringLast_eq hlinked (fun y hy ↦ ne_head_of_mem_tail h.nodup hhead' hy) k.nextPid
        (by simpa using hfuel)
    have hx : x ∈ A ++ [x] := by simp
    have hxt : x ≠ t := fun hxt ↦ ht (hxt ▸ hx)
    set k₁ := k.upd x fun T ↦ { T with next := some t } with hk₁
    have hadd : Kernel.schedAdd k t = k₁.upd t fun T ↦ { T with next := some head } := by
      rw [Kernel.schedAdd, h.head, hhead']
      simp only [hlast, hk₁]
    have hlive₁ : k₁.core t ≠ none := by
      rw [hk₁, core_upd (g := fun c ↦ { c with next := some t }) fun _ ↦ rfl, if_neg hxt.symm]
      exact hlive
    have hnext : ∀ y, nextOf (Kernel.schedAdd k t) y =
        if y = t then some head else if y = x then some t else nextOf k y := by
      intro y
      rw [hadd, nextOf_upd_next k₁ hlive₁, hk₁, nextOf_upd_next k (h.core_ne_none hx)]
    refine ⟨⟨?_, ?_, fun {a} ha ↦ ?_⟩, fun {y} hy ↦ ?_⟩
    · rw [List.nodup_append]
      refine ⟨h.nodup, by simp, fun y hy z hz ↦ ?_⟩
      obtain rfl : z = t := by simpa using hz
      rintro rfl
      exact ht hy
    · rw [hadd]
      change k.taskList = _
      rw [h.head, hhead', List.head?_append, hhead', Option.some_or]
    · rw [List.head?_append, hhead', Option.some_or] at ha
      obtain rfl := Option.some.inj ha
      rw [Linked.append]
      refine ⟨hlinked.relink (fun y hy ↦ ?_) ?_, ?_, trivial⟩
      · have hyx : y ≠ x := by
          rintro rfl
          have := h.nodup
          rw [List.nodup_append] at this
          exact this.2.2 y hy y (by simp) rfl
        have hyt : y ≠ t := fun hyt ↦ ht (hyt ▸ List.mem_append_left _ hy)
        rw [hnext, if_neg hyt, if_neg hyx]
      · rw [hnext, if_neg hxt, if_pos rfl]
        rfl
      · rw [hnext, if_pos rfl]
        rfl
    · rw [List.mem_append, not_or] at hy
      have hyx : y ≠ x := fun hyx ↦ hy.1 (hyx ▸ hx)
      rw [hnext, if_neg (by simpa using hy.2), if_neg hyx]

theorem ringRemove_eq {tnext : Option Addr} (hhead : k.taskList = some head)
    (hpred : ringPred k head t k.nextPid head = some x) (htnext : nextOf k t = tnext) :
    ringRemove k t =
      if head = t then
        { k.upd x fun T ↦ { T with next := tnext } with
          taskList := if tnext = some t then none else tnext }
      else k.upd x fun T ↦ { T with next := tnext } := by
  rw [Kernel.ringRemove, hhead]
  simp only [hpred, nextOf_eq, htnext]

/-- The part of `sched_reap` that takes a task out of the ring. -/
theorem Ring.ringRemove (h : Ring k L) (ht : t ∈ L) (hfuel : L.length ≤ k.nextPid) :
    (ringRemove k t).taskList = (L.erase t).head? ∧
      (∀ {a}, (L.erase t).head? = some a → Linked (nextOf (ringRemove k t)) (L.erase t) a) ∧
      ∀ {y}, y ∉ L → nextOf (ringRemove k t) y = nextOf k y := by
  obtain ⟨P, B, rfl⟩ := List.append_of_mem ht
  have hnodup := h.nodup
  rw [List.nodup_append, List.nodup_cons] at hnodup
  obtain ⟨hP, ⟨htB, hB⟩, hPB⟩ := hnodup
  have htP : t ∉ P := fun hmem ↦ hPB t hmem t List.mem_cons_self rfl
  have herase : (P ++ t :: B).erase t = P ++ B := by
    rw [List.erase_append_right _ htP, List.erase_cons_head]
  rw [herase]
  rcases List.eq_nil_or_concat P with rfl | ⟨A, x, hA⟩
  · -- the head itself is taken out; its predecessor is the last task of the ring
    have hlinked : Linked (nextOf k) (t :: B) t := h.linked rfl
    have htail : ∀ y ∈ (t :: B).tail, y ≠ t ∧ y ≠ t := by
      intro y hy
      have : y ≠ t := fun hyt ↦ htB (hyt ▸ hy)
      exact ⟨this, this⟩
    rcases List.eq_nil_or_concat B with rfl | ⟨A, x, hA⟩
    · have hpred : ringPred k t t k.nextPid t = some t :=
        ringPred_eq (A := []) hlinked htail k.nextPid (Nat.lt_of_lt_of_le (by simp) hfuel)
      rw [ringRemove_eq h.head hpred hlinked.1, if_pos rfl]
      refine ⟨by simp, (fun ha ↦ by cases ha), fun {y} hy ↦ ?_⟩
      exact (nextOf_upd_next k (h.core_ne_none ht) _ y).trans (if_neg (by simpa using hy))
    · rw [List.concat_eq_append] at hA
      subst hA
      have hpred : ringPred k t t k.nextPid t = some x :=
        ringPred_eq (A := t :: A) hlinked htail k.nextPid (by simp at hfuel ⊢; omega)
      have hx : x ∈ t :: (A ++ [x]) := by simp
      have hxA : x ∉ A := fun hxA ↦ by
        rw [List.nodup_append] at hB
        exact hB.2.2 x hxA x (by simp) rfl
      obtain ⟨b, hb⟩ : ∃ b, (A ++ [x]).head? = some b := by
        cases A <;> exact ⟨_, rfl⟩
      have hbt : b ≠ t := fun hbt ↦ htB (hbt ▸ List.mem_of_head? hb)
      have htnext : nextOf k t = some b := by
        rw [hlinked.1, List.headD_eq_head?_getD, hb, Option.getD_some]
      rw [ringRemove_eq h.head hpred htnext, if_pos rfl, List.nil_append, hb]
      have hnext := nextOf_upd_next k (h.core_ne_none hx) (some b)
      refine ⟨by simp [hbt], fun {a} ha ↦ ?_, fun {y} hy ↦ ?_⟩
      · obtain rfl := Option.some.inj ha
        refine hlinked.2.relink (fun y hy ↦ ?_) ?_
        · have hyx : y ≠ x := fun hyx ↦ hxA (hyx ▸ hy)
          exact (hnext y).trans (if_neg hyx)
        · exact (hnext x).trans (if_pos rfl)
      · have hyx : y ≠ x := fun hyx ↦ hy (hyx ▸ hx)
        exact (hnext y).trans (if_neg hyx)
  · -- the predecessor `x` stands before `t` in the list, and the head stays
    rw [List.concat_eq_append] at hA
    subst hA
    obtain ⟨head, hhead⟩ : ∃ b, (A ++ [x]).head? = some b := by
      cases A <;> exact ⟨_, rfl⟩
    have hheadL : (A ++ [x] ++ t :: B).head? = some head := by
      rw [List.head?_append, hhead, Option.some_or]
    have hheadPB : (A ++ [x] ++ B).head? = some head := by
      rw [List.head?_append, hhead, Option.some_or]
    have hlinked := h.linked hheadL
    rw [Linked.append] at hlinked
    obtain ⟨hbefore, htnext, hafter⟩ := hlinked
    rw [List.headD_cons] at hbefore
    have hheadt : head ≠ t := fun hht ↦ htP (hht ▸ List.mem_of_head? hhead)
    have hpred : ringPred k head t k.nextPid head = some x := by
      have hstart : (A ++ [x]).headD x = head := by
        rw [List.headD_eq_head?_getD, hhead, Option.getD_some]
      nth_rewrite 2 [← hstart]
      refine ringPred_eq hbefore (fun y hy ↦ ⟨?_, ne_head_of_mem_tail hP hhead hy⟩) k.nextPid
        (by simp at hfuel; omega)
      rintro rfl
      exact htP (List.mem_of_mem_tail hy)
    have hx : x ∈ A ++ [x] ++ t :: B := by simp
    have hxB : ∀ y ∈ B, y ≠ x := fun y hy hyx ↦
      hPB x (by simp) y (List.mem_cons_of_mem t hy) hyx.symm
    have hxA : ∀ y ∈ A, y ≠ x := by
      rw [List.nodup_append] at hP
      exact fun y hy hyx ↦ hP.2.2 y hy x (by simp) hyx
    have hnext := nextOf_upd_next k (h.core_ne_none hx) (some (B.headD head))
    rw [ringRemove_eq (h.head.trans hheadL) hpred htnext, if_neg hheadt, hheadPB]
    refine ⟨h.head.trans hheadL, fun {a} ha ↦ ?_, fun {y} hy ↦ ?_⟩
    · obtain rfl := Option.some.inj ha
      rw [Linked.append]
      refine ⟨hbefore.relink (fun y hy ↦ ?_) ?_, hafter.congr fun y hy ↦ ?_⟩
      · rw [hnext, if_neg (hxA y hy)]
      · rw [hnext, if_pos rfl]
      · rw [hnext, if_neg (hxB y hy)]
    · have hyx : y ≠ x := fun hyx ↦ hy (hyx ▸ hx)
      rw [hnext, if_neg hyx]

/-- `sched_reap` erases, and leaves what is not in the ring alone. -/
theorem Ring.schedReap (h : Ring k L) (ht : t ∈ L) (hfuel : L.length ≤ k.nextPid) :
    Ring (schedReap k t) (L.erase t) ∧ ∀ {y}, y ∉ L → nextOf (schedReap k t) y = nextOf k y := by
  obtain ⟨hhead, hlinked, hother⟩ := h.ringRemove ht hfuel
  have hnext : ∀ {y}, y ≠ t → nextOf (Kernel.schedReap k t) y =
      nextOf (Kernel.ringRemove k t) y := by
    intro y hyt
    rw [nextOf, core_schedReap, if_neg hyt, nextOf]
  refine ⟨⟨h.nodup.erase t, hhead, fun ha ↦ (hlinked ha).congr fun y hy ↦ hnext ?_⟩,
    fun {y} hy ↦ ?_⟩
  · rintro rfl
    exact (h.nodup.not_mem_erase) hy
  · have hyt : y ≠ t := fun hyt ↦ hy (hyt ▸ ht)
    rw [hnext hyt, hother hy]

/-- `t` is in the ring: one gets there from the head by `next` pointers. -/
def InRing (k : Machine) (t : Addr) : Prop :=
  ∃ head, k.taskList = some head ∧
    Relation.ReflTransGen (fun a b ↦ nextOf k a = some b) head t

theorem Ring.inRing_iff (h : Ring k L) : InRing k t ↔ t ∈ L := by
  rw [InRing, h.head]
  cases L with
  | nil => simp
  | cons a L =>
    have hlinked := h.linked (h := a) rfl
    rw [← hlinked.reach_iff]
    simp

end Ring

end FentoOS.Kernel
