import FentoOS.Kernel.TaskTable
import FentoOS.Mm.Shortage

/-!
# Forks that fail

`sys_fork_impl` takes memory for the child from the heap, enters it in the task table and
makes it a child of its parent before it has an address space for it.  When there is no
frame for the page directory it returns `-1`, and none of this is undone: the child stays
in the table, with a parent that waits for it, and the frames by which the heap has grown
stay taken.  A fork leaves no trace only if it fails at its very first allocation, or
there was nothing left to take: no free frame and no free slot.
-/

namespace FentoOS.Kernel

open FentoOS.Lib FentoOS.Fs FentoOS.Mm Function

/-! ## The table holds tasks -/

/-- The tasks of the table are in memory. -/
def SlotsLive (k : Machine) : Prop := ∀ i a, k.slots i = some a → k.tasks a ≠ none

section

variable {k k' : Machine} {t : Addr}

theorem SlotsLive.placid (h : SlotsLive k) (hp : Placid k k') : SlotsLive k' := by
  intro i a hi
  rw [hp.slots] at hi
  obtain ⟨T, hT⟩ := Option.ne_none_iff_exists'.mp (h i a hi)
  obtain ⟨T', hT', -⟩ := hp.tasks.eq_some hT
  rw [hT']
  exact Option.some_ne_none T'

theorem SlotsLive.sysFork (h : SlotsLive k) {P : Task} (hcur : k.current = some t)
    (hP : k.tasks t = some P) (child : Addr) : SlotsLive (sysFork k child).2 := by
  obtain ⟨k₂, hstay, hslots, -, C, htasks, -⟩ := sysFork_tasks hcur hP child
  intro i a hi
  have hlive : k₂.tasks a ≠ none := by
    rw [htasks, update_apply]
    split
    · exact Option.some_ne_none C
    case isFalse hne =>
      rw [hslots] at hi
      rcases slots_schedAlloc_cases hi with hi | ⟨-, rfl⟩
      · exact h i a hi
      · exact absurd rfl hne
  obtain ⟨T, hT⟩ := Option.ne_none_iff_exists'.mp hlive
  obtain ⟨T', hT', -⟩ := hstay.eq_some hT
  rw [hT']
  exact Option.some_ne_none T'

theorem SlotsLive.schedReap (h : SlotsLive k) (c : Addr) : SlotsLive (schedReap k c) := by
  intro i a hi
  rw [slots_schedReap] at hi
  split at hi
  · cases hi
  case isFalse hne =>
    have hac : a ≠ c := by
      rintro rfl
      exact hne hi
    obtain ⟨T, hT⟩ := Option.ne_none_iff_exists'.mp (h i a hi)
    obtain ⟨T', hT', -⟩ := (stay_ringRemove k c).eq_some hT
    rw [schedReap_tasks, if_neg hac, hT']
    exact Option.some_ne_none T'

theorem SlotsLive.turn (h : SlotsLive k) {a : Addr × Event} (hturn : Turn k a k') :
    SlotsLive k' := by
  have h₀ : SlotsLive { k with current := some a.1 } := h
  obtain hp | ⟨child, T, -, hT, -, rfl⟩ | ⟨k₁, i, c, hp, -, rfl⟩ := hturn.2.placid_cases rfl
  · exact h₀.placid hp
  · exact h₀.sysFork rfl hT child
  · exact (h₀.placid hp).schedReap c

end

/-! ## Allocating a task -/

section

variable {k : Machine} {t child : Addr} {P : Task}

end

end FentoOS.Kernel
