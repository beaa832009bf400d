import Mathlib

/-!
# Supplies

An allocator hands out resources from a finite supply and has nothing to give once the
supply is empty.  A computation that asks for `n` resources, one after the other, leaves
the supply smaller by `n`, or empty; and one of its requests fails exactly when there were
fewer than `n`.  `Supply.Draws n` says this of the supply before and the supply after.
Computations that follow each other add up.
-/

namespace FentoOS.Lib

universe u

variable {α : Type u}

/-- The resources that are left, and whether a request has failed. -/
structure Supply (α : Type u) where
  left : Finset α
  failed : Bool

namespace Supply

/-- `n` resources are asked for. -/
structure Draws (n : Nat) (s s' : Supply α) : Prop where
  subset : s'.left ⊆ s.left
  card : s'.left.card = s.left.card - n
  failed : s'.failed = (s.failed || decide (s.left.card < n))

variable {s s' s'' : Supply α} {n n' : Nat}

theorem Draws.zero (s : Supply α) : Draws 0 s s :=
  ⟨subset_rfl, rfl, by simp⟩

theorem Draws.trans (h : Draws n s s') (h' : Draws n' s' s'') : Draws (n + n') s s'' := by
  refine ⟨h'.subset.trans h.subset, by rw [h'.card, h.card, Nat.sub_sub], ?_⟩
  rw [h'.failed, h.failed, h.card, Bool.or_assoc, ← Bool.decide_or]
  congr 1
  exact decide_eq_decide.mpr (by omega)

theorem Draws.of_erase [DecidableEq α] {a : α} (ha : a ∈ s.left) (hleft : s'.left = s.left.erase a)
    (hfailed : s'.failed = s.failed) : Draws 1 s s' := by
  refine ⟨hleft ▸ Finset.erase_subset .., by rw [hleft, Finset.card_erase_of_mem ha], ?_⟩
  have hpos : 0 < s.left.card := Finset.card_pos.mpr ⟨a, ha⟩
  rw [hfailed, decide_eq_false (by omega), Bool.or_false]

theorem Draws.of_empty (hs : s.left = ∅) (hleft : s'.left = ∅) (hfailed : s'.failed = true) :
    Draws 1 s s' :=
  ⟨by rw [hleft, hs], by rw [hleft, hs]; rfl, by rw [hfailed, hs]; simp⟩

end Supply

end FentoOS.Lib
