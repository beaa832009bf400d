import Mathlib

/-!
# Ring buffers

A ring of capacity `N` stores a queue of `n ≤ N` elements in the cells
`r, r + 1, …, r + n - 1`, taken modulo `N`.  `ringList` reads that queue off the
cells.  Taking the front element advances `r`; storing an element at
`(r + n) % N` appends it, provided the ring is not full — otherwise the cell
would still belong to the queue.
-/

namespace FentoOS.Lib

universe u

variable {α : Type u} {N : Nat}

/-- The queue held by the `n` cells of a ring from position `r` on. -/
def ringList (N : Nat) (cell : Nat → α) (r n : Nat) : List α :=
  (List.range n).map fun k ↦ cell ((r + k) % N)

@[simp] theorem ringList_zero (cell : Nat → α) (r : Nat) : ringList N cell r 0 = [] := rfl

@[simp] theorem length_ringList (cell : Nat → α) (r n : Nat) :
    (ringList N cell r n).length = n := by
  simp [ringList]

/-- Taking the front element of a non-empty ring. -/
theorem ringList_succ (cell : Nat → α) (r n : Nat) :
    ringList N cell r (n + 1) = cell (r % N) :: ringList N cell ((r + 1) % N) n := by
  simp only [ringList, List.range_succ_eq_map, List.map_cons, List.map_map, Nat.add_zero]
  congr 1
  refine List.map_congr_left fun k _ ↦ ?_
  change cell ((r + (k + 1)) % N) = cell (((r + 1) % N + k) % N)
  rw [Nat.mod_add_mod]
  congr 2
  omega

/-- The cells of a queue shorter than the capacity do not include the one after
its last. -/
theorem ring_index_ne {r n k : Nat} (hn : n < N) (hk : k < n) : (r + k) % N ≠ (r + n) % N := by
  intro h
  have hdvd : N ∣ n - k := by
    have := (Nat.modEq_iff_dvd' (by omega : r + k ≤ r + n)).mp h
    simpa [Nat.add_sub_add_left] using this
  have := Nat.le_of_dvd (by omega) hdvd
  omega

/-- Storing an element behind the last one of a ring that is not full. -/
theorem ringList_snoc (cell : Nat → α) (r : Nat) {n : Nat} (x : α) (hn : n < N) :
    ringList N (fun j ↦ if j = (r + n) % N then x else cell j) r (n + 1)
      = ringList N cell r n ++ [x] := by
  simp only [ringList, List.range_succ, List.map_append, List.map_cons, List.map_nil, if_true]
  congr 1
  refine List.map_congr_left fun k hk ↦ ?_
  rw [if_neg (ring_index_ne hn (List.mem_range.mp hk))]

end FentoOS.Lib
