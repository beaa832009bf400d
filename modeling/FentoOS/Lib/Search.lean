import Mathlib

/-!
# Linear search

`findFirst p i n` is the loop `for (k = i; k < i + n; k++) if (p(k)) return k;`, and
`findNth p m i n seen` the loop that counts the hits and returns the one with number `m`.
A search that runs block by block is the search through all of the blocks at once.
-/

namespace FentoOS.Lib

/-- The first index among the `n` from `i` on that satisfies `p`. -/
def findFirst (p : Nat → Bool) : (i n : Nat) → Option Nat
  | _, 0 => none
  | i, n + 1 => if p i then some i else findFirst p (i + 1) n

variable {p : Nat → Bool} {i n k : Nat}

theorem findFirst_eq_some (h : findFirst p i n = some k) :
    i ≤ k ∧ k < i + n ∧ p k = true ∧ ∀ j, i ≤ j → j < k → p j = false := by
  induction n generalizing i with
  | zero => simp [findFirst] at h
  | succ n ih =>
    rw [findFirst] at h
    split at h
    case isTrue hi =>
      obtain rfl : i = k := Option.some.inj h
      exact ⟨le_refl _, by omega, hi, fun j hj hk ↦ absurd hk (by omega)⟩
    case isFalse hi =>
      obtain ⟨h₁, h₂, h₃, h₄⟩ := ih h
      refine ⟨by omega, by omega, h₃, fun j hj hk ↦ ?_⟩
      rcases Nat.eq_or_lt_of_le hj with rfl | hj
      · simpa using hi
      · exact h₄ j hj hk

theorem findFirst_eq_none : findFirst p i n = none ↔ ∀ j, i ≤ j → j < i + n → p j = false := by
  induction n generalizing i with
  | zero => simp only [findFirst, true_iff]; intro j hj hk; omega
  | succ n ih =>
    rw [findFirst]
    split
    case isTrue hi =>
      simp only [reduceCtorEq, false_iff, not_forall]
      exact ⟨i, le_refl _, by omega, by simp [hi]⟩
    case isFalse hi =>
      rw [ih]
      constructor
      · intro h j hj hk
        rcases Nat.eq_or_lt_of_le hj with rfl | hj
        · simpa using hi
        · exact h j hj (by omega)
      · exact fun h j hj hk ↦ h j (by omega) (by omega)

/-- The search stops at the first index that satisfies the test. -/
theorem findFirst_of_least (hik : i ≤ k) (hk : k < i + n) (hp : p k = true)
    (hleast : ∀ j, i ≤ j → j < k → p j = false) : findFirst p i n = some k := by
  induction n generalizing i with
  | zero => omega
  | succ n ih =>
    rw [findFirst]
    rcases Nat.eq_or_lt_of_le hik with rfl | hlt
    · rw [if_pos hp]
    · rw [if_neg (by simp [hleast i (le_refl _) hlt])]
      exact ih hlt (by omega) fun j hj ↦ hleast j (by omega)

theorem findFirst_add (p : Nat → Bool) (i m n : Nat) :
    findFirst p i (m + n) = (findFirst p i m).or (findFirst p (i + m) n) := by
  induction m generalizing i with
  | zero => rw [Nat.zero_add]; rfl
  | succ m ih =>
    rw [Nat.succ_add, findFirst, findFirst]
    split
    · rfl
    · rw [ih, Nat.succ_add_eq_add_succ]

theorem findFirst_shift (p : Nat → Bool) (c i n : Nat) :
    (findFirst (fun k ↦ p (c + k)) i n).map (c + ·) = findFirst p (c + i) n := by
  induction n generalizing i with
  | zero => rfl
  | succ n ih =>
    rw [findFirst, findFirst]
    split
    · rfl
    · exact ih (i + 1)

variable {q : Nat → Bool}

theorem findFirst_congr (h : ∀ j, i ≤ j → j < i + n → p j = q j) :
    findFirst p i n = findFirst q i n := by
  induction n generalizing i with
  | zero => rfl
  | succ n ih =>
    rw [findFirst, findFirst, h i (le_refl _) (by omega)]
    rw [ih fun j hj hjn ↦ h j (by omega) (by omega)]

/-- A search through blocks of `c` elements, from block `b` on. -/
theorem findFirst_block {c b : Nat} (n : Nat) (h : ∀ k < c, p (c * b + k) = q k) :
    findFirst p (c * b) (c * (n + 1)) =
      ((findFirst q 0 c).map (c * b + ·)).or (findFirst p (c * (b + 1)) (c * n)) := by
  have hq : findFirst q 0 c = findFirst (fun k ↦ p (c * b + k)) 0 c :=
    findFirst_congr fun j _ hj ↦ (h j (Nat.zero_add c ▸ hj)).symm
  rw [hq, findFirst_shift, Nat.mul_succ, Nat.add_comm (c * n), findFirst_add, Nat.add_zero,
    Nat.mul_succ]

/-! ## Counting hits -/

/-- The `m`-th index among the `n` from `i` on that satisfies `p`, when `seen` have been seen
before, or how many have been seen in the end. -/
def findNth (p : Nat → Bool) (m : Nat) : (i n seen : Nat) → Nat ⊕ Nat
  | _, 0, seen => .inr seen
  | i, n + 1, seen =>
    if p i then if seen = m then .inl i else findNth p m (i + 1) n (seen + 1)
    else findNth p m (i + 1) n seen

theorem findNth_add (p : Nat → Bool) (m i n n' seen : Nat) :
    findNth p m i (n + n') seen =
      (findNth p m i n seen).elim .inl fun seen' ↦ findNth p m (i + n) n' seen' := by
  induction n generalizing i seen with
  | zero => rw [Nat.zero_add]; rfl
  | succ n ih =>
    rw [Nat.succ_add, findNth, findNth]
    split
    · split
      · rfl
      · rw [ih, Nat.succ_add_eq_add_succ]
    · rw [ih, Nat.succ_add_eq_add_succ]

theorem findNth_shift (p : Nat → Bool) (c m i n seen : Nat) :
    (findNth (fun k ↦ p (c + k)) m i n seen).map (c + ·) id = findNth p m (c + i) n seen := by
  induction n generalizing i seen with
  | zero => rfl
  | succ n ih =>
    rw [findNth, findNth]
    split
    · split
      · rfl
      · exact ih (i + 1) (seen + 1)
    · exact ih (i + 1) seen

variable {m seen : Nat}

theorem findNth_congr (h : ∀ j, i ≤ j → j < i + n → p j = q j) :
    findNth p m i n seen = findNth q m i n seen := by
  induction n generalizing i seen with
  | zero => rfl
  | succ n ih =>
    have hih : ∀ {seen}, findNth p m (i + 1) n seen = findNth q m (i + 1) n seen :=
      ih fun j hj hjn ↦ h j (by omega) (by omega)
    rw [findNth, findNth, h i (le_refl _) (by omega), hih, hih]

theorem findNth_none (h : ∀ j, i ≤ j → j < i + n → p j = false) (m seen : Nat) :
    findNth p m i n seen = .inr seen := by
  induction n generalizing i with
  | zero => rfl
  | succ n ih =>
    rw [findNth, h i (le_refl _) (by omega), if_neg Bool.false_ne_true]
    exact ih fun j hj hjn ↦ h j (by omega) (by omega)

theorem lt_of_findNth (h : findNth p m i n seen = .inl k) : k < i + n := by
  induction n generalizing i seen with
  | zero => cases h
  | succ n ih =>
    rw [findNth] at h
    split at h
    · split at h
      · cases h
        omega
      · have := ih h
        omega
    · have := ih h
      omega

/-- Counting hits through blocks of `c` elements, from block `b` on. -/
theorem findNth_block {c b : Nat} (m n seen : Nat) (h : ∀ k < c, p (c * b + k) = q k) :
    findNth p m (c * b) (c * (n + 1)) seen =
      (findNth q m 0 c seen).elim (fun k ↦ .inl (c * b + k)) fun seen' ↦
        findNth p m (c * (b + 1)) (c * n) seen' := by
  have hq : findNth q m 0 c seen = findNth (fun k ↦ p (c * b + k)) m 0 c seen :=
    findNth_congr fun j _ hj ↦ (h j (Nat.zero_add c ▸ hj)).symm
  have hshift := findNth_shift p (c * b) m 0 c seen
  rw [Nat.add_zero] at hshift
  rw [hq, Nat.mul_succ, Nat.add_comm (c * n), findNth_add, ← hshift, Nat.mul_succ]
  cases findNth (fun k ↦ p (c * b + k)) m 0 c seen <;> rfl

/-- The `m`-th hit is the `m`-th element of the list of hits. -/
theorem findNth_getLeft (p : Nat → Bool) (h : seen ≤ m) (i n : Nat) :
    (findNth p m i n seen).getLeft? = ((List.range' i n).filter p)[m - seen]? := by
  induction n generalizing i seen with
  | zero => rfl
  | succ n ih =>
    rw [findNth, List.range'_succ]
    split
    case isTrue hp =>
      rw [List.filter_cons_of_pos hp]
      split
      case isTrue heq =>
        subst heq
        rw [Nat.sub_self]
        rfl
      case isFalse hne =>
        have hlt : seen < m := lt_of_le_of_ne h hne
        rw [ih hlt, Nat.sub_succ, ← Nat.succ_pred_eq_of_pos (Nat.sub_pos_of_lt hlt)]
        rfl
    case isFalse hp =>
      rw [List.filter_cons_of_neg hp, ih h]

end FentoOS.Lib
