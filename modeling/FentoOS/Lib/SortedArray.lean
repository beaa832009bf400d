import Mathlib

/-!
# Sorted arrays

An array whose first `n` entries are strictly increasing in a key stands for the
set of these entries, with one entry at most for a key.  Entries are found,
inserted and deleted at the place that the key has in the order, and the entries
behind it are moved by one in a loop.
-/

namespace FentoOS.Lib

open Function

universe u v

variable {α : Type u} {κ : Type v} [LinearOrder κ]

/-! ## Moving entries -/

/-- `for (i = p; i < n; i++) a[i] = a[i + 1]`. -/
def moveDown (a : Nat → α) (p n : Nat) : Nat → α :=
  (List.range' p (n - p)).foldl (fun a i ↦ Function.update a i (a (i + 1))) a

/-- `for (i = n; i > p; i--) a[i] = a[i - 1]`. -/
def moveUp (a : Nat → α) (p n : Nat) : Nat → α :=
  (List.range' (p + 1) (n - p)).reverse.foldl (fun a i ↦ Function.update a i (a (i - 1))) a

theorem foldl_moveDown (a : Nat → α) (p k i : Nat) :
    (List.range' p k).foldl (fun a i ↦ update a i (a (i + 1))) a i =
      if p ≤ i ∧ i < p + k then a (i + 1) else a i := by
  induction k generalizing a p with
  | zero => rw [if_neg (by omega)]; rfl
  | succ k ih =>
    rw [List.range'_succ, List.foldl_cons, ih]
    by_cases hi : i = p
    · subst hi
      rw [if_neg (by omega), if_pos (by omega), update_self]
    · by_cases hmem : p + 1 ≤ i ∧ i < p + 1 + k
      · rw [if_pos hmem, if_pos (by omega), update_of_ne (by omega)]
      · rw [if_neg hmem, if_neg (by omega), update_of_ne hi]

theorem moveDown_apply (a : Nat → α) (p n i : Nat) :
    moveDown a p n i = if p ≤ i ∧ i < n then a (i + 1) else a i := by
  rw [moveDown, foldl_moveDown]
  refine if_congr ?_ rfl rfl
  omega

theorem foldl_moveUp (a : Nat → α) (p k i : Nat) :
    (List.range' (p + 1) k).reverse.foldl (fun a i ↦ update a i (a (i - 1))) a i =
      if p < i ∧ i ≤ p + k then a (i - 1) else a i := by
  induction k generalizing a with
  | zero => rw [if_neg (by omega)]; rfl
  | succ k ih =>
    rw [List.range'_1_concat, List.reverse_append, List.reverse_singleton, List.singleton_append,
      List.foldl_cons, ih]
    by_cases hi : i = p + 1 + k
    · subst hi
      rw [if_neg (by omega), if_pos (by omega), update_self]
    · by_cases hmem : p < i ∧ i ≤ p + k
      · rw [if_pos hmem, if_pos (by omega), update_of_ne (by omega)]
      · rw [if_neg hmem, if_neg (by omega), update_of_ne hi]

theorem moveUp_apply (a : Nat → α) (p n i : Nat) :
    moveUp a p n i = if p < i ∧ i ≤ n then a (i - 1) else a i := by
  rw [moveUp, foldl_moveUp]
  refine if_congr ?_ rfl rfl
  omega

/-! ## Entries in order -/

/-- The first `n` entries increase in the key. -/
def Increasing (key : α → κ) (a : Nat → α) (n : Nat) : Prop :=
  ∀ i j, i < j → j < n → key (a i) < key (a j)

/-- The first `n` entries. -/
def entries (a : Nat → α) (n : Nat) : Set α := {x | ∃ i < n, a i = x}

/-- The place of a key: behind the smaller ones and in front of the others. -/
structure PlaceOf (key : α → κ) (a : Nat → α) (n : Nat) (k : κ) (p : Nat) : Prop where
  le : p ≤ n
  before : ∀ i < p, key (a i) < k
  here : p < n → k ≤ key (a p)

variable {key : α → κ} {a : Nat → α} {n p : Nat} {k : κ}

theorem Increasing.le {i j : Nat} (h : Increasing key a n) (hij : i ≤ j) (hj : j < n) :
    key (a i) ≤ key (a j) := by
  rcases hij.lt_or_eq with hlt | rfl
  · exact (h i j hlt hj).le
  · exact le_rfl

theorem Increasing.inj {i j : Nat} (h : Increasing key a n) (hi : i < n) (hj : j < n)
    (heq : key (a i) = key (a j)) : i = j := by
  rcases Nat.lt_trichotomy i j with hlt | rfl | hgt
  · exact absurd heq (h i j hlt hj).ne
  · rfl
  · exact absurd heq (h j i hgt hi).ne'

/-- There are as many entries as indices. -/
theorem Increasing.ncard_entries (h : Increasing key a n) : (entries a n).ncard = n := by
  have himage : entries a n = a '' (Finset.range n : Set Nat) := by
    ext x
    simp [entries]
  have hinj : Set.InjOn a (Finset.range n : Set Nat) := by
    intro i hi j hj heq
    rw [Finset.coe_range, Set.mem_Iio] at hi hj
    exact h.inj hi hj (congrArg key heq)
  rw [himage, hinj.ncard_image, Set.ncard_coe_finset, Finset.card_range]

/-- An entry with the key can only be at its place. -/
theorem PlaceOf.eq_of_key (hp : PlaceOf key a n k p) (h : Increasing key a n) {i : Nat} (hi : i < n)
    (hk : key (a i) = k) : i = p := by
  rcases Nat.lt_trichotomy i p with hlt | rfl | hgt
  · exact absurd hk (hp.before i hlt).ne
  · rfl
  · exact absurd (hk ▸ hp.here (hgt.trans hi)) (not_le.mpr (h p i hgt hi))

/-- The entry at a place is deleted. -/
theorem Increasing.delete (h : Increasing key a n) (hp : p < n) :
    Increasing key (moveDown a p (n - 1)) (n - 1) ∧
      entries (moveDown a p (n - 1)) (n - 1) = {x ∈ entries a n | key x ≠ key (a p)} := by
  constructor
  · intro i j hij hj
    rw [moveDown_apply, moveDown_apply]
    split
    · rw [if_pos (by omega)]
      exact h _ _ (by omega) (by omega)
    · split
      · exact h _ _ (by omega) (by omega)
      · exact h _ _ hij (by omega)
  · ext x
    constructor
    · rintro ⟨i, hi, rfl⟩
      rw [moveDown_apply]
      split
      · exact ⟨⟨i + 1, by omega, rfl⟩, (h p (i + 1) (by omega) (by omega)).ne'⟩
      · exact ⟨⟨i, by omega, rfl⟩, (h i p (by omega) hp).ne⟩
    · rintro ⟨⟨i, hi, rfl⟩, hne⟩
      rcases Nat.lt_trichotomy i p with hlt | rfl | hgt
      · refine ⟨i, by omega, ?_⟩
        rw [moveDown_apply, if_neg (by omega)]
      · exact absurd rfl hne
      · refine ⟨i - 1, by omega, ?_⟩
        rw [moveDown_apply, if_pos (by omega), Nat.sub_add_cancel (by omega)]

/-- An entry is replaced by one with the same key. -/
theorem Increasing.replace (h : Increasing key a n) (hp : p < n) {x : α} (hx : key x = key (a p)) :
    Increasing key (update a p x) n ∧
      entries (update a p x) n = insert x {y ∈ entries a n | key y ≠ key x} := by
  have hkey : ∀ i, key (update a p x i) = key (a i) := by
    intro i
    by_cases hi : i = p
    · subst hi
      rw [update_self, hx]
    · rw [update_of_ne hi]
  constructor
  · intro i j hij hj
    rw [hkey, hkey]
    exact h i j hij hj
  · ext y
    constructor
    · rintro ⟨i, hi, rfl⟩
      by_cases hip : i = p
      · subst hip
        exact .inl (update_self ..)
      · rw [update_of_ne hip]
        exact .inr ⟨⟨i, hi, rfl⟩, fun heq ↦ hip (h.inj hi hp (heq.trans hx))⟩
    · rintro (rfl | ⟨⟨i, hi, rfl⟩, hne⟩)
      · exact ⟨p, hp, update_self ..⟩
      · refine ⟨i, hi, update_of_ne ?_ ..⟩
        rintro rfl
        exact hne hx.symm

/-- An entry is inserted at the place of its key. -/
theorem Increasing.insert (h : Increasing key a n) {x : α} (hp : PlaceOf key a n (key x) p)
    (hnew : p < n → key (a p) ≠ key x) :
    Increasing key (update (moveUp a p n) p x) (n + 1) ∧
      entries (update (moveUp a p n) p x) (n + 1) = insert x (entries a n) := by
  have hle := hp.le
  have hlow : ∀ i < p, update (moveUp a p n) p x i = a i := by
    intro i hi
    rw [update_of_ne (by omega), moveUp_apply, if_neg (by omega)]
  have hhigh : ∀ i, p < i → i ≤ n → update (moveUp a p n) p x i = a (i - 1) := by
    intro i hi hin
    rw [update_of_ne (by omega), moveUp_apply, if_pos (by omega)]
  have hafter : ∀ i, p ≤ i → i < n → key x < key (a i) := by
    intro i hpi hi
    have hpn : p < n := by omega
    exact lt_of_lt_of_le (lt_of_le_of_ne (hp.here hpn) (hnew hpn).symm) (h.le hpi hi)
  constructor
  · intro i j hij hj
    rcases Nat.lt_trichotomy i p with hi | rfl | hi
    · rw [hlow i hi]
      rcases Nat.lt_trichotomy j p with hj' | rfl | hj'
      · rw [hlow j hj']
        exact h i j hij (by omega)
      · rw [update_self]
        exact hp.before i hi
      · rw [hhigh j hj' (by omega)]
        exact h i (j - 1) (by omega) (by omega)
    · rw [update_self, hhigh j hij (by omega)]
      exact hafter (j - 1) (by omega) (by omega)
    · rw [hhigh i hi (by omega), hhigh j (by omega) (by omega)]
      exact h (i - 1) (j - 1) (by omega) (by omega)
  · ext y
    constructor
    · rintro ⟨i, hi, rfl⟩
      rcases Nat.lt_trichotomy i p with hlt | rfl | hgt
      · rw [hlow i hlt]
        exact .inr ⟨i, by omega, rfl⟩
      · exact .inl (update_self ..)
      · rw [hhigh i hgt (by omega)]
        exact .inr ⟨i - 1, by omega, rfl⟩
    · rintro (rfl | ⟨i, hi, rfl⟩)
      · exact ⟨p, by omega, update_self ..⟩
      · rcases Nat.lt_or_ge i p with hlt | hge
        · exact ⟨i, by omega, hlow i hlt⟩
        · refine ⟨i + 1, by omega, ?_⟩
          rw [hhigh (i + 1) (by omega) (by omega), Nat.add_sub_cancel]

/-! ## Entries that come back -/

/-- A list is what a function makes of it only if each of its entries is. -/
theorem filterMap_eq_self_iff {f : α → Option α} {l : List α} :
    l.filterMap f = l ↔ ∀ x ∈ l, f x = some x := by
  induction l with
  | nil => exact ⟨fun _ x hx ↦ absurd hx List.not_mem_nil, fun _ ↦ rfl⟩
  | cons x l ih =>
    rw [List.forall_mem_cons, ← ih, List.filterMap_cons]
    cases hx : f x with
    | none =>
      refine ⟨fun h : l.filterMap f = x :: l ↦ ?_, fun h ↦ (by cases h.1)⟩
      have hle := List.length_filterMap_le f l
      rw [h, List.length_cons] at hle
      exact absurd hle (Nat.not_succ_le_self _)
    | some y => rw [List.cons.injEq, Option.some_inj]

end FentoOS.Lib
