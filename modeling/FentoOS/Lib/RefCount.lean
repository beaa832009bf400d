import Mathlib

/-!
# Counting references

A table of references is a partial map from places to the objects they name.
`refCount g k` is the number of places of `g` that name `k`.  The two lemmas
that matter are what filling an empty place and emptying a full one do to every
count; both need the table to have finitely many places in use.
-/

namespace FentoOS.Lib

open Function

universe u v

variable {ι : Type u} {κ : Type v}

/-- The places of a table that name `k`. -/
def places (g : ι → Option κ) (k : κ) : Set ι := {i | g i = some k}

/-- The number of places of a table that name `k`. -/
noncomputable def refCount (g : ι → Option κ) (k : κ) : Nat := (places g k).ncard

/-- Only finitely many places of the table are in use. -/
def FiniteRefs (g : ι → Option κ) : Prop := {i | g i ≠ none}.Finite

theorem FiniteRefs.places {g : ι → Option κ} (h : FiniteRefs g) (k : κ) :
    (places g k).Finite :=
  h.subset fun i (hi : g i = some k) ↦ by simp [hi]

theorem FiniteRefs.update [DecidableEq ι] {g : ι → Option κ} (h : FiniteRefs g) (i : ι)
    (r : Option κ) :
    FiniteRefs (update g i r) := by
  refine (h.insert i).subset fun j hj ↦ ?_
  by_cases hji : j = i
  · exact .inl hji
  · exact .inr (by simpa [update_of_ne hji] using hj)

theorem refCount_congr {g g' : ι → Option κ} {k : κ} (h : ∀ i, g i = some k ↔ g' i = some k) :
    refCount g k = refCount g' k := by
  have : places g k = places g' k := Set.ext h
  rw [refCount, refCount, this]

/-- A place names `k`, so `k` is counted. -/
theorem refCount_pos {g : ι → Option κ} (hfin : FiniteRefs g) {i : ι} {k : κ}
    (h : g i = some k) : 0 < refCount g k :=
  (Set.ncard_pos (hfin.places k)).mpr ⟨i, h⟩

theorem refCount_eq_zero {g : ι → Option κ} (hfin : FiniteRefs g) {k : κ} :
    refCount g k = 0 ↔ ∀ i, g i ≠ some k := by
  rw [refCount, Set.ncard_eq_zero (hfin.places k), Set.eq_empty_iff_forall_notMem]
  rfl

/-- A table that names `k` at fewer places counts fewer. -/
theorem refCount_lt {g g' : ι → Option κ} (hfin : FiniteRefs g) {k : κ}
    (hsub : ∀ i, g' i = some k → g i = some k) {i : ι} (hi : g i = some k) (hi' : g' i ≠ some k) :
    refCount g' k < refCount g k :=
  Set.ncard_lt_ncard ⟨hsub, fun hsup ↦ hi' (hsup hi)⟩ (hfin.places k)

/-- Filling an empty place adds one reference to the object it now names. -/
theorem refCount_fill [DecidableEq ι] [DecidableEq κ] {g : ι → Option κ} (hfin : FiniteRefs g)
    {i : ι}
    (hi : g i = none) (k k' : κ) :
    refCount (update g i (some k)) k' = refCount g k' + if k' = k then 1 else 0 := by
  by_cases hk : k' = k
  · subst hk
    have : places (update g i (some k')) k' = insert i (places g k') := by
      ext j
      by_cases hj : j = i
      · simp [places, hj]
      · simp [places, hj]
    rw [refCount, this, Set.ncard_insert_of_notMem (by simp [places, hi]) (hfin.places k'),
      refCount, if_pos rfl]
  · rw [if_neg hk, Nat.add_zero]
    refine refCount_congr fun j ↦ ?_
    by_cases hj : j = i
    · subst hj
      simp [hi, Ne.symm hk]
    · simp [update_of_ne hj]

/-- Emptying a place takes one reference from the object it named. -/
theorem refCount_empty [DecidableEq ι] [DecidableEq κ] {g : ι → Option κ} (hfin : FiniteRefs g)
    {i : ι} {k : κ}
    (hi : g i = some k) (k' : κ) :
    refCount g k' = refCount (update g i none) k' + if k' = k then 1 else 0 := by
  have h := refCount_fill (hfin.update i none) (i := i) (by simp) k k'
  rwa [update_idem, show update g i (some k) = g by
    rw [← hi, update_eq_self]] at h

end FentoOS.Lib
