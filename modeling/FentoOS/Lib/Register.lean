import Mathlib

/-!
# Registers

A register is a book of numbered lines, each blank or with a key and a value.  A
directory is one, and so is any table that is searched from the front, extended at a
blank line and shortened by blanking one.  Seen from outside a register without
double keys is a finite map: `Records E k a` says that a line has the key `k` and the
value `a`.
-/

namespace FentoOS.Lib

open Function

universe u v

variable {κ : Type u} {α : Type v}

/-- Lines with a key and a value, or blank. -/
abbrev Register (κ : Type u) (α : Type v) := Nat → Option (κ × α)

/-- Some line has the key and the value. -/
def Records (E : Register κ α) (k : κ) (a : α) : Prop := ∃ e, E e = some (k, a)

/-- The first line with the key. -/
def FirstWith (E : Register κ α) (k : κ) (e : Nat) : Prop :=
  (∃ a, E e = some (k, a)) ∧ ∀ e' < e, ∀ a, E e' ≠ some (k, a)

/-- No two lines have the same key. -/
def Distinct (E : Register κ α) : Prop :=
  ∀ ⦃e e' k a a'⦄, E e = some (k, a) → E e' = some (k, a') → e = e'

variable {E : Register κ α} {e : Nat} {k k' : κ} {a a' : α}

/-- There is one first line with a key. -/
theorem FirstWith.eq {e' : Nat} (h : FirstWith E k e) (h' : FirstWith E k e') : e = e' := by
  obtain ⟨⟨a, ha⟩, hlt⟩ := h
  obtain ⟨⟨a', ha'⟩, hlt'⟩ := h'
  rcases lt_trichotomy e e' with hc | hc | hc
  · exact absurd ha (hlt' e hc a)
  · exact hc
  · exact absurd ha' (hlt e' hc a')

/-! ## Writing a blank line -/

theorem records_put (hblank : E e = none) :
    Records (update E e (some (k, a))) k' a' ↔ Records E k' a' ∨ (k' = k ∧ a' = a) := by
  constructor
  · rintro ⟨e', he'⟩
    by_cases heq : e' = e
    · subst heq
      rw [update_self] at he'
      obtain ⟨rfl, rfl⟩ := Prod.mk.inj (Option.some.inj he')
      exact .inr ⟨rfl, rfl⟩
    · rw [update_of_ne heq] at he'
      exact .inl ⟨e', he'⟩
  · rintro (⟨e', he'⟩ | ⟨rfl, rfl⟩)
    · have hne : e' ≠ e := by
        rintro rfl
        rw [hblank] at he'
        cases he'
      exact ⟨e', by rwa [update_of_ne hne]⟩
    · exact ⟨e, update_self ..⟩

theorem Distinct.put (h : Distinct E) (hnew : ∀ a, ¬Records E k a) :
    Distinct (update E e (some (k, a))) := by
  intro e₁ e₂ k' a₁ a₂ h₁ h₂
  have hcases : ∀ {e' a'}, update E e (some (k, a)) e' = some (k', a') →
      (e' = e ∧ k' = k) ∨ (e' ≠ e ∧ E e' = some (k', a')) := by
    intro e' a' he'
    by_cases heq : e' = e
    · subst heq
      rw [update_self] at he'
      exact .inl ⟨rfl, (Prod.mk.inj (Option.some.inj he')).1.symm⟩
    · rw [update_of_ne heq] at he'
      exact .inr ⟨heq, he'⟩
  rcases hcases h₁ with ⟨rfl, rfl⟩ | ⟨-, hold₁⟩
  · rcases hcases h₂ with ⟨rfl, -⟩ | ⟨-, hold₂⟩
    · rfl
    · exact absurd ⟨e₂, hold₂⟩ (hnew a₂)
  · rcases hcases h₂ with ⟨rfl, rfl⟩ | ⟨-, hold₂⟩
    · exact absurd ⟨e₁, hold₁⟩ (hnew a₁)
    · exact h hold₁ hold₂

/-! ## Blanking a line -/

theorem records_of_blank (h : Records (update E e none) k a) : Records E k a := by
  obtain ⟨e', he'⟩ := h
  by_cases heq : e' = e
  · subst heq
    rw [update_self] at he'
    cases he'
  · rw [update_of_ne heq] at he'
    exact ⟨e', he'⟩

theorem Distinct.records_blank (h : Distinct E) (he : E e = some (k, a)) :
    Records (update E e none) k' a' ↔ Records E k' a' ∧ k' ≠ k := by
  constructor
  · intro hl
    refine ⟨records_of_blank hl, ?_⟩
    rintro rfl
    obtain ⟨e', he'⟩ := hl
    by_cases heq : e' = e
    · subst heq
      rw [update_self] at he'
      cases he'
    · rw [update_of_ne heq] at he'
      exact heq (h he' he)
  · rintro ⟨⟨e', he'⟩, hne⟩
    have heq : e' ≠ e := by
      rintro rfl
      exact hne (Prod.mk.inj (Option.some.inj (he'.symm.trans he))).1
    exact ⟨e', by rwa [update_of_ne heq]⟩

theorem Distinct.blank (h : Distinct E) : Distinct (update E e none) := by
  have hsub : ∀ {e' k a}, update E e none e' = some (k, a) → E e' = some (k, a) := by
    intro e' k a he'
    by_cases heq : e' = e
    · subst heq
      rw [update_self] at he'
      cases he'
    · rwa [update_of_ne heq] at he'
  intro e₁ e₂ k a₁ a₂ h₁ h₂
  exact h (hsub h₁) (hsub h₂)

end FentoOS.Lib
