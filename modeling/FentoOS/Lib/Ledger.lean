import Mathlib

/-!
# Ledgers

An allocator marks resources as used, and the places of a data structure each
hold at most one resource.  A `Ledger` is kept when what a place holds is marked
as used and no two places hold the same resource.  A resource that is used and in
no place is *spare*: it has been handed out and not yet been put anywhere, or it
belongs to somebody else.

Four moves make up the life of a resource: it is taken from the allocator, which
makes it spare; it is put in an empty place; it is taken out of its place and
forgotten; and whole groups of places are cleared together with the marks of what
they held.
-/

namespace FentoOS.Lib

universe u v

variable {ι : Type u} {α : Type v}

/-- What a place holds is used, and no two places hold the same. -/
structure Ledger (own : ι → Option α) (used : α → Prop) : Prop where
  used : ∀ {o a}, own o = some a → used a
  inj : ∀ {o o' a}, own o = some a → own o' = some a → o = o'

/-- Used, and in no place. -/
def Spare (own : ι → Option α) (used : α → Prop) (a : α) : Prop :=
  used a ∧ ∀ o, own o ≠ some a

variable {own own' : ι → Option α} {used used' : α → Prop}

theorem Ledger.not_used (h : Ledger own used) {a : α} (ha : ¬used a) (o : ι) : own o ≠ some a :=
  fun ho ↦ ha (h.used ho)

/-- A resource is taken from the allocator. -/
theorem Ledger.take (h : Ledger own used) {a : α} (hused : ∀ b, used' b ↔ used b ∨ b = a) :
    Ledger own used' :=
  ⟨fun ho ↦ (hused _).mpr (.inl (h.used ho)), h.inj⟩

theorem Ledger.spare_take (h : Ledger own used) {a : α} (ha : ¬used a)
    (hused : ∀ b, used' b ↔ used b ∨ b = a) (b : α) :
    Spare own used' b ↔ Spare own used b ∨ b = a := by
  constructor
  · rintro ⟨hb, hno⟩
    rcases (hused b).mp hb with hb | hb
    · exact .inl ⟨hb, hno⟩
    · exact .inr hb
  · rintro (⟨hb, hno⟩ | rfl)
    · exact ⟨(hused b).mpr (.inl hb), hno⟩
    · exact ⟨(hused b).mpr (.inr rfl), h.not_used ha⟩

section Put

variable {o : ι} {a : α} (hfree : own o = none) (hspare : Spare own used a)
  (hown : own' o = some a) (hother : ∀ o', o' ≠ o → own' o' = own o')

include hfree hspare hown hother

/-- A spare resource is put in an empty place. -/
theorem Ledger.put (h : Ledger own used) : Ledger own' used := by
  have hcases : ∀ {o' b}, own' o' = some b → (o' = o ∧ b = a) ∨ (o' ≠ o ∧ own o' = some b) := by
    intro o' b hb
    by_cases ho : o' = o
    · subst ho
      exact .inl ⟨rfl, Option.some.inj (hb.symm.trans hown)⟩
    · exact .inr ⟨ho, (hother o' ho).symm.trans hb⟩
  constructor
  · intro o' b hb
    rcases hcases hb with ⟨-, rfl⟩ | ⟨-, hb⟩
    · exact hspare.1
    · exact h.used hb
  · intro o₁ o₂ b h₁ h₂
    rcases hcases h₁ with ⟨rfl, rfl⟩ | ⟨-, h₁⟩
    · rcases hcases h₂ with ⟨rfl, -⟩ | ⟨-, h₂⟩
      · rfl
      · exact absurd h₂ (hspare.2 o₂)
    · rcases hcases h₂ with ⟨rfl, rfl⟩ | ⟨-, h₂⟩
      · exact absurd h₁ (hspare.2 o₁)
      · exact h.inj h₁ h₂

theorem spare_put (b : α) : Spare own' used b ↔ Spare own used b ∧ b ≠ a := by
  constructor
  · rintro ⟨hb, hno⟩
    refine ⟨⟨hb, fun o' ho' ↦ ?_⟩, ?_⟩
    · by_cases ho : o' = o
      · subst ho
        rw [hfree] at ho'
        cases ho'
      · exact hno o' ((hother o' ho).trans ho')
    · rintro rfl
      exact hno o hown
  · rintro ⟨⟨hb, hno⟩, hne⟩
    refine ⟨hb, fun o' ho' ↦ ?_⟩
    by_cases ho : o' = o
    · subst ho
      exact hne (Option.some.inj (ho'.symm.trans hown))
    · exact hno o' ((hother o' ho).symm.trans ho')

end Put

section Drop

variable {o : ι} {a : α} (hown : own o = some a) (hown' : own' o = none)
  (hother : ∀ o', o' ≠ o → own' o' = own o')

include hown' hother

/-- A place is cleared, and what it held stays in use. -/
theorem Ledger.drop (h : Ledger own used) : Ledger own' used := by
  have hcases : ∀ {o' b}, own' o' = some b → own o' = some b := by
    intro o' b hb
    by_cases ho : o' = o
    · rw [ho, hown'] at hb
      cases hb
    · exact (hother o' ho).symm.trans hb
  exact ⟨fun hb ↦ h.used (hcases hb), fun h₁ h₂ ↦ h.inj (hcases h₁) (hcases h₂)⟩

include hown

theorem Ledger.spare_drop (h : Ledger own used) (b : α) :
    Spare own' used b ↔ Spare own used b ∨ b = a := by
  constructor
  · rintro ⟨hb, hno⟩
    by_cases hba : b = a
    · exact .inr hba
    · refine .inl ⟨hb, fun o' ho' ↦ ?_⟩
      by_cases ho : o' = o
      · rw [ho, hown] at ho'
        exact hba (Option.some.inj ho').symm
      · exact hno o' ((hother o' ho).trans ho')
  · rintro (⟨hb, hno⟩ | rfl)
    · refine ⟨hb, fun o' ho' ↦ ?_⟩
      by_cases ho : o' = o
      · rw [ho, hown'] at ho'
        cases ho'
      · exact hno o' ((hother o' ho).symm.trans ho')
    · refine ⟨h.used hown, fun o' ho' ↦ ?_⟩
      by_cases ho : o' = o
      · rw [ho, hown'] at ho'
        cases ho'
      · exact ho (h.inj ((hother o' ho).symm.trans ho') hown)

end Drop

section Clear

variable {P : ι → Prop} (hclear : ∀ o, P o → own' o = none) (hkeep : ∀ o, ¬P o → own' o = own o)
  (hused : ∀ b, used' b ↔ used b ∧ ∀ o, P o → own o ≠ some b)

include hclear hkeep hused

/-- The places of a group are cleared, together with the marks of what they held. -/
theorem Ledger.clear (h : Ledger own used) : Ledger own' used' := by
  have hcases : ∀ {o b}, own' o = some b → ¬P o ∧ own o = some b := by
    intro o b hb
    by_cases ho : P o
    · rw [hclear o ho] at hb
      cases hb
    · exact ⟨ho, (hkeep o ho).symm.trans hb⟩
  constructor
  · intro o b hb
    obtain ⟨ho, hb⟩ := hcases hb
    refine (hused b).mpr ⟨h.used hb, fun o' ho' hb' ↦ ?_⟩
    exact ho (h.inj hb hb' ▸ ho')
  · intro o₁ o₂ b h₁ h₂
    exact h.inj (hcases h₁).2 (hcases h₂).2

theorem spare_clear (b : α) : Spare own' used' b ↔ Spare own used b := by
  constructor
  · rintro ⟨hb, hno⟩
    obtain ⟨hb, hnot⟩ := (hused b).mp hb
    refine ⟨hb, fun o ho ↦ ?_⟩
    by_cases hP : P o
    · exact hnot o hP ho
    · exact hno o ((hkeep o hP).trans ho)
  · rintro ⟨hb, hno⟩
    refine ⟨(hused b).mpr ⟨hb, fun o _ ↦ hno o⟩, fun o ho ↦ ?_⟩
    by_cases hP : P o
    · rw [hclear o hP] at ho
      cases ho
    · exact hno o ((hkeep o hP).symm.trans ho)

end Clear

end FentoOS.Lib
