import Mathlib

/-!
# Linked rings

A heap of nodes with one successor each is a partial function `next`.  `Linked
next L z` says that the nodes of `L` follow each other and that the last one is
followed by `z`; a ring is a list without repetitions that is linked to its own
head.  A ring can be entered at any of its nodes (`IsCycle.rotate`), and its nodes
are those one can reach from the head (`Linked.reach_iff`).
-/

namespace FentoOS.Lib

universe u

variable {α : Type u} {next next' : α → Option α}

/-- The nodes of a list follow each other, and the last is followed by `z`. -/
def Linked (next : α → Option α) : List α → α → Prop
  | [], _ => True
  | x :: L, z => next x = some (L.headD z) ∧ Linked next L z

theorem Linked.append {A B : List α} {z : α} :
    Linked next (A ++ B) z ↔ Linked next A (B.headD z) ∧ Linked next B z := by
  induction A with
  | nil => simp [Linked]
  | cons x A ih =>
    rw [List.cons_append, Linked, Linked, ih, and_assoc]
    cases A with
    | nil => rfl
    | cons y A => rfl

/-- The links depend on the successors of the nodes only. -/
theorem Linked.congr {L : List α} {z : α} (h : Linked next L z)
    (heq : ∀ x ∈ L, next' x = next x) : Linked next' L z := by
  induction L with
  | nil => trivial
  | cons x L ih =>
    refine ⟨?_, ih h.2 fun y hy ↦ heq y (List.mem_cons_of_mem x hy)⟩
    rw [heq x List.mem_cons_self]
    exact h.1

/-- The last node is linked elsewhere. -/
theorem Linked.relink {A : List α} {x z z' : α} (h : Linked next (A ++ [x]) z)
    (heq : ∀ y ∈ A, next' y = next y) (hx : next' x = some z') : Linked next' (A ++ [x]) z' := by
  rw [Linked.append] at h ⊢
  exact ⟨h.1.congr heq, hx, trivial⟩

/-- The nodes of a list follow each other, and the last is followed by the first. -/
structure IsCycle (next : α → Option α) (L : List α) : Prop where
  nodup : L.Nodup
  linked : ∀ {h}, L.head? = some h → Linked next L h

theorem IsCycle.congr {L : List α} (h : IsCycle next L) (heq : ∀ x, next' x = next x) :
    IsCycle next' L :=
  ⟨h.nodup, fun hx ↦ (h.linked hx).congr fun x _ ↦ heq x⟩

/-- A ring can be entered at any node. -/
theorem IsCycle.rotate {A B : List α} (h : IsCycle next (A ++ B)) : IsCycle next (B ++ A) := by
  refine ⟨List.perm_append_comm.nodup_iff.mp h.nodup, fun {b} hb ↦ ?_⟩
  cases A with
  | nil =>
    rw [List.append_nil] at hb ⊢
    exact h.linked hb
  | cons a A =>
    cases B with
    | nil =>
      have hlinked := h.linked (h := b) (by simpa using hb)
      rwa [List.append_nil] at hlinked
    | cons b' B =>
      obtain rfl : b' = b := Option.some.inj hb
      obtain ⟨hA, hB⟩ := Linked.append.mp (h.linked (h := a) rfl)
      exact Linked.append.mpr ⟨hB, hA⟩

/-- The last node is followed by the first. -/
theorem IsCycle.next_last {M : List α} {c : α} (h : IsCycle next (M ++ [c])) :
    next c = some (M.headD c) :=
  (h.rotate.linked (h := c) rfl).1

theorem Linked.next_eq_some {L : List α} {x z : α} (h : Linked next L z) (hx : x ∈ L) :
    ∃ y, next x = some y := by
  induction L with
  | nil => cases hx
  | cons a L ih =>
    rcases List.mem_cons.mp hx with rfl | hx
    · exact ⟨_, h.1⟩
    · exact ih h.2 hx

/-- Every node but the last is followed by a node of the list. -/
theorem Linked.next_mem {L : List α} {x y z : α} (h : Linked next L z) (hx : x ∈ L)
    (hy : next x = some y) : y ∈ L ∨ y = z := by
  induction L with
  | nil => cases hx
  | cons a L ih =>
    rcases List.mem_cons.mp hx with rfl | hx
    · obtain rfl : L.headD z = y := Option.some.inj (h.1.symm.trans hy)
      cases L with
      | nil => exact .inr rfl
      | cons b L => exact .inl (List.mem_cons_of_mem x List.mem_cons_self)
    · rcases ih h.2 hx with hy | hy
      · exact .inl (List.mem_cons_of_mem a hy)
      · exact .inr hy

theorem Linked.reach {A B : List α} {x z : α} (h : Linked next (A ++ x :: B) z) :
    Relation.ReflTransGen (fun a b ↦ next a = some b) ((A ++ x :: B).headD z) x := by
  induction A with
  | nil => exact .refl
  | cons a A ih => exact .head h.1 (ih h.2)

/-- The nodes of a ring are those one can reach from its head. -/
theorem Linked.reach_iff {h : α} {L : List α} (hL : Linked next (h :: L) h) {x : α} :
    Relation.ReflTransGen (fun a b ↦ next a = some b) h x ↔ x ∈ h :: L := by
  constructor
  · intro hx
    induction hx with
    | refl => exact List.mem_cons_self
    | tail _ hab ih =>
      rcases hL.next_mem ih hab with hb | rfl
      · exact hb
      · exact List.mem_cons_self
  · intro hx
    obtain ⟨A, B, hAB⟩ := List.append_of_mem hx
    rw [hAB] at hL
    have := hL.reach
    rwa [← hAB] at this

end FentoOS.Lib
