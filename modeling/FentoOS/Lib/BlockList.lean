import Mathlib

/-!
# Lists of blocks

A region of memory is divided into blocks, and the blocks are linked.  Two things make
such a list sound.  `Dll next prev p L n` says that the nodes of `L` follow each other in
both directions, with `p` in front of the first and `n` behind the last.  `Tiles stop a L
z` says that the blocks of `L` start where the one before stops, from `a` on and up to
`z`.

A block list changes in two ways: a block is cut in two, or it swallows the block behind
it.  For links and for tiles there is a lemma for each.
-/

namespace FentoOS.Lib

universe u

/-! ## Links in both directions -/

section Links

variable {α : Type u} {next prev next' prev' : α → Option α} {p q n m : Option α}
  {A B L : List α} {x y : α}

/-- The nodes of a list follow each other in both directions. -/
def Dll (next prev : α → Option α) : Option α → List α → Option α → Prop
  | _, [], _ => True
  | p, x :: L, n => prev x = p ∧ next x = L.head?.or n ∧ Dll next prev (some x) L n

theorem Dll.append : Dll next prev p (A ++ B) n ↔
    Dll next prev p A (B.head?.or n) ∧ Dll next prev (A.getLast?.or p) B n := by
  induction A generalizing p with
  | nil => simp [Dll]
  | cons a A ih =>
    have hhead : (A ++ B).head?.or n = A.head?.or (B.head?.or n) := by
      rw [List.head?_append, Option.or_assoc]
    have hlast : (a :: A).getLast?.or p = A.getLast?.or (some a) := by
      cases A with
      | nil => rfl
      | cons b A => rw [List.getLast?_cons_cons, List.getLast?_cons]; rfl
    rw [List.cons_append, Dll, Dll, ih, hhead, hlast, and_assoc, and_assoc]

/-- The links of other nodes do not matter. -/
theorem Dll.congr (h : Dll next prev p L n) (hnext : ∀ z ∈ L, next' z = next z)
    (hprev : ∀ z ∈ L, prev' z = prev z) : Dll next' prev' p L n := by
  induction L generalizing p with
  | nil => trivial
  | cons a L ih =>
    obtain ⟨h₁, h₂, h₃⟩ := h
    refine ⟨(hprev a List.mem_cons_self).trans h₁, (hnext a List.mem_cons_self).trans h₂, ?_⟩
    exact ih h₃ (fun z hz ↦ hnext z (List.mem_cons_of_mem a hz))
      fun z hz ↦ hprev z (List.mem_cons_of_mem a hz)

/-- The list gets another node in front. -/
theorem Dll.rehead (h : Dll next prev p L n) (hnext : ∀ z ∈ L, next' z = next z)
    (hhead : ∀ z ∈ L.head?, prev' z = q) (htail : ∀ z ∈ L.tail, prev' z = prev z) :
    Dll next' prev' q L n := by
  cases L with
  | nil => trivial
  | cons a L =>
    refine ⟨hhead a rfl, (hnext a List.mem_cons_self).trans h.2.1, ?_⟩
    exact h.2.2.congr (fun z hz ↦ hnext z (List.mem_cons_of_mem a hz)) htail

/-- The node behind a node. -/
theorem Dll.next_eq (h : Dll next prev p (A ++ x :: B) n) : next x = B.head?.or n :=
  (Dll.append.mp h).2.2.1

/-- The node in front of a node. -/
theorem Dll.prev_eq (h : Dll next prev p (A ++ x :: B) n) : prev x = A.getLast?.or p :=
  (Dll.append.mp h).2.1

/-- A node is put in behind another one. -/
theorem Dll.insert (h : Dll next prev p (A ++ x :: B) n) (hx : next' x = some y)
    (hy : next' y = next x) (hy' : prev' y = some x) (hnext : ∀ z ∈ A ++ B, next' z = next z)
    (hprev : ∀ z ∈ A ++ [x], prev' z = prev z) (hhead : ∀ z ∈ B.head?, prev' z = some y)
    (htail : ∀ z ∈ B.tail, prev' z = prev z) : Dll next' prev' p (A ++ x :: y :: B) n := by
  obtain ⟨hA, hx₁, hx₂, hB⟩ := Dll.append.mp h
  refine Dll.append.mpr ⟨?_, ?_, hx, hy', hy.trans hx₂, ?_⟩
  · exact hA.congr (fun z hz ↦ hnext z (List.mem_append_left B hz))
      fun z hz ↦ hprev z (List.mem_append_left [x] hz)
  · exact (hprev x (List.mem_append_right A List.mem_cons_self)).trans hx₁
  · exact hB.rehead (fun z hz ↦ hnext z (List.mem_append_right A hz)) hhead htail

/-- A node is taken out from behind another one. -/
theorem Dll.remove (h : Dll next prev p (A ++ x :: y :: B) n) (hx : next' x = next y)
    (hnext : ∀ z ∈ A ++ B, next' z = next z) (hprev : ∀ z ∈ A ++ [x], prev' z = prev z)
    (hhead : ∀ z ∈ B.head?, prev' z = some x) (htail : ∀ z ∈ B.tail, prev' z = prev z) :
    Dll next' prev' p (A ++ x :: B) n := by
  obtain ⟨hA, hx₁, -, -, hy₂, hB⟩ := Dll.append.mp h
  refine Dll.append.mpr ⟨?_, ?_, hx.trans hy₂, ?_⟩
  · exact hA.congr (fun z hz ↦ hnext z (List.mem_append_left B hz))
      fun z hz ↦ hprev z (List.mem_append_left [x] hz)
  · exact (hprev x (List.mem_append_right A List.mem_cons_self)).trans hx₁
  · exact hB.rehead (fun z hz ↦ hnext z (List.mem_append_right A hz)) hhead htail

end Links

/-! ## Tiles -/

section Tiles

variable {stop stop' : Nat → Nat} {a b z x y : Nat} {A B L : List Nat}

/-- Blocks that follow each other without gaps. -/
def Tiles (stop : Nat → Nat) : Nat → List Nat → Nat → Prop
  | a, [], z => a = z
  | a, x :: L, z => x = a ∧ x < stop x ∧ Tiles stop (stop x) L z

theorem Tiles.append : Tiles stop a (A ++ B) z ↔ ∃ m, Tiles stop a A m ∧ Tiles stop m B z := by
  induction A generalizing a with
  | nil => simp [Tiles]
  | cons x A ih =>
    rw [List.cons_append, Tiles, ih]
    constructor
    · rintro ⟨h₁, h₂, m, hA, hB⟩
      exact ⟨m, ⟨h₁, h₂, hA⟩, hB⟩
    · rintro ⟨m, ⟨h₁, h₂, hA⟩, hB⟩
      exact ⟨h₁, h₂, m, hA, hB⟩

theorem Tiles.congr (h : Tiles stop a L z) (hstop : ∀ x ∈ L, stop' x = stop x) :
    Tiles stop' a L z := by
  induction L generalizing a with
  | nil => exact h
  | cons x L ih =>
    obtain ⟨h₁, h₂, h₃⟩ := h
    have hx := hstop x List.mem_cons_self
    refine ⟨h₁, hx.symm ▸ h₂, hx.symm ▸ ?_⟩
    exact ih h₃ fun w hw ↦ hstop w (List.mem_cons_of_mem x hw)

theorem Tiles.le (h : Tiles stop a L z) : a ≤ z := by
  induction L generalizing a with
  | nil => exact h.le
  | cons x L ih =>
    obtain ⟨rfl, h₂, h₃⟩ := h
    exact h₂.le.trans (ih h₃)

/-- A block lies inside of the region. -/
theorem Tiles.bounds (h : Tiles stop a L z) (hx : x ∈ L) : a ≤ x ∧ x < stop x ∧ stop x ≤ z := by
  obtain ⟨A, B, rfl⟩ := List.append_of_mem hx
  obtain ⟨m, hA, rfl, hlt, hB⟩ := Tiles.append.mp h
  exact ⟨hA.le, hlt, hB.le⟩

/-- Two blocks are the same or lie apart. -/
theorem Tiles.disjoint (h : Tiles stop a L z) (hx : x ∈ L) (hy : y ∈ L) (hne : x ≠ y) :
    stop x ≤ y ∨ stop y ≤ x := by
  obtain ⟨A, B, rfl⟩ := List.append_of_mem hx
  obtain ⟨m, hA, rfl, hlt, hB⟩ := Tiles.append.mp h
  rcases List.mem_append.mp hy with hy | hy
  · exact .inr (hA.bounds hy).2.2
  · rcases List.mem_cons.mp hy with rfl | hy
    · exact absurd rfl hne
    · exact .inl (hB.bounds hy).1

theorem Tiles.nodup (h : Tiles stop a L z) : L.Nodup := by
  induction L generalizing a with
  | nil => exact List.nodup_nil
  | cons x L ih =>
    obtain ⟨-, h₂, h₃⟩ := h
    refine List.nodup_cons.mpr ⟨fun hx ↦ ?_, ih h₃⟩
    exact absurd h₂ (not_lt.mpr (h₃.bounds hx).1)

theorem Tiles.length_le (h : Tiles stop a L z) : a + L.length ≤ z := by
  induction L generalizing a with
  | nil => exact h.le
  | cons x L ih =>
    obtain ⟨rfl, h₂, h₃⟩ := h
    have hlen := ih h₃
    rw [List.length_cons]
    omega

/-- A block is cut in two. -/
theorem Tiles.insert (h : Tiles stop a (A ++ x :: B) z) (hx : stop' x = y)
    (hy : stop' y = stop x) (hxy : x < y) (hyz : y < stop x)
    (hstop : ∀ w ∈ A ++ B, stop' w = stop w) : Tiles stop' a (A ++ x :: y :: B) z := by
  obtain ⟨m, hA, rfl, hlt, hB⟩ := Tiles.append.mp h
  refine Tiles.append.mpr ⟨x, ?_, rfl, hx.symm ▸ hxy, hx.symm, hy.symm ▸ hyz, hy.symm ▸ ?_⟩
  · exact hA.congr fun w hw ↦ hstop w (List.mem_append_left B hw)
  · exact hB.congr fun w hw ↦ hstop w (List.mem_append_right A hw)

/-- A block swallows the block behind it. -/
theorem Tiles.remove (h : Tiles stop a (A ++ x :: y :: B) z) (hx : stop' x = stop y)
    (hstop : ∀ w ∈ A ++ B, stop' w = stop w) : Tiles stop' a (A ++ x :: B) z := by
  obtain ⟨m, hA, rfl, hlt, rfl, hlt', hB⟩ := Tiles.append.mp h
  refine Tiles.append.mpr ⟨x, ?_, rfl, hx.symm ▸ hlt.trans hlt', hx.symm ▸ ?_⟩
  · exact hA.congr fun w hw ↦ hstop w (List.mem_append_left B hw)
  · exact hB.congr fun w hw ↦ hstop w (List.mem_append_right A hw)

/-- The region grows by a block at its end. -/
theorem Tiles.snoc (h : Tiles stop a L z) (hz : stop' z = y) (hlt : z < y)
    (hstop : ∀ w ∈ L, stop' w = stop w) : Tiles stop' a (L ++ [z]) y :=
  Tiles.append.mpr ⟨z, h.congr hstop, rfl, hz.symm ▸ hlt, hz⟩

end Tiles

end FentoOS.Lib
