import FentoOS.Lib.CString

/-!
# Pointers that move through a string

A program that works through a string moves a pointer over it.  What the pointer
reads is a string again, the rest of the first one, and a loop that skips
characters moves the pointer from the rest to what `List.dropWhile` leaves of it.
-/

namespace FentoOS.Lib

/-- A pointer moves on over the characters that satisfy `P`, at most `k` of them. -/
def skipWhile (P : UInt8 → Bool) (a : Bytes) : Nat → Nat → Nat
  | 0, p => p
  | k + 1, p => if P (a p) then skipWhile P a k (p + 1) else p

variable {a a' : Bytes} {p : Nat} {s t : List UInt8} {c : UInt8}

theorem HoldsStr.nil_eq (h : HoldsStr (a.shift p) []) : a p = 0 := h 0 le_rfl

theorem HoldsStr.head_eq (h : HoldsStr (a.shift p) (c :: s)) : a p = c := h 0 (Nat.zero_le _)

theorem HoldsStr.append_right (h : HoldsStr (a.shift p) (s ++ t)) :
    HoldsStr (a.shift (p + s.length)) t := by
  intro j hj
  have hall := h (s.length + j) (by rw [List.length_append]; omega)
  rw [cstr_append, if_neg (by omega), Nat.add_sub_cancel_left] at hall
  rwa [Bytes.shift, Nat.add_assoc]

theorem HoldsStr.tail (h : HoldsStr (a.shift p) (c :: s)) : HoldsStr (a.shift (p + 1)) s :=
  append_right (s := [c]) h

/-- Only the string itself and its terminator are looked at. -/
theorem HoldsStr.of_eq (h : HoldsStr (a.shift p) s)
    (heq : ∀ j, p ≤ j → j ≤ p + s.length → a' j = a j) : HoldsStr (a'.shift p) s :=
  fun j hj ↦ (heq (p + j) (by omega) (by omega)).trans (h j hj)

/-- The characters in front of a terminator written over the next one. -/
theorem HoldsStr.cut (h : HoldsStr (a.shift p) (s ++ t)) :
    HoldsStr ((a.put8 (p + s.length) 0).shift p) s := by
  intro j hj
  rcases hj.lt_or_eq with hlt | rfl
  · have hall := h j (by rw [List.length_append]; omega)
    rw [cstr_append, if_pos hlt] at hall
    rw [← hall]
    exact Bytes.put8_of_ne _ _ (by omega)
  · rw [cstr_of_le le_rfl]
    exact Bytes.put8_same _ _ _

theorem HoldsStr.dropWhile (h : HoldsStr (a.shift p) s) (P : UInt8 → Bool) :
    HoldsStr (a.shift (p + (s.takeWhile P).length)) (s.dropWhile P) := by
  apply append_right
  rwa [List.takeWhile_append_dropWhile]

/-- A loop that skips characters stops at the terminator at the latest. -/
theorem HoldsStr.skipWhile_eq {P : UInt8 → Bool} (hP : P 0 = false) (h : HoldsStr (a.shift p) s)
    {k : Nat} (hk : s.length ≤ k) : skipWhile P a k p = p + (s.takeWhile P).length := by
  induction s generalizing p k with
  | nil =>
    cases k with
    | zero => rfl
    | succ k => rw [skipWhile, h.nil_eq, hP]; rfl
  | cons c s ih =>
    obtain ⟨k, rfl⟩ : ∃ k', k = k' + 1 := ⟨k - 1, (Nat.succ_pred_eq_of_pos (by
      exact Nat.lt_of_lt_of_le (Nat.succ_pos _) hk)).symm⟩
    rw [skipWhile, h.head_eq, List.takeWhile_cons]
    cases P c with
    | true =>
      rw [if_pos rfl, ih h.tail (Nat.le_of_succ_le_succ hk), if_pos rfl, List.length_cons]
      omega
    | false => rfl

theorem IsCString.of_append_right (h : IsCString (s ++ t)) : IsCString t :=
  fun hmem ↦ h (List.mem_append_right s hmem)

theorem IsCString.of_append_left (h : IsCString (s ++ t)) : IsCString s :=
  fun hmem ↦ h (List.mem_append_left t hmem)

theorem IsCString.tail (h : IsCString (c :: s)) : IsCString s :=
  of_append_right (s := [c]) h

theorem IsCString.head_ne (h : IsCString (c :: s)) : c ≠ 0 :=
  fun hc ↦ h (hc ▸ List.mem_cons_self)

theorem IsCString.dropWhile (h : IsCString s) (P : UInt8 → Bool) : IsCString (s.dropWhile P) :=
  fun hmem ↦ h ((List.dropWhile_sublist P).mem hmem)

end FentoOS.Lib
