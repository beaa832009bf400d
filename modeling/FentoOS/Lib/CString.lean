import FentoOS.Lib.Bytes

/-!
# C strings

A C string is handed around as the list of its bytes before the terminator; a
pointer to it reads as `cstr`, which is zero from the terminator on.  The
functions below are those of `string.h`, on pointers given as functions from
offsets to bytes, so that they also apply to arrays that hold no terminator.
-/

namespace FentoOS.Lib

/-- What a pointer to a string reads. -/
def cstr (s : List UInt8) : Bytes := fun j ↦ s.getD j 0

/-- A list of bytes that can stand in front of a terminator. -/
def IsCString (s : List UInt8) : Prop := (0 : UInt8) ∉ s

instance (s : List UInt8) : Decidable (IsCString s) := inferInstanceAs (Decidable (¬ _))

/-- A pointer moved on by one. -/
def Bytes.next (a : Bytes) : Bytes := fun j ↦ a (j + 1)

/-- `strncmp`. -/
def strncmp (a b : Bytes) : Nat → Int
  | 0 => 0
  | n + 1 =>
    if a 0 ≠ 0 ∧ a 0 = b 0 then strncmp a.next b.next n
    else (a 0).toNat - (b 0).toNat

/-- `strncpy(dst + i, src, n)`. -/
def strncpy (dst : Bytes) (i : Nat) (src : Bytes) : Nat → Bytes
  | 0 => dst
  | n + 1 =>
    if src 0 = 0 then dst.memset i 0 (n + 1)
    else strncpy (dst.put8 i (src 0)) (i + 1) src.next n

/-- `strcpy(dst, s)`. -/
def strcpy (dst : Bytes) (s : List UInt8) : Bytes := dst.memcpy 0 (cstr s) 0 (s.length + 1)

/-- Two strings agree up to the first terminator or up to `n` bytes. -/
def EqUpTo (a b : Bytes) (n : Nat) : Prop :=
  ∀ j < n, (∀ i < j, a i ≠ 0) → a j = b j

variable {j : Nat}

theorem strncpy_of_notMem (dst : Bytes) (i : Nat) (src : Bytes) (n : Nat) (h : j < i ∨ i + n ≤ j) :
    strncpy dst i src n j = dst j := by
  induction n generalizing dst i src with
  | zero => rfl
  | succ n ih =>
    rw [strncpy]
    split
    · exact Bytes.memset_of_notMem _ _ h
    · rw [ih _ _ _ (by omega)]
      exact Bytes.put8_of_ne _ _ (by omega)

/-- `strncpy` copies up to the terminator and pads with zeroes. -/
theorem strncpy_apply (dst : Bytes) (i : Nat) (src : Bytes) (n : Nat) (hj : j < n) :
    strncpy dst i src n (i + j) = if ∀ k < j, src k ≠ 0 then src j else 0 := by
  induction n generalizing dst i src j with
  | zero => omega
  | succ n ih =>
    rw [strncpy]
    split
    case isTrue h =>
      rw [Bytes.memset_of_mem _ _ (by omega) (by omega)]
      cases j with
      | zero => simp [h]
      | succ j => rw [if_neg fun hc ↦ hc 0 (by omega) h]
    case isFalse h =>
      cases j with
      | zero => rw [strncpy_of_notMem _ _ _ _ (by omega)]; simp
      | succ j =>
        have := ih (dst.put8 i (src 0)) (i + 1) src.next (j := j) (by omega)
        rw [show i + (j + 1) = i + 1 + j by omega, this]
        refine if_congr ⟨fun hall k hk ↦ ?_, fun hall k hk ↦ hall (k + 1) (by omega)⟩ rfl rfl
        cases k with
        | zero => exact h
        | succ k => exact hall k (by omega)

/-! ## Arrays that hold a string -/

/-- The string in an array of `n` bytes, which ends at the first terminator or with the
array. -/
def strIn (a : Bytes) : Nat → List UInt8
  | 0 => []
  | n + 1 => if a 0 = 0 then [] else a 0 :: strIn a.next n

/-- `strlen` of the string in an array of `n` bytes. -/
def strlen (a : Bytes) (n : Nat) : Nat := (strIn a n).length

variable {a : Bytes} {n : Nat}

theorem EqUpTo.strIn_eq {b : Bytes} (h : EqUpTo a b n) : strIn a n = strIn b n := by
  induction n generalizing a b with
  | zero => rfl
  | succ n ih =>
    have h0 : a 0 = b 0 := h 0 (Nat.succ_pos n) fun i hi ↦ absurd hi (Nat.not_lt_zero i)
    rw [strIn, strIn, h0]
    split
    · rfl
    case isFalse hne =>
      have hnext : EqUpTo a.next b.next n := by
        intro j hj hnz
        refine h (j + 1) (Nat.succ_lt_succ hj) fun i hi ↦ ?_
        cases i with
        | zero => exact h0 ▸ hne
        | succ i => exact hnz i (Nat.lt_of_succ_lt_succ hi)
      rw [ih hnext]

theorem strIn_congr {b : Bytes} (h : ∀ j < n, a j = b j) : strIn a n = strIn b n :=
  EqUpTo.strIn_eq fun j hj _ ↦ h j hj

/-- A terminator behind the array adds nothing. -/
theorem strIn_succ (h : a n = 0) : strIn a (n + 1) = strIn a n := by
  induction n generalizing a with
  | zero => exact if_pos h
  | succ n ih =>
    have hnext : strIn a.next (n + 1) = strIn a.next n := ih h
    rw [strIn, hnext, strIn]

theorem strIn_isCString (a : Bytes) (n : Nat) : IsCString (strIn a n) := by
  induction n generalizing a with
  | zero => exact List.not_mem_nil
  | succ n ih =>
    rw [strIn]
    split
    · exact List.not_mem_nil
    case isFalse hne =>
      intro hmem
      rcases List.mem_cons.mp hmem with heq | hmem
      · exact hne heq.symm
      · exact ih a.next hmem

theorem strIn_length_le (a : Bytes) (n : Nat) : (strIn a n).length ≤ n := by
  induction n generalizing a with
  | zero => exact Nat.le_refl 0
  | succ n ih =>
    rw [strIn]
    split
    · exact Nat.zero_le _
    · exact Nat.succ_le_succ (ih a.next)

/-- A string that does not fill the array ends with a terminator. -/
theorem strIn_terminator (h : (strIn a n).length < n) : a (strIn a n).length = 0 := by
  induction n generalizing a with
  | zero => exact absurd h (Nat.not_lt_zero _)
  | succ n ih =>
    rw [strIn] at h ⊢
    by_cases ha : a 0 = 0
    · rw [if_pos ha]
      exact ha
    · rw [if_neg ha, List.length_cons] at h ⊢
      exact ih (a := a.next) (Nat.lt_of_succ_lt_succ h)

variable {s : List UInt8}

theorem strIn_cstr (h : IsCString s) (n : Nat) : strIn (cstr s) n = s.take n := by
  induction n generalizing s with
  | zero => rfl
  | succ n ih =>
    cases s with
    | nil => rfl
    | cons c s =>
      have hc : c ≠ 0 := fun hc ↦ h (hc ▸ List.mem_cons_self)
      have hs : IsCString s := fun hs ↦ h (List.mem_cons_of_mem c hs)
      change (if c = 0 then [] else c :: strIn (cstr s) n) = _
      rw [if_neg hc, ih hs, List.take_succ_cons]

/-- `strncmp` returns zero exactly when the array holds the string, cut to its length. -/
theorem strncmp_cstr_eq_zero (h : IsCString s) :
    strncmp a (cstr s) n = 0 ↔ strIn a n = s.take n := by
  induction n generalizing a s with
  | zero => simp [strncmp, strIn]
  | succ n ih =>
    rw [strncmp, strIn]
    cases s with
    | nil =>
      have h0 : cstr [] 0 = 0 := rfl
      rw [h0, if_neg fun hc ↦ hc.1 hc.2, List.take_nil]
      constructor
      · intro hz
        have ha : a 0 = 0 := UInt8.toNat_inj.mp (Int.ofNat_inj.mp (sub_eq_zero.mp hz))
        rw [if_pos ha]
      · intro hs
        split at hs
        case isTrue ha => rw [ha]; rfl
        case isFalse => cases hs
    | cons c s =>
      have hc : c ≠ 0 := fun hc ↦ h (hc ▸ List.mem_cons_self)
      have hs : IsCString s := fun hs ↦ h (List.mem_cons_of_mem c hs)
      have h0 : cstr (c :: s) 0 = c := rfl
      have hnext : (cstr (c :: s)).next = cstr s := rfl
      rw [h0, hnext, List.take_succ_cons]
      by_cases ha : a 0 = c
      · have hne : a 0 ≠ 0 := ha ▸ hc
        rw [if_pos ⟨hne, ha⟩, if_neg hne, ih hs, ha, List.cons_inj_right]
      · rw [if_neg fun hc' ↦ ha hc'.2]
        constructor
        · intro hz
          exact absurd (UInt8.toNat_inj.mp (Int.ofNat_inj.mp (sub_eq_zero.mp hz))) ha
        · intro heq
          split at heq
          · cases heq
          · exact absurd (List.cons.inj heq).1 ha

/-- `strncpy` copies the string in an array. -/
theorem strIn_strncpy (dst : Bytes) (i : Nat) (src : Bytes) (n : Nat) :
    strIn (fun j ↦ strncpy dst i src n (i + j)) n = strIn src n := by
  symm
  apply EqUpTo.strIn_eq
  intro j hj hnz
  exact ((strncpy_apply _ _ _ _ hj).trans (if_pos hnz)).symm

/-! ## Buffers that hold a given string -/

/-- The string stands at the beginning of the buffer, with its terminator. -/
def HoldsStr (a : Bytes) (s : List UInt8) : Prop := ∀ j ≤ s.length, a j = cstr s j

theorem cstr_of_le (h : s.length ≤ j) : cstr s j = 0 :=
  List.getD_eq_default s 0 h

theorem cstr_append (s t : List UInt8) (j : Nat) :
    cstr (s ++ t) j = if j < s.length then cstr s j else cstr t (j - s.length) := by
  split
  case isTrue h => exact List.getD_append s t 0 j h
  case isFalse h => exact List.getD_append_right s t 0 j (Nat.not_lt.mp h)

theorem cstr_take (s : List UInt8) (n j : Nat) :
    cstr (s.take n) j = if j < n then cstr s j else 0 := by
  unfold cstr
  rw [List.getD_eq_getElem?_getD, List.getD_eq_getElem?_getD, List.getElem?_take]
  split <;> rfl

theorem holdsStr_cstr (s : List UInt8) : HoldsStr (cstr s) s := fun _ _ ↦ rfl

/-- A buffer that holds a string agrees with it up to the terminator. -/
theorem HoldsStr.eqUpTo (h : HoldsStr a s) (n : Nat) : EqUpTo a (cstr s) n := by
  intro j _ hnz
  refine h j (Nat.le_of_not_lt fun hlt ↦ hnz s.length hlt ?_)
  exact (h s.length le_rfl).trans (cstr_of_le le_rfl)

theorem HoldsStr.strIn_eq (h : HoldsStr a s) (hs : IsCString s) (hn : s.length ≤ n) :
    strIn a n = s := by
  rw [(h.eqUpTo n).strIn_eq, strIn_cstr hs, List.take_of_length_le hn]

/-- A byte in front of the terminator is not zero. -/
theorem cstr_ne_zero (hs : IsCString s) (hj : j < s.length) : cstr s j ≠ 0 := by
  intro hz
  rw [cstr, List.getD_eq_getElem s 0 hj] at hz
  exact hs (hz ▸ List.getElem_mem hj)

/-- `strncpy` of a string: its bytes and zeroes. -/
theorem HoldsStr.strncpy_apply {src : Bytes} (h : HoldsStr src s) (hs : IsCString s) (dst : Bytes)
    (i : Nat) (hj : j < n) : strncpy dst i src n (i + j) = cstr s j := by
  rw [Lib.strncpy_apply dst i src n hj]
  split
  case isTrue hnz => exact h.eqUpTo n j hj hnz
  case isFalse hz =>
    refine (cstr_of_le (Nat.le_of_not_lt fun hlt ↦ hz fun k hk ↦ ?_)).symm
    rw [h k (hk.trans hlt).le]
    exact cstr_ne_zero hs (hk.trans hlt)

theorem strcpy_of_le (dst : Bytes) (s : List UInt8) (h : j ≤ s.length) :
    strcpy dst s j = cstr s j := by
  rw [strcpy, Bytes.memcpy_of_mem _ _ (Nat.zero_le j) (by omega), Nat.zero_add, Nat.sub_zero]

theorem strcpy_of_lt (dst : Bytes) (s : List UInt8) (h : s.length < j) : strcpy dst s j = dst j :=
  Bytes.memcpy_of_notMem _ _ (.inr (by omega))

theorem strcpy_holdsStr (dst : Bytes) (s : List UInt8) : HoldsStr (strcpy dst s) s :=
  fun _ hj ↦ strcpy_of_le dst s hj

/-- A byte is put in front of what is copied. -/
theorem put8_memcpy (b : Bytes) (i : Nat) (c : UInt8) (s : List UInt8) (n : Nat) :
    (b.put8 i c).memcpy (i + 1) (cstr s) 0 n = b.memcpy i (cstr (c :: s)) 0 (n + 1) := by
  funext x
  by_cases hx : x = i
  · subst hx
    rw [Bytes.memcpy_of_notMem _ _ (.inl (Nat.lt_succ_self x)), Bytes.put8_same,
      Bytes.memcpy_of_mem _ _ le_rfl (by omega), Nat.sub_self]
    rfl
  · by_cases hin : i + 1 ≤ x ∧ x < i + 1 + n
    · rw [Bytes.memcpy_of_mem _ _ hin.1 hin.2, Bytes.memcpy_of_mem _ _ (by omega) (by omega)]
      have hsucc : 0 + (x - i) = 0 + (x - (i + 1)) + 1 := by omega
      rw [hsucc]
      rfl
    · rw [Bytes.memcpy_of_notMem _ _ (by omega), Bytes.memcpy_of_notMem _ _ (by omega),
        Bytes.put8_of_ne _ _ hx]

/-- A byte is put behind the string, and another terminator. -/
theorem put8_strcpy (dst : Bytes) (s : List UInt8) (c : UInt8) :
    ((strcpy dst s).put8 s.length c).put8 (s.length + 1) 0 = strcpy dst (s ++ [c]) := by
  have hlen : (s ++ [c]).length = s.length + 1 := List.length_append
  funext j
  rcases Nat.lt_or_ge (s.length + 1) j with hj | hj
  · have hj' : s.length < j := Nat.lt_of_succ_lt hj
    rw [Bytes.put8_of_ne _ _ hj.ne', Bytes.put8_of_ne _ _ hj'.ne', strcpy_of_lt _ _ hj',
      strcpy_of_lt _ _ (hlen ▸ hj)]
  · rw [strcpy_of_le _ (s ++ [c]) (hlen ▸ hj), cstr_append]
    rcases Nat.lt_trichotomy j s.length with hlt | rfl | hgt
    · rw [if_pos hlt, Bytes.put8_of_ne _ _ (by omega), Bytes.put8_of_ne _ _ hlt.ne,
        strcpy_of_le _ _ hlt.le]
    · rw [if_neg (lt_irrefl _), Bytes.put8_of_ne _ _ (Nat.lt_succ_self _).ne, Bytes.put8_same,
        Nat.sub_self]
      rfl
    · obtain rfl : j = s.length + 1 := le_antisymm hj hgt
      rw [if_neg (by omega), Bytes.put8_same, Nat.add_sub_cancel_left]
      rfl

/-- Whatever the buffer of `n` bytes held before, `f` writes inside of it and leaves the string
there. -/
structure Fills (n : Nat) (f : Bytes → Bytes) (s : List UInt8) : Prop where
  inside : ∀ a j, n ≤ j → f a j = a j
  fits : s.length < n
  holds : ∀ a, HoldsStr (f a) s

/-! ## Strings and words one behind the other -/

/-- A pointer into a buffer. -/
def Bytes.shift (a : Bytes) (p : Nat) : Bytes := fun j ↦ a (p + j)

/-- What strings take with their terminators. -/
def strBytes : List (List UInt8) → Nat
  | [] => 0
  | s :: A => s.length + 1 + strBytes A

theorem strBytes_append (A E : List (List UInt8)) :
    strBytes (A ++ E) = strBytes A + strBytes E := by
  induction A with
  | nil => exact (Nat.zero_add _).symm
  | cons s A ih =>
    change s.length + 1 + strBytes (A ++ E) = s.length + 1 + strBytes A + strBytes E
    omega

/-- Where strings begin that stand one behind the other from `p` on. -/
def strPositions : Nat → List (List UInt8) → List Nat
  | _, [] => []
  | p, s :: A => p :: strPositions (p + (s.length + 1)) A

theorem strPositions_length (p : Nat) (A : List (List UInt8)) :
    (strPositions p A).length = A.length := by
  induction A generalizing p with
  | nil => rfl
  | cons s A ih => exact congrArg (· + 1) (ih _)

/-- The strings stand one behind the other from `p` on. -/
def HoldsStrs (v : Bytes) (p : Nat) (A : List (List UInt8)) : Prop :=
  List.Forall₂ (fun q s ↦ HoldsStr (v.shift q) s) (strPositions p A) A

variable {v : Bytes} {p : Nat}

theorem HoldsStrs.congr {v' : Bytes} {A : List (List UInt8)} (h : HoldsStrs v p A)
    (heq : ∀ a, p ≤ a → a < p + strBytes A → v' a = v a) : HoldsStrs v' p A := by
  induction A generalizing p with
  | nil => exact .nil
  | cons s A ih =>
    obtain ⟨hs, hA⟩ := List.forall₂_cons.mp h
    rw [strBytes] at heq
    refine .cons (fun j hj ↦ ?_) (ih hA fun a hlo hhi ↦ heq a (by omega) (by omega))
    exact (heq (p + j) (by omega) (by omega)).trans (hs j hj)

/-- Words are stored one behind the other. -/
def Bytes.putWords (v : Bytes) (p : Nat) : List Nat → Bytes
  | [] => v
  | w :: ws => (v.put32 p w).putWords (p + 4) ws

theorem Bytes.putWords_of_notMem {a : Nat} {ws : List Nat} (h : a < p ∨ p + 4 * ws.length ≤ a) :
    v.putWords p ws a = v a := by
  induction ws generalizing v p with
  | nil => rfl
  | cons w ws ih =>
    rw [List.length_cons] at h
    rw [putWords, ih (by omega), put32_of_notMem v (by omega)]

theorem Bytes.get32_putWords {i : Nat} {ws : List Nat} (hi : i < ws.length)
    (hws : ∀ w ∈ ws, w < 2 ^ 32) : (v.putWords p ws).get32 (p + 4 * i) = ws[i] := by
  induction ws generalizing v p i with
  | nil => exact absurd hi (Nat.not_lt_zero i)
  | cons w ws ih =>
    cases i with
    | zero =>
      have hfirst : (v.putWords p (w :: ws)).get32 p = (v.put32 p w).get32 p :=
        get32_congr fun j hj hj' ↦ putWords_of_notMem (.inl hj')
      rw [Nat.mul_zero, Nat.add_zero, hfirst, get32_put32_same,
        Nat.mod_eq_of_lt (hws w List.mem_cons_self)]
      rfl
    | succ i =>
      have hpos : p + 4 * (i + 1) = p + 4 + 4 * i := by omega
      rw [putWords, hpos, ih (Nat.lt_of_succ_lt_succ hi) fun w hw ↦
        hws w (List.mem_cons_of_mem _ hw)]
      rfl

/-- A word that is copied byte by byte. -/
theorem Bytes.memcpy_word (v : Bytes) (p w : Nat) :
    v.memcpy p (Bytes.zero.put32 0 w) 0 4 = v.put32 p w := by
  funext j
  by_cases hj : p ≤ j ∧ j < p + 4
  · obtain ⟨i, rfl⟩ := Nat.exists_eq_add_of_le hj.1
    rw [memcpy_of_mem _ _ hj.1 hj.2, Nat.zero_add, Nat.add_sub_cancel_left]
    obtain rfl | rfl | rfl | rfl : i = 0 ∨ i = 1 ∨ i = 2 ∨ i = 3 := by omega
    · simp [put32]
    · simp [put32]
    · simp [put32]
    · simp [put32]
  · rw [memcpy_of_notMem _ _ (by omega), put32_of_notMem _ (by omega)]

end FentoOS.Lib
