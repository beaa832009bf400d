import FentoOS.Lib.SortedArray
import FentoOS.User.Libc

/-!
# The lines of a BASIC program

A program is an array of numbered lines with a count.  `store` looks for the
place of a number and deletes, replaces or inserts a line there.

`setLine` is what a program is for: a map from numbers to texts, of which there
are at most 256.  The array stands for the map that has gone through the same
calls.
-/

namespace FentoOS.Basic

open FentoOS.Lib FentoOS.Libc Function

def maxLines : Nat := 256

def lineLen : Nat := 128

/-- `struct line`; the text is the string in it. -/
structure Line where
  number : Int32
  text : Text
  deriving DecidableEq, Repr

/-- `program` and `count`. -/
structure Program where
  line : Nat → Line
  count : Nat

/-- No lines; the array is zero at first. -/
def Program.empty : Program := ⟨fun _ ↦ ⟨0, []⟩, 0⟩

/-! ## The code -/

namespace Program

/-- The loop of `find_line`, from `i` on. -/
def findFrom (P : Program) (n : Int32) : Nat → Nat → Int
  | 0, _ => -1
  | k + 1, i => if (P.line i).number = n then i else P.findFrom n k (i + 1)

def findLine (P : Program) (n : Int32) : Int := P.findFrom n P.count 0

/-- The first loop of `store`, from `i` on. -/
def placeFrom (P : Program) (n : Int32) : Nat → Nat → Nat
  | 0, i => i
  | k + 1, i => if (P.line i).number < n then P.placeFrom n k (i + 1) else i

def store (P : Program) (n : Int32) (s : Text) : Program :=
  let p := P.placeFrom n P.count 0
  if s = [] then
    if p < P.count ∧ (P.line p).number = n then
      ⟨moveDown P.line p (P.count - 1), P.count - 1⟩
    else P
  else if p < P.count ∧ (P.line p).number = n then
    { P with line := Function.update P.line p { P.line p with text := s } }
  else if P.count < maxLines then
    ⟨Function.update (moveUp P.line p P.count) p ⟨n, s.take (lineLen - 1)⟩, P.count + 1⟩
  else P

/-- The calls in order, from the empty program. -/
def storeAll (calls : List (Int32 × Text)) : Program :=
  calls.foldl (fun P c ↦ P.store c.1 c.2) empty

end Program

/-! ## The map -/

/-- What a call does to the map. -/
noncomputable def setLine (m : Int32 → Option Text) (n : Int32) (s : Text) : Int32 → Option Text :=
  open Classical in
  if s = [] then Function.update m n none
  else if m n = none ∧ maxLines ≤ {k | m k ≠ none}.ncard then m
  else Function.update m n (some s)

noncomputable def setAll (calls : List (Int32 × Text)) : Int32 → Option Text :=
  calls.foldl (fun m c ↦ setLine m c.1 c.2) fun _ ↦ none

/-! ## The array stands for the map -/

def Line.key (l : Line) : Int := l.number.toInt

/-- The lines are in order, there is room for them, and they are those of the map. -/
structure Represents (P : Program) (m : Int32 → Option Text) : Prop where
  increasing : Increasing Line.key P.line P.count
  count_le : P.count ≤ maxLines
  entries : ∀ n s, m n = some s ↔ ⟨n, s⟩ ∈ entries P.line P.count

namespace Represents

variable {P : Program} {m : Int32 → Option Text}

/-- As many lines as numbers in the map. -/
theorem ncard (h : Represents P m) : {k | m k ≠ none}.ncard = P.count := by
  have himage : {k | m k ≠ none} = Line.number '' Lib.entries P.line P.count := by
    ext k
    constructor
    · intro hk
      obtain ⟨s, hs⟩ := Option.ne_none_iff_exists'.mp hk
      exact ⟨⟨k, s⟩, (h.entries k s).mp hs, rfl⟩
    · rintro ⟨l, hl, rfl⟩
      have hsome := (h.entries l.number l.text).mpr hl
      rw [Set.mem_ofPred_eq, hsome]
      exact Option.some_ne_none _
  have hinj : Set.InjOn Line.number (Lib.entries P.line P.count) := by
    rintro _ ⟨i, hi, rfl⟩ _ ⟨j, hj, rfl⟩ heq
    rw [h.increasing.inj hi hj (congrArg Int32.toInt heq)]
  rw [himage, hinj.ncard_image, h.increasing.ncard_entries]

end Represents

/-- The place that `store` finds. -/
theorem Program.placeFrom_placeOf (P : Program) (n : Int32) {k i : Nat} (hk : i + k = P.count)
    (hbefore : ∀ j < i, (P.line j).key < n.toInt) :
    PlaceOf Line.key P.line P.count n.toInt (P.placeFrom n k i) := by
  induction k generalizing i with
  | zero => exact ⟨by rw [placeFrom]; omega, hbefore,
      fun hlt ↦ absurd hlt (by rw [placeFrom]; omega)⟩
  | succ k ih =>
    rw [placeFrom]
    by_cases hlt : (P.line i).number < n
    · rw [if_pos hlt]
      refine ih (by omega) fun j hj ↦ ?_
      rcases Nat.lt_succ_iff_lt_or_eq.mp hj with hj | rfl
      · exact hbefore j hj
      · exact Int32.lt_iff_toInt_lt.mp hlt
    · rw [if_neg hlt]
      exact ⟨by omega, hbefore, fun _ ↦ Int.not_lt.mp fun h ↦ hlt (Int32.lt_iff_toInt_lt.mpr h)⟩

theorem Program.place_placeOf (P : Program) (n : Int32) :
    PlaceOf Line.key P.line P.count n.toInt (P.placeFrom n P.count 0) :=
  P.placeFrom_placeOf n (Nat.zero_add _) fun _ hj ↦ absurd hj (Nat.not_lt_zero _)

theorem Line.key_ne {l : Line} {n : Int32} : l.key ≠ n.toInt ↔ l.number ≠ n :=
  not_congr Int32.toInt_inj

namespace Represents

variable {P : Program} {m : Int32 → Option Text} {n : Int32} {s : Text}

/-- A number is in the map if there is a line with it at its place. -/
theorem isSome_iff (h : Represents P m) {p : Nat}
    (hp : PlaceOf Line.key P.line P.count n.toInt p) :
    m n ≠ none ↔ p < P.count ∧ (P.line p).number = n := by
  constructor
  · intro hn
    obtain ⟨s, hs⟩ := Option.ne_none_iff_exists'.mp hn
    obtain ⟨i, hi, hline⟩ := (h.entries n s).mp hs
    have hkey : (P.line i).key = n.toInt := by rw [hline]; rfl
    obtain rfl := hp.eq_of_key h.increasing hi hkey
    exact ⟨hi, by rw [hline]⟩
  · rintro ⟨hlt, rfl⟩
    rw [(h.entries (P.line p).number (P.line p).text).mpr ⟨p, hlt, rfl⟩]
    exact Option.some_ne_none _

/-- The entry for a number is deleted. -/
theorem delete (h : Represents P m) {p : Nat} (hp : p < P.count) (hn : (P.line p).number = n) :
    Represents ⟨moveDown P.line p (P.count - 1), P.count - 1⟩ (update m n none) := by
  obtain ⟨hincreasing, hentries⟩ := h.increasing.delete hp
  refine ⟨hincreasing, (Nat.sub_le _ _).trans h.count_le, fun k t ↦ ?_⟩
  rw [hentries]
  have hkey : (P.line p).key = n.toInt := congrArg Int32.toInt hn
  by_cases hk : k = n
  · subst hk
    rw [update_self]
    exact ⟨fun hnone ↦ (by cases hnone), fun hmem ↦ absurd hkey.symm hmem.2⟩
  · rw [update_of_ne hk, h.entries, Set.mem_ofPred_eq, hkey, Line.key_ne]
    exact ⟨fun hmem ↦ ⟨hmem, hk⟩, fun hmem ↦ hmem.1⟩

/-- The text of a line is replaced. -/
theorem replace (h : Represents P m) {p : Nat} (hp : p < P.count) (hn : (P.line p).number = n) :
    Represents { P with line := update P.line p { P.line p with text := s } }
      (update m n (some s)) := by
  have hline : { P.line p with text := s } = (⟨n, s⟩ : Line) := by simp only [hn]
  obtain ⟨hincreasing, hentries⟩ := h.increasing.replace hp
    (show Line.key ⟨n, s⟩ = (P.line p).key from congrArg Int32.toInt hn.symm)
  rw [hline]
  refine ⟨hincreasing, h.count_le, fun k t ↦ ?_⟩
  rw [hentries, Set.mem_insert_iff, Line.mk.injEq, Set.mem_ofPred_eq]
  have hkey : Line.key ⟨n, s⟩ = n.toInt := rfl
  rw [hkey, Line.key_ne]
  by_cases hk : k = n
  · subst hk
    rw [update_self, Option.some_inj]
    exact ⟨fun ht ↦ .inl ⟨rfl, ht.symm⟩,
      fun hmem ↦ hmem.elim (fun heq ↦ heq.2.symm) fun hmem ↦ absurd rfl hmem.2⟩
  · rw [update_of_ne hk, h.entries]
    exact ⟨fun hmem ↦ .inr ⟨hmem, hk⟩,
      fun hmem ↦ hmem.elim (fun heq ↦ absurd heq.1 hk) fun hmem ↦ hmem.1⟩

/-- A line is inserted. -/
theorem insert (h : Represents P m) {p : Nat} (hp : PlaceOf Line.key P.line P.count n.toInt p)
    (hnew : m n = none) (hroom : P.count < maxLines) :
    Represents ⟨update (moveUp P.line p P.count) p ⟨n, s⟩, P.count + 1⟩
      (update m n (some s)) := by
  have hnot : p < P.count → (P.line p).key ≠ Line.key ⟨n, s⟩ := by
    intro hlt hkey
    exact (h.isSome_iff hp).mpr ⟨hlt, Int32.toInt_inj.mp hkey⟩ hnew
  obtain ⟨hincreasing, hentries⟩ := h.increasing.insert (x := ⟨n, s⟩) hp hnot
  refine ⟨hincreasing, hroom, fun k t ↦ ?_⟩
  rw [hentries, Set.mem_insert_iff, Line.mk.injEq]
  by_cases hk : k = n
  · subst hk
    rw [update_self, Option.some_inj, ← h.entries, hnew]
    exact ⟨fun ht ↦ .inl ⟨rfl, ht.symm⟩,
      fun hmem ↦ hmem.elim (fun heq ↦ heq.2.symm) fun hmem ↦ (by cases hmem)⟩
  · rw [update_of_ne hk, h.entries]
    exact ⟨fun hmem ↦ .inr hmem, fun hmem ↦ hmem.elim (fun heq ↦ absurd heq.1 hk) id⟩

/-- The step: `store` does to the array what `setLine` does to the map. -/
theorem store (h : Represents P m) (n : Int32) {s : Text} (hs : s.length < lineLen) :
    Represents (P.store n s) (setLine m n s) := by
  have hp := P.place_placeOf n
  have hsome := h.isSome_iff hp
  unfold Program.store setLine
  by_cases hempty : s = []
  · simp only [if_pos hempty]
    by_cases hhere : P.placeFrom n P.count 0 < P.count ∧
        (P.line (P.placeFrom n P.count 0)).number = n
    · rw [if_pos hhere]
      exact h.delete hhere.1 hhere.2
    · rw [if_neg hhere]
      have hnone : m n = none := by
        by_contra hn
        exact hhere (hsome.mp hn)
      rwa [← hnone, update_eq_self]
  · simp only [if_neg hempty, h.ncard]
    by_cases hhere : P.placeFrom n P.count 0 < P.count ∧
        (P.line (P.placeFrom n P.count 0)).number = n
    · rw [if_pos hhere, if_neg fun hfull ↦ hsome.mpr hhere hfull.1]
      exact h.replace hhere.1 hhere.2
    · have hnone : m n = none := by
        by_contra hn
        exact hhere (hsome.mp hn)
      rw [if_neg hhere]
      by_cases hroom : P.count < maxLines
      · rw [if_pos hroom, if_neg fun hfull ↦ absurd hfull.2 (Nat.not_le.mpr hroom),
          List.take_of_length_le (Nat.le_sub_one_of_lt hs)]
        exact h.insert hp hnone hroom
      · rw [if_neg hroom, if_pos ⟨hnone, Nat.le_of_not_lt hroom⟩]
        exact h

theorem empty : Represents Program.empty fun _ ↦ none where
  increasing := fun _ _ _ hj ↦ absurd hj (Nat.not_lt_zero _)
  count_le := Nat.zero_le _
  entries := fun _ _ ↦ ⟨fun h ↦ (by cases h), fun ⟨_, hi, _⟩ ↦ absurd hi (Nat.not_lt_zero _)⟩

/-- The run: any calls, from the empty program. -/
theorem storeAll (calls : List (Int32 × Text)) (hcalls : ∀ c ∈ calls, c.2.length < lineLen) :
    Represents (Program.storeAll calls) (setAll calls) := by
  induction calls using List.reverseRecOn with
  | nil => exact empty
  | append_singleton calls c ih =>
    rw [Program.storeAll, setAll, List.foldl_concat, List.foldl_concat]
    refine (ih fun c hc ↦ hcalls c (List.mem_append_left _ hc)).store c.1 ?_
    exact hcalls c (List.mem_append_right _ (List.mem_singleton_self c))

end Represents

/-! ## Finding a line -/

/-- `find_line` returns the index of a line with the number, and -1 if there is none. -/
theorem Program.findFrom_spec (P : Program) (n : Int32) {k i : Nat} (hk : i + k = P.count) :
    (∃ j, i ≤ j ∧ j < P.count ∧ (P.line j).number = n ∧ P.findFrom n k i = j) ∨
      ((∀ j, i ≤ j → j < P.count → (P.line j).number ≠ n) ∧ P.findFrom n k i = -1) := by
  induction k generalizing i with
  | zero => exact .inr ⟨fun j hij hj ↦ absurd hj (by omega), rfl⟩
  | succ k ih =>
    rw [findFrom]
    by_cases hn : (P.line i).number = n
    · rw [if_pos hn]
      exact .inl ⟨i, le_rfl, by omega, hn, rfl⟩
    · rw [if_neg hn]
      rcases ih (i := i + 1) (by omega) with ⟨j, hij, hj, hnumber, heq⟩ | ⟨hnone, heq⟩
      · exact .inl ⟨j, by omega, hj, hnumber, heq⟩
      · refine .inr ⟨fun j hij hj ↦ ?_, heq⟩
        rcases hij.lt_or_eq with hlt | rfl
        · exact hnone j hlt hj
        · exact hn

theorem Program.findLine_spec (P : Program) (n : Int32) :
    (∃ j < P.count, (P.line j).number = n ∧ P.findLine n = j) ∨
      ((∀ j < P.count, (P.line j).number ≠ n) ∧ P.findLine n = -1) := by
  rcases P.findFrom_spec n (Nat.zero_add P.count) with ⟨j, -, hj, hnumber, heq⟩ | ⟨hnone, heq⟩
  · exact .inl ⟨j, hj, hnumber, heq⟩
  · exact .inr ⟨fun j hj ↦ hnone j (Nat.zero_le j) hj, heq⟩

/-- **A program is a sorted map**: behind any calls of `store` the lines are in order, at most 256,
and those of the map that has gone through the calls; and `find_line` finds exactly these. -/
theorem program_is_sorted_map (calls : List (Int32 × Text))
    (hcalls : ∀ c ∈ calls, c.2.length < lineLen) :
    let P := Program.storeAll calls
    (∀ i j, i < j → j < P.count → (P.line i).number < (P.line j).number) ∧
      P.count ≤ maxLines ∧
      (∀ n s, setAll calls n = some s ↔ ∃ i < P.count, P.line i = ⟨n, s⟩) ∧
      ∀ n, (setAll calls n ≠ none →
          ∃ i < P.count, (P.line i).number = n ∧ P.findLine n = i) ∧
        (setAll calls n = none → P.findLine n = -1) := by
  have h := Represents.storeAll calls hcalls
  refine ⟨fun i j hij hj ↦ Int32.lt_iff_toInt_lt.mpr (h.increasing i j hij hj), h.count_le,
    h.entries, fun n ↦ ⟨fun hn ↦ ?_, fun hn ↦ ?_⟩⟩
  · rcases (Program.storeAll calls).findLine_spec n with hfound | ⟨hnone, -⟩
    · exact hfound
    · obtain ⟨hlt, hnumber⟩ := (h.isSome_iff ((Program.storeAll calls).place_placeOf n)).mp hn
      exact absurd hnumber (hnone _ hlt)
  · rcases (Program.storeAll calls).findLine_spec n with ⟨j, hj, hnumber, -⟩ | ⟨-, heq⟩
    · have hsome := (h.entries n ((Program.storeAll calls).line j).text).mpr
        ⟨j, hj, by rw [← hnumber]⟩
      rw [hn] at hsome
      cases hsome
    · exact heq

/-- Line 20, line 10, line 20 again, and line 10 deleted. -/
theorem program_is_sorted_map_sample :
    (Program.storeAll [(20, [65]), (10, [66]), (20, [67]), (10, [])]).count = 1 ∧
      (Program.storeAll [(20, [65]), (10, [66]), (20, [67]), (10, [])]).count ≤ maxLines := by
  refine ⟨by decide, (program_is_sorted_map _ ?_).2.1⟩
  decide

end FentoOS.Basic
