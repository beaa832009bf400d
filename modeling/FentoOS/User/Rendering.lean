import FentoOS.User.Expr

/-!
# The texts of an expression

A tree can be written down in many ways: with blanks in front of every token, and
with parentheses wherever one likes.  Without parentheses an operand must bind at
least as tightly as its place asks for: the places of `Level.factor` take a
literal, a variable, a minus or parentheses, those of `Level.term` also products,
those of `Level.expr` also sums, and a chain of operators groups to the left.

A text that renders a tree is read as this tree.  The texts group to the left and
the code works through them from the left, with the left operand already read, so
the induction carries along what the loop does behind the operand.
-/

namespace FentoOS.Basic

open FentoOS.Lib FentoOS.Libc

/-- What a place in an expression takes. -/
inductive Level
  | factor
  | term
  | expr
  deriving DecidableEq, Repr

/-- A text that consists of blanks. -/
def Blank (b : Text) : Prop := ∀ c ∈ b, isBlank c = true

/-- The text is a rendering of the tree at a place. -/
inductive Renders : Level → Tree → Text → Prop
  | num {b digits : Text} : Blank b → digits ≠ [] → (∀ c ∈ digits, isDigit c = true) →
      Renders .factor (.num digits) (b ++ digits)
  | var {b : Text} {c : UInt8} : Blank b → isalpha c = true → Renders .factor (.var c) (b ++ [c])
  | neg {b s : Text} {t : Tree} : Blank b → Renders .factor t s →
      Renders .factor (.neg t) (b ++ '-'.toUInt8 :: s)
  | paren {b b' s : Text} {t : Tree} : Blank b → Renders .expr t s → Blank b' →
      Renders .factor t (b ++ '('.toUInt8 :: (s ++ (b' ++ [')'.toUInt8])))
  | ofFactor {s : Text} {t : Tree} : Renders .factor t s → Renders .term t s
  | mulOp {s b s' : Text} {c : UInt8} {op : Op} {l r : Tree} : Renders .term l s → Blank b →
      mulOp? c = some op → Renders .factor r s' → Renders .term (.bin op l r) (s ++ (b ++ c :: s'))
  | ofTerm {s : Text} {t : Tree} : Renders .term t s → Renders .expr t s
  | addOp {s b s' : Text} {c : UInt8} {op : Op} {l r : Tree} : Renders .expr l s → Blank b →
      addOp? c = some op → Renders .term r s' → Renders .expr (.bin op l r) (s ++ (b ++ c :: s'))

/-- Nothing that would continue a number or an expression: not a digit directly behind it, and no
operator behind blanks. -/
structure Ends (rest : Text) : Prop where
  digit : ∀ c ∈ rest.head?, isDigit c = false
  operator : ∀ c ∈ (skip rest).head?, mulOp? c = none ∧ addOp? c = none

/-! ## Blanks and digits -/

variable {b : Text}

theorem skip_append (hb : Blank b) (s : Text) : skip (b ++ s) = skip s :=
  List.dropWhile_append_of_pos hb

variable {c : UInt8}

theorem skip_cons (hc : isBlank c = false) (s : Text) : skip (c :: s) = c :: s :=
  List.dropWhile_cons_of_neg (Bool.eq_false_iff.mp hc)

variable {op : Op}

/-- An operator is neither a blank nor a digit. -/
theorem not_isBlank_of_mulOp (h : mulOp? c = some op) : isBlank c = false ∧ isDigit c = false := by
  unfold mulOp? at h
  split at h
  case isTrue hc => rw [hc]; exact ⟨rfl, rfl⟩
  split at h
  case isTrue hc => rw [hc]; exact ⟨rfl, rfl⟩
  split at h
  case isTrue hc => rw [hc]; exact ⟨rfl, rfl⟩
  case isFalse => cases h

theorem not_isBlank_of_addOp (h : addOp? c = some op) :
    isBlank c = false ∧ isDigit c = false ∧ mulOp? c = none := by
  unfold addOp? at h
  split at h
  case isTrue hc => rw [hc]; exact ⟨rfl, rfl, rfl⟩
  split at h
  case isTrue hc => rw [hc]; exact ⟨rfl, rfl, rfl⟩
  case isFalse => cases h

/-- Blanks and another character that is not a digit. -/
theorem head_blank_append (hb : Blank b) (hc : isDigit c = false) (s : Text) :
    ∀ d ∈ (b ++ c :: s).head?, isDigit d = false := by
  intro d hd
  cases b with
  | nil => exact Option.some_inj.mp hd ▸ hc
  | cons e b =>
    rw [← Option.some_inj.mp hd]
    have he := hb e List.mem_cons_self
    simp only [isBlank, Bool.or_eq_true, beq_iff_eq] at he
    rcases he with rfl | rfl <;> rfl

/-! ## A rendering is read as its tree -/

/-- What it is for a text to be read as a tree at a place: by `factor` as it is, by the others as
the beginning of a chain, which the loop goes on with. -/
def ReadAs (t : Tree) (s : Text) : Level → Prop
  | .factor => ∀ rest, (∀ c ∈ rest.head?, isDigit c = false) → Parses .factor (s ++ rest) t rest
  | .term => ∀ rest t' r, (∀ c ∈ rest.head?, isDigit c = false) →
      Parses (.termLoop t) rest t' r → Parses .term (s ++ rest) t' r
  | .expr => ∀ rest t' r, (∀ c ∈ rest.head?, isDigit c = false) →
      (∀ c ∈ (skip rest).head?, mulOp? c = none) →
      Parses (.exprLoop t) rest t' r → Parses .expr (s ++ rest) t' r

theorem skip_skip (ep : Text) : skip (skip ep) = skip ep := List.dropWhile_idempotent isBlank ep

variable {t : Tree}

/-- The loop begins with blanks. -/
theorem Parses.exprLoop_skip {t' : Tree} {ep r : Text} (h : Parses (.exprLoop t) ep t' r) :
    Parses (.exprLoop t) (skip ep) t' r := by
  cases h with
  | addOp hskip hop h h' => exact .addOp ((skip_skip ep).trans hskip) hop h h'
  | exprEnd hend =>
    have hend' : Parses (.exprLoop t) (skip ep) t (skip (skip ep)) :=
      .exprEnd (by rwa [skip_skip])
    rwa [skip_skip] at hend'

theorem takeWhile_digits {digits rest : Text} (hdigits : ∀ c ∈ digits, isDigit c = true)
    (hrest : ∀ c ∈ rest.head?, isDigit c = false) :
    (digits ++ rest).takeWhile isDigit = digits ∧ (digits ++ rest).dropWhile isDigit = rest := by
  rw [List.takeWhile_append_of_pos hdigits, List.dropWhile_append_of_pos hdigits]
  cases rest with
  | nil => exact ⟨List.append_nil _, rfl⟩
  | cons c rest =>
    have hc := Bool.eq_false_iff.mp (hrest c rfl)
    rw [List.takeWhile_cons_of_neg hc, List.dropWhile_cons_of_neg hc]
    exact ⟨List.append_nil _, rfl⟩

/-- A digit begins a number. -/
theorem digit_plain (h : isDigit c = true) : Plain c ∧ isBlank c = false := by
  simp only [isDigit, Bool.and_eq_true, decide_eq_true_eq] at h
  have hlow : 48 ≤ c.toNat := UInt8.le_iff_toNat_le.mp h.1
  have hhigh : c.toNat ≤ 57 := UInt8.le_iff_toNat_le.mp h.2
  have hne : ∀ d : UInt8, d.toNat < 48 → c ≠ d := by
    rintro d hd rfl
    omega
  have halpha : isalpha c = false := by
    simp only [isalpha, Bool.or_eq_false_iff, Bool.and_eq_false_iff, decide_eq_false_iff_not,
      UInt8.le_iff_toNat_le]
    constructor
    · exact .inl (Nat.not_le.mpr (Nat.lt_of_le_of_lt hhigh (by decide)))
    · exact .inl (Nat.not_le.mpr (Nat.lt_of_le_of_lt hhigh (by decide)))
  refine ⟨⟨hne _ (by decide), hne _ (by decide), halpha⟩, ?_⟩
  simp only [isBlank, Bool.or_eq_false_iff, beq_eq_false_iff_ne]
  exact ⟨hne _ (by decide), hne _ (by decide)⟩

theorem isBlank_of_isalpha (h : isalpha c = true) : isBlank c = false := by
  simp only [isBlank, Bool.or_eq_false_iff, beq_eq_false_iff_ne]
  constructor
  · rintro rfl
    cases h
  · rintro rfl
    cases h

theorem readAs_num {digits : Text} (hb : Blank b) (hne : digits ≠ [])
    (hdigits : ∀ c ∈ digits, isDigit c = true) : ReadAs (.num digits) (b ++ digits) .factor := by
  intro rest hrest
  obtain ⟨htake, hdrop⟩ := takeWhile_digits hdigits hrest
  have hskip : skip (b ++ digits ++ rest) = digits ++ rest := by
    obtain ⟨c, digits, rfl⟩ := List.exists_cons_of_ne_nil hne
    rw [List.append_assoc, skip_append hb, List.cons_append]
    exact skip_cons (digit_plain (hdigits c List.mem_cons_self)).2 _
  have hparses := Parses.num hskip fun c hc ↦ by
    obtain ⟨d, digits, rfl⟩ := List.exists_cons_of_ne_nil hne
    rw [← Option.some_inj.mp hc]
    exact (digit_plain (hdigits d List.mem_cons_self)).1
  rwa [htake, hdrop] at hparses

variable {s : Text}

theorem readAs_neg (hb : Blank b) (h : ReadAs t s .factor) :
    ReadAs (.neg t) (b ++ '-'.toUInt8 :: s) .factor := by
  intro rest hrest
  refine .neg ?_ (h rest hrest)
  rw [List.append_assoc, skip_append hb]
  exact skip_cons rfl _

theorem readAs_paren {b' : Text} (hb : Blank b) (h : ReadAs t s .expr) (hb' : Blank b') :
    ReadAs t (b ++ '('.toUInt8 :: (s ++ (b' ++ [')'.toUInt8]))) .factor := by
  intro rest hrest
  have hclose : skip (b' ++ ')'.toUInt8 :: rest) = ')'.toUInt8 :: rest := by
    rw [skip_append hb']
    exact skip_cons rfl _
  have hnone : ∀ c ∈ (skip (b' ++ ')'.toUInt8 :: rest)).head?,
      mulOp? c = none ∧ addOp? c = none := by
    intro c hc
    rw [hclose] at hc
    rw [← Option.some_inj.mp hc]
    exact ⟨rfl, rfl⟩
  have hinner := h (b' ++ ')'.toUInt8 :: rest) t _ (head_blank_append hb' rfl rest)
    (fun c hc ↦ (hnone c hc).1) (.exprEnd fun c hc ↦ (hnone c hc).2)
  refine .paren ?_ hinner ((skip_skip _).trans hclose)
  rw [List.append_assoc, skip_append hb, List.cons_append, List.append_assoc, List.append_assoc]
  exact skip_cons rfl _

/-- An operand of a product is added to the chain. -/
theorem readAs_mulOp {s' : Text} {l r : Tree} (hl : ReadAs l s .term) (hb : Blank b)
    (hop : mulOp? c = some op) (hr : ReadAs r s' .factor) :
    ReadAs (.bin op l r) (s ++ (b ++ c :: s')) .term := by
  intro rest t' r' hrest hloop
  obtain ⟨hblank, hdigit⟩ := not_isBlank_of_mulOp hop
  have hskip : skip (b ++ c :: (s' ++ rest)) = c :: (s' ++ rest) := by
    rw [skip_append hb]
    exact skip_cons hblank _
  have hchain := hl (b ++ c :: (s' ++ rest)) t' r' (head_blank_append hb hdigit _)
    (.mulOp hskip hop (hr rest hrest) hloop)
  rwa [List.append_assoc, List.append_assoc]

/-- An operand of a sum is added to the chain.  It ends before the next operator of a sum. -/
theorem readAs_addOp {s' : Text} {l r : Tree} (hl : ReadAs l s .expr) (hb : Blank b)
    (hop : addOp? c = some op) (hr : ReadAs r s' .term) :
    ReadAs (.bin op l r) (s ++ (b ++ c :: s')) .expr := by
  intro rest t' r' hrest hnone hloop
  obtain ⟨hblank, hdigit, hmul⟩ := not_isBlank_of_addOp hop
  have hskip : skip (b ++ c :: (s' ++ rest)) = c :: (s' ++ rest) := by
    rw [skip_append hb]
    exact skip_cons hblank _
  have hright := hr rest r _ hrest (.termEnd hnone)
  have hchain := hl (b ++ c :: (s' ++ rest)) t' r' (head_blank_append hb hdigit _)
    (by rw [hskip]; intro d hd; rw [← Option.some_inj.mp hd]; exact hmul)
    (.addOp hskip hop hright hloop.exprLoop_skip)
  rwa [List.append_assoc, List.append_assoc]

/-- A rendering is read as its tree. -/
theorem Renders.readAs {level : Level} (h : Renders level t s) : ReadAs t s level := by
  induction h with
  | num hb hne hdigits => exact readAs_num hb hne hdigits
  | @var b c hb hc =>
    intro rest _
    refine .var ?_ hc
    rw [List.append_assoc, skip_append hb]
    exact skip_cons (isBlank_of_isalpha hc) rest
  | neg hb _ ih => exact readAs_neg hb ih
  | paren hb _ hb' ih => exact readAs_paren hb ih hb'
  | ofFactor _ ih => exact fun rest t' r hrest hloop ↦ .term (ih rest hrest) hloop
  | mulOp _ hb hop _ ihl ihr => exact readAs_mulOp ihl hb hop ihr
  | ofTerm _ ih =>
    intro rest t' r hrest hnone hloop
    exact .expr (ih rest _ _ hrest (.termEnd hnone)) hloop.exprLoop_skip
  | addOp _ hb hop _ ihl ihr => exact readAs_addOp ihl hb hop ihr

/-! ## The result -/

/-- **Expressions mean what they say**: on a rendering of a tree `expr` returns the value of the
tree and leaves the cursor behind it and behind the blanks that follow. -/
theorem expr_renders {t : Tree} {s rest : Text} (h : Renders .expr t s) (hrest : Ends rest)
    {vars : Vars} (hsafe : t.Safe vars) : expr vars (s ++ rest) = .ok (t.eval vars, skip rest) := by
  have hread := h.readAs rest t _ hrest.digit (fun c hc ↦ (hrest.operator c hc).1)
    (.exprEnd fun c hc ↦ (hrest.operator c hc).2)
  exact (expr_of_parses hread vars).1 hsafe

/-- The tree of `2 *(A- 3)`. -/
def sampleTree : Tree :=
  .bin .mul (.num ['2'.toUInt8]) (.bin .sub (.var 'A'.toUInt8) (.num ['3'.toUInt8]))

theorem renders_sampleTree : Renders .expr sampleTree
    (['2', ' ', '*', '(', 'A', '-', ' ', '3', ')'].map Char.toUInt8) := by
  have hnone : Blank [] := fun _ hc ↦ absurd hc List.not_mem_nil
  have hspace : Blank [' '.toUInt8] := List.forall_mem_singleton.mpr rfl
  have htwo : Renders .term (.num ['2'.toUInt8]) ([] ++ ['2'.toUInt8]) :=
    .ofFactor (.num hnone (List.cons_ne_nil _ _) (List.forall_mem_singleton.mpr rfl))
  have hthree : Renders .term (.num ['3'.toUInt8]) ([' '.toUInt8] ++ ['3'.toUInt8]) :=
    .ofFactor (.num hspace (List.cons_ne_nil _ _) (List.forall_mem_singleton.mpr rfl))
  have hletter : Renders .expr (.var 'A'.toUInt8) ([] ++ ['A'.toUInt8]) :=
    .ofTerm (.ofFactor (.var hnone rfl))
  have hsum := Renders.addOp hletter hnone (c := '-'.toUInt8) rfl hthree
  exact .ofTerm (.mulOp htwo hspace (c := '*'.toUInt8) rfl (.paren hnone hsum hnone))

/-- The text `2 *(A- 3)` in front of a blank and a `T`, with 10 in `A`. -/
theorem expr_renders_sample : expr (fun _ ↦ 10) (['2', ' ', '*', '(', 'A', '-', ' ', '3', ')'].map
    Char.toUInt8 ++ [' ', 'T'].map Char.toUInt8) = .ok (14, ['T'.toUInt8]) := by
  have hends : Ends ([' ', 'T'].map Char.toUInt8) := by
    constructor
    · rintro c ⟨⟩
      rfl
    · rintro c ⟨⟩
      exact ⟨rfl, rfl⟩
  have hsafe : sampleTree.Safe fun _ ↦ 10 :=
    ⟨trivial, ⟨trivial, trivial, nofun⟩, nofun⟩
  exact expr_renders renders_sampleTree hends hsafe

end FentoOS.Basic
