import FentoOS.User.Libc

/-!
# BASIC expressions

Three functions that call each other work through the text of an expression with
one cursor.  In the model the cursor is what is left of the text, and each
function returns it with the value.  A divisor of zero gives zero; the other
pair on which the machine's division traps, -2^31 and -1, is not looked at.

`Parses` is the way in which a text is read: which tree it stands for, and what
is left behind it.  Every text is read in some way, since an operand that is
missing counts as zero.  `Parses.code_eq` says that the code evaluates the tree.
-/

namespace FentoOS.Basic

open FentoOS.Lib FentoOS.Libc

/-- `vars`, of which the first 26 are used. -/
abbrev Vars := Nat → Int32

/-- The evaluation ends without a value: the processor's division traps, or the recursion of the
model is cut off. -/
inductive Fault
  | divide
  | outOfFuel
  deriving DecidableEq, Repr

/-- A value and the cursor. -/
abbrev Eval := Except Fault (Int32 × Text)

/-! ## The code -/

def skip (ep : Text) : Text := ep.dropWhile isBlank

/-- The entry of `vars` for a letter. -/
def letter (c : UInt8) : Nat := (toupper c).toNat - 'A'.toNat

/-- The machine's division traps if the quotient does not fit. -/
def Traps (v d : Int32) : Prop := v = Int32.minValue ∧ d = -1

instance (v d : Int32) : Decidable (Traps v d) := inferInstanceAs (Decidable (_ ∧ _))

/-- `d ? v / d : 0`. -/
def divide (v d : Int32) : Except Fault Int32 :=
  if d = 0 then .ok 0 else if Traps v d then .error .divide else .ok (v / d)

/-- `d ? v % d : 0`. -/
def remainder (v d : Int32) : Except Fault Int32 :=
  if d = 0 then .ok 0 else if Traps v d then .error .divide else .ok (v % d)

mutual

/-- `factor`, with calls nested at most `k` deep. -/
def factorF (vars : Vars) : Nat → Text → Eval
  | 0, _ => .error .outOfFuel
  | k + 1, ep =>
    match skip ep with
    | [] => .ok (0, [])
    | c :: ep =>
      if c = '('.toUInt8 then do
        let (v, ep) ← exprF vars k ep
        match skip ep with
        | [] => .ok (v, [])
        | c :: ep => if c = ')'.toUInt8 then .ok (v, ep) else .ok (v, c :: ep)
      else if c = '-'.toUInt8 then do
        let (v, ep) ← factorF vars k ep
        .ok (-v, ep)
      else if isalpha c then .ok (vars (letter c), ep)
      else .ok (readDigits ((c :: ep).takeWhile isDigit), (c :: ep).dropWhile isDigit)

/-- The loop of `term`. -/
def termLoopF (vars : Vars) : Nat → Int32 → Text → Eval
  | 0, _, _ => .error .outOfFuel
  | k + 1, v, ep =>
    match skip ep with
    | [] => .ok (v, [])
    | c :: ep =>
      if c = '*'.toUInt8 then do
        let (d, ep) ← factorF vars k ep
        termLoopF vars k (v * d) ep
      else if c = '/'.toUInt8 then do
        let (d, ep) ← factorF vars k ep
        let v ← divide v d
        termLoopF vars k v ep
      else if c = '%'.toUInt8 then do
        let (d, ep) ← factorF vars k ep
        let v ← remainder v d
        termLoopF vars k v ep
      else .ok (v, c :: ep)

/-- `term`. -/
def termF (vars : Vars) : Nat → Text → Eval
  | 0, _ => .error .outOfFuel
  | k + 1, ep => do
    let (v, ep) ← factorF vars k ep
    termLoopF vars k v ep

/-- The loop of `expr`. -/
def exprLoopF (vars : Vars) : Nat → Int32 → Text → Eval
  | 0, _, _ => .error .outOfFuel
  | k + 1, v, ep =>
    match skip ep with
    | [] => .ok (v, [])
    | c :: ep =>
      if c = '+'.toUInt8 then do
        let (d, ep) ← termF vars k ep
        exprLoopF vars k (v + d) ep
      else if c = '-'.toUInt8 then do
        let (d, ep) ← termF vars k ep
        exprLoopF vars k (v - d) ep
      else .ok (v, c :: ep)

/-- `expr`. -/
def exprF (vars : Vars) : Nat → Text → Eval
  | 0, _ => .error .outOfFuel
  | k + 1, ep => do
    let (v, ep) ← termF vars k ep
    exprLoopF vars k v ep

end

/-- `expr`: no call is nested deeper than this, which `expr_of_parses` shows to be enough. -/
def expr (vars : Vars) (ep : Text) : Eval := exprF vars (5 * ep.length + 5) ep

/-! ## Trees -/

inductive Op
  | add
  | sub
  | mul
  | div
  | mod
  deriving DecidableEq, Repr

/-- An expression.  A literal is kept as its digits. -/
inductive Tree
  | num (digits : Text)
  | var (c : UInt8)
  | neg (t : Tree)
  | bin (op : Op) (l r : Tree)
  deriving DecidableEq, Repr

/-- Arithmetic in 32-bit two's complement, with truncating division. -/
def Op.eval (v d : Int32) : Op → Int32
  | .add => v + d
  | .sub => v - d
  | .mul => v * d
  | .div => if d = 0 then 0 else v / d
  | .mod => if d = 0 then 0 else v % d

/-- The value of a tree. -/
def Tree.eval (vars : Vars) : Tree → Int32
  | .num digits => Int32.ofNat (numeral digits)
  | .var c => vars (letter c)
  | .neg t => -t.eval vars
  | .bin op l r => op.eval (l.eval vars) (r.eval vars)

def Op.isDivision : Op → Bool
  | .div => true
  | .mod => true
  | _ => false

/-- No division of -2^31 by -1 occurs. -/
def Tree.Safe (vars : Vars) : Tree → Prop
  | .num _ => True
  | .var _ => True
  | .neg t => t.Safe vars
  | .bin op l r => l.Safe vars ∧ r.Safe vars ∧
      (op.isDivision = true → ¬Traps (l.eval vars) (r.eval vars))

/-- What the code does with two values. -/
def Op.run (v d : Int32) : Op → Except Fault Int32
  | .add => .ok (v + d)
  | .sub => .ok (v - d)
  | .mul => .ok (v * d)
  | .div => divide v d
  | .mod => remainder v d

/-- What the code does with a tree. -/
def Tree.run (vars : Vars) : Tree → Except Fault Int32
  | .num digits => .ok (readDigits digits)
  | .var c => .ok (vars (letter c))
  | .neg t => do
    let v ← t.run vars
    .ok (-v)
  | .bin op l r => do
    let v ← l.run vars
    let d ← r.run vars
    op.run v d

theorem Op.run_eq (op : Op) (v d : Int32) : op.run v d =
    if op.isDivision = true ∧ Traps v d then .error .divide else .ok (op.eval v d) := by
  have hzero : ¬Traps v 0 := fun h ↦ absurd h.2 (by decide)
  cases op with
  | add => rfl
  | sub => rfl
  | mul => rfl
  | div =>
    by_cases hd : d = 0
    · subst hd
      rw [if_neg fun h ↦ hzero h.2]
      rfl
    · simp [Op.run, divide, Op.isDivision, Op.eval, hd]
  | mod =>
    by_cases hd : d = 0
    · subst hd
      rw [if_neg fun h ↦ hzero h.2]
      rfl
    · simp [Op.run, remainder, Op.isDivision, Op.eval, hd]

/-- The code traps or returns the value. -/
theorem Tree.run_eq (vars : Vars) (t : Tree) : (t.Safe vars → t.run vars = .ok (t.eval vars)) ∧
    (¬t.Safe vars → t.run vars = .error .divide) := by
  induction t with
  | num digits => exact ⟨fun _ ↦ congrArg _ (readDigits_eq digits), fun h ↦ absurd trivial h⟩
  | var c => exact ⟨fun _ ↦ rfl, fun h ↦ absurd trivial h⟩
  | neg t ih =>
    refine ⟨fun h ↦ ?_, fun h ↦ ?_⟩
    · rw [Tree.run, ih.1 h]
      rfl
    · rw [Tree.run, ih.2 h]
      rfl
  | bin op l r ihl ihr =>
    have hrun : (Tree.bin op l r).run vars =
        l.run vars >>= fun v ↦ r.run vars >>= fun d ↦ op.run v d := rfl
    by_cases hl : l.Safe vars
    · by_cases hr : r.Safe vars
      · rw [hrun, ihl.1 hl, ihr.1 hr]
        change (_ → op.run _ _ = _) ∧ (_ → op.run _ _ = _)
        rw [Op.run_eq]
        constructor
        · rintro ⟨-, -, hsafe⟩
          rw [if_neg fun h ↦ hsafe h.1 h.2]
          rfl
        · intro h
          refine if_pos ?_
          by_contra hnot
          exact h ⟨hl, hr, fun hdiv htraps ↦ hnot ⟨hdiv, htraps⟩⟩
      · rw [hrun, ihl.1 hl, ihr.2 hr]
        exact ⟨fun h ↦ absurd h.2.1 hr, fun _ ↦ rfl⟩
    · rw [hrun, ihl.2 hl]
      exact ⟨fun h ↦ absurd h.1 hl, fun _ ↦ rfl⟩

/-! ## Reading a text -/

/-- What is read: by one of the functions, or by the loop of one behind the tree read so far. -/
inductive Goal
  | factor
  | term
  | termLoop (t : Tree)
  | expr
  | exprLoop (t : Tree)

/-- The operators that `term` looks for. -/
def mulOp? (c : UInt8) : Option Op :=
  if c = '*'.toUInt8 then some .mul
  else if c = '/'.toUInt8 then some .div
  else if c = '%'.toUInt8 then some .mod
  else none

/-- The operators that `expr` looks for. -/
def addOp? (c : UInt8) : Option Op :=
  if c = '+'.toUInt8 then some .add else if c = '-'.toUInt8 then some .sub else none

/-- A character with which `factor` begins neither a parenthesis nor a minus nor a variable. -/
def Plain (c : UInt8) : Prop := c ≠ '('.toUInt8 ∧ c ≠ '-'.toUInt8 ∧ isalpha c = false

/-- From a text a tree is read, and another text is left. -/
inductive Parses : Goal → Text → Tree → Text → Prop
  | paren {ep r r' r'' : Text} {t : Tree} : skip ep = '('.toUInt8 :: r → Parses .expr r t r' →
      skip r' = ')'.toUInt8 :: r'' → Parses .factor ep t r''
  | unclosed {ep r r' : Text} {t : Tree} : skip ep = '('.toUInt8 :: r → Parses .expr r t r' →
      (skip r').head? ≠ some ')'.toUInt8 → Parses .factor ep t (skip r')
  | neg {ep r r' : Text} {t : Tree} : skip ep = '-'.toUInt8 :: r → Parses .factor r t r' →
      Parses .factor ep (.neg t) r'
  | var {ep r : Text} {c : UInt8} : skip ep = c :: r → isalpha c = true →
      Parses .factor ep (.var c) r
  | num {ep s : Text} : skip ep = s → (∀ c ∈ s.head?, Plain c) →
      Parses .factor ep (.num (s.takeWhile isDigit)) (s.dropWhile isDigit)
  | term {ep r r' : Text} {t t' : Tree} : Parses .factor ep t r → Parses (.termLoop t) r t' r' →
      Parses .term ep t' r'
  | mulOp {ep r r' r'' : Text} {c : UInt8} {op : Op} {t d t' : Tree} : skip ep = c :: r →
      mulOp? c = some op → Parses .factor r d r' → Parses (.termLoop (.bin op t d)) r' t' r'' →
      Parses (.termLoop t) ep t' r''
  | termEnd {ep : Text} {t : Tree} : (∀ c ∈ (skip ep).head?, mulOp? c = none) →
      Parses (.termLoop t) ep t (skip ep)
  | expr {ep r r' : Text} {t t' : Tree} : Parses .term ep t r → Parses (.exprLoop t) r t' r' →
      Parses .expr ep t' r'
  | addOp {ep r r' r'' : Text} {c : UInt8} {op : Op} {t d t' : Tree} : skip ep = c :: r →
      addOp? c = some op → Parses .term r d r' → Parses (.exprLoop (.bin op t d)) r' t' r'' →
      Parses (.exprLoop t) ep t' r''
  | exprEnd {ep : Text} {t : Tree} : (∀ c ∈ (skip ep).head?, addOp? c = none) →
      Parses (.exprLoop t) ep t (skip ep)

theorem skip_length (ep : Text) : (skip ep).length ≤ ep.length :=
  (List.dropWhile_sublist isBlank).length_le

variable {ep r : Text} {c : UInt8}

theorem length_of_skip_eq (h : skip ep = c :: r) : r.length < ep.length := by
  have := skip_length ep
  rw [h, List.length_cons] at this
  omega

variable {g : Goal} {t : Tree}

theorem Parses.length (h : Parses g ep t r) : r.length ≤ ep.length := by
  induction h with
  | paren h _ h' ih =>
    have := length_of_skip_eq h
    have := length_of_skip_eq h'
    omega
  | @unclosed ep r r' t h _ _ ih =>
    have := length_of_skip_eq h
    have := skip_length r'
    omega
  | neg h _ ih =>
    have := length_of_skip_eq h
    omega
  | var h _ => exact (length_of_skip_eq h).le
  | @num ep s h _ =>
    have := skip_length ep
    have := (List.dropWhile_sublist isDigit (l := s)).length_le
    rw [h] at *
    omega
  | term _ _ ih ih' => exact ih'.trans ih
  | mulOp h _ _ _ ih ih' =>
    have := length_of_skip_eq h
    omega
  | termEnd _ => exact skip_length _
  | expr _ _ ih ih' => exact ih'.trans ih
  | addOp h _ _ _ ih ih' =>
    have := length_of_skip_eq h
    omega
  | exprEnd _ => exact skip_length _

/-! ## Every text is read -/

/-- Every text of at most this length is read. -/
def Readable (n : Nat) (g : Goal) : Prop :=
  ∀ ep : Text, ep.length ≤ n → ∃ t r, Parses g ep t r

variable {n : Nat}

theorem readable_factor (hexpr : ∀ m < n, Readable m .expr) (hfactor : ∀ m < n, Readable m .factor)
    : Readable n .factor := by
  intro ep hep
  cases hskip : skip ep with
  | nil => exact ⟨_, _, .num hskip (by simp)⟩
  | cons c r =>
    have hlt := length_of_skip_eq hskip
    by_cases hopen : c = '('.toUInt8
    · subst hopen
      obtain ⟨t, r', h⟩ := hexpr r.length (by omega) r le_rfl
      by_cases hclose : (skip r').head? = some ')'.toUInt8
      · obtain ⟨r'', hr''⟩ := List.head?_eq_some_iff.mp hclose
        exact ⟨t, r'', .paren hskip h hr''⟩
      · exact ⟨t, _, .unclosed hskip h hclose⟩
    by_cases hminus : c = '-'.toUInt8
    · subst hminus
      obtain ⟨t, r', h⟩ := hfactor r.length (by omega) r le_rfl
      exact ⟨_, r', .neg hskip h⟩
    by_cases halpha : isalpha c = true
    · exact ⟨_, r, .var hskip halpha⟩
    · refine ⟨_, _, .num hskip fun b hb ↦ ?_⟩
      rw [← Option.some_inj.mp hb]
      exact ⟨hopen, hminus, Bool.eq_false_iff.mpr halpha⟩

theorem readable_termLoop (hfactor : ∀ m < n, Readable m .factor)
    (hloop : ∀ m < n, ∀ t, Readable m (.termLoop t)) (t : Tree) : Readable n (.termLoop t) := by
  intro ep hep
  by_cases hend : ∀ c ∈ (skip ep).head?, mulOp? c = none
  · exact ⟨t, _, .termEnd hend⟩
  · push Not at hend
    obtain ⟨c, hc, hop⟩ := hend
    obtain ⟨op, hop⟩ := Option.ne_none_iff_exists'.mp hop
    obtain ⟨r, hr⟩ := List.head?_eq_some_iff.mp hc
    have hlt := length_of_skip_eq hr
    obtain ⟨d, r', hd⟩ := hfactor r.length (by omega) r le_rfl
    have hle := hd.length
    obtain ⟨t', r'', ht'⟩ := hloop r'.length (by omega) (.bin op t d) r' le_rfl
    exact ⟨t', r'', .mulOp hr hop hd ht'⟩

theorem readable_exprLoop (hterm : ∀ m < n, Readable m .term)
    (hloop : ∀ m < n, ∀ t, Readable m (.exprLoop t)) (t : Tree) : Readable n (.exprLoop t) := by
  intro ep hep
  by_cases hend : ∀ c ∈ (skip ep).head?, addOp? c = none
  · exact ⟨t, _, .exprEnd hend⟩
  · push Not at hend
    obtain ⟨c, hc, hop⟩ := hend
    obtain ⟨op, hop⟩ := Option.ne_none_iff_exists'.mp hop
    obtain ⟨r, hr⟩ := List.head?_eq_some_iff.mp hc
    have hlt := length_of_skip_eq hr
    obtain ⟨d, r', hd⟩ := hterm r.length (by omega) r le_rfl
    have hle := hd.length
    obtain ⟨t', r'', ht'⟩ := hloop r'.length (by omega) (.bin op t d) r' le_rfl
    exact ⟨t', r'', .addOp hr hop hd ht'⟩

theorem readable (n : Nat) (g : Goal) : Readable n g := by
  induction n using Nat.strong_induction_on generalizing g with
  | _ n ih =>
    have hfactor : Readable n .factor :=
      readable_factor (fun m hm ↦ ih m hm .expr) fun m hm ↦ ih m hm .factor
    have htermLoop : ∀ t, Readable n (.termLoop t) :=
      readable_termLoop (fun m hm ↦ ih m hm .factor) fun m hm t ↦ ih m hm (.termLoop t)
    have hterm : Readable n .term := by
      intro ep hep
      obtain ⟨t, r, h⟩ := hfactor ep hep
      obtain ⟨t', r', h'⟩ := htermLoop t r (h.length.trans hep)
      exact ⟨t', r', .term h h'⟩
    have hexprLoop : ∀ t, Readable n (.exprLoop t) :=
      readable_exprLoop (fun m hm ↦ ih m hm .term) fun m hm t ↦ ih m hm (.exprLoop t)
    have hexpr : Readable n .expr := by
      intro ep hep
      obtain ⟨t, r, h⟩ := hterm ep hep
      obtain ⟨t', r', h'⟩ := hexprLoop t r (h.length.trans hep)
      exact ⟨t', r', .expr h h'⟩
    cases g with
    | factor => exact hfactor
    | term => exact hterm
    | termLoop t => exact htermLoop t
    | expr => exact hexpr
    | exprLoop t => exact hexprLoop t

theorem exists_parses (g : Goal) (ep : Text) : ∃ t r, Parses g ep t r :=
  readable ep.length g ep le_rfl

/-! ## The code evaluates the tree -/

/-- The function of the code for a goal.  A loop begins with the value read so far. -/
def Goal.code (vars : Vars) (k : Nat) : Goal → Text → Eval
  | .factor, ep => factorF vars k ep
  | .term, ep => termF vars k ep
  | .termLoop t, ep => t.run vars >>= fun v ↦ termLoopF vars k v ep
  | .expr, ep => exprF vars k ep
  | .exprLoop t, ep => t.run vars >>= fun v ↦ exprLoopF vars k v ep

/-- How deep calls are nested. -/
def Goal.depth (n : Nat) : Goal → Nat
  | .factor => 5 * n + 1
  | .termLoop _ => 5 * n + 2
  | .term => 5 * n + 3
  | .exprLoop _ => 5 * n + 4
  | .expr => 5 * n + 5

theorem exists_depth {k : Nat} (hk : g.depth n ≤ k) : ∃ k', k = k' + 1 := by
  have hpos : 0 < g.depth n := by cases g <;> exact Nat.succ_pos _
  exact Nat.exists_eq_succ_of_ne_zero (Nat.lt_of_lt_of_le hpos hk).ne'

variable {vars : Vars}

/-- The step of a loop, with the operator that the character stands for. -/
theorem termLoopF_op {op : Op} (hskip : skip ep = c :: r) (hop : mulOp? c = some op) (k : Nat)
    (v : Int32) : termLoopF vars (k + 1) v ep =
      factorF vars k r >>= fun (d, r) ↦ op.run v d >>= fun v ↦ termLoopF vars k v r := by
  rw [termLoopF, hskip]
  unfold mulOp? at hop
  split at hop
  case isTrue hc =>
    cases hop
    exact if_pos hc
  split at hop
  case isTrue hmul hc =>
    cases hop
    exact (if_neg hmul).trans (if_pos hc)
  split at hop
  case isTrue hmul hdiv hc =>
    cases hop
    exact (if_neg hmul).trans ((if_neg hdiv).trans (if_pos hc))
  case isFalse => cases hop

theorem termLoopF_end (hend : ∀ c ∈ (skip ep).head?, mulOp? c = none) (k : Nat) (v : Int32) :
    termLoopF vars (k + 1) v ep = .ok (v, skip ep) := by
  rw [termLoopF]
  cases hskip : skip ep with
  | nil => rfl
  | cons c r =>
    have hnone : mulOp? c = none := hend c (by rw [hskip]; rfl)
    unfold mulOp? at hnone
    split at hnone
    · cases hnone
    split at hnone
    · cases hnone
    split at hnone
    · cases hnone
    case isFalse hmul hdiv hmod =>
      exact (if_neg hmul).trans ((if_neg hdiv).trans (if_neg hmod))

theorem exprLoopF_op {op : Op} (hskip : skip ep = c :: r) (hop : addOp? c = some op) (k : Nat)
    (v : Int32) : exprLoopF vars (k + 1) v ep =
      termF vars k r >>= fun (d, r) ↦ op.run v d >>= fun v ↦ exprLoopF vars k v r := by
  rw [exprLoopF, hskip]
  unfold addOp? at hop
  split at hop
  case isTrue hc =>
    cases hop
    exact if_pos hc
  split at hop
  case isTrue hadd hc =>
    cases hop
    exact (if_neg hadd).trans (if_pos hc)
  case isFalse => cases hop

theorem exprLoopF_end (hend : ∀ c ∈ (skip ep).head?, addOp? c = none) (k : Nat) (v : Int32) :
    exprLoopF vars (k + 1) v ep = .ok (v, skip ep) := by
  rw [exprLoopF]
  cases hskip : skip ep with
  | nil => rfl
  | cons c r =>
    have hnone : addOp? c = none := hend c (by rw [hskip]; rfl)
    unfold addOp? at hnone
    split at hnone
    · cases hnone
    split at hnone
    · cases hnone
    case isFalse hadd hsub => exact (if_neg hadd).trans (if_neg hsub)

/-- With calls nested deep enough, the code does with the text what it does with the tree. -/
theorem Parses.code_eq (h : Parses g ep t r) (vars : Vars) {k : Nat} (hk : g.depth ep.length ≤ k) :
    g.code vars k ep = (t.run vars).map fun v ↦ (v, r) := by
  induction h generalizing k with
  | @paren ep r r' r'' t hskip h hclose ih =>
    obtain ⟨k, rfl⟩ := exists_depth hk
    have hlt := length_of_skip_eq hskip
    have hcode : exprF vars k r = _ := ih (by simp only [Goal.depth] at hk ⊢; omega)
    change factorF vars (k + 1) ep = _
    rw [factorF, hskip]
    simp only [if_pos, hcode]
    cases t.run vars with
    | error e => rfl
    | ok v =>
      change (match skip r' with
        | [] => _
        | c :: ep => _) = _
      rw [hclose]
      rfl
  | @unclosed ep r r' t hskip h hopen ih =>
    obtain ⟨k, rfl⟩ := exists_depth hk
    have hlt := length_of_skip_eq hskip
    have hcode : exprF vars k r = _ := ih (by simp only [Goal.depth] at hk ⊢; omega)
    change factorF vars (k + 1) ep = _
    rw [factorF, hskip]
    simp only [if_pos, hcode]
    cases t.run vars with
    | error e => rfl
    | ok v =>
      change (match skip r' with
        | [] => _
        | c :: ep => _) = _
      cases hr' : skip r' with
      | nil => rfl
      | cons c s =>
        rw [hr', List.head?_cons] at hopen
        exact if_neg fun hc ↦ hopen (congrArg some hc)
  | @neg ep r r' t hskip h ih =>
    obtain ⟨k, rfl⟩ := exists_depth hk
    have hlt := length_of_skip_eq hskip
    have hcode : factorF vars k r = _ := ih (by simp only [Goal.depth] at hk ⊢; omega)
    change factorF vars (k + 1) ep = (t.run vars >>= fun v ↦ _).map _
    rw [factorF, hskip]
    change (factorF vars k r >>= fun x ↦ _) = _
    rw [hcode]
    cases t.run vars <;> rfl
  | @var ep r c hskip hc =>
    obtain ⟨k, rfl⟩ := exists_depth hk
    have hopen : c ≠ '('.toUInt8 := by
      rintro rfl
      cases hc
    have hminus : c ≠ '-'.toUInt8 := by
      rintro rfl
      cases hc
    change factorF vars (k + 1) ep = _
    rw [factorF, hskip]
    exact (if_neg hopen).trans ((if_neg hminus).trans (if_pos hc))
  | @num ep s hskip hplain =>
    obtain ⟨k, rfl⟩ := exists_depth hk
    change factorF vars (k + 1) ep = _
    rw [factorF, hskip]
    cases s with
    | nil => rfl
    | cons c s =>
      obtain ⟨hopen, hminus, halpha⟩ := hplain c rfl
      exact (if_neg hopen).trans ((if_neg hminus).trans (if_neg (Bool.eq_false_iff.mp halpha)))
  | @term ep r r' t t' h h' ih ih' =>
    obtain ⟨k, rfl⟩ := exists_depth hk
    have hle := h.length
    have hfirst : factorF vars k ep = _ := ih (by simp only [Goal.depth] at hk ⊢; omega)
    have hloop := ih' (k := k) (by simp only [Goal.depth] at hk ⊢; omega)
    change termF vars (k + 1) ep = _
    rw [termF, hfirst, ← hloop]
    change _ = t.run vars >>= _
    cases t.run vars <;> rfl
  | @mulOp ep r r' r'' c op t d t' hskip hop h h' ih ih' =>
    obtain ⟨k, rfl⟩ := exists_depth hk
    have hlt := length_of_skip_eq hskip
    have hle := h.length
    have hright : factorF vars k r = _ := ih (by simp only [Goal.depth] at hk ⊢; omega)
    have hloop := ih' (k := k) (by simp only [Goal.depth] at hk ⊢; omega)
    change (t.run vars >>= fun v ↦ termLoopF vars (k + 1) v ep) = _
    rw [← hloop]
    change _ = (t.run vars >>= fun v ↦ d.run vars >>= fun d ↦ op.run v d) >>= _
    cases t.run vars with
    | error e => rfl
    | ok v =>
      change termLoopF vars (k + 1) v ep = _
      rw [termLoopF_op hskip hop, hright]
      cases d.run vars <;> rfl
  | @termEnd ep t hend =>
    obtain ⟨k, rfl⟩ := exists_depth hk
    change (t.run vars >>= fun v ↦ termLoopF vars (k + 1) v ep) = _
    simp only [termLoopF_end hend]
    cases t.run vars <;> rfl
  | @expr ep r r' t t' h h' ih ih' =>
    obtain ⟨k, rfl⟩ := exists_depth hk
    have hle := h.length
    have hfirst : termF vars k ep = _ := ih (by simp only [Goal.depth] at hk ⊢; omega)
    have hloop := ih' (k := k) (by simp only [Goal.depth] at hk ⊢; omega)
    change exprF vars (k + 1) ep = _
    rw [exprF, hfirst, ← hloop]
    change _ = t.run vars >>= _
    cases t.run vars <;> rfl
  | @addOp ep r r' r'' c op t d t' hskip hop h h' ih ih' =>
    obtain ⟨k, rfl⟩ := exists_depth hk
    have hlt := length_of_skip_eq hskip
    have hle := h.length
    have hright : termF vars k r = _ := ih (by simp only [Goal.depth] at hk ⊢; omega)
    have hloop := ih' (k := k) (by simp only [Goal.depth] at hk ⊢; omega)
    change (t.run vars >>= fun v ↦ exprLoopF vars (k + 1) v ep) = _
    rw [← hloop]
    change _ = (t.run vars >>= fun v ↦ d.run vars >>= fun d ↦ op.run v d) >>= _
    cases t.run vars with
    | error e => rfl
    | ok v =>
      change exprLoopF vars (k + 1) v ep = _
      rw [exprLoopF_op hskip hop, hright]
      cases d.run vars <;> rfl
  | @exprEnd ep t hend =>
    obtain ⟨k, rfl⟩ := exists_depth hk
    change (t.run vars >>= fun v ↦ exprLoopF vars (k + 1) v ep) = _
    simp only [exprLoopF_end hend]
    cases t.run vars <;> rfl

/-- `expr` returns the value of the tree that the text is read as, or traps. -/
theorem expr_of_parses (h : Parses .expr ep t r) (vars : Vars) :
    (t.Safe vars → expr vars ep = .ok (t.eval vars, r)) ∧
      (¬t.Safe vars → expr vars ep = .error .divide) := by
  have hcode : expr vars ep = (t.run vars).map fun v ↦ (v, r) := h.code_eq vars le_rfl
  rw [hcode]
  constructor
  · intro hsafe
    rw [(t.run_eq vars).1 hsafe]
    rfl
  · intro hsafe
    rw [(t.run_eq vars).2 hsafe]
    rfl

/-! ## Divisions that trap -/

/-- **The arithmetic does not fault** exactly when the expression that the text stands for divides
-2^31 by -1 nowhere; and it always comes to an end. -/
theorem expr_does_not_trap_iff (vars : Vars) (ep : Text) :
    (∃ v r, expr vars ep = .ok (v, r)) ↔ ∀ t r, Parses .expr ep t r → t.Safe vars := by
  constructor
  · rintro ⟨v, r, hexpr⟩ t r' h
    by_contra hsafe
    rw [(expr_of_parses h vars).2 hsafe] at hexpr
    cases hexpr
  · intro h
    obtain ⟨t, r, ht⟩ := exists_parses .expr ep
    exact ⟨_, _, (expr_of_parses ht vars).1 (h t r ht)⟩

/-- The text of the quotient of -2147483648 and -1. -/
theorem expr_traps : expr (fun _ ↦ 0) (['-', '2', '1', '4', '7', '4', '8', '3', '6', '4', '8', '/',
    '-', '1'].map Char.toUInt8) = .error .divide := by
  decide

end FentoOS.Basic
