import FentoOS.Lib.Run
import FentoOS.User.Expr
import FentoOS.User.Program

/-!
# Running a BASIC program

`command` executes one statement and returns what is to be done next; a jump's
target is returned separately, as the index of a line.  `run` fetches one line
after the other.

A `GOTO` to a line that is missing is an error, and the next line follows.  An
`IF` with a line number behind `THEN` returns the index without looking at it,
and `find_line` returns -1 for a missing line: `run` then fetches the line in
front of the first one, which is whatever is in memory there.
-/

namespace FentoOS.Basic

open FentoOS.Lib FentoOS.Libc

/-! ## Statements -/

/-- A keyword at the cursor. -/
def startsWith (word : List Char) (ep : Text) : Bool := (word.map Char.toUInt8).isPrefixOf ep

/-- What `command` takes a text for, with the text behind the keyword. -/
inductive Statement
  | rem
  | printText (s : Text)
  | printExpr (ep : Text)
  | input (c : UInt8)
  | assign (v : Nat) (ep : Text)
  | goto (ep : Text)
  | ifThen (ep : Text)
  | stop
  | unknown
  deriving DecidableEq, Repr

/-- The text behind `PRINT`. -/
def printStatement (ep : Text) : Statement :=
  match skip ep with
  | [] => .printExpr []
  | c :: ep => if c = '"'.toUInt8 then .printText (ep.takeWhile (· != '"'.toUInt8))
      else .printExpr (c :: ep)

/-- A variable, a blank or an equals sign, and the expression. -/
def assignStatement? (ep : Text) : Option Statement :=
  match ep with
  | c :: d :: ep =>
    if isalpha c ∧ (d = ' '.toUInt8 ∨ d = '='.toUInt8) then
      match skip (d :: ep) with
      | [] => some (.assign (letter c) [])
      | e :: ep => some (.assign (letter c) (if e = '='.toUInt8 then ep else e :: ep))
    else none
  | _ => none

/-- The tests of `command`, in their order. -/
def classify (s : Text) : Statement :=
  let ep := skip s
  if startsWith ['R', 'E', 'M'] ep ∨ ep.head? = some '\''.toUInt8 then .rem
  else if startsWith ['P', 'R', 'I', 'N', 'T'] ep ∨ ep.head? = some '?'.toUInt8 then
    printStatement (ep.drop (if ep.head? = some '?'.toUInt8 then 1 else 5))
  else if startsWith ['I', 'N', 'P', 'U', 'T'] ep then .input ((skip (ep.drop 5)).headD 0)
  else
    let ep := skip (if startsWith ['L', 'E', 'T'] ep then ep.drop 3 else ep)
    match assignStatement? ep with
    | some statement => statement
    | none =>
      if startsWith ['G', 'O', 'T', 'O'] ep then .goto (ep.drop 4)
      else if startsWith ['I', 'F'] ep then .ifThen (ep.drop 2)
      else if startsWith ['E', 'N', 'D'] ep ∨ startsWith ['S', 'T', 'O', 'P'] ep then .stop
      else .unknown

/-- The condition of an `IF`: whether it holds, and the cursor behind it. -/
def condition (vars : Vars) (ep : Text) : Except Fault (Bool × Text) := do
  let (a, ep) ← expr vars ep
  match skip ep with
  | [] => .ok (false, [])
  | c :: ep =>
    if c = '='.toUInt8 then do
      let (b, ep) ← expr vars ep
      .ok (decide (a = b), ep)
    else if c = '<'.toUInt8 then do
      let (b, ep) ← expr vars ep
      .ok (decide (a < b), ep)
    else if c = '>'.toUInt8 then do
      let (b, ep) ← expr vars ep
      .ok (decide (b < a), ep)
    else .ok (false, c :: ep)

/-- What is behind `THEN`, if the condition of an `IF` holds. -/
def taken (vars : Vars) (ep : Text) : Except Fault (Option Text) := do
  let (ok, ep) ← condition vars ep
  let ep := skip ep
  let ep := if startsWith ['T', 'H', 'E', 'N'] ep then ep.drop 4 else ep
  .ok (if ok then some (skip ep) else none)

/-! ## Commands -/

/-- What is printed, one call of `putchar` or `printf` at a time. -/
inductive Out
  | char (c : UInt8)
  | int (v : Int32)
  | newline
  | prompt
  | errorAt (n : Int32)
  deriving DecidableEq, Repr

/-- The variables, the bytes still to be typed, and what has been printed. -/
structure St where
  vars : Vars
  input : List UInt8
  output : List Out

def St.print (st : St) (out : List Out) : St := { st with output := st.output ++ out }

/-- What `command` returns: go on (0), error (1), jump (2), stop (3). -/
inductive Code
  | next
  | error
  | jump
  | stop
  deriving DecidableEq, Repr

/-- `INPUT`. -/
def inputVar (st : St) (c : UInt8) : St :=
  let (b, input) := getline 32 st.input
  let v : Int := (toupper c).toNat - 'A'.toNat
  let st := { st.print [.prompt] with input := input }
  if 0 ≤ v ∧ v < 26 then { st with vars := Function.update st.vars v.toNat (atoi (stringOf b)) }
  else st

/-- `command(s, jump)`, with statements nested at most `k` deep: the result, `*jump`, and the state.
-/
def commandF (P : Program) : Nat → Text → Int → St → Except Fault (Code × Int × St)
  | 0, _, _, _ => .error .outOfFuel
  | k + 1, s, jump, st =>
    match classify s with
    | .rem => .ok (.next, jump, st)
    | .printText s => .ok (.next, jump, st.print (s.map .char ++ [.newline]))
    | .printExpr ep => do
      let (v, _) ← expr st.vars ep
      .ok (.next, jump, st.print [.int v, .newline])
    | .input c => .ok (.next, jump, inputVar st c)
    | .assign v ep => do
      let (x, _) ← expr st.vars ep
      .ok (.next, jump, { st with vars := Function.update st.vars v x })
    | .goto ep => do
      let (n, _) ← expr st.vars ep
      .ok (if P.findLine n < 0 then .error else .jump, P.findLine n, st)
    | .ifThen ep => do
      match ← taken st.vars ep with
      | none => .ok (.next, jump, st)
      | some rest =>
        if isDigit (rest.headD 0) then do
          let (n, _) ← expr st.vars rest
          .ok (.jump, P.findLine n, st)
        else commandF P k rest jump st
    | .stop => .ok (.stop, jump, st)
    | .unknown => .ok (.error, jump, st)

/-- `command(s, jump)`. -/
def command (P : Program) (s : Text) (jump : Int) (st : St) : Except Fault (Code × Int × St) :=
  commandF P (s.length + 1) s jump st

/-! ## Runs -/

/-- `pc` and the state, at the loop of `run`. -/
structure RunState where
  pc : Int
  st : St

/-- Before the loop: the variables are zero. -/
def RunState.Initial (s : RunState) : Prop := s.pc = 0 ∧ s.st.vars = (fun _ ↦ 0) ∧ s.st.output = []

/-- The line that is fetched: in front of the array, it can be anything. -/
def Fetches (P : Program) (pc : Int) (l : Line) : Prop := 0 ≤ pc → l = P.line pc.toNat

/-- One iteration of the loop of `run`, with the line fetched. -/
inductive RunStep (P : Program) : RunState → Line → RunState → Prop
  | next {s : RunState} {l : Line} {j : Int} {st : St} : s.pc < P.count → Fetches P s.pc l →
      command P l.text (-1) s.st = .ok (.next, j, st) → RunStep P s l ⟨s.pc + 1, st⟩
  | error {s : RunState} {l : Line} {j : Int} {st : St} : s.pc < P.count → Fetches P s.pc l →
      command P l.text (-1) s.st = .ok (.error, j, st) →
      RunStep P s l ⟨s.pc + 1, st.print [.errorAt l.number]⟩
  | jump {s : RunState} {l : Line} {j : Int} {st : St} : s.pc < P.count → Fetches P s.pc l →
      command P l.text (-1) s.st = .ok (.jump, j, st) → RunStep P s l ⟨j, st⟩

/-! ## Jumps -/

inductive JumpKind
  | goto
  | thenLine
  deriving DecidableEq, Repr

/-- The line number that a statement jumps to, and by which of the two forms. -/
def jumpOfF (vars : Vars) : Nat → Text → Option (JumpKind × Int32)
  | 0, _ => none
  | k + 1, s =>
    match classify s with
    | .goto ep => (expr vars ep).toOption.map fun r ↦ (.goto, r.1)
    | .ifThen ep =>
      match taken vars ep with
      | .ok (some rest) =>
        if isDigit (rest.headD 0) then
          (expr vars rest).toOption.map fun r ↦ (.thenLine, r.1)
        else jumpOfF vars k rest
      | _ => none
    | _ => none

def jumpOf (vars : Vars) (s : Text) : Option (JumpKind × Int32) := jumpOfF vars (s.length + 1) s

/-- A jump to a missing line is reported, and the next line follows. -/
def Reported (P : Program) (s : RunState) (l : Line) (s' : RunState) : Prop :=
  ∀ kind n, jumpOf s.st.vars l.text = some (kind, n) → P.findLine n = -1 →
    s'.pc = s.pc + 1 ∧ s'.st = s.st.print [.errorAt l.number]

/-- If an `IF` is taken and a line number stands behind its `THEN`, the program has this line. -/
def ThenLineExists (P : Program) (s : RunState) (l : Line) : Prop :=
  ∀ n, jumpOf s.st.vars l.text = some (.thenLine, n) → P.findLine n ≠ -1

theorem Program.findLine_range (P : Program) (n : Int32) :
    P.findLine n = -1 ∨ 0 ≤ P.findLine n ∧ P.findLine n < P.count := by
  rcases P.findLine_spec n with ⟨j, hj, -, heq⟩ | ⟨-, heq⟩
  · exact .inr (by rw [heq]; omega)
  · exact .inl heq

variable {P : Program} {k : Nat} {st : St}

/-- What a statement that jumps returns: by `GOTO`, an error if the line is missing; behind `THEN`,
a jump in any case. -/
theorem commandF_of_jumpOfF {s : Text} {kind : JumpKind} {n : Int32}
    (h : jumpOfF st.vars k s = some (kind, n)) (jump : Int) :
    commandF P k s jump st =
      .ok (if kind = .goto ∧ P.findLine n < 0 then .error else .jump, P.findLine n, st) := by
  induction k generalizing s with
  | zero => cases h
  | succ k ih =>
    rw [jumpOfF] at h
    rw [commandF]
    cases hs : classify s with
    | goto ep =>
      rw [hs] at h
      dsimp only at h ⊢
      cases hexpr : expr st.vars ep with
      | error e => rw [hexpr] at h; cases h
      | ok r =>
        rw [hexpr] at h
        cases h
        simp [bind, Except.bind]
    | ifThen ep =>
      rw [hs] at h
      dsimp only at h ⊢
      cases htaken : taken st.vars ep with
      | error e => rw [htaken] at h; cases h
      | ok rest? =>
        rw [htaken] at h
        cases rest? with
        | none => cases h
        | some rest =>
          dsimp only at h
          change (if isDigit (rest.headD 0) then _ else commandF P k rest jump st) = _
          by_cases hdigit : isDigit (rest.headD 0)
          · rw [if_pos hdigit] at h ⊢
            cases hexpr : expr st.vars rest with
            | error e => rw [hexpr] at h; cases h
            | ok r =>
              rw [hexpr] at h
              cases h
              rw [if_neg fun hgoto ↦ absurd hgoto.1 (by decide)]
              rfl
          · rw [if_neg hdigit] at h ⊢
            exact ih h
    | _ => rw [hs] at h; cases h

/-- A statement that is answered with a jump is one that jumps. -/
theorem jumpOfF_of_commandF {s : Text} {st' : St} {jump j : Int}
    (h : commandF P k s jump st = .ok (.jump, j, st')) :
    ∃ kind n, jumpOfF st.vars k s = some (kind, n) := by
  induction k generalizing s with
  | zero => cases h
  | succ k ih =>
    rw [commandF] at h
    rw [jumpOfF]
    cases hs : classify s with
    | goto ep =>
      rw [hs] at h
      dsimp only at h ⊢
      cases hexpr : expr st.vars ep with
      | error e => rw [hexpr] at h; cases h
      | ok r => exact ⟨_, _, rfl⟩
    | ifThen ep =>
      rw [hs] at h
      dsimp only at h ⊢
      cases htaken : taken st.vars ep with
      | error e => rw [htaken] at h; cases h
      | ok rest? =>
        rw [htaken] at h
        cases rest? with
        | none => cases h
        | some rest =>
          change (if isDigit (rest.headD 0) then _ else commandF P k rest jump st) = _ at h
          dsimp only
          by_cases hdigit : isDigit (rest.headD 0)
          · rw [if_pos hdigit] at h ⊢
            cases hexpr : expr st.vars rest with
            | error e => rw [hexpr] at h; cases h
            | ok r => exact ⟨_, _, rfl⟩
          · rw [if_neg hdigit] at h ⊢
            exact ih h
    | printExpr ep =>
      rw [hs] at h
      cases hexpr : expr st.vars ep with
      | error e => simp [hexpr, bind, Except.bind] at h
      | ok r => simp [hexpr, bind, Except.bind] at h
    | assign v ep =>
      rw [hs] at h
      cases hexpr : expr st.vars ep with
      | error e => simp [hexpr, bind, Except.bind] at h
      | ok r => simp [hexpr, bind, Except.bind] at h
    | _ => rw [hs] at h; cases h

/-- A jump goes to the line with the number; by `GOTO` only if there is one. -/
theorem command_jump {s : Text} {st' : St} {jump j : Int}
    (h : command P s jump st = .ok (.jump, j, st')) : ∃ kind n,
      jumpOf st.vars s = some (kind, n) ∧ j = P.findLine n ∧ (kind = .goto → 0 ≤ j) := by
  obtain ⟨kind, n, hjump⟩ := jumpOfF_of_commandF h
  have hcommand := commandF_of_jumpOfF (P := P) hjump jump
  rw [show commandF P (s.length + 1) s jump st = _ from h] at hcommand
  by_cases hmissing : kind = .goto ∧ P.findLine n < 0
  · rw [if_pos hmissing] at hcommand
    cases hcommand
  · rw [if_neg hmissing] at hcommand
    cases hcommand
    exact ⟨kind, n, hjump, rfl, fun hgoto ↦ Int.not_lt.mp fun hlt ↦ hmissing ⟨hgoto, hlt⟩⟩

/-! ## Statements come to an end -/

/-- An expression traps or has a value, and the cursor does not move back. -/
theorem expr_spec (vars : Vars) (ep : Text) : expr vars ep = .error .divide ∨
    ∃ v r, expr vars ep = .ok (v, r) ∧ r.length ≤ ep.length := by
  obtain ⟨t, r, hparses⟩ := exists_parses .expr ep
  by_cases hsafe : t.Safe vars
  · exact .inr ⟨_, r, (expr_of_parses hparses vars).1 hsafe, hparses.length⟩
  · exact .inl ((expr_of_parses hparses vars).2 hsafe)

theorem printStatement_ne (ep ep' : Text) : printStatement ep ≠ .ifThen ep' := by
  unfold printStatement
  split
  · exact nofun
  · split <;> exact nofun

theorem assignStatement?_ne (ep ep' : Text) : assignStatement? ep ≠ some (.ifThen ep') := by
  unfold assignStatement?
  split
  · split
    · split <;> exact nofun
    · exact nofun
  · exact nofun

/-- The text behind `IF` is shorter than the statement. -/
theorem length_of_classify {s ep : Text} (h : classify s = .ifThen ep) : ep.length < s.length := by
  unfold classify at h
  dsimp only at h
  split at h
  · cases h
  split at h
  · exact absurd h (printStatement_ne _ _)
  split at h
  · cases h
  have hlet : (skip (if startsWith ['L', 'E', 'T'] (skip s) then (skip s).drop 3
      else skip s)).length ≤ s.length := by
    refine (skip_length _).trans (le_trans ?_ (skip_length s))
    split
    · rw [List.length_drop]
      exact Nat.sub_le _ _
    · exact le_rfl
  generalize skip (if startsWith ['L', 'E', 'T'] (skip s) then (skip s).drop 3 else skip s) = q
    at h hlet
  split at h
  case h_1 statement hassign => exact absurd (h ▸ hassign) (assignStatement?_ne _ _)
  split at h
  · cases h
  split at h
  case isTrue hif =>
    cases h
    have htwo := (List.isPrefixOf_iff_prefix.mp hif).length_le
    rw [List.length_drop]
    simp only [List.length_map, List.length_cons, List.length_nil] at htwo
    omega
  case isFalse =>
    split at h <;> cases h

/-- The second operand of a condition. -/
theorem bind_expr_spec (vars : Vars) (ep : Text) (f : Int32 → Bool) :
    (expr vars ep >>= fun x ↦ .ok (f x.1, x.2)) = .error .divide ∨ ∃ ok r,
      (expr vars ep >>= fun x ↦ Except.ok (f x.1, x.2)) = .ok (ok, r) ∧ r.length ≤ ep.length := by
  rcases expr_spec vars ep with h | ⟨v, r, h, hr⟩
  · rw [h]
    exact .inl rfl
  · rw [h]
    exact .inr ⟨f v, r, rfl, hr⟩

/-- The condition traps, or the cursor behind it is further on. -/
theorem condition_spec (vars : Vars) (ep : Text) : condition vars ep = .error .divide ∨
    ∃ ok r, condition vars ep = .ok (ok, r) ∧ r.length ≤ ep.length := by
  unfold condition
  rcases expr_spec vars ep with h | ⟨a, r, h, hr⟩
  · rw [h]
    exact .inl rfl
  have hskip := (skip_length r).trans hr
  have hbind (f : Int32 × Text → Except Fault (Bool × Text)) :
      (expr vars ep >>= f) = f (a, r) := by
    rw [h]
    rfl
  rw [hbind]
  dsimp only
  cases hr' : skip r with
  | nil => exact .inr ⟨_, _, rfl, Nat.zero_le _⟩
  | cons c q =>
    rw [hr', List.length_cons] at hskip
    dsimp only
    split
    · rcases bind_expr_spec vars q (fun b ↦ decide (a = b)) with h | ⟨ok, r', h, hr'⟩
      · exact .inl h
      · exact .inr ⟨ok, r', h, by omega⟩
    split
    · rcases bind_expr_spec vars q (fun b ↦ decide (a < b)) with h | ⟨ok, r', h, hr'⟩
      · exact .inl h
      · exact .inr ⟨ok, r', h, by omega⟩
    split
    · rcases bind_expr_spec vars q (fun b ↦ decide (b < a)) with h | ⟨ok, r', h, hr'⟩
      · exact .inl h
      · exact .inr ⟨ok, r', h, by omega⟩
    · exact .inr ⟨_, _, rfl, hskip⟩

theorem taken_spec (vars : Vars) (ep : Text) : taken vars ep = .error .divide ∨
    ∃ rest?, taken vars ep = .ok rest? ∧ ∀ rest ∈ rest?, rest.length ≤ ep.length := by
  unfold taken
  rcases condition_spec vars ep with h | ⟨ok, r, h, hr⟩
  · rw [h]
    exact .inl rfl
  · rw [h]
    refine .inr ⟨_, rfl, fun rest hrest ↦ ?_⟩
    cases ok with
    | false => cases hrest
    | true =>
      rw [← Option.some_inj.mp hrest]
      refine (skip_length _).trans (le_trans ?_ ((skip_length r).trans hr))
      split
      · rw [List.length_drop]
        exact Nat.sub_le _ _
      · exact le_rfl

/-- A statement traps or is executed. -/
theorem commandF_spec (P : Program) {s : Text} (hk : s.length < k) (jump : Int) (st : St) :
    commandF P k s jump st = .error .divide ∨ ∃ r, commandF P k s jump st = .ok r := by
  induction k generalizing s with
  | zero => exact absurd hk (Nat.not_lt_zero _)
  | succ k ih =>
    rw [commandF]
    cases hs : classify s with
    | rem => exact .inr ⟨_, rfl⟩
    | printText _ => exact .inr ⟨_, rfl⟩
    | printExpr ep =>
      dsimp only
      rcases expr_spec st.vars ep with h | ⟨v, r, h, -⟩
      · rw [h]
        exact .inl rfl
      · rw [h]
        exact .inr ⟨_, rfl⟩
    | input c => exact .inr ⟨_, rfl⟩
    | assign v ep =>
      dsimp only
      rcases expr_spec st.vars ep with h | ⟨v, r, h, -⟩
      · rw [h]
        exact .inl rfl
      · rw [h]
        exact .inr ⟨_, rfl⟩
    | goto ep =>
      dsimp only
      rcases expr_spec st.vars ep with h | ⟨v, r, h, -⟩
      · rw [h]
        exact .inl rfl
      · rw [h]
        exact .inr ⟨_, rfl⟩
    | ifThen ep =>
      have hlt := length_of_classify hs
      dsimp only
      rcases taken_spec st.vars ep with h | ⟨rest?, h, hrest⟩
      · rw [h]
        exact .inl rfl
      · rw [h]
        cases rest? with
        | none => exact .inr ⟨_, rfl⟩
        | some rest =>
          have hle := hrest rest rfl
          change (if isDigit (rest.headD 0) then _ else commandF P k rest jump st) = _ ∨
            ∃ r, (if isDigit (rest.headD 0) then _ else commandF P k rest jump st) = _
          split
          · rcases expr_spec st.vars rest with h | ⟨v, r, h, -⟩
            · rw [h]
              exact .inl rfl
            · rw [h]
              exact .inr ⟨_, rfl⟩
          · exact ih (by omega)
    | stop => exact .inr ⟨_, rfl⟩
    | unknown => exact .inr ⟨_, rfl⟩

variable {s s' : RunState} {l : Line}

/-! ## The result -/

/-- What is behind a step from a line whose jump goes nowhere: by `GOTO` the next line, with the
error; behind `THEN` the index -1. -/
theorem RunStep.of_missing (h : RunStep P s l s') {kind : JumpKind} {n : Int32}
    (hjump : jumpOf s.st.vars l.text = some (kind, n)) (hnone : P.findLine n = -1) :
    kind = .goto ∧ s' = ⟨s.pc + 1, s.st.print [.errorAt l.number]⟩ ∨
      kind = .thenLine ∧ s'.pc = -1 := by
  have hcommand : command P l.text (-1) s.st = _ := commandF_of_jumpOfF (P := P) hjump (-1)
  rw [hnone] at hcommand
  cases kind with
  | goto =>
    rw [if_pos ⟨rfl, by decide⟩] at hcommand
    refine .inl ⟨rfl, ?_⟩
    cases h with
    | error _ _ hok =>
      rw [hcommand] at hok
      cases hok
      rfl
    | next _ _ hok => rw [hcommand] at hok; cases hok
    | jump _ _ hok => rw [hcommand] at hok; cases hok
  | thenLine =>
    rw [if_neg fun hgoto ↦ absurd hgoto.1 (by decide)] at hcommand
    refine .inr ⟨rfl, ?_⟩
    cases h with
    | jump _ _ hok =>
      rw [hcommand] at hok
      cases hok
      rfl
    | next _ _ hok => rw [hcommand] at hok; cases hok
    | error _ _ hok => rw [hcommand] at hok; cases hok

/-- The step: the index behind it is one of the program, or the one behind the last. -/
theorem RunStep.inside (h : RunStep P s l s') (hthen : ThenLineExists P s l) (hs : 0 ≤ s.pc) :
    0 ≤ s'.pc ∧ s'.pc ≤ P.count := by
  cases h with
  | next hlt _ _ => exact ⟨Int.add_nonneg hs (by decide), hlt⟩
  | error hlt _ _ => exact ⟨Int.add_nonneg hs (by decide), hlt⟩
  | jump _ _ hok =>
    obtain ⟨kind, n, hjump, rfl, hgoto⟩ := command_jump hok
    have hrange := P.findLine_range n
    cases kind with
    | goto =>
      have hfound := hgoto rfl
      have hlt : P.findLine n < P.count := by omega
      exact ⟨hfound, hlt.le⟩
    | thenLine =>
      obtain ⟨hfound, hlt⟩ := hrange.resolve_left (hthen n hjump)
      exact ⟨hfound, hlt.le⟩

theorem RunStep.reported (h : RunStep P s l s') (hthen : ThenLineExists P s l) :
    Reported P s l s' := by
  intro kind n hjump hnone
  rcases h.of_missing hjump hnone with ⟨-, rfl⟩ | ⟨rfl, -⟩
  · exact ⟨rfl, rfl⟩
  · exact absurd hnone (hthen n hjump)

/-- A step that leads into the program, or behind its end, meets the condition. -/
theorem RunStep.thenLineExists (h : RunStep P s l s') (hs' : 0 ≤ s'.pc) : ThenLineExists P s l := by
  intro n hjump hnone
  rcases h.of_missing hjump hnone with ⟨hkind, -⟩ | ⟨-, hpc⟩
  · cases hkind
  · rw [hpc] at hs'
    exact absurd hs' (by decide)

/-- The run. -/
theorem inside_of_reach (h : Reach RunState.Initial (Under (ThenLineExists P) (RunStep P)) s) :
    0 ≤ s.pc ∧ s.pc ≤ P.count := by
  refine h.invariant (P := fun s : RunState ↦ 0 ≤ s.pc ∧ s.pc ≤ (P.count : Int)) ?_ ?_
  · intro s hinit
    rw [hinit.1]
    exact ⟨le_rfl, Int.natCast_nonneg _⟩
  · intro s l s' hs hstep
    exact hstep.2.inside hstep.1 hs.1

/-- An iteration from inside the program traps in a quotient, stops, or leads on. -/
theorem RunStep.progress (hlt : s.pc < P.count) :
    let r := command P (P.line s.pc.toNat).text (-1) s.st
    r = .error .divide ∨ (∃ j st, r = .ok (.stop, j, st)) ∨
      ∃ s', RunStep P s (P.line s.pc.toNat) s' := by
  have hfetch : Fetches P s.pc (P.line s.pc.toNat) := fun _ ↦ rfl
  rcases commandF_spec P (Nat.lt_succ_self (P.line s.pc.toNat).text.length) (-1) s.st with
    h | ⟨⟨code, j, st⟩, h⟩
  · exact .inl h
  · refine .inr ?_
    cases code with
    | stop => exact .inl ⟨j, st, h⟩
    | next => exact .inr ⟨_, .next hlt hfetch h⟩
    | error => exact .inr ⟨_, .error hlt hfetch h⟩
    | jump => exact .inr ⟨_, .jump hlt hfetch h⟩

/-- **The program counter stays in the program**, in a run in which every line number behind the
`THEN` of an `IF` that is taken exists: the line fetched is one of the program, a jump to a missing
line is reported, and the run goes on unless a statement traps or stops.  The first step that does
not meet the condition is the first that leads out of the program. -/
theorem pc_stays_inside (P : Program) {s : RunState}
    (h : Reach RunState.Initial (Under (ThenLineExists P) (RunStep P)) s) :
    0 ≤ s.pc ∧ s.pc ≤ P.count ∧
      (∀ l s', RunStep P s l s' → s.pc < P.count ∧ l = P.line s.pc.toNat ∧
        (0 ≤ s'.pc ∧ Reported P s l s' ↔ ThenLineExists P s l)) ∧
      (s.pc < P.count → command P (P.line s.pc.toNat).text (-1) s.st = .error .divide ∨
        (∃ j st, command P (P.line s.pc.toNat).text (-1) s.st = .ok (.stop, j, st)) ∨
        ∃ s', RunStep P s (P.line s.pc.toNat) s') := by
  obtain ⟨hnonneg, hle⟩ := inside_of_reach h
  refine ⟨hnonneg, hle, fun l s' hstep ↦ ?_, RunStep.progress⟩
  have hfetched : s.pc < P.count ∧ l = P.line s.pc.toNat := by
    cases hstep with
    | next hlt hfetch _ => exact ⟨hlt, hfetch hnonneg⟩
    | error hlt hfetch _ => exact ⟨hlt, hfetch hnonneg⟩
    | jump hlt hfetch _ => exact ⟨hlt, hfetch hnonneg⟩
  refine ⟨hfetched.1, hfetched.2, fun hinside ↦ hstep.thenLineExists hinside.1, fun hthen ↦ ?_⟩
  exact ⟨(hstep.inside hthen hnonneg).1, hstep.reported hthen⟩

/-- The program `10 GOTO 99`, where the next line follows the error. -/
theorem pc_stays_inside_sample :
    let P := Program.storeAll [(10, ['G', 'O', 'T', 'O', ' ', '9', '9'].map Char.toUInt8)]
    ∃ s : RunState, s.pc = 1 ∧ s.pc ≤ P.count ∧ s.st.output = [.errorAt 10] := by
  intro P
  have hthen : ThenLineExists P ⟨0, ⟨fun _ ↦ 0, [], []⟩⟩ (P.line 0) := by
    intro n hjump
    have hgoto : jumpOf (fun _ ↦ 0) (P.line 0).text = some (.goto, 99) := by decide
    rw [hgoto] at hjump
    cases hjump
  have hcommand : command P (P.line 0).text (-1) ⟨fun _ ↦ 0, [], []⟩ =
      .ok (.error, -1, ⟨fun _ ↦ 0, [], []⟩) := rfl
  have hstep : RunStep P ⟨0, ⟨fun _ ↦ 0, [], []⟩⟩ (P.line 0) _ :=
    .error (by decide) (fun _ ↦ rfl) hcommand
  have hreach : Reach RunState.Initial (Under (ThenLineExists P) (RunStep P)) _ :=
    .step (.init ⟨rfl, rfl, rfl⟩) ⟨hthen, hstep⟩
  exact ⟨_, rfl, (pc_stays_inside P hreach).2.1, by decide⟩

/-- The program `10 IF 1=1 THEN 99`: the next line to be fetched is the one in front of the first,
and nothing has been reported. -/
theorem then_missing_line_leaves :
    let P := Program.storeAll [(10, ['I', 'F', ' ', '1', '=', '1', ' ', 'T', 'H', 'E', 'N', ' ',
      '9',
      '9'].map Char.toUInt8)]
    ∃ s, Reach RunState.Initial (RunStep P) s ∧ s.pc = -1 ∧ s.pc < P.count ∧ s.st.output = [] := by
  intro P
  have hcommand : command P (P.line 0).text (-1) ⟨fun _ ↦ 0, [], []⟩ =
      .ok (.jump, -1, ⟨fun _ ↦ 0, [], []⟩) := rfl
  have hstep : RunStep P ⟨0, ⟨fun _ ↦ 0, [], []⟩⟩ (P.line 0) _ :=
    .jump (by decide) (fun _ ↦ rfl) hcommand
  exact ⟨_, .step (.init ⟨rfl, rfl, rfl⟩) hstep, rfl, by decide, rfl⟩

end FentoOS.Basic
