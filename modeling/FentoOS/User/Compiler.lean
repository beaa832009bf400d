import FentoOS.Lib.X86
import FentoOS.User.Expr

/-!
# The compiler

`fcc` works through the text of a program with one pointer and emits code for what it takes for a
statement: a call of `puts` or `printf`, of which it uses the next string literal, and `return`
with an expression.  Everything else is skipped.  The characters of the literals are collected in
a buffer that is put behind the code at the end, and the addresses of the literals, which are
known only then, are patched into the code.

None of the arrays is checked for overflow, except for the characters of a literal.  Writing
behind the end of an array is a fault of the model, since what happens then depends on the layout
of the variables.  The other fault is the division of the smallest `int` by -1 in an expression,
which kills the compiler.

The pointer is what is left of the text.  `statements` is the list of what the compiler takes for
a statement; `loop_eq` says that it emits the code of one after the other.
-/

namespace FentoOS.Fcc

open FentoOS.Lib FentoOS.Lib.X86 FentoOS.Libc

/-- How a run of the compiler fails.  The recursion of the model is never cut off (`value_fine`). -/
inductive Fault
  | trap
  | overflow
  | outOfFuel
deriving DecidableEq

/-! ## Expressions -/

/-- A value and the pointer. -/
abbrev Eval := Except Fault (Int32 × Text)

/-- `ws`. -/
def ws (xp : Text) : Text := xp.dropWhile isspace

/-- `d ? v / d : 0`. -/
def quotient (v d : Int32) : Except Fault Int32 := (Basic.divide v d).mapError fun _ ↦ .trap

/-- `d ? v % d : 0`. -/
def remainder (v d : Int32) : Except Fault Int32 := (Basic.remainder v d).mapError fun _ ↦ .trap

/-- The digits of a number. -/
def digits (xp : Text) : Int32 × Text := (readDigits (xp.takeWhile isDigit), xp.dropWhile isDigit)

mutual

/-- `atom`, with calls nested at most `k` deep. -/
def atomF : Nat → Text → Eval
  | 0, _ => .error .outOfFuel
  | k + 1, xp =>
    match ws xp with
    | [] => .ok (0, [])
    | c :: xp =>
      if c = '('.toUInt8 then do
        let (v, xp) ← valueF k xp
        match ws xp with
        | [] => .ok (v, [])
        | c :: xp => if c = ')'.toUInt8 then .ok (v, xp) else .ok (v, c :: xp)
      else if c = '-'.toUInt8 then .ok ((digits xp).1 * (-1), (digits xp).2)
      else .ok (digits (c :: xp))

/-- The loop of `product`. -/
def productLoopF : Nat → Int32 → Text → Eval
  | 0, _, _ => .error .outOfFuel
  | k + 1, v, xp =>
    match ws xp with
    | [] => .ok (v, [])
    | c :: xp =>
      if c = '*'.toUInt8 then do
        let (d, xp) ← atomF k xp
        productLoopF k (v * d) xp
      else if c = '/'.toUInt8 then do
        let (d, xp) ← atomF k xp
        let v ← quotient v d
        productLoopF k v xp
      else if c = '%'.toUInt8 then do
        let (d, xp) ← atomF k xp
        let v ← remainder v d
        productLoopF k v xp
      else .ok (v, c :: xp)

/-- `product`. -/
def productF : Nat → Text → Eval
  | 0, _ => .error .outOfFuel
  | k + 1, xp => do
    let (v, xp) ← atomF k xp
    productLoopF k v xp

/-- The loop of `value`. -/
def valueLoopF : Nat → Int32 → Text → Eval
  | 0, _, _ => .error .outOfFuel
  | k + 1, v, xp =>
    match ws xp with
    | [] => .ok (v, [])
    | c :: xp =>
      if c = '+'.toUInt8 then do
        let (d, xp) ← productF k xp
        valueLoopF k (v + d) xp
      else if c = '-'.toUInt8 then do
        let (d, xp) ← productF k xp
        valueLoopF k (v - d) xp
      else .ok (v, c :: xp)

/-- `value`. -/
def valueF : Nat → Text → Eval
  | 0, _ => .error .outOfFuel
  | k + 1, xp => do
    let (v, xp) ← productF k xp
    valueLoopF k v xp

end

/-- `value`: no call is nested deeper than this. -/
def value (xp : Text) : Eval := valueF (5 * xp.length + 5) xp

/-- The evaluation ends with the pointer at most `n` characters in front of the end, or it
traps. -/
def Fine (n : Nat) : Eval → Prop
  | .ok r => r.2.length ≤ n
  | .error f => f = .trap

theorem Fine.mono {n m : Nat} (h : n ≤ m) : ∀ {r : Eval}, Fine n r → Fine m r
  | .ok _, hr => le_trans hr h
  | .error _, hr => hr

theorem Fine.bind {n m : Nat} {r : Eval} {f : Int32 × Text → Eval} (hr : Fine n r)
    (hf : ∀ v xp, xp.length ≤ n → Fine m (f (v, xp))) : Fine m (r >>= f) := by
  cases r with
  | ok r => exact hf r.1 r.2 hr
  | error e => exact hr

theorem Fine.lift {n : Nat} {r : Except Basic.Fault Int32} {f : Int32 → Eval}
    (hf : ∀ v, Fine n (f v)) : Fine n (r.mapError (fun _ ↦ Fault.trap) >>= f) := by
  cases r with
  | ok v => exact hf v
  | error e => exact rfl

theorem length_ws (xp : Text) : (ws xp).length ≤ xp.length := (List.dropWhile_sublist _).length_le

theorem length_digits (xp : Text) : (digits xp).2.length ≤ xp.length :=
  (List.dropWhile_sublist _).length_le

theorem ws_cons {xp xp' : Text} {c : UInt8} (h : ws xp = c :: xp') :
    xp'.length + 1 ≤ xp.length := by
  have hle := length_ws xp
  rwa [h] at hle

/-- None of the functions runs out of fuel, and each leaves the pointer at or behind the place
where it started. -/
theorem fine_all (k : Nat) :
    (∀ xp, 5 * xp.length + 1 ≤ k → Fine xp.length (atomF k xp)) ∧
    (∀ v xp, 5 * xp.length + 2 ≤ k → Fine xp.length (productLoopF k v xp)) ∧
    (∀ xp, 5 * xp.length + 3 ≤ k → Fine xp.length (productF k xp)) ∧
    (∀ v xp, 5 * xp.length + 4 ≤ k → Fine xp.length (valueLoopF k v xp)) ∧
    (∀ xp, 5 * xp.length + 5 ≤ k → Fine xp.length (valueF k xp)) := by
  induction k with
  | zero => refine ⟨?_, ?_, ?_, ?_, ?_⟩ <;> intros <;> omega
  | succ k ih =>
    obtain ⟨hatom, hploop, hproduct, hvloop, hvalue⟩ := ih
    refine ⟨fun xp hk ↦ ?_, fun v xp hk ↦ ?_, fun xp hk ↦ ?_, fun v xp hk ↦ ?_, fun xp hk ↦ ?_⟩
    · rw [atomF]
      cases hw : ws xp with
      | nil => exact Nat.zero_le _
      | cons c p =>
        have hlen := ws_cons hw
        dsimp only
        split_ifs
        · refine (hvalue p (by omega)).bind fun v q hq ↦ ?_
          dsimp only
          cases hw' : ws q with
          | nil => exact Nat.zero_le _
          | cons c' q' =>
            have hlen' := ws_cons hw'
            dsimp only
            split_ifs
            · change q'.length ≤ _
              omega
            · change (c' :: q').length ≤ _
              rw [List.length_cons]
              omega
        · exact (length_digits p).trans (by omega)
        · refine (length_digits (c :: p)).trans ?_
          rw [List.length_cons]
          exact hlen
    · rw [productLoopF]
      cases hw : ws xp with
      | nil => exact Nat.zero_le _
      | cons c p =>
        have hlen := ws_cons hw
        have hnext : ∀ v q, q.length ≤ p.length → Fine xp.length (productLoopF k v q) :=
          fun v q hq ↦ (hploop v q (by omega)).mono (by omega)
        dsimp only
        split_ifs
        · exact (hatom p (by omega)).bind fun d q hq ↦ hnext _ q hq
        · exact (hatom p (by omega)).bind fun d q hq ↦ .lift fun v ↦ hnext v q hq
        · exact (hatom p (by omega)).bind fun d q hq ↦ .lift fun v ↦ hnext v q hq
        · exact hlen
    · rw [productF]
      exact (hatom xp (by omega)).bind fun v q hq ↦ (hploop v q (by omega)).mono hq
    · rw [valueLoopF]
      cases hw : ws xp with
      | nil => exact Nat.zero_le _
      | cons c p =>
        have hlen := ws_cons hw
        have hnext : ∀ v q, q.length ≤ p.length → Fine xp.length (valueLoopF k v q) :=
          fun v q hq ↦ (hvloop v q (by omega)).mono (by omega)
        dsimp only
        split_ifs
        · exact (hproduct p (by omega)).bind fun d q hq ↦ hnext _ q hq
        · exact (hproduct p (by omega)).bind fun d q hq ↦ hnext _ q hq
        · exact hlen
    · rw [valueF]
      exact (hproduct xp (by omega)).bind fun v q hq ↦ (hvloop v q (by omega)).mono hq

theorem value_fine (xp : Text) : Fine xp.length (value xp) :=
  (fine_all _).2.2.2.2 xp le_rfl

/-! ## Statements -/

def nl : UInt8 := '\n'.toUInt8

def quote : UInt8 := '"'.toUInt8

def backslash : UInt8 := '\\'.toUInt8

def putsName : Text := keyword "puts"

def printfName : Text := keyword "printf"

def returnName : Text := keyword "return"

/-- The loop that copies a literal to `strings`, of which `sl` characters are in use: what is
copied, and the pointer.  In the branches for `n` and `t` the pointer stays on the letter. -/
def literal : Text → (sl : Nat) → List UInt8 × Text
  | [], _ => ([], [])
  | [c], sl => if c = quote ∨ ¬sl < 8190 then ([], [c]) else ([c], [])
  | c :: d :: p, sl =>
    if c = quote ∨ ¬sl < 8190 then ([], c :: d :: p)
    else if c = backslash then
      if d = 'n'.toUInt8 then (nl :: (literal (d :: p) (sl + 1)).1, (literal (d :: p) (sl + 1)).2)
      else if d = 't'.toUInt8 then
        ('\t'.toUInt8 :: (literal (d :: p) (sl + 1)).1, (literal (d :: p) (sl + 1)).2)
      else (d :: (literal p (sl + 1)).1, (literal p (sl + 1)).2)
    else (c :: (literal (d :: p) (sl + 1)).1, (literal (d :: p) (sl + 1)).2)

/-- What the compiler takes for a statement: a call with the characters of its literal, and a
newline behind them or not, or a `return` with its value. -/
inductive Stmt
  | call (newline : Bool) (lit : List UInt8)
  | ret (v : Int32)
deriving DecidableEq

/-- What is in the buffer for a call. -/
def output (newline : Bool) (lit : List UInt8) : List UInt8 := lit ++ if newline then [nl] else []

/-- One iteration of the loop of `main` on a text that is not empty: the statement that it
recognises, and the pointer behind it. -/
def recognise (p : Text) (sl : Nat) : Except Fault (Option Stmt × Text) :=
  if (putsName.isPrefixOf p ∨ printfName.isPrefixOf p) ∧ quote ∈ p then
    let r := literal (p.dropWhile (· ≠ quote)).tail sl
    .ok (some (.call (putsName.isPrefixOf p) r.1), r.2)
  else if returnName.isPrefixOf p ∧ ¬isalnum (p.getD 6 0) then
    (value (p.drop 6)).map fun r ↦ (some (.ret r.1), r.2)
  else .ok (none, p.tail)

/-! ## Code -/

/-- `out` and `strings` as far as they are in use, and the entries of `patches` and `plens`. -/
structure State where
  out : List UInt8
  strings : List UInt8
  patches : List (Nat × Nat)

/-- `emit8` and `emit32`. -/
def emit (s : State) (l : List UInt8) : Except Fault State :=
  if s.out.length + l.length ≤ 32768 then .ok { s with out := s.out ++ l } else .error .overflow

/-- `patch32`. -/
def patch32 (out : List UInt8) (p : Nat) (v : UInt32) : List UInt8 := setWord out p v

/-- `header(0, 0x08048100)`. -/
def header : List UInt8 :=
  [0x7f, 'E'.toUInt8, 'L'.toUInt8, 'F'.toUInt8, 1, 1, 1] ++ List.replicate 9 0 ++
    [2, 0, 3, 0] ++ le32 1 ++ le32 0x08048100 ++ le32 52 ++ le32 0 ++ le32 0 ++
    [52, 0, 32, 0, 1, 0, 0, 0, 0, 0, 0, 0] ++
    le32 1 ++ le32 0 ++ le32 0x08048000 ++ le32 0x08048000 ++ le32 0 ++ le32 0 ++ le32 7 ++
    le32 0x1000 ++ List.replicate 172 0

/-- The code of a call: the address in `ecx`, the length in `edx`. -/
def callCode (addr len : UInt32) : List UInt8 :=
  [0xB8] ++ le32 4 ++ [0xBB] ++ le32 1 ++ [0xB9] ++ le32 addr ++ [0xBA] ++ le32 len ++ [0xCD, 0x90]

/-- The code of `return v`. -/
def returnCode (v : Int32) : List UInt8 :=
  [0xB8] ++ le32 1 ++ [0xBB] ++ le32 v.toUInt32 ++ [0xCD, 0x90]

/-- The code at the end. -/
def exitCode : List UInt8 := [0xB8] ++ le32 1 ++ [0x31, 0xDB, 0xCD, 0x90]

/-- What `main` does with a statement. -/
def emitStmt (s : State) : Stmt → Except Fault State
  | .call newline lit =>
    let st := s.strings.length
    let strings := s.strings ++ output newline lit
    let len := strings.length - st
    if strings.length ≤ 8192 ∧ s.patches.length < 64 then
      emit
        { s with
          strings := strings
          patches := s.patches ++ [(s.out.length + 11, len)] }
        (callCode (.ofNat st) (.ofNat len))
    else .error .overflow
  | .ret v => emit s (returnCode v)

/-- The loop of `main`, for `fuel` iterations at most. -/
def loop : (fuel : Nat) → Text → State → Except Fault State
  | _, [], s => .ok s
  | 0, _ :: _, _ => .error .outOfFuel
  | fuel + 1, c :: p, s => do
    let (stmt, p) ← recognise (c :: p) s.strings.length
    match stmt with
    | none => loop fuel p s
    | some stmt => do
      let s ← emitStmt s stmt
      loop fuel p s

/-- The first loop over the patches. -/
def patchBase (base : UInt32) (patches : List (Nat × Nat)) (out : List UInt8) : List UInt8 :=
  patches.foldl (fun out q ↦ patch32 out q.1 base) out

/-- The second loop over the patches, from one with `idx` characters in front of it on. -/
def patchLoop (base : UInt32) : Nat → List (Nat × Nat) → List UInt8 → List UInt8
  | _, [], out => out
  | idx, (off, len) :: patches, out =>
    patchLoop base (idx + len) patches (patch32 out off (base + .ofNat idx))

/-- What is written to the file, and where the code in it ends. -/
structure Image where
  bytes : List UInt8
  codeEnd : Nat
deriving DecidableEq

/-- The test of the byte in front of the last one, and the exit that may follow. -/
def addExit (s : State) : Except Fault State :=
  let olen := s.out.length
  if olen = 0x100 ∨ s.out.getD (olen - 2) 0 ≠ 0xCD then emit s exitCode else .ok s

/-- The patches, the characters behind the code, and the sizes in the header. -/
def resolve (s : State) : Except Fault Image :=
  let olen := s.out.length
  let base : UInt32 := 0x08048000 + .ofNat olen
  let out := patchLoop base 0 s.patches (patchBase base s.patches s.out) ++ s.strings
  if olen + s.strings.length ≤ 32768 then
    .ok ⟨patch32 (patch32 out 68 (.ofNat out.length)) 72 (.ofNat out.length), olen⟩
  else .error .overflow

/-- The part of `main` behind the loop. -/
def finish (s : State) : Except Fault Image := addExit s >>= resolve

/-- The text in `src`: one `read` of at most 32767 bytes, up to the first zero. -/
def source (file : List UInt8) : Text := (file.take 32767).takeWhile (· != 0)

/-- `fcc`, from the file with the program to the image. -/
def compile (file : List UInt8) : Except Fault Image := do
  let s ← loop (source file).length (source file) ⟨header, [], []⟩
  finish s

/-! ## The statements of a text -/

/-- The statements that are recognised in a text one after the other, with `sl` characters in the
buffer at the start, and whether a `return` traps behind them. -/
def statementsF : (fuel : Nat) → Text → (sl : Nat) → List Stmt × Bool
  | 0, _, _ => ([], false)
  | _, [], _ => ([], false)
  | fuel + 1, c :: p, sl =>
    match recognise (c :: p) sl with
    | .error _ => ([], true)
    | .ok (none, p) => statementsF fuel p sl
    | .ok (some (.call newline lit), p) =>
      let r := statementsF fuel p (sl + (output newline lit).length)
      (.call newline lit :: r.1, r.2)
    | .ok (some (.ret v), p) =>
      let r := statementsF fuel p sl
      (.ret v :: r.1, r.2)

/-- The statements that are recognised in a file, and whether a `return` traps behind them. -/
def statements (file : List UInt8) : List Stmt × Bool :=
  statementsF (source file).length (source file) 0

theorem literal_length (p : Text) (sl : Nat) : (literal p sl).2.length ≤ p.length := by
  fun_induction literal p sl <;> simp_all <;> omega

theorem recognise_length {c : UInt8} {p : Text} {sl : Nat} {r : Option Stmt × Text}
    (h : recognise (c :: p) sl = .ok r) : r.2.length ≤ p.length := by
  unfold recognise at h
  split_ifs at h
  · obtain rfl := Except.ok.inj h
    have hdrop : ((c :: p).dropWhile (· ≠ quote)).length ≤ (c :: p).length :=
      (List.dropWhile_sublist _).length_le
    refine (literal_length _ sl).trans ?_
    rw [List.length_tail]
    rw [List.length_cons] at hdrop
    omega
  · have hfine := value_fine ((c :: p).drop 6)
    cases hv : value ((c :: p).drop 6) with
    | error e =>
      rw [hv] at h
      cases h
    | ok v =>
      rw [hv] at h hfine
      obtain rfl := Except.ok.inj h
      refine hfine.trans ?_
      rw [List.length_drop, List.length_cons]
      omega
  · obtain rfl := Except.ok.inj h
    exact le_rfl

theorem recognise_error {p : Text} {sl : Nat} {f : Fault} (h : recognise p sl = .error f) :
    f = .trap := by
  unfold recognise at h
  split_ifs at h
  have hfine := value_fine (p.drop 6)
  cases hv : value (p.drop 6) with
  | error e =>
    rw [hv] at h hfine
    obtain rfl := Except.error.inj h
    exact hfine
  | ok v =>
    rw [hv] at h
    cases h

theorem emit_eq_ok {s s' : State} {l : List UInt8} : emit s l = .ok s' ↔
    s.out.length + l.length ≤ 32768 ∧ s' = { s with out := s.out ++ l } := by
  unfold emit
  split_ifs with hfit
  · exact ⟨fun h ↦ ⟨hfit, (Except.ok.inj h).symm⟩, fun h ↦ congrArg Except.ok h.2.symm⟩
  · exact ⟨fun h ↦ (by cases h), fun h ↦ absurd h.1 hfit⟩

/-- What the statements leave, and how they end. -/
def outcome (s : State) (r : List Stmt × Bool) : Except Fault State := do
  let s ← r.1.foldlM emitStmt s
  if r.2 then .error .trap else .ok s

theorem outcome_cons (s : State) (stmt : Stmt) (l : List Stmt) (b : Bool) :
    outcome s (stmt :: l, b) = emitStmt s stmt >>= fun s ↦ outcome s (l, b) := by
  unfold outcome
  rw [List.foldlM_cons, bind_assoc]

theorem emitStmt_call_strings {s s' : State} {newline : Bool} {lit : List UInt8}
    (h : emitStmt s (.call newline lit) = .ok s') :
    s'.strings.length = s.strings.length + (output newline lit).length := by
  rw [emitStmt] at h
  split_ifs at h
  obtain ⟨-, rfl⟩ := emit_eq_ok.mp h
  exact List.length_append

/-- The loop emits the statements of the text one after the other. -/
theorem loop_eq {fuel : Nat} {p : Text} (hfuel : p.length ≤ fuel) (s : State) :
    loop fuel p s = outcome s (statementsF fuel p s.strings.length) := by
  induction fuel generalizing p s with
  | zero =>
    obtain rfl := List.eq_nil_of_length_eq_zero (Nat.le_zero.mp hfuel)
    rfl
  | succ fuel ih =>
    cases p with
    | nil => rfl
    | cons c p =>
      rw [loop, statementsF]
      cases hrec : recognise (c :: p) s.strings.length with
      | error f =>
        obtain rfl := recognise_error hrec
        rfl
      | ok r =>
        have hlen : r.2.length ≤ fuel :=
          (recognise_length hrec).trans (Nat.le_of_succ_le_succ hfuel)
        obtain ⟨stmt, q⟩ := r
        cases stmt with
        | none => exact ih hlen s
        | some stmt =>
          cases stmt with
          | call newline lit =>
            change (emitStmt s (.call newline lit) >>= fun s ↦ loop fuel q s) =
              outcome s (.call newline lit :: _, _)
            rw [outcome_cons]
            cases hemit : emitStmt s (.call newline lit) with
            | error f => rfl
            | ok s' =>
              change loop fuel q s' = outcome s' _
              rw [ih hlen s', emitStmt_call_strings hemit]
          | ret v =>
            change (emitStmt s (.ret v) >>= fun s ↦ loop fuel q s) =
              outcome s (.ret v :: _, _)
            rw [outcome_cons]
            cases hemit : emitStmt s (.ret v) with
            | error f => rfl
            | ok s' =>
              change loop fuel q s' = outcome s' _
              obtain ⟨-, rfl⟩ := emit_eq_ok.mp hemit
              exact ih hlen _

end FentoOS.Fcc
