import FentoOS.User.Emission

/-!
# Whether a compiled program exits

A compiled program runs from the entry on, one instruction after the other.  `int 0x90` with 1 in
`eax` is the call `exit`; with 4 it is `write`, which returns with a value in `eax`.  Control must
not reach what lies behind the code, where the characters of the literals are.

The compiler adds an exit only to a program without statements.  So a program whose statements are
all calls runs into its literals, and one with a `return` exits there, even when the `return` is
in front of the calls.
-/

namespace FentoOS.Fcc

open FentoOS.Lib FentoOS.Lib.X86 FentoOS.Libc

/-! ## Runs of machine code -/

/-- From the offset `pc` in `code`, with the registers `regs`, the program calls `exit` before
control leaves the first `stop` bytes, whatever `write` returns. -/
inductive Exits (code : List UInt8) (stop : Nat) : Nat → Regs → Prop
  | exit {pc : Nat} {regs : Regs} {rest : List UInt8} (hpc : pc < stop)
      (hdec : decode (code.drop pc) = some (.int 0x90, rest)) (hcall : regs .eax = 1) :
      Exits code stop pc regs
  | write {pc : Nat} {regs : Regs} {rest : List UInt8} (hpc : pc < stop)
      (hdec : decode (code.drop pc) = some (.int 0x90, rest)) (hcall : regs .eax = 4)
      (next : ∀ v, Exits code stop (code.length - rest.length) (Function.update regs .eax v)) :
      Exits code stop pc regs
  | step {pc : Nat} {regs regs' : Regs} {i : Instr} {rest : List UInt8} (hpc : pc < stop)
      (hdec : decode (code.drop pc) = some (i, rest)) (hexec : exec regs i = some regs')
      (next : Exits code stop (code.length - rest.length) regs') : Exits code stop pc regs

section

variable {code pre post : List UInt8} {stop : Nat} {regs regs' : Regs} {i : Instr}

theorem Exits.lt {pc : Nat} (h : Exits code stop pc regs) : pc < stop := by
  cases h with
  | exit hpc => exact hpc
  | write hpc => exact hpc
  | step hpc => exact hpc

theorem decode_at (hcode : code = pre ++ (encode i ++ post)) :
    decode (code.drop pre.length) = some (i, post) := by
  rw [hcode, List.drop_left, decode_encode]

theorem next_at (hcode : code = pre ++ (encode i ++ post)) :
    code.length - post.length = pre.length + (encode i).length := by
  rw [hcode, List.length_append, List.length_append]
  omega

/-- The run goes on behind an instruction that only computes. -/
theorem exits_step_iff (hcode : code = pre ++ (encode i ++ post)) (hpc : pre.length < stop)
    (hexec : exec regs i = some regs') :
    Exits code stop pre.length regs ↔ Exits code stop (pre.length + (encode i).length) regs' := by
  constructor
  · intro h
    cases h with
    | exit _ hdec =>
      rw [decode_at hcode] at hdec
      obtain ⟨rfl, -⟩ := Prod.mk.inj (Option.some.inj hdec)
      cases hexec
    | write _ hdec =>
      rw [decode_at hcode] at hdec
      obtain ⟨rfl, -⟩ := Prod.mk.inj (Option.some.inj hdec)
      cases hexec
    | step _ hdec hexec' next =>
      rw [decode_at hcode] at hdec
      obtain ⟨rfl, rfl⟩ := Prod.mk.inj (Option.some.inj hdec)
      rw [hexec] at hexec'
      obtain rfl := Option.some.inj hexec'
      rwa [next_at hcode] at next
  · intro h
    exact .step hpc (decode_at hcode) hexec (by rwa [next_at hcode])

theorem length_encode_pos (i : Instr) : 0 < (encode i).length := by
  cases i <;> exact Nat.succ_pos _

/-- The run goes on behind a sequence of such instructions. -/
theorem exits_steps_iff {is : List Instr} (hcode : code = pre ++ (is.flatMap encode ++ post))
    (hpc : pre.length + (is.flatMap encode).length ≤ stop)
    (hexec : is.foldlM exec regs = some regs') : Exits code stop pre.length regs ↔
      Exits code stop (pre.length + (is.flatMap encode).length) regs' := by
  induction is generalizing pre regs with
  | nil =>
    obtain rfl := Option.some.inj hexec
    exact Iff.rfl
  | cons i is ih =>
    rw [List.foldlM_cons] at hexec
    obtain ⟨regs₁, hi, his⟩ := Option.bind_eq_some_iff.mp hexec
    have hpos := length_encode_pos i
    rw [List.flatMap_cons, List.length_append] at hpc ⊢
    rw [List.flatMap_cons, List.append_assoc] at hcode
    rw [exits_step_iff hcode (by omega) hi, ← List.length_append, ← Nat.add_assoc,
      ← List.length_append]
    rw [← Nat.add_assoc, ← List.length_append] at hpc
    exact ih (by rw [hcode, List.append_assoc]) hpc his

/-- The run goes on behind a call of `write`. -/
theorem exits_write_iff (hcode : code = pre ++ (encode (.int 0x90) ++ post))
    (hpc : pre.length < stop) (hcall : regs .eax = 4) : Exits code stop pre.length regs ↔
      ∀ v, Exits code stop (pre.length + 2) (Function.update regs .eax v) := by
  have hnext : code.length - post.length = pre.length + 2 := next_at hcode
  constructor
  · intro h v
    cases h with
    | exit _ _ hcall' =>
      rw [hcall] at hcall'
      exact absurd hcall' (by decide)
    | write _ hdec _ next =>
      rw [decode_at hcode] at hdec
      obtain ⟨-, rfl⟩ := Prod.mk.inj (Option.some.inj hdec)
      rw [hnext] at next
      exact next v
    | step _ hdec hexec =>
      rw [decode_at hcode] at hdec
      obtain ⟨rfl, -⟩ := Prod.mk.inj (Option.some.inj hdec)
      cases hexec
  · intro h
    exact .write hpc (decode_at hcode) hcall (by rwa [hnext])

/-! ## The code of the statements -/

/-- The registers when a call is made. -/
def callRegs (regs : Regs) (addr len : UInt32) : Regs :=
  Function.update (Function.update (Function.update (Function.update regs .eax 4) .ebx 1)
    .ecx addr) .edx len

/-- The run goes on behind the code of a call. -/
theorem exits_call_iff {addr len : UInt32} (hcode : code = pre ++ (callCode addr len ++ post))
    (hstop : pre.length + 22 ≤ stop) : Exits code stop pre.length regs ↔
      ∀ v, Exits code stop (pre.length + 22)
        (Function.update (callRegs regs addr len) .eax v) := by
  have hmoves : code = pre ++ ([Instr.movImm .eax 4, .movImm .ebx 1, .movImm .ecx addr,
      .movImm .edx len].flatMap encode ++ (encode (.int 0x90) ++ post)) := hcode
  have hint := hmoves
  rw [← List.append_assoc] at hint
  rw [exits_steps_iff hmoves (by change _ + 20 ≤ _; omega) rfl, ← List.length_append]
  rw [exits_write_iff hint (by rw [List.length_append]; change _ + 20 < _; omega) rfl,
    List.length_append]
  exact Iff.rfl

/-- A program exits at a `return`. -/
theorem exits_return {v : Int32} (hcode : code = pre ++ (returnCode v ++ post))
    (hstop : pre.length + 12 ≤ stop) : Exits code stop pre.length regs := by
  have hmoves : code = pre ++ ([Instr.movImm .eax 1, .movImm .ebx v.toUInt32].flatMap encode ++
      (encode (.int 0x90) ++ post)) := hcode
  have hint := hmoves
  rw [← List.append_assoc] at hint
  rw [exits_steps_iff hmoves (by change _ + 10 ≤ _; omega) rfl, ← List.length_append]
  exact .exit (by rw [List.length_append]; change _ + 10 < _; omega) (decode_at hint) rfl

/-- A program exits in the code at the end. -/
theorem exits_exitCode (hcode : code = pre ++ (exitCode ++ post))
    (hstop : pre.length + 9 ≤ stop) : Exits code stop pre.length regs := by
  have hmoves : code = pre ++ ([Instr.movImm .eax 1, .xorReg .ebx .ebx].flatMap encode ++
      (encode (.int 0x90) ++ post)) := hcode
  have hint := hmoves
  rw [← List.append_assoc] at hint
  rw [exits_steps_iff hmoves (by change _ + 7 ≤ _; omega) rfl, ← List.length_append]
  exact .exit (by rw [List.length_append]; change _ + 7 < _; omega) (decode_at hint) rfl

variable {addr : Nat → UInt32} {idx : Nat} {l : List Stmt}

/-- A program with a `return` exits: it runs through the calls in front of the first one. -/
theorem exits_of_return (hcode : code = pre ++ (codeWith addr idx l ++ post))
    (hstop : pre.length + codeSize l ≤ stop) (hret : ∃ v, Stmt.ret v ∈ l) :
    Exits code stop pre.length regs := by
  induction l generalizing pre idx regs with
  | nil =>
    obtain ⟨v, hv⟩ := hret
    cases hv
  | cons stmt l ih =>
    rw [codeSize, List.map_cons, List.sum_cons] at hstop
    change _ + (_ + codeSize l) ≤ _ at hstop
    cases stmt with
    | call newline lit =>
      obtain ⟨v, hv⟩ := hret
      rw [codeWith, List.append_assoc] at hcode
      change _ + (22 + _) ≤ _ at hstop
      rw [exits_call_iff hcode (by omega), ← length_callCode (addr idx) _,
        ← List.length_append]
      rw [← List.append_assoc] at hcode
      intro r
      refine ih hcode ?_ ⟨v, (List.mem_cons.mp hv).resolve_left (by simp)⟩
      rw [List.length_append, length_callCode]
      omega
    | ret v =>
      rw [codeWith, List.append_assoc] at hcode
      change _ + (12 + _) ≤ _ at hstop
      exact exits_return hcode (by omega)

/-- A program that has only calls runs through them. -/
theorem exits_behind_calls (hcode : code = pre ++ (codeWith addr idx l ++ post))
    (hstop : pre.length + codeSize l ≤ stop) (hret : ∀ v, Stmt.ret v ∉ l)
    (h : Exits code stop pre.length regs) :
    ∃ regs, Exits code stop (pre.length + codeSize l) regs := by
  induction l generalizing pre idx regs with
  | nil => exact ⟨regs, h⟩
  | cons stmt l ih =>
    rw [codeSize, List.map_cons, List.sum_cons] at hstop ⊢
    change _ + (_ + codeSize l) ≤ _ at hstop
    cases stmt with
    | call newline lit =>
      rw [codeWith, List.append_assoc] at hcode
      change _ + (22 + _) ≤ _ at hstop
      change ∃ regs, Exits code stop (_ + (22 + codeSize l)) regs
      rw [exits_call_iff hcode (by omega), ← length_callCode (addr idx) _,
        ← List.length_append] at h
      rw [← List.append_assoc] at hcode
      obtain ⟨regs', h'⟩ := ih hcode (by rw [List.length_append, length_callCode]; omega)
        (fun v hv ↦ hret v (List.mem_cons_of_mem _ hv)) (h 0)
      rw [List.length_append, length_callCode, Nat.add_assoc] at h'
      exact ⟨regs', h'⟩
    | ret v => exact absurd List.mem_cons_self (hret v)

end

/-! ## The image -/

/-- What is to hold of a run of the compiler: the program that it writes exits, or it stops before
it writes one.  A run that leaves its arrays is no run of the program. -/
def Exiting : Except Fault Image → Prop
  | .ok img => ∀ regs, Exits img.bytes img.codeEnd 0x100 regs
  | .error .trap => True
  | .error _ => False

/-- Statements of which none is a call are `return`s. -/
theorem exists_return {l : List Stmt} (hl : l ≠ []) (hcalls : calls l = 0) :
    ∃ v, Stmt.ret v ∈ l := by
  obtain ⟨stmt, l', rfl⟩ := List.exists_cons_of_ne_nil hl
  cases stmt with
  | call newline lit => exact absurd rfl (List.countP_eq_zero.mp hcalls _ List.mem_cons_self)
  | ret v => exact ⟨v, List.mem_cons_self⟩

theorem image_exits_iff (l : List Stmt) :
    Exiting (.ok (image l)) ↔ calls l = 0 ∨ ∃ v, Stmt.ret v ∈ l := by
  have hcode : (image l).bytes = headerWith (.ofNat (stringsAt l + stringSize l)) ++
      (codeWith (address l) 0 l ++ (ending l ++ l.flatMap Stmt.output)) := rfl
  have hlen := length_headerWith (.ofNat (stringsAt l + stringSize l))
  have hstop : (image l).codeEnd = 256 + codeSize l + (ending l).length := rfl
  rw [Exiting, ← hlen]
  by_cases hl : l = []
  · subst hl
    exact iff_of_true (fun regs ↦ exits_exitCode hcode (by rw [hlen, hstop]; decide))
      (Or.inl rfl)
  · rw [ending, if_neg hl] at hstop
    have hfit : (headerWith (.ofNat (stringsAt l + stringSize l))).length + codeSize l =
        (image l).codeEnd := by rw [hlen, hstop]; rfl
    constructor
    · intro h
      by_contra hnone
      rw [not_or, not_exists] at hnone
      obtain ⟨regs, hend⟩ := exits_behind_calls hcode hfit.le hnone.2 (h fun _ ↦ 0)
      exact absurd hend.lt (by rw [hfit]; exact lt_irrefl _)
    · intro h regs
      exact exits_of_return hcode hfit.le (h.elim (exists_return hl) id)

/-- The compiler stops before it writes, or the program that it writes exits, if and only if what
it recognises fits into its arrays and, where it comes to an end, has no call or has a `return`. -/
theorem fcc_exits_iff (file : List UInt8) : Exiting (compile file) ↔
    Room (statements file).1 ∧ ((statements file).2 = true ∨
      256 + codeSize (statements file).1 + stringSize (statements file).1 ≤ 32768 ∧
        (calls (statements file).1 = 0 ∨ ∃ v, Stmt.ret v ∈ (statements file).1)) := by
  rw [compile_eq]
  by_cases hroom : Room (statements file).1
  · rw [if_neg (not_not_intro hroom)]
    cases (statements file).2 with
    | true => exact iff_of_true trivial ⟨hroom, Or.inl rfl⟩
    | false =>
      rw [if_neg (by decide)]
      by_cases hfit : 256 + codeSize (statements file).1 + stringSize (statements file).1 ≤ 32768
      · rw [if_pos hfit, image_exits_iff]
        exact ⟨fun h ↦ ⟨hroom, Or.inr ⟨hfit, h⟩⟩, fun h ↦ (h.2.resolve_left (by decide)).2⟩
      · rw [if_neg hfit]
        exact iff_of_false id fun h ↦ hfit (h.2.resolve_left (by decide)).1
  · rw [if_pos hroom]
    exact iff_of_false id fun h ↦ hroom h.1

/-- `puts("a")` is compiled to a call of `write` and nothing behind it. -/
theorem hello_runs_on : ∃ img, compile (keyword "puts(\"a\")") = .ok img ∧
    ¬∀ regs, Exits img.bytes img.codeEnd 0x100 regs := by
  have hstmts : statements (keyword "puts(\"a\")") =
      ([.call true [0x61]], false) := by decide
  refine ⟨image [.call true [0x61]], ?_, fun h ↦ ?_⟩
  · rw [compile_eq, hstmts, if_neg (by decide), if_neg (by decide), if_pos (by decide)]
  · rcases (image_exits_iff [.call true [0x61]]).mp h with hcalls | ⟨v, hv⟩
    · exact absurd hcalls (by decide)
    · exact absurd hv (by simp)

end FentoOS.Fcc
