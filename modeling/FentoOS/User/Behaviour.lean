import FentoOS.User.Exits
import FentoOS.User.Literals

/-!
# What a compiled program does

The meaning of the statements that the compiler recognises is what a program with these statements
writes up to its first `return`, and the status with which it exits there.  `Yields` is what the
machine code does when it is run.  The two are the same for every text that is compiled to a
program which exits at all.
-/

namespace FentoOS.Fcc

open FentoOS.Lib FentoOS.Lib.X86 FentoOS.Libc

/-- What statements write, one output for each call, and the status at the end. -/
def meaning : List Stmt → List (List UInt8) × UInt32
  | [] => ([], 0)
  | .call newline lit :: l => (output newline lit :: (meaning l).1, (meaning l).2)
  | .ret v :: _ => ([], v.toUInt32)

/-- From the offset `pc`, with the registers `regs`, the program writes `outs` to the standard
output and exits with the status `status`, whatever `write` returns. -/
inductive Yields (code : List UInt8) : Nat → Regs → List (List UInt8) → UInt32 → Prop
  | exit {pc : Nat} {regs : Regs} {rest : List UInt8}
      (hdec : decode (code.drop pc) = some (.int 0x90, rest)) (hcall : regs .eax = 1) :
      Yields code pc regs [] (regs .ebx)
  | write {pc : Nat} {regs : Regs} {rest out : List UInt8} {outs : List (List UInt8)}
      {status : UInt32} (hdec : decode (code.drop pc) = some (.int 0x90, rest))
      (hcall : regs .eax = 4) (hfd : regs .ebx = 1) (hout : Names code (regs .ecx, regs .edx) out)
      (next : ∀ v, Yields code (code.length - rest.length) (Function.update regs .eax v) outs
        status) : Yields code pc regs (out :: outs) status
  | step {pc : Nat} {regs regs' : Regs} {i : Instr} {rest : List UInt8}
      {outs : List (List UInt8)} {status : UInt32}
      (hdec : decode (code.drop pc) = some (i, rest)) (hexec : exec regs i = some regs')
      (next : Yields code (code.length - rest.length) regs' outs status) :
      Yields code pc regs outs status

section

variable {code pre post : List UInt8} {regs regs' : Regs} {outs : List (List UInt8)}
  {status : UInt32}

/-- A run begins with instructions that only compute. -/
theorem Yields.steps {is : List Instr} (hcode : code = pre ++ (is.flatMap encode ++ post))
    (hexec : is.foldlM exec regs = some regs')
    (h : Yields code (pre ++ is.flatMap encode).length regs' outs status) :
    Yields code pre.length regs outs status := by
  induction is generalizing pre regs with
  | nil =>
    obtain rfl := Option.some.inj hexec
    rwa [List.flatMap_nil, List.append_nil] at h
  | cons i is ih =>
    rw [List.foldlM_cons] at hexec
    obtain ⟨regs₁, hi, his⟩ := Option.bind_eq_some_iff.mp hexec
    rw [List.flatMap_cons, List.append_assoc] at hcode
    rw [List.flatMap_cons, ← List.append_assoc] at h
    refine .step (decode_at hcode) hi ?_
    rw [next_at hcode, ← List.length_append]
    exact ih (by rw [hcode, List.append_assoc]) his h

/-- A run ends with instructions that prepare a call of `exit`. -/
theorem yields_exit {l : List Instr}
    (hcode : code = pre ++ (l.flatMap encode ++ (encode (.int 0x90) ++ post)))
    (hexec : l.foldlM exec regs = some regs') (hcall : regs' .eax = 1) :
    Yields code pre.length regs [] (regs' .ebx) := by
  refine .steps hcode hexec ?_
  rw [← List.append_assoc] at hcode
  exact .exit (decode_at hcode) hcall

/-- The code of a call writes its output, and the run goes on behind it. -/
theorem yields_call {addr len : UInt32} {out : List UInt8}
    (hcode : code = pre ++ (callCode addr len ++ post)) (hout : Names code (addr, len) out)
    (next : ∀ regs, Yields code (pre ++ callCode addr len).length regs outs status) :
    Yields code pre.length regs (out :: outs) status := by
  have hmoves : code = pre ++ ([Instr.movImm .eax 4, .movImm .ebx 1, .movImm .ecx addr,
      .movImm .edx len].flatMap encode ++ (encode (.int 0x90) ++ post)) := hcode
  refine .steps hmoves (show _ = some (callRegs regs addr len) from rfl) ?_
  rw [← List.append_assoc] at hmoves
  refine .write (decode_at hmoves) rfl rfl hout fun v ↦ ?_
  rw [next_at hmoves, ← List.length_append, List.append_assoc]
  exact next _

/-- Code with the right addresses does what the statements mean, up to the first `return`. -/
theorem yields_codeWith {addr : Nat → UInt32} {idx : Nat} {l : List Stmt}
    (hcode : code = pre ++ (codeWith addr idx l ++ post))
    (houts : List.Forall₂ (Names code) (writesOf addr idx l) (l.map Stmt.output))
    (hret : ∃ v, Stmt.ret v ∈ l) :
    Yields code pre.length regs (meaning l).1 (meaning l).2 := by
  obtain ⟨v, hv⟩ := hret
  induction l generalizing pre idx regs with
  | nil => cases hv
  | cons stmt l ih =>
    rw [List.map_cons, writesOf] at houts
    obtain ⟨hout, houts⟩ := List.forall₂_cons.mp houts
    cases stmt with
    | call newline lit =>
      rw [codeWith, List.append_assoc] at hcode
      refine yields_call hcode hout fun regs ↦ ?_
      rw [← List.append_assoc] at hcode
      exact ih hcode houts ((List.mem_cons.mp hv).resolve_left (by simp))
    | ret w =>
      rw [codeWith, List.append_assoc] at hcode
      exact yields_exit (l := [.movImm .eax 1, .movImm .ebx w.toUInt32]) hcode rfl rfl

end

/-- A text that is compiled to a program which exits is compiled to a program that does what the
statements of the text mean. -/
theorem compile_preserves_meaning {file : List UInt8} {img : Image} (h : compile file = .ok img)
    (hexits : calls (statements file).1 = 0 ∨ ∃ v, Stmt.ret v ∈ (statements file).1)
    (regs : Regs) : Yields img.bytes 0x100 regs (meaning (statements file).1).1
      (meaning (statements file).1).2 := by
  rw [compile_eq] at h
  generalize (statements file).1 = l at h hexits ⊢
  split_ifs at h with hroom htrap hfits
  obtain rfl := Except.ok.inj h
  obtain ⟨hd, hlen, hcode⟩ : ∃ hd : List UInt8, hd.length = 0x100 ∧ (image l).bytes =
      hd ++ (codeWith (address l) 0 l ++ (ending l ++ l.flatMap Stmt.output)) :=
    ⟨_, length_headerWith _, rfl⟩
  rw [← hlen]
  by_cases hl : l = []
  · subst hl
    have hexit : Yields _ _ regs [] _ :=
      yields_exit (l := [.movImm .eax 1, .xorReg .ebx .ebx]) hcode rfl rfl
    rwa [Function.update_self, UInt32.xor_self] at hexit
  · have hx : (hd ++ (codeWith (address l) 0 l ++ ending l)).length = stringsAt l := by
      rw [List.length_append, hlen, List.length_append, length_codeWith, stringsAt, Nat.add_assoc]
    have hbytes : (image l).bytes = hd ++ (codeWith (address l) 0 l ++ ending l) ++
        ([] ++ l.flatMap Stmt.output) := by
      rw [hcode, List.nil_append, List.append_assoc, List.append_assoc]
    refine yields_codeWith hcode (forall₂_names hx hbytes ?_) (hexits.elim (exists_return hl) id)
    rw [hbytes, List.length_append, hx]
    exact (stringsAt_fits_iff l).mpr hfits

/-- `puts("a")return 5` writes a line and exits with 5. -/
theorem compile_preserves_meaning_line : ∃ img,
    compile (keyword "puts(\"a\")return 5") = .ok img ∧
      ∀ regs, Yields img.bytes 0x100 regs [[0x61, nl]] 5 := by
  have hstmts : statements (keyword "puts(\"a\")return 5") =
      ([.call true [0x61], .ret 5], false) := by decide +kernel
  have hok : compile (keyword "puts(\"a\")return 5") = .ok (image [.call true [0x61], .ret 5]) := by
    rw [compile_eq, hstmts, if_neg (by decide), if_neg (by decide), if_pos (by decide)]
  refine ⟨_, hok, fun regs ↦ ?_⟩
  have h := compile_preserves_meaning hok (Or.inr ⟨5, by simp [hstmts]⟩) regs
  rwa [hstmts] at h

end FentoOS.Fcc
