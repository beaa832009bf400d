import FentoOS.User.Compiler

/-!
# What the compiler emits

The image is the header, the code of the statements, and the characters of the literals.  In the
code, the `i`-th call has the address of its characters: the two loops over the patches replace the
offset that is put there first by the base, and then by the base plus what lies in front.

The code of a call ends in `int 0x90`, as that of a `return` does, so the test at the end, which
looks at these two bytes, never adds an exit behind a call.  A program with calls exits only if
some `return` is recognised, and then it does so at the first one.
-/

namespace FentoOS.Fcc

open FentoOS.Lib FentoOS.Lib.X86 FentoOS.Libc

/-! ## Emission without limits -/

def Stmt.isCall : Stmt → Bool
  | .call _ _ => true
  | .ret _ => false

/-- The characters of a statement. -/
def Stmt.output : Stmt → List UInt8
  | .call newline lit => Fcc.output newline lit
  | .ret _ => []

/-- The number of calls. -/
def calls (l : List Stmt) : Nat := l.countP Stmt.isCall

/-- The number of characters of all calls. -/
def stringSize (l : List Stmt) : Nat := (l.flatMap Stmt.output).length

/-- The number of bytes of the code. -/
def codeSize (l : List Stmt) : Nat := (l.map fun stmt ↦ if stmt.isCall then 22 else 12).sum

/-- What `main` does with a statement when there is room. -/
def afterStmt (s : State) (stmt : Stmt) : State :=
  match stmt with
  | .call newline lit =>
    { out := s.out ++ callCode (.ofNat s.strings.length) (.ofNat (output newline lit).length)
      strings := s.strings ++ output newline lit
      patches := s.patches ++ [(s.out.length + 11, (output newline lit).length)] }
  | .ret v => { s with out := s.out ++ returnCode v }

/-- The arrays are large enough. -/
structure Within (s : State) : Prop where
  out : s.out.length ≤ 32768
  strings : s.strings.length ≤ 8192
  patches : s.patches.length ≤ 64

instance (s : State) : Decidable (Within s) :=
  decidable_of_iff (s.out.length ≤ 32768 ∧ s.strings.length ≤ 8192 ∧ s.patches.length ≤ 64)
    ⟨fun h ↦ ⟨h.1, h.2.1, h.2.2⟩, fun h ↦ ⟨h.out, h.strings, h.patches⟩⟩

section

variable {s : State} {stmt : Stmt} {l : List Stmt}

theorem length_afterStmt (s : State) (stmt : Stmt) :
    (afterStmt s stmt).out.length = s.out.length + (if stmt.isCall then 22 else 12) ∧
      (afterStmt s stmt).strings.length = s.strings.length + stmt.output.length ∧
      (afterStmt s stmt).patches.length = s.patches.length + (if stmt.isCall then 1 else 0) := by
  cases stmt with
  | call newline lit => exact ⟨List.length_append, List.length_append, List.length_append⟩
  | ret v => exact ⟨List.length_append, rfl, rfl⟩

theorem length_foldl_afterStmt (s : State) (l : List Stmt) :
    (l.foldl afterStmt s).out.length = s.out.length + codeSize l ∧
      (l.foldl afterStmt s).strings.length = s.strings.length + stringSize l ∧
      (l.foldl afterStmt s).patches.length = s.patches.length + calls l := by
  induction l generalizing s with
  | nil => exact ⟨rfl, rfl, rfl⟩
  | cons stmt l ih =>
    obtain ⟨hout, hstrings, hpatches⟩ := ih (afterStmt s stmt)
    obtain ⟨hout', hstrings', hpatches'⟩ := length_afterStmt s stmt
    rw [List.foldl_cons, hout, hstrings, hpatches, hout', hstrings', hpatches']
    refine ⟨?_, ?_, ?_⟩
    · rw [codeSize, codeSize, List.map_cons, List.sum_cons, Nat.add_assoc]
    · rw [stringSize, stringSize, List.flatMap_cons, List.length_append, Nat.add_assoc]
    · rw [calls, calls, List.countP_cons]
      omega

theorem emitStmt_eq (hs : Within s) (stmt : Stmt) : emitStmt s stmt =
    if Within (afterStmt s stmt) then .ok (afterStmt s stmt) else .error .overflow := by
  obtain ⟨hout, hstrings, hpatches⟩ := length_afterStmt s stmt
  cases stmt with
  | call newline lit =>
    have hlen : (s.strings ++ output newline lit).length - s.strings.length =
        (output newline lit).length := by
      rw [List.length_append, Nat.add_sub_cancel_left]
    rw [emitStmt]
    simp only [hlen, emit]
    by_cases hw : Within (afterStmt s (.call newline lit))
    · have hfit : (s.strings ++ output newline lit).length ≤ 8192 ∧ s.patches.length < 64 :=
        ⟨hw.strings, by have := hw.patches; rw [hpatches] at this; exact this⟩
      rw [if_pos hw, if_pos hfit]
      exact if_pos (by have := hw.out; rw [hout] at this; exact this)
    · rw [if_neg hw]
      split_ifs with hfit hroom
      · exact absurd ⟨by rw [hout]; exact hroom, hfit.1, by rw [hpatches]; exact hfit.2⟩ hw
      · rfl
      · rfl
  | ret v =>
    rw [emitStmt, emit]
    by_cases hw : Within (afterStmt s (.ret v))
    · rw [if_pos hw]
      exact if_pos (by have := hw.out; rw [hout] at this; exact this)
    · rw [if_neg hw]
      exact if_neg fun hroom ↦ hw ⟨by rw [hout]; exact hroom, hs.strings, hs.patches⟩

/-- The arrays are large enough all along if they are at the end. -/
theorem Within.of_foldl (h : Within (l.foldl afterStmt s)) : Within s := by
  obtain ⟨hout, hstrings, hpatches⟩ := length_foldl_afterStmt s l
  obtain ⟨h₁, h₂, h₃⟩ := h
  exact ⟨by omega, by omega, by omega⟩

theorem foldlM_emitStmt (hs : Within s) (l : List Stmt) : l.foldlM emitStmt s =
    if Within (l.foldl afterStmt s) then .ok (l.foldl afterStmt s) else .error .overflow := by
  induction l generalizing s with
  | nil => exact (if_pos hs).symm
  | cons stmt l ih =>
    rw [List.foldlM_cons, List.foldl_cons, emitStmt_eq hs]
    by_cases hw : Within (afterStmt s stmt)
    · rw [if_pos hw]
      exact ih hw
    · rw [if_neg hw, if_neg fun h ↦ hw h.of_foldl]
      rfl

end

/-! ## The code of a list of statements -/

/-- The code of the statements, in which a call with `idx` characters in front of its own has the
address `addr idx`. -/
def codeWith (addr : Nat → UInt32) : (idx : Nat) → List Stmt → List UInt8
  | _, [] => []
  | idx, .call newline lit :: l =>
    callCode (addr idx) (.ofNat (output newline lit).length) ++
      codeWith addr (idx + (output newline lit).length) l
  | idx, .ret v :: l => returnCode v ++ codeWith addr idx l

/-- The entries of `patches` and `plens` for statements whose code is at `off`. -/
def patchesAt : (off : Nat) → List Stmt → List (Nat × Nat)
  | _, [] => []
  | off, .call newline lit :: l =>
    (off + 11, (output newline lit).length) :: patchesAt (off + 22) l
  | off, .ret _ :: l => patchesAt (off + 12) l

section

variable {addr : Nat → UInt32} {idx : Nat} {l : List Stmt} {pre post : List UInt8}

@[simp] theorem length_callCode (a n : UInt32) : (callCode a n).length = 22 := rfl

@[simp] theorem length_returnCode (v : Int32) : (returnCode v).length = 12 := rfl

@[simp] theorem length_header : header.length = 256 := by
  unfold header
  rw [List.length_append, List.length_replicate]
  rfl

@[simp] theorem length_codeWith (addr : Nat → UInt32) (idx : Nat) (l : List Stmt) :
    (codeWith addr idx l).length = codeSize l := by
  fun_induction codeWith addr idx l with
  | case1 => rfl
  | case2 idx newline lit l ih => rw [List.length_append, ih]; rfl
  | case3 idx v l ih => rw [List.length_append, ih]; rfl

/-- Without limits, the statements leave their code with the offsets in the buffer as addresses. -/
theorem foldl_afterStmt (s : State) (l : List Stmt) : l.foldl afterStmt s =
    ⟨s.out ++ codeWith UInt32.ofNat s.strings.length l, s.strings ++ l.flatMap Stmt.output,
      s.patches ++ patchesAt s.out.length l⟩ := by
  induction l generalizing s with
  | nil =>
    change s = ⟨s.out ++ [], s.strings ++ [], s.patches ++ []⟩
    rw [List.append_nil, List.append_nil, List.append_nil]
  | cons stmt l ih =>
    obtain ⟨hout, hstrings, -⟩ := length_afterStmt s stmt
    rw [List.foldl_cons, ih, hout, hstrings]
    cases stmt with
    | call newline lit =>
      simp only [afterStmt, codeWith, patchesAt, List.flatMap_cons, List.append_assoc]
      rfl
    | ret v =>
      simp only [afterStmt, codeWith, patchesAt, List.flatMap_cons, List.append_assoc]
      rfl

/-- Eleven bytes into the code of a call is its address. -/
theorem patch32_callCode (pre post : List UInt8) (a n v : UInt32) :
    patch32 (pre ++ (callCode a n ++ post)) (pre.length + 11) v =
      pre ++ (callCode v n ++ post) := by
  rw [patch32, setWord, List.take_length_add_append, Nat.add_assoc, List.drop_length_add_append]
  rw [List.append_assoc, List.append_assoc]
  rfl

theorem patchBase_codeWith (base : UInt32) (pre post : List UInt8) (addr : Nat → UInt32)
    (idx : Nat) (l : List Stmt) :
    patchBase base (patchesAt pre.length l) (pre ++ (codeWith addr idx l ++ post)) =
      pre ++ (codeWith (fun _ ↦ base) idx l ++ post) := by
  induction l generalizing pre idx with
  | nil => rfl
  | cons stmt l ih =>
    cases stmt with
    | call newline lit =>
      have hrest := ih (pre ++ callCode base (.ofNat (output newline lit).length))
        (idx + (output newline lit).length)
      rw [List.length_append, length_callCode] at hrest
      simp only [codeWith, patchesAt, List.append_assoc] at hrest ⊢
      rw [patchBase, List.foldl_cons, patch32_callCode]
      exact hrest
    | ret v =>
      have hrest := ih (pre ++ returnCode v) idx
      rw [List.length_append, length_returnCode] at hrest
      simp only [codeWith, patchesAt, List.append_assoc] at hrest ⊢
      exact hrest

theorem patchLoop_codeWith (base : UInt32) (pre post : List UInt8) (addr : Nat → UInt32)
    (idx : Nat) (l : List Stmt) :
    patchLoop base idx (patchesAt pre.length l) (pre ++ (codeWith addr idx l ++ post)) =
      pre ++ (codeWith (fun i ↦ base + .ofNat i) idx l ++ post) := by
  induction l generalizing pre idx with
  | nil => rfl
  | cons stmt l ih =>
    cases stmt with
    | call newline lit =>
      have hrest := ih
        (pre ++ callCode (base + .ofNat idx) (.ofNat (output newline lit).length))
        (idx + (output newline lit).length)
      rw [List.length_append, length_callCode] at hrest
      simp only [codeWith, patchesAt, List.append_assoc] at hrest ⊢
      rw [patchLoop, patch32_callCode]
      exact hrest
    | ret v =>
      have hrest := ih (pre ++ returnCode v) idx
      rw [List.length_append, length_returnCode] at hrest
      simp only [codeWith, patchesAt, List.append_assoc] at hrest ⊢
      exact hrest

/-- The code of a statement ends in `int 0x90`. -/
theorem codeWith_ends (addr : Nat → UInt32) (idx : Nat) (hl : l ≠ []) :
    ∃ q, codeWith addr idx l = q ++ [0xCD, 0x90] := by
  induction l generalizing idx with
  | nil => exact absurd rfl hl
  | cons stmt l ih =>
    by_cases hnil : l = []
    · subst hnil
      cases stmt with
      | call newline lit => exact ⟨_, List.append_nil _⟩
      | ret v => exact ⟨_, List.append_nil _⟩
    · cases stmt with
      | call newline lit =>
        obtain ⟨q, hq⟩ := ih (idx + (output newline lit).length) hnil
        exact ⟨_ ++ q, by rw [codeWith, hq, List.append_assoc]⟩
      | ret v =>
        obtain ⟨q, hq⟩ := ih idx hnil
        exact ⟨_ ++ q, by rw [codeWith, hq, List.append_assoc]⟩

end

/-! ## The image -/

/-- The code that is added at the end. -/
def ending (l : List Stmt) : List UInt8 := if l = [] then exitCode else []

/-- The header in the file. -/
def headerWith (size : UInt32) : List UInt8 := patch32 (patch32 header 68 size) 72 size

/-- The offset of the literals in the image. -/
def stringsAt (l : List Stmt) : Nat := 256 + codeSize l + (ending l).length

/-- The address of the character at an index of `strings`. -/
def address (l : List Stmt) (idx : Nat) : UInt32 := 0x08048000 + .ofNat (stringsAt l) + .ofNat idx

/-- The image of a list of statements. -/
def image (l : List Stmt) : Image where
  bytes := headerWith (.ofNat (stringsAt l + stringSize l)) ++
    (codeWith (address l) 0 l ++ (ending l ++ l.flatMap Stmt.output))
  codeEnd := stringsAt l

/-- The arrays are large enough for the statements. -/
def Room (l : List Stmt) : Prop :=
  256 + codeSize l ≤ 32768 ∧ stringSize l ≤ 8192 ∧ calls l ≤ 64

instance (l : List Stmt) : Decidable (Room l) := inferInstanceAs (Decidable (_ ∧ _))

theorem within_iff_room (l : List Stmt) :
    Within (l.foldl afterStmt ⟨header, [], []⟩) ↔ Room l := by
  have hlen := length_foldl_afterStmt ⟨header, [], []⟩ l
  simp only [length_header, List.length_nil, Nat.zero_add] at hlen
  obtain ⟨hout, hstrings, hpatches⟩ := hlen
  rw [Room, ← hout, ← hstrings, ← hpatches]
  exact ⟨fun h ↦ ⟨h.out, h.strings, h.patches⟩, fun h ↦ ⟨h.1, h.2.1, h.2.2⟩⟩

theorem length_headerWith (size : UInt32) : (headerWith size).length = 256 := by
  have hheader : (patch32 header 68 size).length = 256 := by
    rw [patch32, length_setWord (by rw [length_header]; decide), length_header]
  rw [headerWith, patch32, length_setWord (by rw [hheader]; decide), hheader]

/-- An exit is added only when nothing is emitted. -/
theorem needsExit_iff (addr : Nat → UInt32) (idx : Nat) (l : List Stmt) :
    ((header ++ codeWith addr idx l).length = 0x100 ∨
      (header ++ codeWith addr idx l).getD ((header ++ codeWith addr idx l).length - 2) 0 ≠ 0xCD) ↔
      l = [] := by
  constructor
  · intro h
    by_contra hl
    obtain ⟨q, hq⟩ := codeWith_ends addr idx hl
    have hlen : (header ++ codeWith addr idx l).length = (header ++ q).length + 2 := by
      rw [hq, ← List.append_assoc, List.length_append]
      rfl
    rw [hlen, hq, ← List.append_assoc, Nat.add_sub_cancel, List.length_append, length_header] at h
    rcases h with h | h
    · omega
    · refine h ?_
      rw [List.getD_append_right _ _ _ _ (by rw [List.length_append, length_header]),
        List.length_append, length_header, Nat.sub_self]
      rfl
  · rintro rfl
    exact Or.inl (by rw [codeWith, List.append_nil, length_header])

theorem stringsAt_fits_iff (l : List Stmt) :
    stringsAt l + stringSize l ≤ 32768 ↔ 256 + codeSize l + stringSize l ≤ 32768 := by
  unfold stringsAt ending
  split_ifs with hl
  · subst hl
    decide
  · exact Iff.rfl

theorem addExit_eq (l : List Stmt) : addExit (l.foldl afterStmt ⟨header, [], []⟩) =
    .ok ⟨header ++ (codeWith UInt32.ofNat 0 l ++ ending l), l.flatMap Stmt.output,
      patchesAt header.length l⟩ := by
  have hstate : l.foldl afterStmt ⟨header, [], []⟩ =
      ⟨header ++ codeWith UInt32.ofNat 0 l, l.flatMap Stmt.output, patchesAt header.length l⟩ :=
    foldl_afterStmt ⟨header, [], []⟩ l
  rw [hstate, addExit]
  by_cases hl : l = []
  · rw [if_pos ((needsExit_iff _ _ _).mpr hl), ending, if_pos hl, ← List.append_assoc]
    subst hl
    refine emit_eq_ok.mpr ⟨?_, rfl⟩
    rw [List.length_append, length_header]
    decide
  · rw [if_neg fun h ↦ hl ((needsExit_iff _ _ _).mp h), ending, if_neg hl, List.append_nil]

theorem resolve_eq (l : List Stmt) : resolve ⟨header ++ (codeWith UInt32.ofNat 0 l ++ ending l),
      l.flatMap Stmt.output, patchesAt header.length l⟩ =
    if 256 + codeSize l + stringSize l ≤ 32768 then .ok (image l) else .error .overflow := by
  have hlen : (header ++ (codeWith UInt32.ofNat 0 l ++ ending l)).length = stringsAt l := by
    simp only [List.length_append, length_header, length_codeWith, stringsAt, Nat.add_assoc]
  have hsize : (header ++ (codeWith (address l) 0 l ++ ending l) ++
      l.flatMap Stmt.output).length = stringsAt l + stringSize l := by
    simp only [List.length_append, length_header, length_codeWith, stringsAt, stringSize,
      Nat.add_assoc]
  have hpatch : patchLoop (0x08048000 + .ofNat (stringsAt l)) 0 (patchesAt header.length l)
      (patchBase (0x08048000 + .ofNat (stringsAt l)) (patchesAt header.length l)
        (header ++ (codeWith UInt32.ofNat 0 l ++ ending l))) =
      header ++ (codeWith (address l) 0 l ++ ending l) := by
    rw [patchBase_codeWith, patchLoop_codeWith]
    rfl
  have hheader : (setWord header 68 (.ofNat (stringsAt l + stringSize l))).length = 256 := by
    rw [length_setWord (by rw [length_header]; decide), length_header]
  rw [resolve]
  simp only [hlen, hpatch, hsize, patch32]
  rw [List.append_assoc, setWord_append (by rw [length_header]; decide),
    setWord_append (by rw [hheader]; decide)]
  exact if_congr (stringsAt_fits_iff l)
    (by rw [image, headerWith, patch32, patch32, List.append_assoc]) rfl

/-- The compiler writes the image of the statements that it recognises, if there is room. -/
theorem compile_eq (file : List UInt8) : compile file =
    if ¬Room (statements file).1 then .error .overflow
    else if (statements file).2 then .error .trap
    else if 256 + codeSize (statements file).1 + stringSize (statements file).1 ≤ 32768 then
      .ok (image (statements file).1)
    else .error .overflow := by
  have hstart : Within ⟨header, [], []⟩ := ⟨by rw [length_header]; decide, by decide, by decide⟩
  have hloop : loop (source file).length (source file) ⟨header, [], []⟩ =
      outcome ⟨header, [], []⟩ (statements file) := loop_eq le_rfl _
  rw [compile, hloop, outcome, foldlM_emitStmt hstart]
  by_cases hroom : Room (statements file).1
  · rw [if_pos ((within_iff_room _).mpr hroom), if_neg (not_not_intro hroom), ← resolve_eq]
    cases (statements file).2 with
    | true => rfl
    | false => exact congrArg (· >>= resolve) (addExit_eq _)
  · rw [if_neg fun h ↦ hroom ((within_iff_room _).mp h), if_pos hroom]
    rfl

end FentoOS.Fcc
