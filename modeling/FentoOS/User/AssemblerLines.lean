import FentoOS.User.Assembler

/-!
# The lines of an assembler source

A source is a sequence of lines, each with one instruction: a name, one blank, and the operands,
with any blanks behind a comma.  A line has an encoding unless a number does not fit into its
field.

`instruction_text` says what the assembler emits for each line.  It is the encoding, but for two
kinds of lines: a number that is too large for its field loses its upper bits without a message,
and `xor` with a blank behind the comma becomes `31` and a byte that stands for another operand.
No line is rejected, so that the image is right exactly for the sources without such lines.
-/

namespace FentoOS.Fasm

open FentoOS.Lib FentoOS.Lib.X86 FentoOS.Libc

/-! ## Numbers -/

/-- A number in a source: decimal, with a sign or not, or hexadecimal behind `0x` or `0X`. -/
inductive Imm
  | dec (neg : Bool) (digits : Text) (hne : digits ≠ []) (hdigits : ∀ c ∈ digits, isDigit c)
  | hex (upper : Bool) (digits : Text) (hne : digits ≠ []) (hdigits : ∀ c ∈ digits, isHex c)
deriving DecidableEq

/-- The number that hexadecimal digits write. -/
def hexNumeral (s : Text) : Nat := s.foldl (fun n c ↦ n * 16 + hexDigit c) 0

namespace Imm

def text : Imm → Text
  | .dec neg digits _ _ => (if neg then ['-'.toUInt8] else []) ++ digits
  | .hex upper digits _ _ => '0'.toUInt8 :: (if upper then 'X' else 'x').toUInt8 :: digits

def value : Imm → Int
  | .dec neg digits _ _ => if neg then -numeral digits else numeral digits
  | .hex _ digits _ _ => hexNumeral digits

/-- The number as a word. -/
def word (imm : Imm) : UInt32 := .ofInt imm.value

/-- The number as a byte. -/
def low (imm : Imm) : UInt8 := .ofInt imm.value

/-- The number can be written with 32 bits. -/
def FitsWord (imm : Imm) : Prop := -2 ^ 31 ≤ imm.value ∧ imm.value < 2 ^ 32

/-- The number can be written with 8 bits. -/
def FitsByte (imm : Imm) : Prop := -2 ^ 7 ≤ imm.value ∧ imm.value < 2 ^ 8

instance (imm : Imm) : Decidable imm.FitsWord := inferInstanceAs (Decidable (_ ∧ _))

instance (imm : Imm) : Decidable imm.FitsByte := inferInstanceAs (Decidable (_ ∧ _))

end Imm

/-- What may follow a number: nothing, or a comma. -/
def Closed (t : Text) : Prop := ∀ c ∈ t.head?, c = comma

variable {s t : Text}

theorem takeWhile_closed {p : UInt8 → Bool} (hs : ∀ c ∈ s, p c) (hcomma : ¬p comma) (ht : Closed t)
    : (s ++ t).takeWhile p = s := by
  rw [List.takeWhile_append_of_pos hs]
  cases t with
  | nil => exact List.append_nil s
  | cons c t =>
    rw [ht c rfl, List.takeWhile_cons_of_neg hcomma, List.append_nil]

theorem foldl_hexDigit (n : Nat) (s : Text) :
    s.foldl (fun v c ↦ v * 16 + .ofNat (hexDigit c)) (UInt32.ofNat n) =
      .ofNat (s.foldl (fun n c ↦ n * 16 + hexDigit c) n) := by
  induction s generalizing n with
  | nil => rfl
  | cons c s ih =>
    have hstep : UInt32.ofNat n * 16 + .ofNat (hexDigit c) = .ofNat (n * 16 + hexDigit c) := by
      rw [UInt32.ofNat_add, UInt32.ofNat_mul]
      rfl
    rw [List.foldl_cons, hstep, ih, List.foldl_cons]

theorem ofInt_natCast (n : Nat) : UInt32.ofInt n = .ofNat n := by
  refine UInt32.toNat_inj.mp ?_
  rw [UInt32.ofInt, UInt32.toNat_ofNat', UInt32.toNat_ofNat']
  omega

theorem isMarked_digits (c : UInt8) (hs : ∀ d ∈ s, isDigit d) (ht : Closed t) :
    isMarked (c :: (s ++ t)) = false := by
  have hsecond : (s ++ t).getD 0 0 ≠ 'x'.toUInt8 ∧ (s ++ t).getD 0 0 ≠ 'X'.toUInt8 := by
    cases s with
    | nil =>
      cases t with
      | nil => decide
      | cons d t =>
        obtain rfl := ht d rfl
        exact ⟨by change comma ≠ _; decide, by change comma ≠ _; decide⟩
    | cons d s =>
      have hd : isDigit ((d :: s ++ t).getD 0 0) := hs d List.mem_cons_self
      refine ⟨fun h ↦ ?_, fun h ↦ ?_⟩
      · rw [h] at hd
        exact absurd hd (by decide)
      · rw [h] at hd
        exact absurd hd (by decide)
  change (c == _ && ((s ++ t).getD 0 0 == _ || (s ++ t).getD 0 0 == _)) = false
  rw [beq_false_of_ne hsecond.1, beq_false_of_ne hsecond.2, Bool.or_false, Bool.and_false]

theorem toUInt32_ofNat_mul_neg (n : Nat) :
    (Int32.ofNat n * (-1)).toUInt32 = UInt32.ofInt (-n) := by
  rw [Int32.mul_neg, Int32.mul_one, Int32.toUInt32_neg, Int32.toUInt32_ofNat', UInt32.ofInt_neg,
    ofInt_natCast]

/-- Reading the text of a number, when the blanks have been passed over. -/
theorem number_text (imm : Imm) (ht : Closed t) : number (imm.text ++ t) = imm.word := by
  cases imm with
  | dec neg digits hne hdigits =>
    have hread : readDigits ((digits ++ t).takeWhile isDigit) = Int32.ofNat (numeral digits) := by
      rw [takeWhile_closed hdigits (by decide) ht, readDigits_eq]
    cases neg with
    | true =>
      have hatoi : atoi ('-'.toUInt8 :: (digits ++ t)) =
          readDigits ((digits ++ t).takeWhile isDigit) * (-1) := rfl
      change number ('-'.toUInt8 :: (digits ++ t)) = .ofInt (-(numeral digits : Nat))
      rw [number, if_neg (by rw [isMarked_digits _ hdigits ht]; decide), hatoi, hread,
        toUInt32_ofNat_mul_neg]
    | false =>
      obtain ⟨c, digits, rfl⟩ := List.exists_cons_of_ne_nil hne
      have htail : ∀ d ∈ digits, isDigit d := fun d hd ↦ hdigits d (List.mem_cons_of_mem _ hd)
      change number (c :: (digits ++ t)) = .ofInt (numeral (c :: digits) : Nat)
      rw [number, if_neg (by rw [isMarked_digits _ htail ht]; decide),
        atoi_digit (hdigits c List.mem_cons_self), ← List.cons_append, hread,
        Int32.toUInt32_ofNat', ofInt_natCast]
  | hex upper digits hne hdigits =>
    have hmarked : isMarked ((Imm.hex upper digits hne hdigits).text ++ t) = true := by
      cases upper <;> rfl
    have hdrop : ((Imm.hex upper digits hne hdigits).text ++ t).drop 2 = digits ++ t := rfl
    rw [number, if_pos hmarked, hdrop, takeWhile_closed hdigits (by decide) ht]
    exact (foldl_hexDigit 0 digits).trans (ofInt_natCast _).symm

/-- A number begins with a sign or a digit. -/
theorem Imm.exists_text_eq (imm : Imm) :
    ∃ c s, imm.text = c :: s ∧ (c = '-'.toUInt8 ∨ isDigit c) := by
  cases imm with
  | dec neg digits hne hdigits =>
    cases neg with
    | true => exact ⟨_, _, rfl, Or.inl rfl⟩
    | false =>
      obtain ⟨c, digits, rfl⟩ := List.exists_cons_of_ne_nil hne
      exact ⟨c, digits, rfl, Or.inr (hdigits c List.mem_cons_self)⟩
  | hex upper digits => exact ⟨_, _, rfl, Or.inr (by decide)⟩

variable {c : UInt8}

/-- Such a character is none of those that are not a sign or a digit. -/
theorem ne_of_signOrDigit {d : UInt8} (hc : c = '-'.toUInt8 ∨ isDigit c)
    (hd : ¬(d = '-'.toUInt8 ∨ isDigit d)) : c ≠ d := fun h ↦ hd (h ▸ hc)

/-- Reading a number behind blanks and commas. -/
theorem num_text {gap : Text} (hgap : ∀ c ∈ gap, isGap c) (imm : Imm) (ht : Closed t) :
    num (gap ++ (imm.text ++ t)) = imm.word := by
  obtain ⟨c, s, hs, hc⟩ := imm.exists_text_eq
  have hstop : ¬isGap c := by
    rw [isGap, isBlank, Bool.or_eq_true, Bool.or_eq_true, beq_iff_eq, beq_iff_eq, beq_iff_eq,
      not_or, not_or]
    exact ⟨⟨ne_of_signOrDigit hc (by decide), ne_of_signOrDigit hc (by decide)⟩,
      ne_of_signOrDigit hc (by decide)⟩
  have hdrop : (imm.text ++ t).dropWhile isGap = imm.text ++ t := by
    rw [hs, List.cons_append, List.dropWhile_cons_of_neg hstop]
  rw [num, List.dropWhile_append_of_pos hgap, hdrop, number_text imm ht]

/-! ## Lines -/

/-- Any number of blanks and tabulators. -/
abbrev Blanks := {l : Text // ∀ c ∈ l, isBlank c}

def regText : Reg → Text
  | .eax => keyword "eax"
  | .ecx => keyword "ecx"
  | .edx => keyword "edx"
  | .ebx => keyword "ebx"
  | .esp => keyword "esp"
  | .ebp => keyword "ebp"
  | .esi => keyword "esi"
  | .edi => keyword "edi"

/-- A line of a source, with the blanks behind its comma. -/
inductive Line
  | mov (r : Reg) (gap : Blanks) (imm : Imm)
  | pushReg (r : Reg)
  | pushImm (imm : Imm)
  | pop (r : Reg)
  | xor (r : Reg) (gap : Blanks) (s : Reg)
  | add (r : Reg) (gap : Blanks) (imm : Imm)
  | sub (r : Reg) (gap : Blanks) (imm : Imm)
  | int (imm : Imm)
  | ret
  | nop
  | leave
  | db (first : Imm) (rest : List (Blanks × Imm))

/-- The rest of the list behind `db`. -/
def listText (rest : List (Blanks × Imm)) : Text :=
  rest.flatMap fun p ↦ comma :: (p.1.1 ++ p.2.text)

namespace Line

def text : Line → Text
  | .mov r gap imm => keyword "mov " ++ (regText r ++ comma :: (gap.1 ++ imm.text))
  | .pushReg r => keyword "push " ++ regText r
  | .pushImm imm => keyword "push " ++ imm.text
  | .pop r => keyword "pop " ++ regText r
  | .xor r gap s => keyword "xor " ++ (regText r ++ comma :: (gap.1 ++ regText s))
  | .add r gap imm => keyword "add " ++ (regText r ++ comma :: (gap.1 ++ imm.text))
  | .sub r gap imm => keyword "sub " ++ (regText r ++ comma :: (gap.1 ++ imm.text))
  | .int imm => keyword "int " ++ imm.text
  | .ret => keyword "ret"
  | .nop => keyword "nop"
  | .leave => keyword "leave"
  | .db first rest => keyword "db " ++ (first.text ++ listText rest)

/-- The numbers of the line fit into their fields. -/
def Encodable : Line → Prop
  | .mov _ _ imm => imm.FitsWord
  | .pushImm imm => imm.FitsWord
  | .add _ _ imm => imm.FitsWord
  | .sub _ _ imm => imm.FitsWord
  | .int imm => imm.FitsByte
  | .db first rest => ∀ imm ∈ first :: rest.map Prod.snd, imm.FitsByte
  | _ => True

instance (l : Line) : Decidable l.Encodable :=
  match l with
  | .mov _ _ imm => inferInstanceAs (Decidable imm.FitsWord)
  | .pushReg _ => inferInstanceAs (Decidable True)
  | .pushImm imm => inferInstanceAs (Decidable imm.FitsWord)
  | .pop _ => inferInstanceAs (Decidable True)
  | .xor _ _ _ => inferInstanceAs (Decidable True)
  | .add _ _ imm => inferInstanceAs (Decidable imm.FitsWord)
  | .sub _ _ imm => inferInstanceAs (Decidable imm.FitsWord)
  | .int imm => inferInstanceAs (Decidable imm.FitsByte)
  | .ret => inferInstanceAs (Decidable True)
  | .nop => inferInstanceAs (Decidable True)
  | .leave => inferInstanceAs (Decidable True)
  | .db _ _ => inferInstanceAs (Decidable (∀ _ ∈ _, _))

/-- The encoding of a line whose numbers fit. -/
def encoding : Line → List UInt8
  | .mov r _ imm => encode (.movImm r imm.word)
  | .pushReg r => encode (.pushReg r)
  | .pushImm imm => encode (.pushImm imm.word)
  | .pop r => encode (.popReg r)
  | .xor r _ s => encode (.xorReg r s)
  | .add r _ imm => encode (.addImm r imm.word)
  | .sub r _ imm => encode (.subImm r imm.word)
  | .int imm => encode (.int imm.low)
  | .ret => encode .ret
  | .nop => encode .nop
  | .leave => encode .leave
  | .db first rest => first.low :: rest.map (·.2.low)

/-- No blank is behind the comma of `xor`. -/
def Tight : Line → Prop
  | .xor _ gap _ => gap.1 = []
  | _ => True

/-- What the assembler emits for a line. -/
def emitted : Line → List UInt8
  | .xor r gap s => if gap.1 = [] then encode (.xorReg r s) else [0x31, 0xB8 + r.code]
  | l => l.encoding

end Line

theorem reg_regText (r : Reg) (t : Text) : reg (regText r ++ t) = r.code.toNat := by
  cases r <;> rfl

/-- The names of the registers begin with `e`. -/
theorem reg_of_head (hc : c ≠ 'e'.toUInt8) (t : Text) : reg (c :: t) = -1 := by
  have hnone : regNames.findIdx? (·.isPrefixOf (c :: t)) = none := by
    rw [List.findIdx?_eq_none_iff]
    intro name hname
    have hhead : name.head? = some 'e'.toUInt8 := by
      revert name
      decide
    cases name with
    | nil => cases hhead
    | cons d name =>
      obtain rfl := Option.some.inj hhead
      rw [List.isPrefixOf, beq_false_of_ne hc.symm, Bool.false_and]
  rw [reg, hnone]

theorem afterComma_append (hs : comma ∉ s) (t : Text) : afterComma (s ++ comma :: t) = some t := by
  have hdrop : (s ++ comma :: t).dropWhile (· != comma) = comma :: t := by
    rw [List.dropWhile_append_of_pos, List.dropWhile_cons_of_neg (by simp)]
    intro c hc
    exact bne_iff_ne.mpr fun h ↦ hs (h ▸ hc)
  rw [afterComma, if_pos (by simp), hdrop]
  rfl

theorem comma_not_mem_regText (r : Reg) : comma ∉ regText r := by
  cases r <;> decide

/-! ## What is emitted for a line -/

theorem toUInt8_word (imm : Imm) : imm.word.toUInt8 = imm.low := by
  refine UInt8.toNat_inj.mp ?_
  rw [Imm.word, Imm.low, UInt32.toNat_toUInt8, UInt32.ofInt, UInt8.ofInt, UInt32.toNat_ofNat',
    UInt8.toNat_ofNat']
  omega

theorem isGap_of_isBlank (h : isBlank c) : isGap c := by
  rw [isGap, h, Bool.true_or]

theorem num_blanks (gap : Blanks) (imm : Imm) : num (gap.1 ++ imm.text) = imm.word := by
  have h := num_text (fun c hc ↦ isGap_of_isBlank (gap.2 c hc)) imm (t := []) (by simp [Closed])
  rwa [List.append_nil] at h

theorem num_imm (imm : Imm) : num imm.text = imm.word := num_blanks ⟨[], by simp⟩ imm

theorem reg_imm (imm : Imm) : reg imm.text = -1 := by
  obtain ⟨c, s, hs, hc⟩ := imm.exists_text_eq
  rw [hs, reg_of_head (ne_of_signOrDigit hc (by decide))]

theorem isalnum_of_isHex (h : isHex c) : isalnum c := by
  rw [isHex, Bool.or_eq_true, Bool.or_eq_true] at h
  rw [isalnum, isalpha, Bool.or_eq_true, Bool.or_eq_true]
  simp only [Bool.and_eq_true, decide_eq_true_eq] at h ⊢
  rcases h with (h | h) | h
  · exact Or.inr h
  · exact Or.inl (Or.inl ⟨h.1, UInt8.le_trans h.2 (by decide)⟩)
  · exact Or.inl (Or.inr ⟨h.1, UInt8.le_trans h.2 (by decide)⟩)

/-- The characters of a number are digits, letters and a sign. -/
theorem Imm.isalnum_or_sign (imm : Imm) : ∀ c ∈ imm.text, isalnum c ∨ c = '-'.toUInt8 := by
  cases imm with
  | dec neg digits hne hdigits =>
    intro c hc
    rcases List.mem_append.mp hc with hc | hc
    · cases neg with
      | true => exact Or.inr (List.mem_singleton.mp hc)
      | false => cases hc
    · exact Or.inl (by rw [isalnum, hdigits c hc, Bool.or_true])
  | hex upper digits hne hdigits =>
    intro c hc
    rcases List.mem_cons.mp hc with rfl | hc
    · exact Or.inl (by decide)
    · rcases List.mem_cons.mp hc with rfl | hc
      · cases upper <;> exact Or.inl (by decide)
      · exact Or.inl (isalnum_of_isHex (hdigits c hc))

theorem Imm.comma_not_mem (imm : Imm) : comma ∉ imm.text := fun h ↦
  absurd (imm.isalnum_or_sign comma h) (by decide)

theorem comma_not_mem_blanks (gap : Blanks) : comma ∉ gap.1 := fun h ↦
  absurd (gap.2 comma h) (by decide)

theorem closed_listText (rest : List (Blanks × Imm)) : Closed (listText rest) := by
  cases rest with
  | nil => simp [Closed, listText]
  | cons p rest =>
    intro c hc
    exact (Option.some.inj hc).symm

/-- One item of a list. -/
theorem dbLoop_item (fuel : Nat) {x : Text} (hx : x = [] ∨ x = [comma]) (gap : Blanks) (imm : Imm)
    (rest : List (Blanks × Imm)) :
    dbLoop (fuel + 1) (x ++ (gap.1 ++ (imm.text ++ listText rest))) =
      imm.low :: dbLoop fuel (listText rest) := by
  obtain ⟨c, s, hs, hc⟩ := imm.exists_text_eq
  have hstop : ¬isListGap c := by
    rw [isListGap, Bool.or_eq_true, beq_iff_eq, beq_iff_eq, not_or]
    exact ⟨ne_of_signOrDigit hc (by decide), ne_of_signOrDigit hc (by decide)⟩
  have hpre : ∀ c ∈ x, isListGap c := by
    rcases hx with rfl | rfl
    · simp
    · simp [isListGap]
  -- The loop stops inside of the blanks when there is a tabulator; `num` passes over the rest.
  have hskip : (x ++ (gap.1 ++ (imm.text ++ listText rest))).dropWhile isListGap =
      gap.1.dropWhile isListGap ++ (imm.text ++ listText rest) := by
    rw [List.dropWhile_append_of_pos hpre, List.dropWhile_append, hs, List.cons_append,
      List.dropWhile_cons_of_neg hstop]
    split_ifs with hempty
    · rw [List.isEmpty_iff.mp hempty, List.nil_append]
    · rfl
  have hgap : ∀ c ∈ gap.1.dropWhile isListGap, isGap c := fun c hc ↦
    isGap_of_isBlank (gap.2 c ((List.dropWhile_sublist _).subset hc))
  have hnext : (gap.1.dropWhile isListGap ++ (imm.text ++ listText rest)).dropWhile (· != comma) =
      listText rest := by
    rw [← List.append_assoc, List.dropWhile_append_of_pos]
    · cases rest with
      | nil => rfl
      | cons p rest => exact List.dropWhile_cons_of_neg (by simp)
    · intro c hc
      refine bne_iff_ne.mpr fun h ↦ ?_
      rcases List.mem_append.mp hc with hc | hc
      · exact comma_not_mem_blanks gap (h ▸ (List.dropWhile_sublist _).subset hc)
      · exact imm.comma_not_mem (h ▸ hc)
  rw [dbLoop]
  simp only [hskip]
  rw [if_neg (by simp [hs]), num_text hgap imm (closed_listText rest), toUInt8_word, hnext]

theorem dbLoop_list {fuel : Nat} {rest : List (Blanks × Imm)} (hfuel : rest.length ≤ fuel) :
    dbLoop fuel (listText rest) = rest.map (·.2.low) := by
  induction rest generalizing fuel with
  | nil => cases fuel <;> rfl
  | cons p rest ih =>
    cases fuel with
    | zero => cases hfuel
    | succ fuel =>
      have h := dbLoop_item fuel (Or.inr rfl) p.1 p.2 rest
      rw [ih (Nat.le_of_succ_le_succ hfuel)] at h
      rw [List.map_cons, ← h, listText, List.flatMap_cons, List.cons_append, List.append_assoc]
      rfl

theorem length_listText (rest : List (Blanks × Imm)) :
    2 * rest.length ≤ (listText rest).length := by
  induction rest with
  | nil => exact le_rfl
  | cons p rest ih =>
    obtain ⟨c, s, hs, -⟩ := p.2.exists_text_eq
    rw [listText, List.flatMap_cons, List.length_append, ← listText, hs]
    simp only [List.length_cons, List.length_append]
    omega

variable {name : Text}

theorem comma_not_mem_name (hname : comma ∉ name) (r : Reg) : comma ∉ name ++ regText r := by
  rw [List.mem_append, not_or]
  exact ⟨hname, comma_not_mem_regText r⟩

theorem arith_text (op : Int) (n : Nat) (hname : comma ∉ name) (hlen : name.length = 4) (r : Reg)
    (gap : Blanks) (imm : Imm) :
    arith op n (name ++ (regText r ++ comma :: (gap.1 ++ imm.text))) =
      .ok (0x81 :: byte (op + r.code.toNat) :: le32 imm.word) := by
  have hdrop : (name ++ (regText r ++ comma :: (gap.1 ++ imm.text))).drop 4 =
      regText r ++ comma :: (gap.1 ++ imm.text) := by rw [← hlen, List.drop_left]
  rw [arith, hdrop, ← List.append_assoc, afterComma_append (comma_not_mem_name hname r),
    reg_regText]
  dsimp only
  rw [if_neg (by omega), num_blanks]

/-- What the assembler emits for a line. -/
theorem instruction_text (n : Nat) (l : Line) : instruction n l.text = .ok l.emitted := by
  cases l with
  | mov r gap imm =>
    have hcase : instruction n (Line.mov r gap imm).text = mov n (Line.mov r gap imm).text := rfl
    have hdrop : (Line.mov r gap imm).text.drop 4 = regText r ++ comma :: (gap.1 ++ imm.text) :=
      rfl
    rw [hcase, mov, hdrop, afterComma_append (comma_not_mem_regText r), reg_regText]
    dsimp only
    rw [if_neg (by omega), num_blanks]
    cases r <;> rfl
  | pushReg r => cases r <;> rfl
  | pushImm imm =>
    have hcase : instruction n (Line.pushImm imm).text = push (Line.pushImm imm).text := rfl
    have hdrop : (Line.pushImm imm).text.drop 5 = imm.text := rfl
    rw [hcase, push, hdrop, reg_imm, if_neg (by decide), num_imm]
    rfl
  | pop r => cases r <;> rfl
  | xor r gap s =>
    have hcase : instruction n (Line.xor r gap s).text = xor (Line.xor r gap s).text := rfl
    have htext : (Line.xor r gap s).text =
        (keyword "xor " ++ regText r) ++ comma :: (gap.1 ++ regText s) := by
      rw [Line.text, List.append_assoc]
    have hreg : reg ((Line.xor r gap s).text.drop 4) = r.code.toNat := reg_regText r _
    rw [hcase, xor, hreg, htext, afterComma_append (comma_not_mem_name (by decide) r)]
    obtain ⟨gap, hgap⟩ := gap
    cases gap with
    | nil =>
      have hs : reg (regText s) = s.code.toNat := by
        have h := reg_regText s []
        rwa [List.append_nil] at h
      change Except.ok [0x31, byte (0xC0 + reg (regText s) * 8 + _)] = _
      rw [hs]
      cases r <;> cases s <;> rfl
    | cons b gap =>
      -- The register behind the blank is not found.
      have hb : b ≠ 'e'.toUInt8 := fun h ↦ absurd (hgap b List.mem_cons_self) (h ▸ by decide)
      change Except.ok [0x31, byte (0xC0 + reg (b :: (gap ++ regText s)) * 8 + _)] = _
      rw [reg_of_head hb]
      cases r <;> rfl
  | add r gap imm =>
    have hcase : instruction n (Line.add r gap imm).text =
      arith 0xC0 n (Line.add r gap imm).text := rfl
    rw [hcase, Line.text, arith_text 0xC0 n (by decide) rfl]
    cases r <;> rfl
  | sub r gap imm =>
    have hcase : instruction n (Line.sub r gap imm).text =
      arith 0xE8 n (Line.sub r gap imm).text := rfl
    rw [hcase, Line.text, arith_text 0xE8 n (by decide) rfl]
    cases r <;> rfl
  | int imm =>
    have hcase : instruction n (Line.int imm).text = .ok [0xCD, (num imm.text).toUInt8] := rfl
    rw [hcase, num_imm, toUInt8_word]
    rfl
  | ret => rfl
  | nop => rfl
  | leave => rfl
  | db first rest =>
    have hcase : instruction n (Line.db first rest).text =
      .ok (dbLoop (first.text ++ listText rest).length (first.text ++ listText rest)) := rfl
    have hlen := length_listText rest
    obtain ⟨c, s, hs, -⟩ := first.exists_text_eq
    have hfuel : (first.text ++ listText rest).length =
        (s.length + (listText rest).length) + 1 := by
      rw [List.length_append, hs, List.length_cons]
      omega
    have hfirst := dbLoop_item (s.length + (listText rest).length) (Or.inl rfl) ⟨[], by simp⟩
      first rest
    rw [dbLoop_list (by omega)] at hfirst
    rw [hcase, hfuel]
    exact congrArg Except.ok hfirst

/-! ## The characters of a line -/

/-- The characters in names, numbers and the blanks between them. -/
def isPlain (c : UInt8) : Bool := isalnum c || isBlank c || c == comma || c == '-'.toUInt8

theorem isPlain_of_isBlank (h : isBlank c) : isPlain c := by
  rw [isPlain, h, Bool.or_true]
  rfl

theorem Imm.isPlain_text (imm : Imm) : ∀ c ∈ imm.text, isPlain c := by
  intro c hc
  rcases imm.isalnum_or_sign c hc with h | rfl
  · rw [isPlain, h]
    rfl
  · decide

theorem isPlain_regText (r : Reg) : ∀ c ∈ regText r, isPlain c := by
  cases r <;> exact List.all_eq_true.mp rfl

/-- The operands behind a name. -/
theorem isPlain_operands (hname : ∀ c ∈ name, isPlain c) (r : Reg) (gap : Blanks)
    (ht : ∀ c ∈ t, isPlain c) : ∀ c ∈ name ++ (regText r ++ comma :: (gap.1 ++ t)), isPlain c := by
  simp only [List.forall_mem_append, List.forall_mem_cons]
  exact ⟨hname, isPlain_regText r, by decide, fun c hc ↦ isPlain_of_isBlank (gap.2 c hc), ht⟩

theorem Line.isPlain_text (l : Line) : ∀ c ∈ l.text, isPlain c := by
  cases l with
  | mov r gap imm => exact isPlain_operands (List.all_eq_true.mp rfl) r gap imm.isPlain_text
  | pushReg r => exact List.forall_mem_append.mpr ⟨List.all_eq_true.mp rfl, isPlain_regText r⟩
  | pushImm imm => exact List.forall_mem_append.mpr ⟨List.all_eq_true.mp rfl, imm.isPlain_text⟩
  | pop r => exact List.forall_mem_append.mpr ⟨List.all_eq_true.mp rfl, isPlain_regText r⟩
  | xor r gap s => exact isPlain_operands (List.all_eq_true.mp rfl) r gap (isPlain_regText s)
  | add r gap imm => exact isPlain_operands (List.all_eq_true.mp rfl) r gap imm.isPlain_text
  | sub r gap imm => exact isPlain_operands (List.all_eq_true.mp rfl) r gap imm.isPlain_text
  | int imm => exact List.forall_mem_append.mpr ⟨List.all_eq_true.mp rfl, imm.isPlain_text⟩
  | ret => exact List.all_eq_true.mp rfl
  | nop => exact List.all_eq_true.mp rfl
  | leave => exact List.all_eq_true.mp rfl
  | db first rest =>
    refine List.forall_mem_append.mpr ⟨List.all_eq_true.mp rfl, List.forall_mem_append.mpr
      ⟨first.isPlain_text, fun c hc ↦ ?_⟩⟩
    obtain ⟨p, -, hp⟩ := List.mem_flatMap.mp hc
    rcases List.mem_cons.mp hp with rfl | hp
    · decide
    · rcases List.mem_append.mp hp with hp | hp
      · exact isPlain_of_isBlank (p.1.2 c hp)
      · exact p.2.isPlain_text c hp

theorem Line.exists_text_eq (l : Line) : ∃ c s, l.text = c :: s ∧ ¬isBlank c ∧ c ≠ '#'.toUInt8 ∧
    c ≠ '.'.toUInt8 := by
  cases l <;> exact ⟨_, _, rfl, by decide, by decide, by decide⟩

/-! ## The loop -/

theorem emitLine_text (n : Nat) (l : Line) (out : List UInt8) :
    emitLine n l.text out = emit out l.emitted := by
  obtain ⟨c, s, hs, -, hhash, hdot⟩ := l.exists_text_eq
  have hgo : ¬(l.text = [] ∨ l.text.head? = some '#'.toUInt8 ∨
      l.text.head? = some '.'.toUInt8) := by
    rw [hs]
    simp [hhash, hdot]
  rw [emitLine, if_neg hgo, instruction_text]
  rfl

/-- One iteration, on a line and what follows it. -/
theorem loop_line (fuel n : Nat) (l : Line) (ht : ∀ c ∈ t.head?, c = nl) (out : List UInt8) :
    loop (fuel + 1) n (l.text ++ t) out =
      emit out l.emitted >>= loop fuel (n + 1) t.tail := by
  obtain ⟨c, s, hs, hblank, -, -⟩ := l.exists_text_eq
  have hne : ∀ d, ¬isPlain d → ∀ c ∈ l.text, c ≠ d := fun d hd c hc h ↦
    hd (h ▸ l.isPlain_text c hc)
  have htake : (l.text ++ t).takeWhile (fun c ↦ !isEnd c) = l.text := by
    rw [List.takeWhile_append_of_pos]
    · cases t with
      | nil => exact List.append_nil _
      | cons d t =>
        obtain rfl := ht d rfl
        rw [List.takeWhile_cons_of_neg (by decide), List.append_nil]
    · intro c hc
      rw [isEnd, beq_false_of_ne (hne nl (by decide) c hc),
        beq_false_of_ne (hne ';'.toUInt8 (by decide) c hc)]
      rfl
  have hdrop : (l.text ++ t).dropWhile (· != nl) = t := by
    rw [List.dropWhile_append_of_pos]
    · cases t with
      | nil => rfl
      | cons d t =>
        obtain rfl := ht d rfl
        exact List.dropWhile_cons_of_neg (by simp)
    · intro c hc
      exact bne_iff_ne.mpr (hne nl (by decide) c hc)
  have hskip : (c :: (s ++ t)).dropWhile isBlank = l.text ++ t := by
    rw [List.dropWhile_cons_of_neg hblank, hs, List.cons_append]
  rw [hs, List.cons_append, loop]
  simp only [hskip, htake, hdrop, emitLine_text]

/-! ## Sources -/

/-- A source: lines that end in a newline, and perhaps one at the end that does not. -/
structure Source where
  lines : List Line
  last : Option Line

namespace Source

def all (src : Source) : List Line := src.lines ++ src.last.toList

def text (src : Source) : Text :=
  src.lines.flatMap (fun l ↦ l.text ++ [nl]) ++ src.last.toList.flatMap Line.text

end Source

theorem emit_fits {out l : List UInt8} (h : out.length + l.length ≤ 32768) :
    emit out l = .ok (out ++ l) := if_pos h

/-- The loop emits the lines one after the other. -/
theorem loop_source {fuel n : Nat} {lines : List Line} {last : Option Line} {out : List UInt8}
    (hfuel : (Source.text ⟨lines, last⟩).length ≤ fuel)
    (hfit : out.length + ((Source.all ⟨lines, last⟩).flatMap Line.emitted).length ≤ 32768) :
    loop fuel n (Source.text ⟨lines, last⟩) out =
      .ok (out ++ (Source.all ⟨lines, last⟩).flatMap Line.emitted) := by
  induction lines generalizing fuel n out with
  | nil =>
    cases last with
    | none =>
      change loop fuel n [] out = .ok (out ++ [])
      rw [List.append_nil]
      cases fuel <;> rfl
    | some l =>
      have htext : Source.text ⟨[], some l⟩ = l.text ++ [] := rfl
      have hemitted : (Source.all ⟨[], some l⟩).flatMap Line.emitted = l.emitted :=
        List.append_nil _
      obtain ⟨c, s, hs, -⟩ := l.exists_text_eq
      rw [htext, List.append_nil, hs, List.length_cons] at hfuel
      rw [hemitted] at hfit ⊢
      obtain ⟨k, rfl⟩ := Nat.exists_eq_add_of_le' (Nat.lt_of_lt_of_le (Nat.succ_pos _) hfuel)
      rw [htext, loop_line k n l (by simp), emit_fits hfit]
      cases k <;> rfl
  | cons l lines ih =>
    have htext : Source.text ⟨l :: lines, last⟩ =
        l.text ++ nl :: Source.text ⟨lines, last⟩ := by
      simp [Source.text]
    have hemitted : (Source.all ⟨l :: lines, last⟩).flatMap Line.emitted =
        l.emitted ++ (Source.all ⟨lines, last⟩).flatMap Line.emitted := List.flatMap_cons
    rw [htext, List.length_append, List.length_cons] at hfuel
    rw [hemitted, List.length_append] at hfit
    obtain ⟨k, rfl⟩ : ∃ k, fuel = k + 1 := ⟨fuel - 1, by omega⟩
    rw [htext, loop_line k n l (by simp), emit_fits (by omega), hemitted]
    change loop k (n + 1) (Source.text ⟨lines, last⟩) (out ++ l.emitted) = _
    rw [ih (by omega) (by rw [List.length_append]; omega), List.append_assoc]

theorem Imm.text_pos (imm : Imm) : 0 < imm.text.length := by
  obtain ⟨c, s, hs, -⟩ := imm.exists_text_eq
  rw [hs]
  exact Nat.succ_pos _

theorem length_regText (r : Reg) : (regText r).length = 3 := by
  cases r <;> rfl

theorem length_operands (hname : name.length = 4) (r : Reg) (gap : Blanks) (t : Text) :
    8 + t.length ≤ (name ++ (regText r ++ comma :: (gap.1 ++ t))).length := by
  simp only [List.length_append, List.length_cons, hname, length_regText]
  omega

/-- A line has at least seven characters, with its newline, for five bytes. -/
theorem Line.length_emitted_le (l : Line) : 7 * l.emitted.length ≤ 5 * (l.text.length + 1) := by
  cases l with
  | mov r gap imm =>
    have hlen : 8 + imm.text.length ≤ (Line.mov r gap imm).text.length :=
      length_operands rfl r gap imm.text
    change 7 * 5 ≤ _
    omega
  | pushReg r => cases r <;> decide
  | pushImm imm =>
    have hlen : (Line.pushImm imm).text.length = 5 + imm.text.length := List.length_append
    have hpos := imm.text_pos
    change 7 * 5 ≤ _
    omega
  | pop r => cases r <;> decide
  | xor r gap s =>
    have hlen : 8 + (regText s).length ≤ (Line.xor r gap s).text.length :=
      length_operands rfl r gap (regText s)
    have htwo : (Line.xor r gap s).emitted.length = 2 := by
      rw [Line.emitted]
      split_ifs <;> rfl
    omega
  | add r gap imm =>
    have hlen : 8 + imm.text.length ≤ (Line.add r gap imm).text.length :=
      length_operands rfl r gap imm.text
    change 7 * 6 ≤ _
    omega
  | sub r gap imm =>
    have hlen : 8 + imm.text.length ≤ (Line.sub r gap imm).text.length :=
      length_operands rfl r gap imm.text
    change 7 * 6 ≤ _
    omega
  | int imm =>
    have hlen : (Line.int imm).text.length = 4 + imm.text.length := List.length_append
    change 7 * 2 ≤ _
    omega
  | ret => decide
  | nop => decide
  | leave => decide
  | db first rest =>
    have hlen : (Line.db first rest).text.length =
        3 + (first.text ++ listText rest).length := List.length_append
    have hlist := length_listText rest
    have hpos := first.text_pos
    have hemitted : (Line.db first rest).emitted.length = rest.length + 1 :=
      congrArg (· + 1) (List.length_map _)
    rw [List.length_append] at hlen
    omega

theorem length_emitted_source (src : Source) :
    7 * (src.all.flatMap Line.emitted).length ≤ 5 * (src.text.length + 1) := by
  obtain ⟨lines, last⟩ := src
  induction lines with
  | nil =>
    cases last with
    | none => decide
    | some l =>
      have hemitted : (Source.all ⟨[], some l⟩).flatMap Line.emitted = l.emitted :=
        List.append_nil _
      have htext : Source.text ⟨[], some l⟩ = l.text := List.append_nil _
      rw [hemitted, htext]
      exact l.length_emitted_le
  | cons l lines ih =>
    have htext : Source.text ⟨l :: lines, last⟩ =
        l.text ++ nl :: Source.text ⟨lines, last⟩ := by
      simp [Source.text]
    have hemitted : (Source.all ⟨l :: lines, last⟩).flatMap Line.emitted =
        l.emitted ++ (Source.all ⟨lines, last⟩).flatMap Line.emitted := List.flatMap_cons
    have hl := l.length_emitted_le
    rw [htext, hemitted, List.length_append, List.length_append, List.length_cons]
    omega

theorem length_hdr : hdr.length = 256 := by
  unfold hdr
  rw [List.length_append, List.length_replicate]
  rfl

theorem source_text (src : Source) (hread : src.text.length ≤ 32767) :
    source src.text = src.text := by
  rw [source, List.take_of_length_le hread, List.takeWhile_eq_self_iff]
  intro c hc
  refine bne_iff_ne.mpr fun h ↦ ?_
  have hline : ∀ l : Line, ∀ c ∈ l.text, c ≠ 0 := fun l c hc h ↦
    absurd (l.isPlain_text c hc) (h ▸ by decide)
  rcases List.mem_append.mp hc with hc | hc
  · obtain ⟨l, -, hc⟩ := List.mem_flatMap.mp hc
    rcases List.mem_append.mp hc with hc | hc
    · exact hline l c hc h
    · rw [List.mem_singleton.mp hc] at h
      exact absurd h (by decide)
  · obtain ⟨l, -, hc⟩ := List.mem_flatMap.mp hc
    exact hline l c hc h

/-- What is to hold of a run of the assembler: it reports an error, or every line has an encoding
and the image has these encodings behind the header. -/
def Assembles (lines : List Line) : Except Fault (List UInt8) → Prop
  | .ok image => (∀ l ∈ lines, l.Encodable) ∧ image.drop 0x100 = lines.flatMap Line.encoding
  | .error (.syntaxError _ _) => True
  | .error _ => False

/-- The assembler writes what it emits for the lines. -/
theorem assemble_text (src : Source) (hread : src.text.length ≤ 32767) :
    ∃ image, assemble src.text = .ok image ∧
      image.drop 0x100 = src.all.flatMap Line.emitted := by
  have hsize := length_emitted_source src
  have hloop : loop (source src.text).length 1 (source src.text) hdr =
      .ok (hdr ++ src.all.flatMap Line.emitted) := by
    rw [source_text src hread]
    exact loop_source le_rfl (by rw [length_hdr]; change _ + (src.all.flatMap _).length ≤ _; omega)
  have hlen : 256 ≤ (hdr ++ src.all.flatMap Line.emitted).length := by
    rw [List.length_append, length_hdr]
    exact Nat.le_add_right _ _
  refine ⟨_, by rw [assemble, hloop]; rfl, ?_⟩
  rw [p32, p32, drop_setWord (by rw [length_setWord (by omega)]; omega) (by decide),
    drop_setWord (by omega) (by decide), List.drop_left' length_hdr]

theorem length_encoding (l : Line) : l.encoding.length = l.emitted.length := by
  cases l with
  | xor r gap s =>
    rw [Line.emitted]
    split_ifs <;> rfl
  | _ => rfl

/-- With a blank behind the comma, the second byte of `xor` is not that of two registers. -/
theorem emitted_eq_iff (l : Line) : l.emitted = l.encoding ↔ l.Tight := by
  cases l with
  | xor r gap s =>
    rw [Line.emitted, Line.Tight]
    split_ifs with hgap
    · exact iff_of_true rfl hgap
    · refine iff_of_false ?_ hgap
      change ¬[0x31, 0xB8 + r.code] = encode (.xorReg r s)
      cases r <;> cases s <;> decide
  | _ => exact iff_of_true rfl trivial

theorem flatMap_emitted_eq_iff (lines : List Line) :
    lines.flatMap Line.emitted = lines.flatMap Line.encoding ↔ ∀ l ∈ lines, l.Tight := by
  induction lines with
  | nil => simp
  | cons l lines ih =>
    rw [List.flatMap_cons, List.flatMap_cons, List.forall_mem_cons, ← ih, ← emitted_eq_iff]
    constructor
    · exact fun h ↦ List.append_inj h (length_encoding l).symm
    · rintro ⟨hl, hlines⟩
      rw [hl, hlines]

/-- The image of a source with such a line is wrong. -/
theorem not_assembles {src : Source} (hread : src.text.length ≤ 32767) {l : Line}
    (hl : l ∈ src.all) (hblank : ¬l.Tight) : ¬Assembles src.all (assemble src.text) := by
  obtain ⟨image, himage, hdrop⟩ := assemble_text src hread
  rw [himage, Assembles, hdrop, flatMap_emitted_eq_iff]
  exact fun h ↦ hblank (h.2 l hl)

/-- The assembler reports an error or writes the encodings of the lines if and only if all numbers
fit into their fields and no `xor` has a blank behind its comma. -/
theorem fasm_assembles_iff (src : Source) (hread : src.text.length ≤ 32767) :
    Assembles src.all (assemble src.text) ↔ ∀ l ∈ src.all, l.Encodable ∧ l.Tight := by
  obtain ⟨image, himage, hdrop⟩ := assemble_text src hread
  rw [himage, Assembles, hdrop, flatMap_emitted_eq_iff]
  exact ⟨fun h l hl ↦ ⟨h.1 l hl, h.2 l hl⟩, fun h ↦ ⟨fun l hl ↦ (h l hl).1, fun l hl ↦ (h l hl).2⟩⟩

/-- The blank that is usual behind a comma. -/
def blank : Blanks := ⟨[0x20], List.all_eq_true.mp rfl⟩

/-- The source `hello.s`. -/
def hello : Source where
  lines := [.mov .eax blank (.dec false [0x31] (by decide) (List.all_eq_true.mp rfl)),
    .mov .ebx blank (.dec false [0x34, 0x32] (by decide) (List.all_eq_true.mp rfl))]
  last := some (.int (.hex false [0x39, 0x30] (by decide) (List.all_eq_true.mp rfl)))

theorem fasm_assembles_iff_hello : Assembles hello.all (assemble hello.text) := by
  have hread : hello.text.length ≤ 32767 := by decide
  rw [fasm_assembles_iff hello hread]
  refine fun l hl ↦ ⟨?_, ?_⟩
  · revert l
    decide
  · rw [← emitted_eq_iff]
    revert l
    decide

/-- `xor eax, eax` is assembled to the bytes `31` and `B8`. -/
theorem xor_behind_blank : ∃ src : Source, src.text = keyword "xor eax, eax" ∧
    ¬Assembles src.all (assemble src.text) := by
  have hread : (Source.text ⟨[], some (.xor .eax blank .eax)⟩).length ≤ 32767 := by decide
  exact ⟨_, rfl, not_assembles hread List.mem_cons_self (List.cons_ne_nil _ _)⟩

end FentoOS.Fasm
