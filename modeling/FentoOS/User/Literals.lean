import FentoOS.User.Emission

/-!
# The literals of a compiled program

A program that is a sequence of calls of `puts` and `printf` with one literal each.  A literal has
characters that stand for themselves and the escapes for a newline, a tabulator, a backslash and a
quote.  The compiler copies the characters of all literals to one buffer, which follows the code
in the image, and the code of a call has the address and the length of its own.

The loop that copies a literal steps over the backslash of `\n` and `\t` but not over the letter,
so that the letter is copied behind the character.  `literal_cut` says what it copies; but for the
room in the buffer, the program writes what it should if and only if neither escape occurs.
-/

namespace FentoOS.Fcc

open FentoOS.Lib FentoOS.Lib.X86 FentoOS.Libc

/-! ## Literals -/

/-- What stands for one character between the quotes of a literal. -/
inductive LitChar
  | plain (c : UInt8) (hquote : c ≠ quote) (hbackslash : c ≠ backslash) (hnul : c ≠ 0)
  | newline
  | tab
  | backslash
  | quote
deriving DecidableEq

/-- How it is written. -/
def LitChar.spelling : LitChar → Text
  | .plain c _ _ _ => [c]
  | .newline => [Fcc.backslash, 'n'.toUInt8]
  | .tab => [Fcc.backslash, 't'.toUInt8]
  | .backslash => [Fcc.backslash, Fcc.backslash]
  | .quote => [Fcc.backslash, Fcc.quote]

/-- The character that it stands for. -/
def LitChar.value : LitChar → UInt8
  | .plain c _ _ _ => c
  | .newline => nl
  | .tab => '\t'.toUInt8
  | .backslash => Fcc.backslash
  | .quote => Fcc.quote

/-- What the compiler copies for it. -/
def LitChar.copied : LitChar → List UInt8
  | .newline => [nl, 'n'.toUInt8]
  | .tab => ['\t'.toUInt8, 't'.toUInt8]
  | c => [c.value]

/-- It is `\n` or `\t`. -/
def LitChar.isControl : LitChar → Bool
  | .newline => true
  | .tab => true
  | _ => false

/-- The letter behind the backslash of `\n` and `\t`. -/
def LitChar.letter : LitChar → UInt8
  | .tab => 't'.toUInt8
  | _ => 'n'.toUInt8

section

variable {c : LitChar}

theorem LitChar.copied_plain (h : c.isControl = false) : c.copied = [c.value] := by
  cases c with
  | plain => rfl
  | newline => cases h
  | tab => cases h
  | backslash => rfl
  | quote => rfl

theorem LitChar.copied_control (h : c.isControl = true) :
    c.copied = [c.value, c.letter] ∧ c.spelling = [Fcc.backslash, c.letter] := by
  cases c with
  | plain => cases h
  | newline => exact ⟨rfl, rfl⟩
  | tab => exact ⟨rfl, rfl⟩
  | backslash => cases h
  | quote => cases h

theorem LitChar.letter_cases (c : LitChar) :
    c.letter = 'n'.toUInt8 ∨ c.letter = 't'.toUInt8 := by
  cases c with
  | tab => exact .inr rfl
  | _ => exact .inl rfl

/-- Only the letter itself stands for `n` or `t`. -/
theorem LitChar.spelling_letter (d : LitChar) (h : c.value = d.letter) :
    c.isControl = false ∧ c.spelling = [d.letter] := by
  cases c with
  | plain c => exact ⟨rfl, congrArg (fun c ↦ [c]) h⟩
  | _ => rcases d.letter_cases with hd | hd <;> exact absurd (h.trans hd) (by decide)

end

section

variable {c d : UInt8} {p : Text} {sl : Nat}

theorem literal_quote (p : Text) (sl : Nat) : literal (quote :: p) sl = ([], quote :: p) := by
  cases p with
  | nil => exact if_pos (Or.inl rfl)
  | cons d p => exact if_pos (Or.inl rfl)

theorem literal_plain (hquote : c ≠ quote) (hbackslash : c ≠ backslash) (p : Text)
    (hsl : sl < 8190) :
    literal (c :: p) sl = (c :: (literal p (sl + 1)).1, (literal p (sl + 1)).2) := by
  have hgo : ¬(c = quote ∨ ¬sl < 8190) := fun h ↦ h.elim hquote fun h ↦ h hsl
  cases p with
  | nil => exact if_neg hgo
  | cons d p => rw [literal, if_neg hgo, if_neg hbackslash]

theorem literal_control (c : LitChar) (hc : c.isControl = true) (p : Text) (hsl : sl < 8190) :
    literal (backslash :: c.letter :: p) sl =
      (c.value :: (literal (c.letter :: p) (sl + 1)).1, (literal (c.letter :: p) (sl + 1)).2) := by
  have hgo : ¬(backslash = quote ∨ ¬sl < 8190) := fun h ↦ h.elim (by decide) fun h ↦ h hsl
  rw [literal, if_neg hgo, if_pos rfl]
  cases c with
  | newline => exact if_pos rfl
  | tab => exact (if_neg (by decide)).trans (if_pos rfl)
  | _ => cases hc

theorem literal_letter (c : LitChar) (p : Text) (hsl : sl < 8190) : literal (c.letter :: p) sl =
    (c.letter :: (literal p (sl + 1)).1, (literal p (sl + 1)).2) := by
  rcases c.letter_cases with hc | hc <;> rw [hc] <;>
    exact literal_plain (by decide) (by decide) p hsl

theorem literal_escape (hn : d ≠ 'n'.toUInt8) (ht : d ≠ 't'.toUInt8) (p : Text)
    (hsl : sl < 8190) : literal (backslash :: d :: p) sl =
      (d :: (literal p (sl + 1)).1, (literal p (sl + 1)).2) := by
  have hgo : ¬(backslash = quote ∨ ¬sl < 8190) := fun h ↦ h.elim (by decide) fun h ↦ h hsl
  rw [literal, if_neg hgo, if_pos rfl, if_neg hn, if_neg ht]

end

variable {sl : Nat}

/-- The loop on what stands for one character: it copies the character, and for `\n` and `\t` the
letter as well, as long as there is room. -/
theorem literal_spelling (c : LitChar) (p : Text) (hsl : sl + c.copied.length ≤ 8190) :
    literal (c.spelling ++ p) sl =
      (c.copied ++ (literal p (sl + c.copied.length)).1,
        (literal p (sl + c.copied.length)).2) := by
  by_cases hc : c.isControl = true
  · obtain ⟨hcopied, hspelling⟩ := c.copied_control hc
    rw [hcopied] at hsl ⊢
    change sl + 2 ≤ 8190 at hsl
    rw [hspelling, List.cons_append, List.cons_append, literal_control c hc _ (by omega),
      literal_letter c _ (by omega)]
    rfl
  · cases c with
    | plain c hquote hbackslash =>
      exact literal_plain hquote hbackslash p (Nat.lt_of_succ_le hsl)
    | newline => exact absurd rfl hc
    | tab => exact absurd rfl hc
    | backslash => exact literal_escape (by decide) (by decide) p (Nat.lt_of_succ_le hsl)
    | quote => exact literal_escape (by decide) (by decide) p (Nat.lt_of_succ_le hsl)

/-- The loop on characters for which there is room. -/
theorem literal_spelled (l : List LitChar) (p : Text)
    (hsl : sl + (l.flatMap LitChar.copied).length ≤ 8190) :
    literal (l.flatMap LitChar.spelling ++ p) sl =
      (l.flatMap LitChar.copied ++ (literal p (sl + (l.flatMap LitChar.copied).length)).1,
        (literal p (sl + (l.flatMap LitChar.copied).length)).2) := by
  induction l generalizing sl with
  | nil => rfl
  | cons c l ih =>
    rw [List.flatMap_cons, List.length_append] at hsl
    rw [List.flatMap_cons, List.flatMap_cons, List.append_assoc, literal_spelling c _ (by omega),
      ih (by omega), List.append_assoc, List.length_append, Nat.add_assoc]

theorem literal_full (p : Text) (hsl : ¬sl < 8190) : literal p sl = ([], p) := by
  cases p with
  | nil => rfl
  | cons c p =>
    cases p with
    | nil => exact if_pos (.inr hsl)
    | cons d p => exact if_pos (.inr hsl)

/-- On any literal the loop copies as much as there is room for. -/
theorem literal_cut (l : List LitChar) (p : Text) (sl : Nat) :
    (literal (l.flatMap LitChar.spelling ++ quote :: p) sl).1 =
      (l.flatMap LitChar.copied).take (8190 - sl) := by
  induction l generalizing sl with
  | nil => rw [List.flatMap_nil, List.nil_append, literal_quote, List.flatMap_nil, List.take_nil]
  | cons c l ih =>
    rw [List.flatMap_cons, List.flatMap_cons, List.append_assoc, List.take_append]
    by_cases hfit : sl + c.copied.length ≤ 8190
    · have hall : c.copied.take (8190 - sl) = c.copied := List.take_of_length_le (by omega)
      rw [literal_spelling c _ hfit, ih, hall, Nat.sub_sub]
    by_cases hfull : sl < 8190
    · -- Only an escape that is copied as two characters can find room for one.
      have hcontrol : c.isControl = true := by
        by_contra hplain
        rw [c.copied_plain (Bool.eq_false_of_not_eq_true hplain)] at hfit
        exact hfit hfull
      obtain ⟨hcopied, hspelling⟩ := c.copied_control hcontrol
      rw [hcopied] at hfit ⊢
      change ¬sl + 2 ≤ 8190 at hfit
      rw [hspelling, List.cons_append, List.cons_append, literal_control c hcontrol _ hfull,
        literal_full _ (by omega), show 8190 - sl = 1 by omega]
      rfl
    · rw [literal_full _ hfull, Nat.sub_eq_zero_of_le (by omega), Nat.zero_sub]
      rfl

/-- The loop stops behind as many letters as there is room for. -/
theorem literal_letters (d : LitChar) (k : Nat) (p : Text) (hsl : sl + k = 8190) :
    literal (List.replicate k d.letter ++ p) sl = (List.replicate k d.letter, p) := by
  induction k generalizing sl with
  | zero => exact literal_full p (by omega)
  | succ k ih =>
    rw [List.replicate_succ, List.cons_append, literal_letter d _ (by omega), ih (by omega)]

/-- A literal without `\n` and `\t`. -/
def Plain (l : List LitChar) : Prop := ∀ c ∈ l, c.isControl = false

instance (l : List LitChar) : Decidable (Plain l) := inferInstanceAs (Decidable (∀ _ ∈ _, _))

/-- A literal with one `\n` or `\t`, behind which it has only the letter of the escape. -/
def Doubled (l : List LitChar) : Prop :=
  ∃ a c b, l = a ++ c :: b ∧ Plain a ∧ c.isControl = true ∧ ∀ d ∈ b, d.value = c.letter

/-- A literal of which the loop keeps the value, with `n` places left: there is room and it has no
`\n` and no `\t`, or the letter that is copied twice is the last one and finds no room. -/
def Kept (n : Nat) (l : List LitChar) : Prop :=
  (Plain l ∧ l.length ≤ n) ∨ (Doubled l ∧ l.length = n)

section

variable {c : LitChar} {l : List LitChar} {n : Nat}

theorem plain_nil : Plain [] := fun _ h ↦ absurd h List.not_mem_nil

theorem flatMap_copied (h : Plain l) : l.flatMap LitChar.copied = l.map LitChar.value := by
  induction l with
  | nil => rfl
  | cons c l ih =>
    obtain ⟨hc, hl⟩ := List.forall_mem_cons.mp h
    rw [List.flatMap_cons, List.map_cons, ih hl, c.copied_plain hc]
    rfl

theorem doubled_cons : Doubled (c :: l) ↔
    (c.isControl = true ∧ ∀ d ∈ l, d.value = c.letter) ∨ (c.isControl = false ∧ Doubled l) := by
  constructor
  · rintro ⟨a, x, b, heq, ha, hx, hb⟩
    cases a with
    | nil =>
      obtain ⟨rfl, rfl⟩ := List.cons.inj heq
      exact .inl ⟨hx, hb⟩
    | cons d a =>
      obtain ⟨rfl, rfl⟩ := List.cons.inj heq
      obtain ⟨hc, ha⟩ := List.forall_mem_cons.mp ha
      exact .inr ⟨hc, a, x, b, rfl, ha, hx, hb⟩
  · rintro (⟨hc, hl⟩ | ⟨hc, a, x, b, rfl, ha, hx, hb⟩)
    · exact ⟨[], c, l, rfl, plain_nil, hc, hl⟩
    · exact ⟨c :: a, x, b, rfl, List.forall_mem_cons.mpr ⟨hc, ha⟩, hx, hb⟩

/-- One letter more, cut off at `n`, is the value of the letters. -/
theorem take_letter_iff (c : LitChar) (l : List LitChar) (n : Nat) :
    (c.letter :: l.flatMap LitChar.copied).take n = l.map LitChar.value ↔
      (∀ d ∈ l, d.value = c.letter) ∧ l.length = n := by
  induction l generalizing n with
  | nil => cases n <;> simp
  | cons d l ih =>
    cases n with
    | zero => simp
    | succ n =>
      have hcopied : d.value = c.letter → d.copied = [c.letter] := fun hd ↦ by
        rw [d.copied_plain (LitChar.spelling_letter c hd).1, hd]
      rw [List.take_succ_cons, List.map_cons, List.cons.injEq, List.forall_mem_cons,
        List.length_cons, Nat.succ_inj, eq_comm, and_assoc]
      refine and_congr_right fun hd ↦ ?_
      rw [List.flatMap_cons, hcopied hd, List.singleton_append, ih]

/-- What is copied, cut off at `n`, is the value. -/
theorem take_copied_iff (l : List LitChar) (n : Nat) :
    (l.flatMap LitChar.copied).take n = l.map LitChar.value ↔ Kept n l := by
  induction l generalizing n with
  | nil => exact iff_of_true List.take_nil (.inl ⟨plain_nil, Nat.zero_le n⟩)
  | cons c l ih =>
    cases n with
    | zero => simp [Kept]
    | succ n =>
      have hplain : Plain (c :: l) ↔ c.isControl = false ∧ Plain l := List.forall_mem_cons
      rw [Kept, doubled_cons, hplain, List.length_cons, Nat.succ_inj, Nat.succ_le_succ_iff,
        List.flatMap_cons, List.map_cons]
      cases hc : c.isControl with
      | false =>
        rw [c.copied_plain hc, List.singleton_append, List.take_succ_cons, List.cons.injEq,
          and_iff_right rfl, ih, Kept]
        simp
      | true =>
        rw [(c.copied_control hc).1, List.cons_append, List.take_succ_cons, List.cons.injEq,
          and_iff_right rfl, List.singleton_append, take_letter_iff]
        simp

/-- A literal of which the value is kept: the loop stops at the quote, or in front of one letter. -/
theorem literal_kept (h : Kept (8190 - sl) l) (p : Text) :
    ∃ q, literal (l.flatMap LitChar.spelling ++ quote :: p) sl = (l.map LitChar.value, q) ∧
      (q = quote :: p ∨ ∃ c : LitChar, q = c.letter :: quote :: p) := by
  refine ⟨_, Prod.ext ((literal_cut l p sl).trans ((take_copied_iff l _).mpr h)) rfl, ?_⟩
  rcases h with ⟨hplain, hlen⟩ | ⟨⟨a, c, b, rfl, ha, hc, hb⟩, hlen⟩
  · left
    cases l with
    | nil => rw [List.flatMap_nil, List.nil_append, literal_quote]
    | cons c l =>
      have hfit : sl + ((c :: l).flatMap LitChar.copied).length ≤ 8190 := by
        rw [flatMap_copied hplain, List.length_map]
        rw [List.length_cons] at hlen ⊢
        omega
      rw [literal_spelled _ _ hfit, literal_quote]
  · right
    have hletters : b.flatMap LitChar.spelling = List.replicate b.length c.letter := by
      clear hlen
      induction b with
      | nil => rfl
      | cons d b ih =>
        obtain ⟨hd, hb⟩ := List.forall_mem_cons.mp hb
        rw [List.flatMap_cons, (LitChar.spelling_letter c hd).2, ih hb]
        rfl
    rw [List.length_append, List.length_cons] at hlen
    have hcopied := flatMap_copied ha
    refine ⟨c, ?_⟩
    rw [List.flatMap_append, List.flatMap_cons, List.append_assoc, (c.copied_control hc).2,
      literal_spelled a _ (by rw [hcopied, List.length_map]; omega), hcopied, List.length_map,
      List.append_assoc, List.cons_append, List.cons_append, literal_control c hc _ (by omega),
      List.nil_append, hletters, ← List.cons_append, ← List.replicate_succ,
      List.replicate_succ', List.append_assoc, List.singleton_append,
      literal_letters c _ _ (by omega)]

end

/-! ## Programs -/

/-- A call of `puts` or of `printf`, the text in front of it, and what is between the name and the
literal. -/
structure Call where
  before : Text
  newline : Bool
  gap : Text
  lit : List LitChar
  before_nul : 0 ∉ before
  gap_nul : 0 ∉ gap
  gap_quote : quote ∉ gap

/-- The name that is called: `puts` adds a newline. -/
def Call.name (c : Call) : Text := if c.newline then putsName else printfName

/-- What the call is to write. -/
def Call.output (c : Call) : List UInt8 := Fcc.output c.newline (c.lit.map LitChar.value)

/-- The call itself, with some text behind it. -/
def Call.text (c : Call) (q : Text) : Text :=
  c.name ++ (c.gap ++ quote :: (c.lit.flatMap LitChar.spelling ++ quote :: q))

/-- The text of calls with some text behind them. -/
def callsText : List Call → Text → Text
  | [], tail => tail
  | c :: l, tail => c.before ++ c.text (callsText l tail)

/-- A program: at most 64 calls, with fewer than 8190 characters in their literals. -/
structure Program where
  calls : List Call
  tail : Text
  tail_nul : 0 ∉ tail
  atMost : calls.length ≤ 64
  decoded : (calls.map (·.lit.length)).sum < 8190

def Program.text (p : Program) : Text := callsText p.calls p.tail

/-- The compiler takes the text for a call or for a `return`. -/
def Recognised (p : Text) : Prop :=
  ((putsName.isPrefixOf p ∨ printfName.isPrefixOf p) ∧ quote ∈ p) ∨
    (returnName.isPrefixOf p ∧ ¬isalnum (p.getD 6 0))

instance (p : Text) : Decidable (Recognised p) := inferInstanceAs (Decidable (_ ∨ _))

/-- No place of `t` is taken for a call or for a `return`, with `q` behind it. -/
def Passed (t q : Text) : Prop := ∀ s ∈ t.tails, s ≠ [] → ¬Recognised (s ++ q)

instance (t q : Text) : Decidable (Passed t q) := inferInstanceAs (Decidable (∀ _ ∈ _, _))

/-- Nor is any place outside of the calls. -/
def CallsFree (tail : Text) : List Call → Prop
  | [] => Passed tail []
  | c :: l => Passed c.before (c.text (callsText l tail)) ∧ CallsFree tail l

/-- The values of the literals are kept when `sl` characters are in the buffer, and the newlines
find room as well. -/
def CallsKept : Nat → List Call → Prop
  | _, [] => True
  | sl, c :: l => Kept (8190 - sl) c.lit ∧ sl + c.output.length ≤ 8192 ∧
    CallsKept (sl + c.output.length) l

variable {l : List Call} {tail : Text}

/-! ## The scan -/

section

variable {p q : Text} {sl : Nat} {c : UInt8}

theorem statementsF_fuel {m n : Nat} (hm : p.length ≤ m) (hn : p.length ≤ n) (sl : Nat) :
    statementsF m p sl = statementsF n p sl := by
  induction m generalizing n p sl with
  | zero =>
    obtain rfl := List.eq_nil_of_length_eq_zero (Nat.le_zero.mp hm)
    cases n <;> rfl
  | succ m ih =>
    cases p with
    | nil => cases n <;> rfl
    | cons c p =>
      obtain ⟨n, rfl⟩ := Nat.exists_eq_add_of_lt (Nat.lt_of_lt_of_le (Nat.succ_pos _) hn)
      rw [statementsF, statementsF]
      cases hrec : recognise (c :: p) sl with
      | error f => rfl
      | ok r =>
        have hm' := (recognise_length hrec).trans (Nat.le_of_succ_le_succ hm)
        have hn' := (recognise_length hrec).trans (Nat.le_of_succ_le_succ hn)
        obtain ⟨stmt, q⟩ := r
        cases stmt with
        | none => exact ih hm' hn' sl
        | some stmt =>
          cases stmt with
          | call newline lit =>
            dsimp only
            rw [ih hm' hn']
          | ret v =>
            dsimp only
            rw [ih hm' hn']

/-- The statements in a text, with `sl` characters in the buffer. -/
def scan (p : Text) (sl : Nat) : List Stmt × Bool := statementsF p.length p sl

theorem scan_skip (h : recognise (c :: p) sl = .ok (none, q)) : scan (c :: p) sl = scan q sl := by
  rw [scan, List.length_cons, statementsF, h]
  exact statementsF_fuel (recognise_length h) le_rfl sl

theorem scan_call {newline : Bool} {lit : List UInt8} (hp : p ≠ [])
    (h : recognise p sl = .ok (some (.call newline lit), q)) :
    scan p sl = (.call newline lit :: (scan q (sl + (output newline lit).length)).1,
      (scan q (sl + (output newline lit).length)).2) := by
  obtain ⟨c, p, rfl⟩ := List.exists_cons_of_ne_nil hp
  rw [scan, List.length_cons, statementsF, h]
  dsimp only
  rw [statementsF_fuel (recognise_length h) le_rfl]
  rfl

theorem scan_passed (h : ¬Recognised (c :: p)) : scan (c :: p) sl = scan p sl := by
  obtain ⟨hcall, hret⟩ := not_or.mp h
  refine scan_skip ?_
  rw [recognise, if_neg hcall, if_neg hret]
  rfl

/-- The scan passes over a text that is not taken for a statement. -/
theorem scan_filler {t : Text} (ht : Passed t q) (sl : Nat) : scan (t ++ q) sl = scan q sl := by
  induction t with
  | nil => rfl
  | cons c t ih =>
    rw [Passed, List.tails_cons, List.forall_mem_cons] at ht
    exact (scan_passed (ht.1 (List.cons_ne_nil c t))).trans (ih ht.2)

/-- The statements begin with `p` or `r`. -/
theorem scan_other (hc : c = quote ∨ c = 'n'.toUInt8 ∨ c = 't'.toUInt8) :
    scan (c :: p) sl = scan p sl := by
  refine scan_passed ?_
  rintro (⟨hputs | hprintf, -⟩ | ⟨hret, -⟩)
  · obtain ⟨x, hx⟩ := List.isPrefixOf_iff_prefix.mp hputs
    obtain rfl : 'p'.toUInt8 = c := Option.some.inj (congrArg List.head? hx)
    exact absurd hc (by decide)
  · obtain ⟨x, hx⟩ := List.isPrefixOf_iff_prefix.mp hprintf
    obtain rfl : 'p'.toUInt8 = c := Option.some.inj (congrArg List.head? hx)
    exact absurd hc (by decide)
  · obtain ⟨x, hx⟩ := List.isPrefixOf_iff_prefix.mp hret
    obtain rfl : 'r'.toUInt8 = c := Option.some.inj (congrArg List.head? hx)
    exact absurd hc (by decide)

theorem recognise_name (c : Call) (r : Text) (sl : Nat) :
    recognise (c.name ++ (c.gap ++ quote :: r)) sl =
      .ok (some (.call c.newline (literal r sl).1), (literal r sl).2) := by
  have hputs : putsName.isPrefixOf (c.name ++ (c.gap ++ quote :: r)) = c.newline := by
    unfold Call.name
    cases c.newline with
    | true => rfl
    | false => rfl
  have hname : putsName.isPrefixOf (c.name ++ (c.gap ++ quote :: r)) ∨
      printfName.isPrefixOf (c.name ++ (c.gap ++ quote :: r)) := by
    unfold Call.name
    cases c.newline with
    | true => exact Or.inl rfl
    | false => exact Or.inr rfl
  have hquote : quote ∉ c.name ++ c.gap := by
    rw [List.mem_append, not_or]
    refine ⟨?_, c.gap_quote⟩
    unfold Call.name
    cases c.newline with
    | true => decide
    | false => decide
  have hdrop : (c.name ++ (c.gap ++ quote :: r)).dropWhile (· ≠ quote) = quote :: r := by
    rw [← List.append_assoc, List.dropWhile_append_of_pos]
    · rw [List.dropWhile_cons_of_neg (by simp)]
    · intro d hd
      exact decide_eq_true fun h ↦ hquote (h ▸ hd)
  rw [recognise, if_pos ⟨hname, by simp⟩, hputs, hdrop]
  rfl

/-- The scan of a call. -/
theorem scan_callsText (c : Call) (l : List Call) (tail : Text)
    (hfree : Passed c.before (c.text (callsText l tail))) (sl : Nat) {lit : List UInt8} {q : Text}
    (hlit : literal (c.lit.flatMap LitChar.spelling ++ quote :: callsText l tail) sl = (lit, q)) :
    scan (callsText (c :: l) tail) sl =
      (.call c.newline lit :: (scan q (sl + (output c.newline lit).length)).1,
        (scan q (sl + (output c.newline lit).length)).2) := by
  rw [callsText, scan_filler hfree]
  refine scan_call (fun h ↦ ?_) ?_
  · rw [Call.text, List.append_eq_nil_iff, Call.name] at h
    cases hnl : c.newline <;> rw [hnl] at h <;> cases h.1
  · rw [Call.text, recognise_name, hlit]

/-- The scan of a call with a literal of which the value is kept. -/
theorem scan_kept (c : Call) (l : List Call) (tail : Text)
    (hfree : Passed c.before (c.text (callsText l tail))) (h : Kept (8190 - sl) c.lit) :
    scan (callsText (c :: l) tail) sl =
      (.call c.newline (c.lit.map LitChar.value) ::
          (scan (callsText l tail) (sl + c.output.length)).1,
        (scan (callsText l tail) (sl + c.output.length)).2) := by
  obtain ⟨q, hlit, hq⟩ := literal_kept h (callsText l tail)
  have hrest : scan q (sl + c.output.length) = scan (callsText l tail) (sl + c.output.length) := by
    rcases hq with rfl | ⟨d, rfl⟩
    · exact scan_other (.inl rfl)
    · rw [scan_other (.inr d.letter_cases), scan_other (.inl rfl)]
  rw [scan_callsText c l tail hfree sl hlit]
  change (_ :: (scan q (sl + c.output.length)).1, (scan q (sl + c.output.length)).2) = _
  rw [hrest]

/-- The calls are recognised with the values of their literals. -/
theorem scan_calls (hfree : CallsFree tail l) (hkept : CallsKept sl l) :
    scan (callsText l tail) sl =
    (l.map fun c ↦ .call c.newline (c.lit.map LitChar.value), false) := by
  induction l generalizing sl with
  | nil =>
    have h := scan_filler hfree sl
    rwa [List.append_nil] at h
  | cons c l ih => rw [scan_kept c l tail hfree.1 hkept.1, ih hfree.2 hkept.2.2]; rfl

end

/-! ## The calls in the image -/

/-- A call of `write` for the descriptor 1, with an address and a length. -/
def writeCall (w : UInt32 × UInt32) : List UInt8 :=
  [Instr.movImm .eax 4, .movImm .ebx 1, .movImm .ecx w.1, .movImm .edx w.2, .int 0x90].flatMap
    encode

/-- The address and the length are those of some bytes inside an image that is loaded at
`0x08048000`. -/
structure Names (bytes : List UInt8) (w : UInt32 × UInt32) (out : List UInt8) : Prop where
  base : 0x08048000 ≤ w.1.toNat
  length : w.2.toNat = out.length
  inside : w.1.toNat - 0x08048000 + out.length ≤ bytes.length
  slice : (bytes.drop (w.1.toNat - 0x08048000)).take out.length = out

/-- The code of an image is one call of `write` for each of the outputs, in order, and the sizes in
the program header are the length of the image. -/
structure Writes (img : Image) (outs : List (List UInt8)) : Prop where
  code : ∃ ws exit, (img.bytes.take img.codeEnd).drop 0x100 = ws.flatMap writeCall ++ exit ∧
    (exit = [] ∨ exit = exitCode) ∧ List.Forall₂ (Names img.bytes) ws outs
  filesz : (read32 (img.bytes.drop 68)).map (·.1.toNat) = some img.bytes.length
  memsz : (read32 (img.bytes.drop 72)).map (·.1.toNat) = some img.bytes.length

theorem writeCall_inj {w : UInt32 × UInt32} {addr len : UInt32} {l l' : List UInt8}
    (h : callCode addr len ++ l = writeCall w ++ l') : w = (addr, len) ∧ l = l' := by
  have hcode : [Instr.movImm .eax 4, .movImm .ebx 1, .movImm .ecx addr, .movImm .edx len,
      .int 0x90].flatMap encode ++ l = [Instr.movImm .eax 4, .movImm .ebx 1, .movImm .ecx w.1,
      .movImm .edx w.2, .int 0x90].flatMap encode ++ l' := h
  obtain ⟨hinstrs, hrest⟩ := encodes_inj (by rfl) hcode
  simp only [List.cons.injEq, Instr.movImm.injEq, true_and, and_true] at hinstrs
  exact ⟨Prod.ext hinstrs.1.symm hinstrs.2.symm, hrest⟩

theorem Names.unique {bytes out out' : List UInt8} {w : UInt32 × UInt32} (h : Names bytes w out)
    (h' : Names bytes w out') : out = out' := by
  have hlen : out.length = out'.length := h.length.symm.trans h'.length
  rw [← h.slice, ← h'.slice, hlen]

/-! ## Programs whose statements are calls -/

section

variable {L l : List Stmt} {addr : Nat → UInt32}

/-- The calls in the code of statements that are all calls. -/
def writesOf (addr : Nat → UInt32) : Nat → List Stmt → List (UInt32 × UInt32)
  | _, [] => []
  | idx, stmt :: l =>
    (addr idx, .ofNat stmt.output.length) :: writesOf addr (idx + stmt.output.length) l

theorem codeWith_calls (hcalls : ∀ stmt ∈ l, stmt.isCall = true) (idx : Nat) :
    codeWith addr idx l = (writesOf addr idx l).flatMap writeCall := by
  induction l generalizing idx with
  | nil => rfl
  | cons stmt l ih =>
    have hstmt := hcalls stmt List.mem_cons_self
    cases stmt with
    | call newline lit =>
      rw [codeWith, writesOf, List.flatMap_cons,
        ih fun stmt h ↦ hcalls stmt (List.mem_cons_of_mem _ h)]
      rfl
    | ret v => cases hstmt

theorem toNat_address {idx : Nat} (h : stringsAt L + idx ≤ 32768) :
    (address L idx).toNat = 0x08048000 + (stringsAt L + idx) := by
  have hbase : (0x08048000 : UInt32).toNat = 0x08048000 := rfl
  rw [address, UInt32.toNat_add, UInt32.toNat_add, UInt32.toNat_ofNat', UInt32.toNat_ofNat', hbase]
  omega

/-- The `i`-th call has the address and the length of the `i`-th output. -/
theorem forall₂_names {bytes x pre : List UInt8} (hx : x.length = stringsAt L)
    (hbytes : bytes = x ++ (pre ++ l.flatMap Stmt.output)) (hsize : bytes.length ≤ 32768) :
    List.Forall₂ (Names bytes) (writesOf (address L) pre.length l) (l.map Stmt.output) := by
  induction l generalizing pre with
  | nil => exact .nil
  | cons stmt l ih =>
    have hlen := congrArg List.length hbytes
    rw [List.flatMap_cons] at hbytes hlen
    simp only [List.length_append, hx] at hlen
    have haddr := toNat_address (show stringsAt L + pre.length ≤ 32768 by omega)
    have hat : (address L pre.length).toNat - 0x08048000 = (x ++ pre).length := by
      rw [haddr, Nat.add_sub_cancel_left, List.length_append, hx]
    refine .cons ⟨?_, ?_, ?_, ?_⟩ ?_
    · rw [haddr]
      exact Nat.le_add_right _ _
    · exact UInt32.toNat_ofNat_of_lt' (by change _ < 4294967296; omega)
    · rw [hat, List.length_append, hx]
      omega
    · rw [hat, hbytes, ← List.append_assoc, List.drop_left, List.take_left]
    · rw [← List.append_assoc pre] at hbytes
      have hrest := ih hbytes
      rwa [List.length_append] at hrest

/-- The sizes are in the words at 68 and at 72. -/
theorem headerWith_split : ∃ a d, a.length = 68 ∧
    ∀ size, headerWith size = a ++ (le32 size ++ (le32 size ++ d)) := by
  have hsplit : header = header.take 68 ++ ((header.drop 68).take 4 ++
      ((header.drop 72).take 4 ++ header.drop 76)) := by
    have h₁ := List.take_append_drop 4 (header.drop 72)
    have h₂ := List.take_append_drop 4 (header.drop 68)
    rw [List.drop_drop] at h₁ h₂
    rw [h₁, h₂, List.take_append_drop]
  have ha : (header.take 68).length = 68 := by rw [List.length_take, length_header]; decide
  have hb : ((header.drop 68).take 4).length = 4 := by
    rw [List.length_take, List.length_drop, length_header]
    decide
  have hc : ((header.drop 72).take 4).length = 4 := by
    rw [List.length_take, List.length_drop, length_header]
    decide
  refine ⟨header.take 68, header.drop 76, ha, fun size ↦ ?_⟩
  have hfirst := setWord_length (header.take 68) hb
    ((header.drop 72).take 4 ++ header.drop 76) size
  have hsecond := setWord_length (header.take 68 ++ le32 size) hc (header.drop 76) size
  rw [← hsplit, ha] at hfirst
  rw [List.length_append, ha, length_le32, List.append_assoc, List.append_assoc] at hsecond
  rw [headerWith, patch32, patch32, hfirst, hsecond]

theorem image_code (l : List Stmt) : ((image l).bytes.take (image l).codeEnd).drop 0x100 =
    codeWith (address l) 0 l ++ ending l := by
  have hlen : (headerWith (.ofNat (stringsAt l + stringSize l)) ++
      (codeWith (address l) 0 l ++ ending l)).length = (image l).codeEnd := by
    rw [List.length_append, length_headerWith, List.length_append, length_codeWith]
    exact (Nat.add_assoc ..).symm
  have hbytes : (image l).bytes = headerWith (.ofNat (stringsAt l + stringSize l)) ++
      (codeWith (address l) 0 l ++ ending l) ++ l.flatMap Stmt.output := by
    rw [image, List.append_assoc, List.append_assoc]
  rw [hbytes, ← hlen, List.take_left,
    ← length_headerWith (.ofNat (stringsAt l + stringSize l)), List.drop_left]

theorem length_image (l : List Stmt) :
    (image l).bytes.length = stringsAt l + stringSize l := by
  rw [image, List.length_append, length_headerWith, List.length_append, length_codeWith,
    List.length_append, stringsAt, ← stringSize]
  omega

/-- Each statement has the address and the length of its output. -/
theorem image_names (hsize : 256 + codeSize l + stringSize l ≤ 32768) :
    List.Forall₂ (Names (image l).bytes) (writesOf (address l) 0 l) (l.map Stmt.output) := by
  have hx : (headerWith (.ofNat (stringsAt l + stringSize l)) ++
      (codeWith (address l) 0 l ++ ending l)).length = stringsAt l := by
    rw [List.length_append, length_headerWith, List.length_append, length_codeWith]
    exact (Nat.add_assoc ..).symm
  change List.Forall₂ _ (writesOf (address l) (List.length ([] : List UInt8)) l) _
  refine forall₂_names hx ?_ (length_image l ▸ (stringsAt_fits_iff l).mpr hsize)
  rw [image, List.append_assoc, List.append_assoc, List.nil_append]

/-- The image of a program of calls is right about what its statements are. -/
theorem image_writes (hcalls : ∀ stmt ∈ l, stmt.isCall = true)
    (hsize : 256 + codeSize l + stringSize l ≤ 32768) : Writes (image l) (l.map Stmt.output) := by
  obtain ⟨a, d, ha, hheader⟩ := headerWith_split
  have hlen := length_image l
  have hfits := (stringsAt_fits_iff l).mpr hsize
  have hword : (UInt32.ofNat (stringsAt l + stringSize l)).toNat = stringsAt l + stringSize l :=
    UInt32.toNat_ofNat_of_lt' (by change _ < 4294967296; omega)
  have hbytes : (image l).bytes = a ++ (le32 (.ofNat (stringsAt l + stringSize l)) ++
      (le32 (.ofNat (stringsAt l + stringSize l)) ++ (d ++ (codeWith (address l) 0 l ++
        (ending l ++ l.flatMap Stmt.output))))) := by
    rw [image, hheader]
    simp only [List.append_assoc]
  refine ⟨⟨writesOf (address l) 0 l, ending l, ?_, ?_, ?_⟩, ?_, ?_⟩
  · rw [image_code, codeWith_calls hcalls]
  · unfold ending
    split_ifs
    · exact Or.inr rfl
    · exact Or.inl rfl
  · exact image_names hsize
  · rw [hlen, hbytes, ← ha, List.drop_left, read32_le32, Option.map_some, hword]
  · have h72 : (a ++ le32 (.ofNat (stringsAt l + stringSize l))).length = 72 := by
      rw [List.length_append, ha, length_le32]
    rw [hlen, hbytes, ← List.append_assoc, ← h72, List.drop_left, read32_le32, Option.map_some,
      hword]

end

/-- If the code calls `write` with the literals, then their values were kept: the first one that is
not kept would be written otherwise. -/
theorem kept_of_names {addr : Nat → UInt32} {ws : List (UInt32 × UInt32)} {bytes x y : List UInt8}
    (hfree : CallsFree tail l) (hsize : sl + stringSize (scan (callsText l tail) sl).1 ≤ 8192)
    (hcode : codeWith addr sl (scan (callsText l tail) sl).1 ++ x = ws.flatMap writeCall ++ y)
    (hstmts : List.Forall₂ (Names bytes) (writesOf addr sl (scan (callsText l tail) sl).1)
      ((scan (callsText l tail) sl).1.map Stmt.output))
    (hws : List.Forall₂ (fun w c ↦ Names bytes w (Call.output c)) ws l) : CallsKept sl l := by
  induction hws generalizing sl with
  | nil => trivial
  | @cons w c ws l hw hws ih =>
    have hkept : Kept (8190 - sl) c.lit := by
      have hcut := literal_cut c.lit (callsText l tail) sl
      generalize hlit : literal (c.lit.flatMap LitChar.spelling ++ quote :: callsText l tail) sl =
        r at hcut
      obtain ⟨lit, q⟩ := r
      rw [scan_callsText c l tail hfree.1 sl hlit] at hcode hstmts
      rw [codeWith, List.flatMap_cons, List.append_assoc, List.append_assoc] at hcode
      obtain ⟨rfl, -⟩ := writeCall_inj hcode
      have hout : output c.newline lit = c.output := (List.forall₂_cons.mp hstmts).1.unique hw
      exact (take_copied_iff ..).mp (hcut.symm.trans (List.append_cancel_right hout))
    rw [scan_kept c l tail hfree.1 hkept] at hcode hstmts hsize
    rw [codeWith, List.flatMap_cons, List.append_assoc, List.append_assoc] at hcode
    rw [stringSize, List.flatMap_cons, List.length_append] at hsize
    change sl + (c.output.length + stringSize _) ≤ 8192 at hsize
    exact ⟨hkept, by omega, ih hfree.2 (by omega) (writeCall_inj hcode).2
      (List.forall₂_cons.mp hstmts).2⟩

theorem nul_not_mem_callsText (htail : 0 ∉ tail) : 0 ∉ callsText l tail := by
  induction l with
  | nil => exact htail
  | cons c l ih =>
    have hname : 0 ∉ c.name := by
      unfold Call.name
      cases c.newline with
      | true => decide
      | false => decide
    have hlit : 0 ∉ c.lit.flatMap LitChar.spelling := by
      rw [List.mem_flatMap]
      rintro ⟨d, -, hd⟩
      cases d with
      | plain d _ _ hnul => exact hnul (List.mem_singleton.mp hd).symm
      | newline => exact absurd hd (by decide)
      | tab => exact absurd hd (by decide)
      | backslash => exact absurd hd (by decide)
      | quote => exact absurd hd (by decide)
    have hquote : (0 : UInt8) ≠ quote := by decide
    rw [callsText, Call.text]
    simp only [List.mem_append, List.mem_cons, not_or]
    exact ⟨c.before_nul, hname, c.gap_nul, hquote, hlit, hquote, ih⟩

theorem callsText_append (l : List Call) (tail : Text) :
    callsText l tail = callsText l [] ++ tail := by
  induction l with
  | nil => rfl
  | cons c l ih =>
    rw [callsText, callsText, ih]
    simp only [Call.text, List.append_assoc, List.cons_append]

/-- What the compiler reads of the text behind the calls. -/
def Program.tailRead (p : Program) : Text := p.tail.take (32767 - (callsText p.calls []).length)

/-- Nothing outside of the calls is taken for a call or for a `return`. -/
def Program.Free (p : Program) : Prop := CallsFree p.tailRead p.calls

/-- The compiler writes an image in which the `i`-th call of `write` has the address and the
length of the `i`-th literal, with a newline behind it for `puts`. -/
def Program.Written (p : Program) : Prop :=
  ∃ img, compile p.text = .ok img ∧ Writes img (p.calls.map Call.output)

variable {p : Program}

theorem statements_text (hread : (callsText p.calls []).length ≤ 32767) :
    statements p.text = scan (callsText p.calls p.tailRead) 0 := by
  have hsource : source p.text = callsText p.calls p.tailRead := by
    rw [source, Program.text, callsText_append, List.take_append, List.take_of_length_le hread,
      ← Program.tailRead, ← callsText_append, List.takeWhile_eq_self_iff]
    intro c hc
    refine bne_iff_ne.mpr fun h ↦ nul_not_mem_callsText (fun h0 ↦ ?_) (h ▸ hc)
    exact p.tail_nul (List.mem_of_mem_take h0)
  rw [statements, hsource, scan]

theorem Program.Written.kept (hread : (callsText p.calls []).length ≤ 32767) (hfree : p.Free)
    (h : p.Written) : CallsKept 0 p.calls := by
  obtain ⟨img, himg, ⟨⟨ws, exit, hcode, -, hnames⟩, -, -⟩⟩ := h
  rw [compile_eq, statements_text hread] at himg
  split_ifs at himg with hroom htrap hsize
  obtain rfl := Except.ok.inj himg
  rw [image_code] at hcode
  rw [List.forall₂_map_right_iff] at hnames
  exact kept_of_names hfree ((Nat.zero_add _).trans_le hroom.2.1) hcode (image_names hsize) hnames

/-- The statement that the compiler should recognise for a call. -/
def Call.stmt (c : Call) : Stmt := .call c.newline (c.lit.map LitChar.value)

theorem flatMap_stmt (l : List Call) :
    (l.map Call.stmt).flatMap Stmt.output = l.flatMap Call.output := by
  rw [List.flatMap_map]
  rfl

theorem codeSize_stmt (l : List Call) : codeSize (l.map Call.stmt) = 22 * l.length := by
  induction l with
  | nil => rfl
  | cons c l ih =>
    rw [List.map_cons, codeSize, List.map_cons, List.sum_cons, List.length_cons]
    change 22 + codeSize _ = _
    rw [ih]
    omega

theorem calls_stmt (l : List Call) : calls (l.map Call.stmt) = l.length := by
  rw [calls, List.countP_eq_length.mpr, List.length_map]
  intro stmt hstmt
  obtain ⟨c, -, rfl⟩ := List.mem_map.mp hstmt
  rfl

theorem length_outputs (h : CallsKept sl l) (hsl : sl ≤ 8192) :
    sl + (l.flatMap Call.output).length ≤ 8192 := by
  induction l generalizing sl with
  | nil => exact hsl
  | cons c l ih =>
    have hrest := ih h.2.2 h.2.1
    rw [List.flatMap_cons, List.length_append]
    omega

theorem Program.written_of_kept (hread : (callsText p.calls []).length ≤ 32767) (hfree : p.Free)
    (h : CallsKept 0 p.calls) : p.Written := by
  have hscan : scan (callsText p.calls p.tailRead) 0 = (p.calls.map Call.stmt, false) :=
    scan_calls hfree h
  have hfit := length_outputs h (Nat.zero_le _)
  have hatMost := p.atMost
  have hcode := codeSize_stmt p.calls
  have hstrings : stringSize (p.calls.map Call.stmt) = (p.calls.flatMap Call.output).length := by
    rw [stringSize, flatMap_stmt]
  have hroom : Room (p.calls.map Call.stmt) :=
    ⟨by omega, by omega, by rw [calls_stmt]; exact hatMost⟩
  have hsize : 256 + codeSize (p.calls.map Call.stmt) + stringSize (p.calls.map Call.stmt) ≤
      32768 := by omega
  refine ⟨image (p.calls.map Call.stmt), ?_, ?_⟩
  · rw [compile_eq, statements_text hread, hscan, if_neg (not_not_intro hroom),
      if_neg Bool.false_ne_true, if_pos hsize]
  · have hwrites := image_writes (l := p.calls.map Call.stmt) (fun stmt hstmt ↦ by
      obtain ⟨c, -, rfl⟩ := List.mem_map.mp hstmt
      rfl) hsize
    rwa [List.map_map] at hwrites

/-- **The program writes its literals** if and only if each of them has no `\n` and no `\t` and
finds room in the buffer (or ends with the letter of its only escape exactly where the buffer
does), when the calls are within what the compiler reads and nothing else is taken for a
statement. -/
theorem literals_written_iff (p : Program) (hread : (callsText p.calls []).length ≤ 32767)
    (hfree : p.Free) : p.Written ↔ CallsKept 0 p.calls :=
  ⟨fun h ↦ h.kept hread hfree, p.written_of_kept hread hfree⟩

/-- The program `puts("a")`. -/
def putsA : Program where
  calls := [⟨[], true, keyword "(", [.plain 0x61 (by decide) (by decide) (by decide)], by decide,
    by decide, by decide⟩]
  tail := keyword ")"
  tail_nul := by decide
  atMost := by decide
  decoded := by decide

theorem literals_written_iff_puts : putsA.Written := by
  have htail : Passed putsA.tailRead [] := by decide
  exact (literals_written_iff putsA (by decide) ⟨by decide, htail⟩).mpr
    ⟨.inl ⟨by decide, by decide⟩, by decide, trivial⟩

/-- The program `puts("\n")`. -/
def putsNewline : Program where
  calls := [⟨[], true, keyword "(", [.newline], by decide, by decide, by decide⟩]
  tail := keyword ")"
  tail_nul := by decide
  atMost := by decide
  decoded := by decide

/-- In the image of `puts("\n")` there is an `n` behind the newline. -/
theorem newline_is_followed_by_n : putsNewline.text = keyword "puts(\"\\n\")" ∧
    ¬putsNewline.Written := by
  refine ⟨by decide, fun h ↦ ?_⟩
  have htail : Passed putsNewline.tailRead [] := by decide
  have hfree : putsNewline.Free := ⟨by decide, htail⟩
  rcases (h.kept (by decide) hfree).1 with ⟨hplain, -⟩ | ⟨-, hlen⟩
  · exact absurd (hplain .newline List.mem_cons_self) (by decide)
  · exact absurd hlen (by decide)

end FentoOS.Fcc
