import FentoOS.User.Program

/-!
# Saving and loading a BASIC program

`main` stores a line that begins with a digit under the number that `atoi` reads
from it.  `save` writes each line as its number, a blank and its text; `load`
reads the lines back and stores those whose number is not zero.

`reload` says what becomes of a line on its way through the file.  A line with the
number zero is written and not loaded; nor is one with a negative number, which
`atoi` can return for a number of ten digits, and for which `save` writes characters
that are not digits.  A line buffer has room for 127 characters, so that the last
character of the longest line that can be entered may be lost.
-/

namespace FentoOS.Basic

open FentoOS.Lib FentoOS.Libc Function

/-! ## Entering lines -/

/-- The line in the buffer of `main`, for what is typed at the prompt. -/
def typed (input : List UInt8) : Text := stringOf (getline lineLen input).1

/-- What is typed at the prompt, if the line begins with a digit. -/
structure Entry where
  input : List UInt8
  digit : isDigit ((typed input).headD 0)

def Entry.line (e : Entry) : Text := typed e.input

/-- The text behind the number and the blanks. -/
def lineText (line : Text) : Text := (line.dropWhile isDigit).dropWhile (· == ' '.toUInt8)

namespace Program

/-- The branch of `main` for a line that begins with a digit. -/
def enter (P : Program) (e : Entry) : Program := P.store (atoi e.line) (lineText e.line)

/-- Lines entered one after the other. -/
def entered (es : List Entry) : Program := es.foldl enter empty

def lines (P : Program) : List Line := (List.range P.count).map P.line

end Program

/-! ## Saving -/

/-- The loop that fills `rev`, which has room for 16 characters. -/
def revDigits : Nat → Int32 → List UInt8
  | 0, _ => []
  | k + 1, n => (48 + n % 10).toUInt32.toUInt8 :: if n / 10 = 0 then [] else revDigits k (n / 10)

/-- The characters in `num`, without the blank. -/
def numDigits (n : Int32) : List UInt8 := (revDigits 16 n).reverse

/-- What `save` writes for a line. -/
def saveLine (l : Line) : List UInt8 :=
  numDigits l.number ++ ' '.toUInt8 :: l.text ++ ['\n'.toUInt8]

namespace Program

/-- The bytes that `save` writes. -/
def save (P : Program) : List UInt8 := P.lines.flatMap saveLine

/-! ## Loading -/

/-- The end of a line in `load`. -/
def loadLine (P : Program) (buf : List UInt8) : Program :=
  let line := stringOf buf
  if atoi line = 0 then P else P.store (atoi line) (lineText line)

/-- The loop of `load`, with the characters in `line`. -/
def loadLoop (P : Program) : List UInt8 → List UInt8 → Program
  | [], buf => if buf = [] then P else P.loadLine buf
  | c :: file, buf =>
    if c = '\r'.toUInt8 then P.loadLoop file buf
    else if c = '\n'.toUInt8 then (P.loadLine buf).loadLoop file []
    else if buf.length < lineLen - 1 then P.loadLoop file (buf ++ [c])
    else P.loadLoop file buf

/-- `load`, from a file with these bytes. -/
def load (P : Program) (file : List UInt8) : Program := P.loadLoop file []

/-- `count = 0`. -/
def clear (P : Program) : Program := { P with count := 0 }

end Program

/-! ## Lines that are kept -/

/-- A line whose number is positive, that fits into the buffer with its number and a blank, and that
has no carriage return. -/
def Line.Kept (l : Line) : Prop :=
  0 < l.number ∧ (Nat.digits 10 l.number.toInt.toNat).length + 1 + l.text.length < lineLen ∧
    '\r'.toUInt8 ∉ l.text

/-- What is left of a text behind a number of `k` characters. -/
def reloadText (k : Nat) (s : Text) : Text :=
  ((s.filter (· != '\r'.toUInt8)).take (lineLen - 1 - k - 1)).dropWhile (· == ' '.toUInt8)

/-- What becomes of a line in the file. -/
def reload (l : Line) : Option Line :=
  let s := reloadText (numDigits l.number).length l.text
  if 0 < l.number ∧ s ≠ [] then some ⟨l.number, s⟩ else none

/-! ## The characters of a number -/

theorem toInt_div_ten (n : Int32) : (n / 10).toInt = n.toInt.tdiv 10 :=
  Int32.toInt_div_of_ne_right n 10 (by decide)

theorem toInt_mod_ten (n : Int32) : (n % 10).toInt = n.toInt.tmod 10 := Int32.toInt_mod n 10

/-- The character that is written for the last digit. -/
theorem toNat_revDigit (n : Int32) :
    ((48 + n % 10).toUInt32.toUInt8.toNat : Int) = 48 + n.toInt.tmod 10 := by
  have hlt : n.toInt.tmod 10 < 10 := Int.tmod_lt_of_pos _ (by decide)
  have hgt : -10 < n.toInt.tmod 10 := Int.lt_tmod_of_pos _ (by decide)
  have hsum : (48 + n % 10).toInt = 48 + n.toInt.tmod 10 := by
    rw [Int32.toInt_add, toInt_mod_ten]
    exact Int.bmod_eq_of_le (show -_ ≤ 48 + _ by omega) (show 48 + _ < _ by omega)
  have hnat : ((48 + n % 10).toUInt32.toNat : Int) = 48 + n.toInt.tmod 10 := by
    rw [Int32.toNat_toUInt32_of_le (Int32.le_iff_toInt_le.mpr ?_), ← hsum]
    · rw [← Int32.toNat_toInt]
      exact Int.toNat_of_nonneg (by omega)
    · rw [hsum]
      exact show (0 : Int) ≤ _ by omega
  rw [UInt32.toNat_toUInt8]
  omega

variable {n : Int32}

/-- The digits of a positive number. -/
theorem revDigits_of_pos (hn : 0 < n) {k : Nat} (hk : n.toInt < 10 ^ k) :
    revDigits k n = (Nat.digits 10 n.toInt.toNat).map digitChar := by
  induction k generalizing n with
  | zero =>
    have hpos : 0 < n.toInt := Int32.lt_iff_toInt_lt.mp hn
    rw [pow_zero] at hk
    omega
  | succ k ih =>
    have hpos : 0 < n.toInt := Int32.lt_iff_toInt_lt.mp hn
    have hdiv := toInt_div_ten n
    rw [Int.tdiv_eq_ediv_of_nonneg hpos.le] at hdiv
    have hchar : (48 + n % 10).toUInt32.toUInt8 = digitChar (n.toInt.toNat % 10) := by
      refine UInt8.toNat_inj.mp (Int.ofNat_inj.mp ((toNat_revDigit n).trans ?_))
      rw [toNat_digitChar (Nat.mod_lt _ (by decide)), Int.tmod_eq_emod_of_nonneg hpos.le]
      exact show (48 : Int) + _ = ((48 + _ : Nat) : Int) by omega
    rw [revDigits, hchar, Nat.digits_def' (by decide) (by omega), List.map_cons]
    refine congrArg _ ?_
    have hnat : (n / 10).toInt.toNat = n.toInt.toNat / 10 := by omega
    by_cases hzero : n / 10 = 0
    · rw [if_pos hzero, ← hnat, hzero]
      rfl
    · rw [if_neg hzero, ← hnat]
      have hne : (n / 10).toInt ≠ 0 := fun h ↦ hzero (Int32.toInt_inj.mp h)
      refine ih (Int32.lt_iff_toInt_lt.mpr ?_) ?_
      · exact show (0 : Int) < _ by omega
      · rw [pow_succ] at hk
        omega

variable {c : UInt8}

/-- The characters of another number: none of the digits but zero. -/
theorem mem_revDigits_of_nonpos (hn : n ≤ 0) {k : Nat} (hc : c ∈ revDigits k n) :
    39 ≤ c.toNat ∧ c.toNat ≤ 48 := by
  induction k generalizing n with
  | zero => cases hc
  | succ k ih =>
    have hnonpos : 0 ≤ -n.toInt := Int.neg_nonneg_of_nonpos (Int32.le_iff_toInt_le.mp hn)
    rw [revDigits] at hc
    rcases List.mem_cons.mp hc with rfl | hc
    · have hmod : n.toInt.tmod 10 = -((-n.toInt) % 10) := by
        rw [← Int.tmod_eq_emod_of_nonneg hnonpos, Int.neg_tmod, neg_neg]
      have hchar := toNat_revDigit n
      omega
    · by_cases hzero : n / 10 = 0
      · rw [if_pos hzero] at hc
        cases hc
      · rw [if_neg hzero] at hc
        refine ih (Int32.le_iff_toInt_le.mpr ?_) hc
        have hdiv : n.toInt.tdiv 10 = -((-n.toInt) / 10) := by
          rw [← Int.tdiv_eq_ediv_of_nonneg hnonpos, Int.neg_tdiv, neg_neg]
        rw [toInt_div_ten, hdiv]
        exact show _ ≤ (0 : Int) by omega

theorem revDigits_length (k : Nat) (n : Int32) : (revDigits k n).length ≤ k := by
  induction k generalizing n with
  | zero => exact le_rfl
  | succ k ih =>
    rw [revDigits, List.length_cons]
    refine Nat.succ_le_succ ?_
    split
    · exact Nat.zero_le _
    · exact ih _

theorem numDigits_length (n : Int32) : (numDigits n).length ≤ 16 := by
  rw [numDigits, List.length_reverse]
  exact revDigits_length 16 n

theorem numDigits_of_pos (hn : 0 < n) : numDigits n = writeNat n.toInt.toNat := by
  have hlt := n.toInt_lt
  rw [numDigits, revDigits_of_pos hn (lt_trans hlt (by decide)), writeNat]

/-- A number that is not positive is written with characters of which only zero is a digit. -/
theorem mem_numDigits_of_nonpos (hn : n ≤ 0) (hc : c ∈ numDigits n) : 39 ≤ c.toNat ∧ c.toNat ≤ 48 :=
  mem_revDigits_of_nonpos hn (List.mem_reverse.mp hc)

theorem mem_numDigits (hc : c ∈ numDigits n) : 39 ≤ c.toNat ∧ c.toNat ≤ 57 := by
  by_cases hn : 0 < n
  · rw [numDigits_of_pos hn] at hc
    have hdigit := isDigit_iff.mp (isDigit_of_mem_writeNat hc)
    exact ⟨le_trans (by decide) hdigit.1, hdigit.2⟩
  · have hchar := mem_numDigits_of_nonpos (Int32.not_lt.mp hn) hc
    exact ⟨hchar.1, le_trans hchar.2 (by decide)⟩

theorem numDigits_ne_nil (n : Int32) : numDigits n ≠ [] := by
  rw [numDigits, revDigits, List.reverse_cons]
  exact List.append_ne_nil_of_right_ne_nil _ (List.cons_ne_nil _ _)

variable {s : Text}

/-! ## Reading the number back -/

/-- Zeros are read as zero. -/
theorem readDigits_zeros (hs : ∀ c ∈ s, c = '0'.toUInt8) : readDigits s = 0 := by
  induction s using List.reverseRecOn with
  | nil => rfl
  | append_singleton s c ih =>
    have hc := hs c (List.mem_append_right _ (List.mem_singleton_self c))
    have hinit := ih fun c hc ↦ hs c (List.mem_append_left _ hc)
    rw [readDigits] at hinit ⊢
    rw [List.foldl_concat, hinit, hc]
    rfl

/-- The digits in front of a blank, among characters of which only zero is a digit. -/
theorem readDigits_of_low (hs : ∀ c ∈ s, c.toNat ≤ 48) (t : Text) :
    readDigits ((s ++ ' '.toUInt8 :: t).takeWhile isDigit) = 0 := by
  have hsub : (s ++ ' '.toUInt8 :: t).takeWhile isDigit ⊆ s := by
    rw [List.takeWhile_append]
    split
    · rw [List.takeWhile_cons_of_neg (by decide), List.append_nil]
      exact List.Subset.refl s
    · exact (List.takeWhile_sublist isDigit).subset
  refine readDigits_zeros fun c hc ↦ ?_
  have hdigit := isDigit_iff.mp (List.mem_takeWhile_imp hc)
  exact UInt8.toNat_inj.mp (le_antisymm (hs c (hsub hc)) hdigit.1)

theorem readDigits_numDigits (hn : 0 < n) (t : Text) :
    readDigits ((numDigits n ++ ' '.toUInt8 :: t).takeWhile isDigit) = n := by
  have hpos : 0 < n.toInt := Int32.lt_iff_toInt_lt.mp hn
  rw [numDigits_of_pos hn, List.takeWhile_append_of_pos fun c hc ↦ isDigit_of_mem_writeNat hc,
    List.takeWhile_cons_of_neg (by decide), List.append_nil, readDigits_eq, numeral_writeNat]
  refine Int32.toInt_inj.mp ?_
  rw [Int32.toInt_ofNat_of_lt (by have := n.toInt_lt; omega)]
  exact Int.toNat_of_nonneg hpos.le

/-- The number of a line of the file, as `atoi` reads it. -/
theorem atoi_numDigits (n : Int32) (t : Text) :
    atoi (numDigits n ++ ' '.toUInt8 :: t) = if 0 < n then n else 0 := by
  obtain ⟨c, s, hs⟩ := List.exists_cons_of_ne_nil (numDigits_ne_nil n)
  have hc : c ∈ numDigits n := hs ▸ List.mem_cons_self
  have hblank : ¬isBlank c := by
    intro hblank
    have hrange := mem_numDigits hc
    rcases Bool.or_eq_true _ _ ▸ hblank with h | h
    · rw [eq_of_beq h] at hrange
      exact absurd hrange.1 (by decide)
    · rw [eq_of_beq h] at hrange
      exact absurd hrange.1 (by decide)
  have hatoi : atoi (numDigits n ++ ' '.toUInt8 :: t) =
      if c = '-'.toUInt8 then readDigits ((s ++ ' '.toUInt8 :: t).takeWhile isDigit) * (-1)
      else if c = '+'.toUInt8 then readDigits ((s ++ ' '.toUInt8 :: t).takeWhile isDigit)
      else readDigits ((numDigits n ++ ' '.toUInt8 :: t).takeWhile isDigit) := by
    rw [atoi, hs, List.cons_append, List.dropWhile_cons_of_neg hblank]
  rw [hatoi]
  by_cases hn : 0 < n
  · rw [numDigits_of_pos hn] at hc
    have hdigit := isDigit_of_mem_writeNat hc
    rw [if_pos hn, if_neg (by rintro rfl; exact absurd hdigit (by decide)),
      if_neg (by rintro rfl; exact absurd hdigit (by decide))]
    exact readDigits_numDigits hn t
  · have hlow : ∀ c ∈ numDigits n, c.toNat ≤ 48 := fun c hc ↦
      (mem_numDigits_of_nonpos (Int32.not_lt.mp hn) hc).2
    have hrest : ∀ c ∈ s, c.toNat ≤ 48 := fun d hd ↦ hlow d (hs ▸ List.mem_cons_of_mem c hd)
    rw [if_neg hn, readDigits_of_low hrest, readDigits_of_low hlow]
    split
    · rfl
    · split <;> rfl

theorem lineText_numDigits (hn : 0 < n) (t : Text) :
    lineText (numDigits n ++ ' '.toUInt8 :: t) = t.dropWhile (· == ' '.toUInt8) := by
  rw [lineText, numDigits_of_pos hn,
    List.dropWhile_append_of_pos fun c hc ↦ isDigit_of_mem_writeNat hc,
    List.dropWhile_cons_of_neg (by decide), List.dropWhile_cons_of_pos rfl]

/-! ## Reading a line of the file -/

/-- The characters of a line that is read: those that fit, without carriage returns. -/
theorem Program.loadLoop_line (P : Program) {s : List UInt8} (hs : '\n'.toUInt8 ∉ s)
    (file : List UInt8) {buf : List UInt8} (hbuf : buf.length ≤ lineLen - 1) :
    P.loadLoop (s ++ '\n'.toUInt8 :: file) buf =
      (P.loadLine ((buf ++ s.filter (· != '\r'.toUInt8)).take (lineLen - 1))).loadLoop file [] := by
  induction s generalizing buf with
  | nil =>
    rw [List.nil_append, loadLoop, if_neg (by decide), if_pos rfl, List.filter_nil,
      List.append_nil, List.take_of_length_le hbuf]
  | cons c s ih =>
    have hc : c ≠ '\n'.toUInt8 := fun h ↦ hs (h ▸ List.mem_cons_self)
    have hrest : '\n'.toUInt8 ∉ s := fun h ↦ hs (List.mem_cons_of_mem c h)
    rw [List.cons_append, loadLoop]
    by_cases hcr : c = '\r'.toUInt8
    · rw [if_pos hcr, ih hrest hbuf, List.filter_cons_of_neg (by rw [hcr]; decide)]
    · rw [if_neg hcr, if_neg hc,
        List.filter_cons_of_pos (p := (· != '\r'.toUInt8)) (bne_iff_ne.mpr hcr)]
      by_cases hroom : buf.length < lineLen - 1
      · rw [if_pos hroom, ih hrest (by rw [List.length_append]; exact hroom), List.append_assoc]
        rfl
      · have hfull : lineLen - 1 ≤ buf.length := Nat.le_of_not_lt hroom
        rw [if_neg hroom, ih hrest hbuf, List.take_append_of_le_length hfull,
          List.take_append_of_le_length hfull]

/-- A text as it can be entered: not empty, with no blank in front, no newline and no NUL. -/
structure Clean (s : Text) : Prop where
  ne_nil : s ≠ []
  head_ne : s.head? ≠ some ' '.toUInt8
  newline : '\n'.toUInt8 ∉ s
  nul : 0 ∉ s

/-- The characters of a line of the file, in the buffer. -/
theorem filter_saveLine (n : Int32) (s : Text) :
    ((numDigits n ++ ' '.toUInt8 :: s).filter (· != '\r'.toUInt8)).take (lineLen - 1) =
      numDigits n ++ ' '.toUInt8 ::
        (s.filter (· != '\r'.toUInt8)).take (lineLen - 1 - (numDigits n).length - 1) := by
  have hdigits : (numDigits n).filter (· != '\r'.toUInt8) = numDigits n := by
    refine List.filter_eq_self.mpr fun c hc ↦ bne_iff_ne.mpr ?_
    rintro rfl
    exact absurd (mem_numDigits hc).1 (by decide)
  have hlength := numDigits_length n
  have hroom : lineLen - 1 - (numDigits n).length = lineLen - 1 - (numDigits n).length - 1 + 1 := by
    rw [lineLen]
    omega
  rw [List.filter_append, hdigits, List.filter_cons_of_pos rfl, List.take_append,
    List.take_of_length_le (by rw [lineLen]; omega), hroom, List.take_succ_cons, Nat.add_sub_cancel]

variable {l : Line}

/-- A line of the file is stored as `reload` says. -/
theorem Program.loadLine_saveLine (P : Program) (hl : Clean l.text) :
    P.loadLine (((numDigits l.number ++ ' '.toUInt8 :: l.text).filter (· != '\r'.toUInt8)).take
      (lineLen - 1)) =
      if 0 < l.number then P.store l.number (reloadText (numDigits l.number).length l.text)
      else P := by
  rw [filter_saveLine, loadLine]
  have hstring (k : Nat) : stringOf (numDigits l.number ++ ' '.toUInt8 ::
      (l.text.filter (· != '\r'.toUInt8)).take k) = numDigits l.number ++ ' '.toUInt8 ::
      (l.text.filter (· != '\r'.toUInt8)).take k := by
    refine List.takeWhile_eq_self_iff.mpr fun c hc ↦ bne_iff_ne.mpr ?_
    rintro rfl
    rcases List.mem_append.mp hc with hc | hc
    · exact absurd (mem_numDigits hc).1 (by decide)
    · rcases List.mem_cons.mp hc with hc | hc
      · exact absurd hc (by decide)
      · exact hl.nul (List.mem_of_mem_filter (List.mem_of_mem_take hc))
  rw [hstring, atoi_numDigits]
  by_cases hn : 0 < l.number
  · have hne : l.number ≠ 0 := fun h ↦ absurd (h ▸ hn) (by decide)
    rw [if_pos hn, if_pos hn, if_neg hne, lineText_numDigits hn, reloadText]
  · rw [if_neg hn, if_neg hn, if_pos rfl]

/-! ## Lines in order -/

namespace Program

variable {P : Program} {n : Int32}

theorem mem_lines : l ∈ P.lines ↔ ∃ i < P.count, P.line i = l := by
  rw [lines, List.mem_map]
  exact exists_congr fun i ↦ and_congr_left fun _ ↦ List.mem_range

theorem length_lines (P : Program) : P.lines.length = P.count := by
  rw [lines, List.length_map, List.length_range]

/-- A number above all others has its place at the end. -/
theorem placeFrom_eq_count (hlast : ∀ l ∈ P.lines, l.number < n) :
    P.placeFrom n P.count 0 = P.count := by
  have hp := P.place_placeOf n
  refine le_antisymm hp.le (Nat.le_of_not_lt fun hlt ↦ ?_)
  have hbelow := Int32.lt_iff_toInt_lt.mp (hlast _ (mem_lines.mpr ⟨_, hlt, rfl⟩))
  exact absurd (hp.here hlt) (not_le.mpr hbelow)

/-- A line with such a number is added at the end. -/
theorem store_last (hlast : ∀ l ∈ P.lines, l.number < n) (hroom : P.count < maxLines)
    (hs : s.length < lineLen) :
    (P.store n s).lines = P.lines ++ if s = [] then [] else [⟨n, s⟩] := by
  have hplace := placeFrom_eq_count hlast
  rw [store, hplace]
  dsimp only
  rw [if_neg fun h : P.count < P.count ∧ _ ↦ absurd h.1 (lt_irrefl _),
    if_neg fun h : P.count < P.count ∧ _ ↦ absurd h.1 (lt_irrefl _), if_pos hroom]
  by_cases hempty : s = []
  · rw [if_pos hempty, if_pos hempty, List.append_nil]
  · rw [if_neg hempty, if_neg hempty, List.take_of_length_le (Nat.le_sub_one_of_lt hs),
      lines, lines,
      List.range_succ, List.map_append]
    refine congrArg₂ _ (List.map_congr_left fun i hi ↦ ?_) ?_
    · have hlt := List.mem_range.mp hi
      change update (moveUp P.line P.count P.count) P.count ⟨n, s⟩ i = P.line i
      rw [update_of_ne hlt.ne, moveUp_apply, if_neg (by omega)]
    · exact congrArg (fun x ↦ [x]) (update_self ..)

end Program

theorem number_of_reload {l' : Line} (h : reload l = some l') : l'.number = l.number := by
  rw [reload] at h
  split at h
  · rw [← Option.some_inj.mp h]
  · cases h

theorem reloadText_length (k : Nat) (s : Text) : (reloadText k s).length < lineLen := by
  refine lt_of_le_of_lt (List.dropWhile_sublist _).length_le ?_
  refine lt_of_le_of_lt (List.length_take_le _ _) ?_
  rw [lineLen]
  omega

/-- The step: a line of the file adds what `reload` makes of it. -/
theorem Program.lines_loadLine {P : Program} (hl : Clean l.text)
    (hlast : ∀ l' ∈ P.lines, l'.number < l.number) (hroom : P.count < maxLines) :
    (P.loadLine (((numDigits l.number ++ ' '.toUInt8 :: l.text).filter (· != '\r'.toUInt8)).take
      (lineLen - 1))).lines = P.lines ++ (reload l).toList := by
  rw [P.loadLine_saveLine hl, reload]
  by_cases hn : 0 < l.number
  · rw [if_pos hn, store_last hlast hroom (reloadText_length _ _)]
    by_cases hempty : reloadText (numDigits l.number).length l.text = []
    · rw [if_pos hempty, if_neg fun h ↦ h.2 hempty]
      rfl
    · rw [if_neg hempty, if_pos ⟨hn, hempty⟩]
      rfl
  · rw [if_neg hn, if_neg fun h ↦ hn h.1]
    exact (List.append_nil _).symm

/-- The run: lines in order are loaded as `reload` says, one after the other. -/
theorem Program.lines_loadLoop {ls : List Line} (hclean : ∀ l ∈ ls, Clean l.text)
    (hsorted : ls.Pairwise fun l l' ↦ l.number < l'.number) {P : Program}
    (hlast : ∀ l ∈ ls, ∀ l' ∈ P.lines, l'.number < l.number)
    (hroom : P.count + ls.length ≤ maxLines) :
    (P.loadLoop (ls.flatMap saveLine) []).lines = P.lines ++ ls.filterMap reload := by
  induction ls generalizing P with
  | nil => exact (List.append_nil _).symm
  | cons l ls ih =>
    have hnewline : '\n'.toUInt8 ∉ numDigits l.number ++ ' '.toUInt8 :: l.text := by
      intro hmem
      rcases List.mem_append.mp hmem with hmem | hmem
      · exact absurd (mem_numDigits hmem).1 (by decide)
      · exact (hclean l List.mem_cons_self).newline
          ((List.mem_cons.mp hmem).resolve_left (by decide))
    have hhead := lines_loadLine (hclean l List.mem_cons_self) (hlast l List.mem_cons_self)
      (by rw [List.length_cons] at hroom; omega)
    rw [List.flatMap_cons, saveLine, List.append_assoc, List.singleton_append,
      P.loadLoop_line hnewline _ (Nat.zero_le _), List.nil_append]
    revert hhead
    generalize P.loadLine _ = Q
    intro hhead
    have hcount : Q.count ≤ P.count + 1 := by
      rw [← Q.length_lines, hhead, List.length_append, P.length_lines]
      exact Nat.add_le_add_left Option.length_toList_le _
    have htail := List.pairwise_cons.mp hsorted
    rw [ih (fun l hl ↦ hclean l (List.mem_cons_of_mem _ hl)) htail.2 ?_ ?_, hhead,
      List.append_assoc, List.filterMap_cons]
    · cases reload l <;> rfl
    · intro l₁ hl₁ l' hl'
      rcases List.mem_append.mp (hhead ▸ hl') with hl' | hl'
      · exact hlast l₁ (List.mem_cons_of_mem _ hl₁) l' hl'
      · rw [number_of_reload (Option.mem_toList.mp hl')]
        exact htail.1 l₁ hl₁
    · rw [List.length_cons] at hroom
      omega

/-! ## Texts that can be entered -/

theorem getlineLoop_spec (max : Nat) (input : List UInt8) {buf : List UInt8}
    (hbuf : '\n'.toUInt8 ∉ buf) (hlength : buf.length ≤ max - 1) :
    '\n'.toUInt8 ∉ (getlineLoop max input buf).1 ∧
      (getlineLoop max input buf).1.length ≤ max - 1 := by
  induction input generalizing buf with
  | nil => exact ⟨hbuf, hlength⟩
  | cons c input ih =>
    rw [getlineLoop]
    by_cases hroom : buf.length < max - 1
    · rw [if_pos hroom]
      by_cases hc : c = '\n'.toUInt8
      · rw [if_pos hc]
        exact ⟨hbuf, hlength⟩
      rw [if_neg hc]
      split
      · refine ih (fun h ↦ hbuf (List.mem_of_mem_dropLast h)) ?_
        rw [List.length_dropLast]
        exact (Nat.sub_le _ _).trans hlength
      · refine ih (fun h ↦ ?_) ?_
        · rcases List.mem_append.mp h with h | h
          · exact hbuf h
          · exact hc (List.mem_singleton.mp h).symm
        · rw [List.length_append]
          exact hroom
    · rw [if_neg hroom]
      exact ⟨hbuf, hlength⟩

/-- The line in the buffer has neither a newline nor a NUL, and fits. -/
theorem typed_spec (input : List UInt8) :
    '\n'.toUInt8 ∉ typed input ∧ 0 ∉ typed input ∧ (typed input).length < lineLen := by
  have hnil : '\n'.toUInt8 ∉ ([] : List UInt8) := List.not_mem_nil
  obtain ⟨hnewline, hlength⟩ := getlineLoop_spec lineLen input hnil (Nat.zero_le _)
  have hsub := List.takeWhile_sublist (l := (getline lineLen input).1) (· != (0 : UInt8))
  refine ⟨fun h ↦ hnewline (hsub.subset h), fun h ↦ ?_, ?_⟩
  · exact absurd (List.mem_takeWhile_imp h) (by decide)
  · exact lt_of_le_of_lt (hsub.length_le.trans hlength) (by decide)

theorem lineText_sublist (line : Text) : (lineText line).Sublist line :=
  (List.dropWhile_sublist _).trans (List.dropWhile_sublist _)

/-- The text of a line that is typed, unless there is none. -/
theorem clean_lineText {input : List UInt8} (h : lineText (typed input) ≠ []) :
    Clean (lineText (typed input)) where
  ne_nil := h
  head_ne := by
    intro hhead
    have hnot := List.head?_dropWhile_not (· == ' '.toUInt8) ((typed input).dropWhile isDigit)
    rw [show List.dropWhile _ _ = lineText (typed input) from rfl, hhead] at hnot
    exact absurd hnot (by decide)
  newline := fun hmem ↦ (typed_spec input).1 ((lineText_sublist _).subset hmem)
  nul := fun hmem ↦ (typed_spec input).2.1 ((lineText_sublist _).subset hmem)

/-- A text of the map was stored by a call. -/
theorem mem_of_setAll {calls : List (Int32 × Text)} (h : setAll calls n = some s) :
    (n, s) ∈ calls ∧ s ≠ [] := by
  induction calls using List.reverseRecOn with
  | nil => cases h
  | append_singleton calls c ih =>
    have hold : setAll calls n = some s → (n, s) ∈ calls ++ [c] ∧ s ≠ [] := fun h ↦
      ⟨List.mem_append_left _ (ih h).1, (ih h).2⟩
    rw [setAll, List.foldl_concat] at h
    change setLine (setAll calls) c.1 c.2 n = some s at h
    rw [setLine] at h
    by_cases hempty : c.2 = []
    · rw [if_pos hempty] at h
      by_cases hn : n = c.1
      · rw [hn, update_self] at h
        cases h
      · rw [update_of_ne hn] at h
        exact hold h
    rw [if_neg hempty] at h
    split at h
    · exact hold h
    · by_cases hn : n = c.1
      · rw [hn, update_self, Option.some_inj] at h
        rw [hn, ← h]
        exact ⟨List.mem_append_right _ (List.mem_singleton_self c), hempty⟩
      · rw [update_of_ne hn] at h
        exact hold h

/-- The calls of `store` behind the lines that are entered. -/
def Entry.call (e : Entry) : Int32 × Text := (atoi e.line, lineText e.line)

theorem entered_eq_storeAll (es : List Entry) :
    Program.entered es = Program.storeAll (es.map Entry.call) := by
  rw [Program.entered, Program.storeAll, List.foldl_map]
  rfl

theorem represents_entered (es : List Entry) :
    Represents (Program.entered es) (setAll (es.map Entry.call)) := by
  rw [entered_eq_storeAll]
  refine Represents.storeAll _ fun c hc ↦ ?_
  obtain ⟨e, -, rfl⟩ := List.mem_map.mp hc
  exact lt_of_le_of_lt (lineText_sublist _).length_le (typed_spec e.input).2.2

/-- The lines that are entered are in order, at most 256, and have clean texts. -/
theorem entered_spec (es : List Entry) :
    ((Program.entered es).lines.Pairwise fun l l' ↦ l.number < l'.number) ∧
      (Program.entered es).lines.length ≤ maxLines ∧
      ∀ l ∈ (Program.entered es).lines, Clean l.text := by
  have h := represents_entered es
  refine ⟨?_, ?_, fun l hl ↦ ?_⟩
  · rw [Program.lines, List.pairwise_map]
    refine List.pairwise_lt_range.imp_of_mem fun _ hj hij ↦ ?_
    exact Int32.lt_iff_toInt_lt.mpr (h.increasing _ _ hij (List.mem_range.mp hj))
  · rw [Program.length_lines]
    exact h.count_le
  · obtain ⟨hmem, hne⟩ := mem_of_setAll ((h.entries l.number l.text).mpr (Program.mem_lines.mp hl))
    obtain ⟨e, -, he⟩ := List.mem_map.mp hmem
    obtain ⟨-, htext⟩ := Prod.mk.inj he
    rw [← htext] at hne ⊢
    exact clean_lineText hne

/-! ## The result -/

/-- A line comes back as it was exactly if it is kept. -/
theorem reload_eq_some_iff (hl : Clean l.text) : reload l = some l ↔ l.Kept := by
  have hlength := numDigits_length l.number
  constructor
  · intro h
    rw [reload] at h
    split at h
    case isFalse => cases h
    case isTrue hkept =>
      have htext : reloadText (numDigits l.number).length l.text = l.text :=
        congrArg Line.text (Option.some_inj.mp h)
      have hle : l.text.length ≤ ((l.text.filter (· != '\r'.toUInt8)).take
          (lineLen - 1 - (numDigits l.number).length - 1)).length := by
        nth_rewrite 1 [← htext]
        exact (List.dropWhile_sublist _).length_le
      rw [List.length_take, le_min_iff] at hle
      refine ⟨hkept.1, ?_, fun hmem ↦ ?_⟩
      · rw [numDigits_of_pos hkept.1, writeNat, List.length_reverse, List.length_map] at hle hlength
        rw [lineLen] at hle ⊢
        omega
      · have hall := List.length_filter_eq_length_iff.mp
          (le_antisymm (List.length_filter_le _ _) hle.2)
        exact absurd (hall _ hmem) (by decide)
  · rintro ⟨hpos, hroom, hcr⟩
    have hfilter : l.text.filter (· != '\r'.toUInt8) = l.text :=
      List.filter_eq_self.mpr fun c hc ↦ bne_iff_ne.mpr fun h ↦ hcr (h ▸ hc)
    have htake : l.text.take (lineLen - 1 - (numDigits l.number).length - 1) = l.text := by
      refine List.take_of_length_le ?_
      rw [numDigits_of_pos hpos, writeNat, List.length_reverse, List.length_map]
      omega
    have hdrop : l.text.dropWhile (· == ' '.toUInt8) = l.text := by
      refine List.dropWhile_eq_self_iff.mpr fun hlt hblank ↦ hl.head_ne ?_
      rw [List.head?_eq_getElem?, List.getElem?_eq_getElem hlt, eq_of_beq hblank]
    rw [reload, reloadText, hfilter, htake, hdrop, if_pos ⟨hpos, hl.ne_nil⟩]

/-- **Saving and loading**: `save`, `count = 0` and `load` give back the lines that were entered
exactly if each of them has a positive number, fits into the line buffer with its number and a
blank, and has no carriage return. -/
theorem save_load_iff (es : List Entry) :
    (((Program.entered es).clear).load (Program.entered es).save).lines =
      (Program.entered es).lines ↔
      ∀ l ∈ (Program.entered es).lines, l.Kept := by
  obtain ⟨hsorted, hcount, hclean⟩ := entered_spec es
  have hempty : (Program.entered es).clear.lines = [] := rfl
  have hload := Program.lines_loadLoop hclean hsorted (P := (Program.entered es).clear)
    (fun l _ l' hl' ↦ absurd (hempty ▸ hl') List.not_mem_nil)
    (by rw [← Program.length_lines, hempty]; simpa using hcount)
  rw [Program.load, Program.save, hload, hempty, List.nil_append, filterMap_eq_self_iff]
  exact forall₂_congr fun l hl ↦ reload_eq_some_iff (hclean l hl)

/-- The line `0 REM` is entered and saved, and not loaded. -/
theorem line_zero_is_lost :
    let P := Program.entered [⟨['0', ' ', 'R', 'E', 'M', '\n'].map Char.toUInt8, by decide⟩]
    P.lines = [⟨0, ['R', 'E', 'M'].map Char.toUInt8⟩] ∧ (P.clear.load P.save).lines = [] := by
  decide

end FentoOS.Basic
