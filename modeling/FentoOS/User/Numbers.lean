import FentoOS.Lib.CString
import FentoOS.User.Libc

/-!
# Numbers as text

`itoa_u` and `itoa_s` of `user/lib/stdio.c` write a number into a buffer, and `atoi` of
`user/lib/string.c` reads one.  `itoa_u` collects the digits from the last to the first in
an array of its own and then copies them in the other order; what it leaves in the buffer
is a copy of a string, `strcpy`.  The negation in `itoa_s` and the accumulation in `atoi`
both wrap at the least number, and so give it back.
-/

namespace FentoOS.Libc

open FentoOS.Lib

/-! ## Printing -/

/-- `dig[d]`. -/
def dig (upper : Bool) (d : Nat) : UInt8 :=
  (keyword (if upper then "0123456789ABCDEF" else "0123456789abcdef")).getD d 0

/-- `while (v) { tmp[i++] = dig[v % base]; v /= base; }` -/
def digitLoop (upper : Bool) (base : Nat) : (fuel v i : Nat) → Bytes → Bytes × Nat
  | 0, _, i, tmp => (tmp, i)
  | fuel + 1, v, i, tmp =>
    if v = 0 then (tmp, i)
    else digitLoop upper base fuel (v / base) (i + 1) (tmp.put8 i (dig upper (v % base)))

/-- `while (i) buf[j++] = tmp[--i]; buf[j] = 0;` -/
def copyBack (tmp : Bytes) : (i j : Nat) → Bytes → Bytes
  | 0, j, buf => buf.put8 j 0
  | i + 1, j, buf => copyBack tmp i (j + 1) (buf.put8 j (tmp i))

/-- `itoa_u(v, buf + start, base, upper)`.  The array `tmp` is not cleared. -/
def itoaU (junk : Bytes) (v : UInt32) (start base : Nat) (upper : Bool) (buf : Bytes) : Bytes :=
  let r := if v = 0 then (junk.put8 0 '0'.toUInt8, 1) else (junk, 0)
  let r := digitLoop upper base 32 v.toNat r.2 r.1
  copyBack r.1 r.2 start buf

/-- `itoa_s(v, buf)`. -/
def itoaS (junk : Bytes) (v : Int32) (buf : Bytes) : Bytes :=
  if v < 0 then itoaU junk (-v).toUInt32 1 10 false (buf.put8 0 '-'.toUInt8)
  else itoaU junk v.toUInt32 0 10 false buf

/-! ## The numerals -/

/-- The digits of a number in a base, the first one first; one zero for zero. -/
def digitsOf (upper : Bool) (base n : Nat) : Text :=
  if n = 0 then ['0'.toUInt8] else ((Nat.digits base n).map (dig upper)).reverse

/-- The canonical decimal numeral of an integer. -/
def decimal (v : Int) : Text :=
  if v < 0 then '-'.toUInt8 :: digitsOf false 10 v.natAbs else digitsOf false 10 v.natAbs

/-- The value of a digit. -/
def digitValue (c : UInt8) : Nat :=
  if isDigit c then c.toNat - '0'.toNat
  else if c < 'a'.toUInt8 then c.toNat - 'A'.toNat + 10
  else c.toNat - 'a'.toNat + 10

/-- The number that digits write in a base. -/
def valueOf (base : Nat) (s : Text) : Nat := s.foldl (fun n c ↦ n * base + digitValue c) 0

/-! ## What the loops write -/

variable {base : Nat}

theorem digitLoop_eq (upper : Bool) (hbase : 1 < base) {fuel v : Nat} (hv : v < base ^ fuel)
    (i : Nat) (tmp : Bytes) : digitLoop upper base fuel v i tmp =
      (tmp.memcpy i (cstr ((Nat.digits base v).map (dig upper))) 0 (Nat.digits base v).length,
        i + (Nat.digits base v).length) := by
  induction fuel generalizing v i tmp with
  | zero =>
    obtain rfl : v = 0 := by simpa using hv
    rw [Nat.digits_zero, digitLoop]
    refine Prod.ext (funext fun x ↦ ?_) rfl
    exact (Bytes.memcpy_of_notMem _ _ (by simp; omega)).symm
  | succ fuel ih =>
    rw [digitLoop]
    by_cases hzero : v = 0
    · subst hzero
      rw [if_pos rfl, Nat.digits_zero]
      refine Prod.ext (funext fun x ↦ ?_) rfl
      exact (Bytes.memcpy_of_notMem _ _ (by simp; omega)).symm
    · have hdiv : v / base < base ^ fuel := Nat.div_lt_of_lt_mul (by rwa [← Nat.pow_succ'])
      rw [if_neg hzero, ih hdiv, Nat.digits_def' hbase (Nat.pos_of_ne_zero hzero), List.map_cons,
        put8_memcpy, List.length_cons]
      exact Prod.ext rfl (by omega)

/-- The characters are copied from the last to the first. -/
theorem copyBack_eq {tmp : Bytes} {s : Text} (h : ∀ k < s.length, tmp k = cstr s k) (j : Nat)
    (buf : Bytes) :
    copyBack tmp s.length j buf = buf.memcpy j (cstr s.reverse) 0 (s.length + 1) := by
  induction s using List.reverseRecOn generalizing j buf with
  | nil =>
    rw [List.length_nil, copyBack]
    funext x
    by_cases hx : x = j
    · rw [hx, Bytes.put8_same, Bytes.memcpy_of_mem _ _ le_rfl (by omega)]
      rfl
    · rw [Bytes.put8_of_ne _ _ hx, Bytes.memcpy_of_notMem _ _ (by omega)]
  | append_singleton s c ih =>
    have hlen : (s ++ [c]).length = s.length + 1 := List.length_append
    have hlast : tmp s.length = c := by
      rw [h _ (by omega), cstr_append, if_neg (lt_irrefl _), Nat.sub_self]
      rfl
    have hinit : ∀ k < s.length, tmp k = cstr s k := fun k hk ↦ by
      rw [h k (by omega), cstr_append, if_pos hk]
    rw [hlen, copyBack, hlast, ih hinit, put8_memcpy, List.reverse_append]
    rfl

/-- `itoa_u` is a copy of the numeral. -/
theorem itoaU_eq (junk : Bytes) (v : UInt32) (start : Nat) (hbase : 1 < base) (upper : Bool)
    (buf : Bytes) : itoaU junk v start base upper buf =
      buf.memcpy start (cstr (digitsOf upper base v.toNat)) 0
        ((digitsOf upper base v.toNat).length + 1) := by
  have hfuel : v.toNat < base ^ 32 := v.toNat_lt.trans_le (Nat.pow_le_pow_left hbase 32)
  rw [itoaU, digitsOf]
  by_cases hzero : v = 0
  · subst hzero
    have hloop := digitLoop_eq upper hbase hfuel 1 (junk.put8 0 '0'.toUInt8)
    rw [UInt32.toNat_zero, Nat.digits_zero] at hloop
    simp only [if_true, UInt32.toNat_zero, hloop]
    refine copyBack_eq (s := ['0'.toUInt8]) (fun k hk ↦ ?_) start buf
    obtain rfl : k = 0 := by simpa using hk
    rw [Bytes.memcpy_of_notMem _ _ (by omega), Bytes.put8_same]
    rfl
  · have hnat : v.toNat ≠ 0 := fun h0 ↦ hzero (UInt32.toNat_inj.mp h0)
    simp only [if_neg hzero, if_neg hnat, digitLoop_eq upper hbase hfuel]
    have htmp : ∀ k < ((Nat.digits base v.toNat).map (dig upper)).length,
        junk.memcpy 0 (cstr ((Nat.digits base v.toNat).map (dig upper))) 0
          (Nat.digits base v.toNat).length k =
            cstr ((Nat.digits base v.toNat).map (dig upper)) k := by
      intro k hk
      rw [List.length_map] at hk
      rw [Bytes.memcpy_of_mem _ _ (Nat.zero_le k) (by omega), Nat.zero_add, Nat.sub_zero]
    have hcopy := copyBack_eq htmp start buf
    rwa [List.length_reverse, List.length_map, Nat.zero_add] at *

/-! ## What the numerals say -/

theorem digitValue_dig (upper : Bool) {d : Nat} (hd : d < 16) : digitValue (dig upper d) = d := by
  have h : ∀ u, ∀ d < 16, digitValue (dig u d) = d := by decide
  exact h upper d hd

section

variable (upper : Bool) {base : Nat} (hbase : 1 < base) (n : Nat)

include hbase

theorem valueOf_digitsOf (hle : base ≤ 16) : valueOf base (digitsOf upper base n) = n := by
  rw [digitsOf]
  split
  case isTrue hn =>
    rw [hn]
    exact (Nat.add_zero _).trans (Nat.zero_mul base)
  case isFalse hn =>
    rw [valueOf, foldl_map_reverse, Nat.ofDigits_digits]
    exact fun d hd ↦ digitValue_dig upper ((Nat.digits_lt_base hbase hd).trans_le hle)

theorem mem_digitsOf {c : UInt8} (hc : c ∈ digitsOf upper base n) :
    ∃ d < base, c = dig upper d := by
  rw [digitsOf] at hc
  split at hc
  · refine ⟨0, by omega, (List.mem_singleton.mp hc).trans ?_⟩
    cases upper <;> rfl
  · obtain ⟨d, hd, rfl⟩ := List.mem_map.mp (List.mem_reverse.mp hc)
    exact ⟨d, Nat.digits_lt_base hbase hd, rfl⟩

theorem digitsOf_leading (hle : base ≤ 16) :
    (digitsOf upper base n).head? ≠ some '0'.toUInt8 ∨ digitsOf upper base n = ['0'.toUInt8] := by
  rw [digitsOf]
  split
  · exact .inr rfl
  case isFalse hn =>
    refine .inl ?_
    have hne : Nat.digits base n ≠ [] := Nat.digits_ne_nil_iff_ne_zero.mpr hn
    have hlt := (Nat.digits_lt_base hbase (List.getLast_mem hne)).trans_le hle
    rw [List.head?_reverse, List.getLast?_map, List.getLast?_eq_some_getLast hne, Option.map_some]
    intro heq
    -- The last of the digits is not zero, and no other digit is written as zero.
    have hzero := congrArg digitValue (Option.some.inj heq)
    rw [digitValue_dig upper hlt] at hzero
    exact Nat.getLast_digit_ne_zero base hn hzero

theorem length_digitsOf_le {k : Nat} (hk : 0 < k) (hn : n < base ^ k) :
    (digitsOf upper base n).length ≤ k := by
  rw [digitsOf]
  split
  · exact hk
  · rw [List.length_reverse, List.length_map]
    exact (Nat.digits_length_le_iff hbase n).mpr hn

end

theorem digitsOf_isCString (upper : Bool) (hbase : 1 < base) (hle : base ≤ 16) (n : Nat) :
    IsCString (digitsOf upper base n) := by
  have h : ∀ u, ∀ d < 16, dig u d ≠ 0 := by decide
  intro hmem
  obtain ⟨d, hd, heq⟩ := mem_digitsOf upper hbase n hmem
  exact h upper d (hd.trans_le hle) heq.symm

/-! ## Reading -/

variable {n : Nat}

theorem isDigit_of_mem {c : UInt8} (hc : c ∈ digitsOf false 10 n) : isDigit c := by
  obtain ⟨d, hd, rfl⟩ := mem_digitsOf false (by decide) n hc
  have h : ∀ d < 10, isDigit (dig false d) := by decide
  exact h d hd

variable {rest : Text}

theorem readDigits_digitsOf (n : Nat) (hrest : ∀ c ∈ rest.head?, ¬isDigit c) :
    readDigits ((digitsOf false 10 n ++ rest).takeWhile isDigit) = Int32.ofNat n := by
  have hstop : rest.takeWhile isDigit = [] := by
    cases rest with
    | nil => rfl
    | cons c rest => exact List.takeWhile_cons_of_neg (hrest c rfl)
  have hvalue : numeral (digitsOf false 10 n) = n := by
    rw [digitsOf]
    split
    case isTrue hn => rw [hn]; rfl
    case isFalse hn =>
      have h : ∀ d < 10, (dig false d).toNat - '0'.toNat = d := by decide
      rw [numeral, foldl_map_reverse, Nat.ofDigits_digits]
      exact fun d hd ↦ h d (Nat.digits_lt_base (by decide) hd)
  rw [List.takeWhile_append_of_pos fun c hc ↦ isDigit_of_mem hc, hstop, List.append_nil,
    readDigits_eq, hvalue]

/-- `atoi` reads the numeral of a number as the number. -/
theorem atoi_decimal (v : Int32) {blanks : Text} (hblanks : ∀ c ∈ blanks, isBlank c)
    (hrest : ∀ c ∈ rest.head?, ¬isDigit c) : atoi (blanks ++ (decimal v.toInt ++ rest)) = v := by
  have hskip : atoi (blanks ++ (decimal v.toInt ++ rest)) = atoi (decimal v.toInt ++ rest) := by
    rw [atoi, List.dropWhile_append_of_pos hblanks, atoi]
  have hread := readDigits_digitsOf v.toInt.natAbs hrest
  rw [hskip, decimal]
  split
  case isTrue hneg =>
    have hatoi : atoi ('-'.toUInt8 :: (digitsOf false 10 v.toInt.natAbs ++ rest)) =
      readDigits ((digitsOf false 10 v.toInt.natAbs ++ rest).takeWhile isDigit) * (-1) := rfl
    rw [List.cons_append, hatoi, hread, Int32.mul_neg, Int32.mul_one, ← Int32.ofInt_eq_ofNat,
      ← Int32.ofInt_neg, Int.ofNat_natAbs_of_nonpos hneg.le, Int.neg_neg, Int32.ofInt_toInt]
  case isFalse hpos =>
    have hne : digitsOf false 10 v.toInt.natAbs ≠ [] := by
      rw [digitsOf]
      split
      · exact List.cons_ne_nil _ _
      case isFalse hn => simpa using Nat.digits_ne_nil_iff_ne_zero.mpr hn
    obtain ⟨c, s, hs⟩ := List.exists_cons_of_ne_nil hne
    rw [hs] at hread ⊢
    rw [List.cons_append, atoi_digit (isDigit_of_mem (hs ▸ List.mem_cons_self)),
      ← List.cons_append, hread, ← Int32.ofInt_eq_ofNat, Int.natAbs_of_nonneg (not_lt.mp hpos),
      Int32.ofInt_toInt]

/-! ## The buffer -/

theorem fills_strcpy {s : Text} (h : s.length < n) : Fills n (strcpy · s) s :=
  ⟨fun a _ hj ↦ strcpy_of_lt a s (h.trans_le hj), h, fun a ↦ strcpy_holdsStr a s⟩

theorem toNat_toUInt32 {v : Int32} (hv : v = Int32.ofNat n) (hn : n < 2 ^ 32) :
    v.toUInt32.toNat = n := by
  rw [hv, Int32.toUInt32_ofNat', UInt32.toNat_ofNat_of_lt' hn]

/-- `itoa_s` is a copy of the decimal numeral. -/
theorem itoaS_eq (junk : Bytes) (v : Int32) (buf : Bytes) :
    itoaS junk v buf = strcpy buf (decimal v.toInt) := by
  have hlt : v.toInt.natAbs < 2 ^ 32 := by
    have := v.toInt_lt
    have := v.le_toInt
    omega
  have hsign : v < 0 ↔ v.toInt < 0 := Int32.lt_iff_toInt_lt
  rw [itoaS, decimal]
  by_cases hneg : v < 0
  · have habs : -v = Int32.ofNat v.toInt.natAbs := by
      rw [← Int32.ofInt_eq_ofNat, Int.ofNat_natAbs_of_nonpos (hsign.mp hneg).le, Int32.ofInt_neg,
        Int32.ofInt_toInt]
    rw [if_pos hneg, if_pos (hsign.mp hneg), itoaU_eq _ _ _ (by decide), toNat_toUInt32 habs hlt]
    exact put8_memcpy buf 0 _ _ _
  · have hnonneg : 0 ≤ v.toInt := not_lt.mp fun h ↦ hneg (hsign.mpr h)
    have habs : v = Int32.ofNat v.toInt.natAbs := by
      rw [← Int32.ofInt_eq_ofNat, Int.natAbs_of_nonneg hnonneg, Int32.ofInt_toInt]
    rw [if_neg hneg, if_neg (not_lt.mpr hnonneg), itoaU_eq _ _ _ (by decide),
      toNat_toUInt32 habs hlt]
    rfl

theorem length_decimal_lt (v : Int32) : (decimal v.toInt).length < 16 := by
  have hlt : v.toInt.natAbs < 10 ^ 10 := by
    have := v.toInt_lt
    have := v.le_toInt
    omega
  have hlen := length_digitsOf_le false (by decide) v.toInt.natAbs (by decide : 0 < 10) hlt
  rw [decimal]
  split
  · rw [List.length_cons]
    omega
  · omega

theorem decimal_isCString (v : Int) : IsCString (decimal v) := by
  have hdigits := digitsOf_isCString false (by decide : 1 < 10) (by decide) v.natAbs
  rw [decimal]
  split
  · intro hmem
    rcases List.mem_cons.mp hmem with h | h
    · exact absurd h (by decide)
    · exact hdigits h
  · exact hdigits

/-- What `vformat` writes for `%d`: `itoa_s(v, nb); put_fd(fd, nb);`. -/
def formatInt (junk nb : Bytes) (v : Int32) : Text := strIn (itoaS junk v nb) 16

/-- What `vformat` writes for `%u`, `%x` and `%X`. -/
def formatUInt (junk nb : Bytes) (base : Nat) (upper : Bool) (u : UInt32) : Text :=
  strIn (itoaU junk u 0 base upper nb) 16

/-- **Printing and parsing are inverse.**  The text of `%d` is the decimal numeral of the number; it
fits in the buffer with its terminator, and `atoi` reads it, behind blanks and in front of anything
but a digit, as the number.  The text of `%u`, `%x` and `%X` are digits of the base, without a
leading zero, that evaluate to the number. -/
theorem print_parse_inverse (junk nb : Bytes) (v : Int32) (u : UInt32) (upper : Bool)
    (hbase : base = 10 ∨ base = 16) {blanks : Text} (hblanks : ∀ c ∈ blanks, isBlank c)
    (hrest : ∀ c ∈ rest.head?, ¬isDigit c) :
    (formatInt junk nb v = decimal v.toInt ∧ Fills 16 (itoaS junk v) (decimal v.toInt) ∧
      atoi (blanks ++ (formatInt junk nb v ++ rest)) = v) ∧
    Fills 16 (itoaU junk u 0 base upper) (formatUInt junk nb base upper u) ∧
    (∀ c ∈ formatUInt junk nb base upper u, ∃ d < base, c = dig upper d) ∧
    valueOf base (formatUInt junk nb base upper u) = u.toNat ∧
    ((formatUInt junk nb base upper u).head? ≠ some '0'.toUInt8 ∨
      formatUInt junk nb base upper u = ['0'.toUInt8]) := by
  have hlt : 1 < base := by omega
  have hle : base ≤ 16 := by omega
  have hfills : Fills 16 (itoaS junk v) (decimal v.toInt) := by
    rw [funext (itoaS_eq junk v)]
    exact fills_strcpy (length_decimal_lt v)
  have hint : formatInt junk nb v = decimal v.toInt :=
    (hfills.holds nb).strIn_eq (decimal_isCString _) hfills.fits.le
  have hpow : u.toNat < base ^ 10 := u.toNat_lt.trans (by rcases hbase with rfl | rfl <;> decide)
  have hlen := length_digitsOf_le upper hlt u.toNat (by decide : 0 < 10) hpow
  have hfills' : Fills 16 (itoaU junk u 0 base upper) (digitsOf upper base u.toNat) := by
    rw [funext fun buf ↦ itoaU_eq junk u 0 hlt upper buf]
    exact fills_strcpy (by omega)
  have huint : formatUInt junk nb base upper u = digitsOf upper base u.toNat :=
    (hfills'.holds nb).strIn_eq (digitsOf_isCString upper hlt hle _) hfills'.fits.le
  rw [hint, huint]
  exact ⟨⟨rfl, hfills, atoi_decimal v hblanks hrest⟩, hfills',
    fun c hc ↦ mem_digitsOf upper hlt _ hc, valueOf_digitsOf upper hlt _ hle,
    digitsOf_leading upper hlt _ hle⟩

/-- The least number, behind a blank and in front of a newline. -/
theorem print_parse_inverse_min :
    atoi (keyword " " ++ (formatInt Bytes.zero Bytes.zero Int32.minValue ++ keyword "\n")) =
      Int32.minValue ∧ formatInt Bytes.zero Bytes.zero Int32.minValue = keyword "-2147483648" :=
  ⟨(print_parse_inverse Bytes.zero Bytes.zero Int32.minValue 0 false (.inl rfl)
    (List.all_eq_true.mp rfl) (by rintro c ⟨⟩; decide)).1.2.2, by decide⟩

end FentoOS.Libc
