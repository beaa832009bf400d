import FentoOS.Lib.Ring
import FentoOS.Lib.Scan
import FentoOS.User.Libc

/-!
# The shell's tokenizer

`tokenize` cuts a line in place.  A word is a pointer into the line and ends with
the terminator that is written over the character behind it; a single-character
operator is copied to a ring of two-byte strings; `>>` is a constant.  The texts
of the tokens are read only later, from the line and the ring as they are then.

The character behind a word is overwritten and passed, whatever it is.  A blank
is no loss.  An operator is: the line `ls|wc` has the tokens `ls` and `wc`.

`lexWith d` says what the tokens are when `d` characters are lost behind each
word: `lex`, with `d = 0`, is what the tokens should be, and `d = 1` is what
`tokenize` yields.
-/

namespace FentoOS.Shell

open FentoOS.Lib FentoOS.Libc

def maxArgs : Nat := 32

def maxCmds : Nat := 8

def isSpace (c : UInt8) : Bool := c == ' '.toUInt8 || c == '\t'.toUInt8

def isOperator (c : UInt8) : Bool := c == '|'.toUInt8 || c == '<'.toUInt8 || c == '>'.toUInt8

/-- A character of a word. -/
def isWord (c : UInt8) : Bool := c != 0 && !isSpace c && !isOperator c

/-- An entry of `tokens`: a pointer into the line, the constant `>>`, or an entry of `ops`. -/
inductive Token
  | word (p : Nat)
  | append
  | op (slot : Nat)
  deriving DecidableEq, Repr

/-- The variables of `tokenize`, with the line.  `ops` has the first character of each entry, the
second one being the terminator; it and `opidx` are kept from one call to the next. -/
structure Lexer where
  line : Bytes
  p : Nat
  tokens : List Token
  ops : Bytes
  opidx : Nat

namespace Lexer

/-- One token is taken at `p`, where there is no blank and not the end of the line.  The line stands
in an array of `size` bytes. -/
def takeToken (size : Nat) (L : Lexer) : Lexer :=
  if isOperator (L.line L.p) then
    if L.line L.p = '>'.toUInt8 ∧ L.line (L.p + 1) = '>'.toUInt8 then
      { L with tokens := L.tokens ++ [.append], line := L.line.put8 L.p 0, p := L.p + 2 }
    else
      let slot := L.opidx % (maxCmds * 4)
      { L with
        ops := L.ops.put8 slot (L.line L.p)
        opidx := L.opidx + 1
        tokens := L.tokens ++ [.op slot]
        p := L.p + 1 }
  else
    let q := skipWhile isWord L.line size L.p
    if L.line q ≠ 0 then
      { L with tokens := L.tokens ++ [.word L.p], line := L.line.put8 q 0, p := q + 1 }
    else { L with tokens := L.tokens ++ [.word L.p], p := q }

/-- The loop of `tokenize`, at most `k` times around. -/
def loop (size max : Nat) : Nat → Lexer → Lexer
  | 0, L => L
  | k + 1, L =>
    if L.line L.p ≠ 0 ∧ L.tokens.length < max - 1 then
      let q := skipWhile isSpace L.line size L.p
      if L.line q = 0 then { L with p := q } else loop size max k ({ L with p := q }.takeToken size)
    else L

/-- The text of a token, as it is read behind `tokenize`. -/
def text (size : Nat) (L : Lexer) : Token → Text
  | .word p => strIn (L.line.shift p) size
  | .append => ['>'.toUInt8, '>'.toUInt8]
  | .op slot => [L.ops slot]

end Lexer

/-- `tokenize(line + start, tokens, max)`, for a line in an array of `size` bytes. -/
def tokenize (size : Nat) (line : Bytes) (start : Nat) (ops : Bytes) (opidx max : Nat) : Lexer :=
  Lexer.loop size max size ⟨line, start, [], ops, opidx⟩

/-- The texts of the tokens of a line. -/
def tokenTexts (ops : Bytes) (opidx : Nat) (s : Text) : List Text :=
  let L := tokenize (s.length + 1) (cstr s) 0 ops opidx (maxArgs * 2)
  L.tokens.map (L.text (s.length + 1))

/-! ## The tokens of a line -/

/-- The words and operators of a line, when `d` characters are lost behind each word. -/
def lexWith (d : Nat) : Text → List Text
  | [] => []
  | c :: s =>
    if isSpace c then lexWith d s
    else if isOperator c then
      if c = '>'.toUInt8 ∧ s.head? = some '>'.toUInt8 then [c, c] :: lexWith d s.tail
      else [c] :: lexWith d s
    else (c :: s.takeWhile isWord) :: lexWith d ((s.dropWhile isWord).drop d)
  termination_by s => s.length
  decreasing_by
    all_goals simp only [List.length_cons, List.length_tail, List.length_drop]
    · omega
    · omega
    · omega
    · have := (List.dropWhile_sublist isWord (l := s)).length_le
      omega

/-- The maximal runs of characters other than blanks and operators, and the operators, in order of
appearance; `>>` is one operator. -/
def lex (s : Text) : List Text := lexWith 0 s

/-- The line with a space in front of every operator and behind it. -/
def spaceOut : Text → Text
  | [] => []
  | c :: s =>
    if c = '>'.toUInt8 ∧ s.head? = some '>'.toUInt8 then
      ' '.toUInt8 :: c :: c :: ' '.toUInt8 :: spaceOut s.tail
    else if isOperator c then ' '.toUInt8 :: c :: ' '.toUInt8 :: spaceOut s
    else c :: spaceOut s
  termination_by s => s.length

/-- A single-character operator, as a token. -/
def isSingle (t : Text) : Bool := t.length == 1 && t.all isOperator

/-- No operator directly behind a word. -/
def Apart (s : Text) : Prop := s.IsChain fun a b ↦ ¬(isWord a ∧ isOperator b)

instance (s : Text) : Decidable (Apart s) := inferInstanceAs (Decidable (List.IsChain _ s))

variable {c : UInt8}

theorem isWord_eq (hc : c ≠ 0) : isWord c = (!isSpace c && !isOperator c) := by
  rw [isWord, bne_iff_ne.mpr hc, Bool.true_and]

theorem isSpace_of_isOperator (h : isOperator c) : isSpace c = false := by
  simp only [isOperator, Bool.or_eq_true, beq_iff_eq] at h
  rcases h with (rfl | rfl) | rfl <;> rfl

section

variable {d : Nat} {c : UInt8} {s : Text}

@[simp] theorem lexWith_nil : lexWith d [] = [] := by rw [lexWith]

theorem lexWith_space (h : isSpace c) : lexWith d (c :: s) = lexWith d s := by
  rw [lexWith, if_pos h]

theorem lexWith_append (h : c = '>'.toUInt8 ∧ s.head? = some '>'.toUInt8) :
    lexWith d (c :: s) = [c, c] :: lexWith d s.tail := by
  have hop : isOperator c := h.1 ▸ rfl
  rw [lexWith, isSpace_of_isOperator hop, if_neg Bool.false_ne_true, if_pos hop, if_pos h]

theorem lexWith_single (hop : isOperator c) (h : ¬(c = '>'.toUInt8 ∧ s.head? = some '>'.toUInt8)) :
    lexWith d (c :: s) = [c] :: lexWith d s := by
  rw [lexWith, isSpace_of_isOperator hop, if_neg Bool.false_ne_true, if_pos hop, if_neg h]

theorem lexWith_word (h : isWord c) :
    lexWith d (c :: s) = (c :: s.takeWhile isWord) :: lexWith d ((s.dropWhile isWord).drop d) := by
  simp only [isWord, Bool.and_eq_true, Bool.not_eq_true'] at h
  rw [lexWith, h.1.2, h.2, if_neg Bool.false_ne_true, if_neg Bool.false_ne_true]

theorem lexWith_dropWhile_isSpace : lexWith d (s.dropWhile isSpace) = lexWith d s := by
  induction s with
  | nil => rfl
  | cons c s ih =>
    rw [List.dropWhile_cons]
    split
    case isTrue h => rw [ih, lexWith_space h]
    case isFalse => rfl

end

/-! ## What `tokenize` yields -/

/-- What the loop does from a pointer on behind which there is `s` left. -/
structure Lexes (size : Nat) (L : Lexer) (s : Text) (L' : Lexer) : Prop where
  line : ∀ j, j < L.p ∨ L.p + s.length ≤ j → L'.line j = L.line j
  ops : ∀ slot, (∀ i < (lexWith 1 s).countP isSingle, slot ≠ (L.opidx + i) % (maxCmds * 4)) →
    L'.ops slot = L.ops slot
  tokens : ∃ new, L'.tokens = L.tokens ++ new ∧
    (new.map (L'.text size)).map List.length = (lexWith 1 s).map List.length ∧
    ((lexWith 1 s).countP isSingle ≤ maxCmds * 4 → new.map (L'.text size) = lexWith 1 s)

namespace Lexes

variable {size : Nat} {L M L' : Lexer} {s t : Text} {tok : Token} {w : Text}

/-- Nothing but blanks is left. -/
theorem blank (hs : lexWith 1 s = []) (hline : L'.line = L.line) (hops : L'.ops = L.ops)
    (htokens : L'.tokens = L.tokens) : Lexes size L s L' where
  line := fun _ _ ↦ by rw [hline]
  ops := fun _ _ ↦ by rw [hops]
  tokens := ⟨[], by rw [htokens, List.append_nil], by rw [hs]; rfl, fun _ ↦ hs.symm⟩

/-- Blanks are passed. -/
theorem skip (h : Lexes size { L with p := L.p + s.length } t L')
    (hlex : lexWith 1 t = lexWith 1 (s ++ t)) : Lexes size L (s ++ t) L' where
  line := by
    intro j hj
    rw [List.length_append] at hj
    exact h.line j (by dsimp only; omega)
  ops := hlex ▸ h.ops
  tokens := hlex ▸ h.tokens

/-- A word or `>>` is taken, and the loop goes on. -/
theorem plain (h : Lexes size M t L') (hp : M.p = L.p + s.length)
    (hlex : lexWith 1 (s ++ t) = w :: lexWith 1 t) (hw : isSingle w = false)
    (htokens : M.tokens = L.tokens ++ [tok])
    (hline : ∀ j, j < L.p ∨ L.p + (s ++ t).length ≤ j → M.line j = L.line j)
    (hops : M.ops = L.ops) (hidx : M.opidx = L.opidx) (htext : L'.text size tok = w) :
    Lexes size L (s ++ t) L' where
  line := by
    intro j hj
    rw [h.line j (by rw [List.length_append] at hj; omega), hline j hj]
  ops := by
    intro slot hslot
    rw [hlex, List.countP_cons_of_neg (by rw [hw]; exact Bool.false_ne_true)] at hslot
    rw [← hops]
    exact h.ops slot fun i hi ↦ hidx ▸ hslot i hi
  tokens := by
    obtain ⟨new, hnew, hlen, heq⟩ := h.tokens
    refine ⟨tok :: new, ?_, ?_, ?_⟩
    · rw [hnew, htokens, List.append_assoc, List.singleton_append]
    · rw [hlex, List.map_cons, List.map_cons, htext, hlen, List.map_cons]
    · intro hcount
      rw [hlex, List.countP_cons_of_neg (by rw [hw]; exact Bool.false_ne_true)] at hcount
      rw [hlex, List.map_cons, htext, heq hcount]

/-- A single-character operator is taken, and the loop goes on.  Its entry is written again only
when the ring comes around. -/
theorem single (h : Lexes size M t L') (hp : M.p = L.p + 1)
    (hlex : lexWith 1 (c :: t) = [c] :: lexWith 1 t) (hc : isOperator c)
    (htokens : M.tokens = L.tokens ++ [.op (L.opidx % (maxCmds * 4))]) (hline : M.line = L.line)
    (hops : M.ops = L.ops.put8 (L.opidx % (maxCmds * 4)) c) (hidx : M.opidx = L.opidx + 1) :
    Lexes size L (c :: t) L' := by
  have hsingle : isSingle [c] := by simp [isSingle, hc]
  have hcount : (lexWith 1 (c :: t)).countP isSingle = (lexWith 1 t).countP isSingle + 1 := by
    rw [hlex, List.countP_cons_of_pos hsingle]
  refine ⟨?_, ?_, ?_⟩
  · intro j hj
    rw [List.length_cons] at hj
    rw [h.line j (by omega), hline]
  · intro slot hslot
    rw [hcount] at hslot
    rw [h.ops slot fun i hi ↦ ?_, hops]
    · exact Bytes.put8_of_ne _ _ (hslot 0 (Nat.succ_pos _))
    · rw [hidx, Nat.add_assoc, Nat.add_comm 1 i]
      exact hslot (i + 1) (Nat.succ_lt_succ hi)
  · obtain ⟨new, hnew, hlen, heq⟩ := h.tokens
    refine ⟨.op (L.opidx % (maxCmds * 4)) :: new, ?_, ?_, ?_⟩
    · rw [hnew, htokens, List.append_assoc, List.singleton_append]
    · rw [hlex, List.map_cons, List.map_cons, hlen, List.map_cons]
      rfl
    · intro hle
      rw [hcount] at hle
      have hkept : L'.ops (L.opidx % (maxCmds * 4)) = c := by
        rw [h.ops _ fun i hi ↦ ?_, hops, Bytes.put8_same]
        -- fewer than 32 operators follow, so none of them gets this entry
        rw [hidx]
        have hne := ring_index_ne (N := maxCmds * 4) (r := L.opidx) (k := 0) (n := 1 + i)
          (by omega) (by omega)
        rwa [Nat.add_zero, ← Nat.add_assoc] at hne
      rw [hlex, List.map_cons, heq (by omega), Lexer.text, hkept]

end Lexes

variable {s : Text}

/-- The pointer is at a character that begins a token: the token is taken, and the rest of the line
is what `lexWith` goes on with. -/
theorem takeToken_lexes (size : Nat) (L L' : Lexer) (h : HoldsStr (L.line.shift L.p) (c :: s))
    (hs : IsCString (c :: s)) (hc : isSpace c = false) (hsize : (c :: s).length ≤ size) :
    ∃ w t, lexWith 1 (c :: s) = w :: lexWith 1 t ∧ t.length < (c :: s).length ∧ IsCString t ∧
      HoldsStr ((L.takeToken size).line.shift (L.takeToken size).p) t ∧
      (L.takeToken size).tokens.length = L.tokens.length + 1 ∧
      (Lexes size (L.takeToken size) t L' → Lexes size L (c :: s) L') := by
  have hhead : L.line L.p = c := h.head_eq
  have hnext : L.line (L.p + 1) = '>'.toUInt8 ↔ s.head? = some '>'.toUInt8 := by
    cases s with
    | nil =>
      rw [h.tail.nil_eq]
      exact ⟨fun h ↦ absurd h (by decide), fun h ↦ by cases h⟩
    | cons b s => rw [h.tail.head_eq, List.head?_cons, Option.some_inj]
  by_cases hop : isOperator c
  · by_cases hgt : c = '>'.toUInt8 ∧ s.head? = some '>'.toUInt8
    · obtain ⟨t, rfl⟩ : ∃ t, s = '>'.toUInt8 :: t := by
        cases s with
        | nil => exact absurd hgt.2 (by simp)
        | cons b t => exact ⟨t, by rw [Option.some_inj.mp hgt.2]⟩
      obtain rfl := hgt.1
      have htake : L.takeToken size = { L with
          tokens := L.tokens ++ [.append], line := L.line.put8 L.p 0, p := L.p + 2 } := by
        rw [Lexer.takeToken, hhead, if_pos hop, if_pos ⟨rfl, hnext.mpr rfl⟩]
      have hlex := lexWith_append (d := 1) (s := '>'.toUInt8 :: t) ⟨rfl, rfl⟩
      rw [htake]
      refine ⟨_, t, hlex, by simp, hs.tail.tail, ?_, by simp, fun hl ↦ ?_⟩
      · exact h.tail.tail.of_eq fun j hj _ ↦ Bytes.put8_of_ne _ _ (by omega)
      · refine hl.plain (s := ['>'.toUInt8, '>'.toUInt8]) rfl hlex rfl rfl ?_ rfl rfl rfl
        intro j hj
        refine Bytes.put8_of_ne _ _ ?_
        simp only [List.length_append, List.length_cons] at hj
        omega
    · have htake : L.takeToken size = { L with
          ops := L.ops.put8 (L.opidx % (maxCmds * 4)) c
          opidx := L.opidx + 1
          tokens := L.tokens ++ [.op (L.opidx % (maxCmds * 4))]
          p := L.p + 1 } := by
        rw [Lexer.takeToken, hhead, if_pos hop, if_neg fun hc ↦ hgt ⟨hc.1, hnext.mp hc.2⟩]
      have hlex := lexWith_single (d := 1) hop hgt
      rw [htake]
      exact ⟨_, s, hlex, by simp, hs.tail, h.tail, by simp,
        fun hl ↦ hl.single rfl hlex hop rfl rfl rfl rfl⟩
  · have hword : isWord c := by rw [isWord_eq hs.head_ne, hc]; simpa using hop
    have hlex := lexWith_word (d := 1) (s := s) hword
    have hsplit : c :: s = (c :: s.takeWhile isWord) ++ s.dropWhile isWord := by
      rw [List.cons_append, List.takeWhile_append_dropWhile]
    have hq : skipWhile isWord L.line size L.p = L.p + (c :: s.takeWhile isWord).length := by
      rw [h.skipWhile_eq rfl hsize, List.takeWhile_cons_of_pos hword]
    have hw : isSingle (c :: s.takeWhile isWord) = false := by
      rw [isSingle, List.all_cons, Bool.eq_false_iff.mpr hop, Bool.false_and, Bool.and_false]
    generalize c :: s.takeWhile isWord = w at hlex hsplit hq hw
    rw [hsplit] at h hs hsize
    have hwsize : w.length ≤ size := by
      rw [List.length_append] at hsize
      exact Nat.le_of_add_right_le hsize
    have hwc := hs.of_append_left
    cases hrest : s.dropWhile isWord with
    | nil =>
      rw [hrest] at h hs hlex hsplit
      have htake : L.takeToken size =
          { L with tokens := L.tokens ++ [.word L.p], p := L.p + w.length } := by
        rw [Lexer.takeToken, hhead, if_neg hop]
        simp only [hq]
        rw [if_neg (not_not.mpr h.append_right.nil_eq)]
      rw [htake]
      refine ⟨w, [], hlex, by simp, List.not_mem_nil, h.append_right, by simp, fun hl ↦ ?_⟩
      rw [hsplit]
      refine hl.plain rfl (hsplit ▸ hlex) hw rfl (fun _ _ ↦ rfl) rfl rfl ?_
      rw [List.append_nil] at h
      have hheld : HoldsStr (L'.line.shift L.p) w :=
        h.of_eq fun j _ _ ↦ hl.line j (lt_or_ge j _)
      exact hheld.strIn_eq hwc hwsize
    | cons b t =>
      rw [hrest] at h hs hlex hsplit
      have hb : L.line (L.p + w.length) = b := h.append_right.head_eq
      have htake : L.takeToken size = { L with
          tokens := L.tokens ++ [.word L.p]
          line := L.line.put8 (L.p + w.length) 0
          p := L.p + w.length + 1 } := by
        rw [Lexer.takeToken, hhead, if_neg hop]
        simp only [hq]
        rw [if_pos (hb ▸ hs.of_append_right.head_ne)]
      rw [htake]
      refine ⟨w, t, hlex, ?_, hs.of_append_right.tail, ?_, by simp, fun hl ↦ ?_⟩
      · rw [hsplit, List.length_append, List.length_cons]
        omega
      · exact h.append_right.tail.of_eq fun j hj _ ↦ Bytes.put8_of_ne _ _ (by omega)
      · have hsplit' : c :: s = (w ++ [b]) ++ t := by rw [hsplit, List.append_assoc]; rfl
        rw [hsplit']
        refine hl.plain ?_ (hsplit' ▸ hlex) hw rfl ?_ rfl rfl ?_
        · rw [List.length_append, List.length_singleton, ← Nat.add_assoc]
        · intro j hj
          simp only [List.length_append, List.length_singleton] at hj
          exact Bytes.put8_of_ne _ _ (by omega)
        · have hheld : HoldsStr (L'.line.shift L.p) w :=
            h.cut.of_eq fun j _ hj ↦ hl.line j (.inl (Nat.lt_succ_of_le hj))
          exact hheld.strIn_eq hwc hwsize

/-- The loop yields the tokens of the rest of the line. -/
theorem loop_lexes {size max : Nat} {k : Nat} {L : Lexer} (h : HoldsStr (L.line.shift L.p) s)
    (hs : IsCString s) (hsize : s.length ≤ size) (hk : s.length < k)
    (hmax : L.tokens.length + (lexWith 1 s).length < max) : Lexes size L s (L.loop size max k) := by
  induction k generalizing s L with
  | zero => exact absurd hk (Nat.not_lt_zero _)
  | succ k ih =>
    have hskip : skipWhile isSpace L.line size L.p = L.p + (s.takeWhile isSpace).length :=
      h.skipWhile_eq rfl hsize
    have hrest := h.dropWhile isSpace
    have hlex := lexWith_dropWhile_isSpace (d := 1) (s := s)
    have hsplit := List.takeWhile_append_dropWhile (p := isSpace) (l := s)
    rw [Lexer.loop]
    cases hdrop : s.dropWhile isSpace with
    | nil =>
      rw [hdrop] at hrest hlex
      have hblank : lexWith 1 s = [] := by rw [← hlex, lexWith_nil]
      split
      · rw [hskip, if_pos hrest.nil_eq]
        exact Lexes.blank hblank rfl rfl rfl
      · exact Lexes.blank hblank rfl rfl rfl
    | cons c t =>
      rw [hdrop] at hrest hlex hsplit
      have hct : IsCString (c :: t) := hdrop ▸ hs.dropWhile isSpace
      have hc : isSpace c = false := by
        have := List.head?_dropWhile_not isSpace s
        rwa [hdrop, List.head?_cons] at this
      have hlength : (s.takeWhile isSpace).length + (c :: t).length = s.length := by
        rw [← List.length_append, hsplit]
      obtain ⟨w, r, hw, hr, hrc, hrheld, hcount, hgo⟩ := takeToken_lexes size
        { L with p := L.p + (s.takeWhile isSpace).length } (L.loop size max (k + 1)) hrest hct hc
        (by omega)
      have hfits : L.tokens.length + ((lexWith 1 r).length + 1) < max := by
        rwa [← List.length_cons, ← hw, hlex]
      dsimp only at hcount
      have hgo' := ih (s := r) hrheld hrc (by omega) (by omega) (by omega)
      have hnonzero : L.line L.p ≠ 0 := by
        cases s with
        | nil => cases hdrop
        | cons b s => rw [h.head_eq]; exact hs.head_ne
      have hloop : L.loop size max (k + 1) = Lexer.loop size max k
          (Lexer.takeToken size { L with p := L.p + (s.takeWhile isSpace).length }) := by
        rw [Lexer.loop, if_pos ⟨hnonzero, by omega⟩, hskip]
        exact if_neg (hrest.head_eq ▸ hct.head_ne)
      rw [← Lexer.loop, hloop]
      rw [hloop] at hgo
      have hlexes := (hgo hgo').skip (by rw [hlex, hsplit])
      rwa [hsplit] at hlexes

/-! ## What is lost behind a word -/

/-- The characters of all tokens. -/
def total (l : List Text) : Nat := (l.map List.length).sum

/-- The characters of a line that are not blank. -/
def solid (s : Text) : Nat := s.countP fun c ↦ !isSpace c

theorem solid_cons_of_isSpace (h : isSpace c) (s : Text) : solid (c :: s) = solid s :=
  List.countP_cons_of_neg (by rw [h]; exact Bool.false_ne_true)

theorem solid_cons (h : isSpace c = false) (s : Text) : solid (c :: s) = solid s + 1 :=
  List.countP_cons_of_pos (by rw [h]; rfl)

variable {w : Text}

theorem solid_word (hw : ∀ c ∈ w, isWord c) (s : Text) : solid (w ++ s) = w.length + solid s := by
  have hall : w.countP (fun c ↦ !isSpace c) = w.length := by
    refine List.countP_eq_length.mpr fun c hc ↦ ?_
    have := hw c hc
    simp only [isWord, Bool.and_eq_true] at this
    exact this.1.2
  rw [solid, List.countP_append, hall, solid]

theorem apart_cons (h : isWord c = false) (s : Text) : Apart (c :: s) ↔ Apart s := by
  unfold Apart
  rw [List.isChain_cons]
  refine ⟨fun hchain ↦ hchain.2, fun hchain ↦ ⟨fun b _ hb ↦ ?_, hchain⟩⟩
  rw [h] at hb
  exact Bool.false_ne_true hb.1

theorem not_isOperator_of_isWord (h : isWord c) : isOperator c = false := by
  simp only [isWord, Bool.and_eq_true, Bool.not_eq_true'] at h
  exact h.2

/-- Behind the last character of a word there must be no operator. -/
theorem apart_word_append (hw : ∀ c ∈ w, isWord c) (hne : w ≠ []) (t : Text) :
    Apart (w ++ t) ↔ (∀ b ∈ t.head?, isOperator b = false) ∧ Apart t := by
  induction w with
  | nil => exact absurd rfl hne
  | cons c w ih =>
    have hc := hw c List.mem_cons_self
    have hw' : ∀ c ∈ w, isWord c := fun c hc ↦ hw c (List.mem_cons_of_mem _ hc)
    cases w with
    | nil =>
      change List.IsChain _ (c :: t) ↔ _
      rw [List.isChain_cons]
      refine and_congr_left fun _ ↦ forall₂_congr fun b _ ↦ ?_
      rw [not_and, Bool.not_eq_true]
      exact ⟨fun h ↦ h hc, fun h _ ↦ h⟩
    | cons d w =>
      have hd := not_isOperator_of_isWord (hw' d List.mem_cons_self)
      rw [← ih hw' (List.cons_ne_nil _ _)]
      change List.IsChain _ (c :: d :: (w ++ t)) ↔ _
      rw [List.isChain_cons_cons, hd]
      exact ⟨fun h ↦ h.2, fun h ↦ ⟨fun hop ↦ Bool.false_ne_true hop.2, h⟩⟩

/-- One more `>` in front of a line adds a token to it or none. -/
theorem length_lex_gt (d : Nat) (s : Text) :
    (lexWith d s).length ≤ (lexWith d ('>'.toUInt8 :: s)).length ∧
      (lexWith d ('>'.toUInt8 :: s)).length ≤ (lexWith d s).length + 1 := by
  induction s with
  | nil => rw [lexWith_single rfl (by simp)]; simp
  | cons c s ih =>
    by_cases hc : c = '>'.toUInt8
    · subst hc
      rw [lexWith_append (s := '>'.toUInt8 :: s) ⟨rfl, rfl⟩, List.length_cons, List.tail_cons]
      exact ⟨ih.2, Nat.succ_le_succ ih.1⟩
    · rw [lexWith_single (s := c :: s) rfl fun h ↦ hc (Option.some_inj.mp h.2), List.length_cons]
      exact ⟨Nat.le_succ _, le_rfl⟩

theorem length_lex_operator (d : Nat) (h : isOperator c) (s : Text) :
    (lexWith d s).length ≤ (lexWith d (c :: s)).length := by
  by_cases hc : c = '>'.toUInt8
  · subst hc
    exact (length_lex_gt d s).1
  · rw [lexWith_single h fun hgt ↦ hc hgt.1]
    exact Nat.le_succ _

/-- What the tokens of a line have to do with its characters: of the tokens as they should be, none
is missing; of those that `tokenize` yields, the operators directly behind words are. -/
structure Counted (s : Text) : Prop where
  whole : total (lexWith 0 s) = solid s
  le : total (lexWith 1 s) ≤ solid s
  apart : total (lexWith 1 s) = solid s → Apart s
  same : Apart s → lexWith 1 s = lexWith 0 s
  length : (lexWith 1 s).length ≤ (lexWith 0 s).length

theorem counted_nil : Counted [] where
  whole := by rw [lexWith_nil]; rfl
  le := by rw [lexWith_nil]; rfl
  apart := fun _ ↦ List.isChain_nil
  same := fun _ ↦ by rw [lexWith_nil, lexWith_nil]
  length := by rw [lexWith_nil, lexWith_nil]

/-- A blank in front. -/
theorem Counted.space (h : Counted s) (hc : isSpace c) : Counted (c :: s) := by
  have hsolid := solid_cons_of_isSpace hc s
  have hnot : isWord c = false := by simp [isWord, hc]
  constructor
  · rw [lexWith_space hc, hsolid, h.whole]
  · rw [lexWith_space hc, hsolid]
    exact h.le
  · rw [lexWith_space hc, hsolid, apart_cons hnot]
    exact h.apart
  · rw [lexWith_space hc, lexWith_space hc, apart_cons hnot]
    exact h.same
  · rw [lexWith_space hc, lexWith_space hc]
    exact h.length

/-- A token in front, behind which nothing is lost. -/
theorem Counted.token (h : Counted s) (hsolid : solid (w ++ s) = w.length + solid s)
    (hlex : ∀ d ≤ 1, lexWith d (w ++ s) = w :: lexWith d s) (hapart : Apart (w ++ s) ↔ Apart s) :
    Counted (w ++ s) := by
  have htotal : ∀ d ≤ 1, total (lexWith d (w ++ s)) = w.length + total (lexWith d s) :=
    fun d hd ↦ by rw [hlex d hd]; rfl
  have hlex₀ := hlex 0 zero_le_one
  have hlex₁ := hlex 1 le_rfl
  constructor
  · rw [htotal 0 zero_le_one, hsolid, h.whole]
  · rw [htotal 1 le_rfl, hsolid]
    exact Nat.add_le_add_left h.le _
  · rw [htotal 1 le_rfl, hsolid, hapart]
    exact fun heq ↦ h.apart (Nat.add_left_cancel heq)
  · rw [hlex₀, hlex₁, hapart]
    exact fun ha ↦ congrArg _ (h.same ha)
  · rw [hlex₀, hlex₁, List.length_cons, List.length_cons]
    exact Nat.succ_le_succ h.length

/-- A word in front, directly behind which there is an operator. -/
theorem Counted.joined {t : Text} {b : UInt8} (h : Counted t) (h' : Counted (b :: t))
    (hw : ∀ c ∈ w, isWord c) (hne : w ≠ []) (hb : isOperator b)
    (hlex₀ : lexWith 0 (w ++ b :: t) = w :: lexWith 0 (b :: t))
    (hlex₁ : lexWith 1 (w ++ b :: t) = w :: lexWith 1 t) : Counted (w ++ b :: t) := by
  have hsolid : solid (w ++ b :: t) = w.length + (solid t + 1) := by
    rw [solid_word hw, solid_cons (isSpace_of_isOperator hb)]
  have htotal : total (lexWith 1 (w ++ b :: t)) = w.length + total (lexWith 1 t) := by
    rw [hlex₁]
    rfl
  have hle := h.le
  constructor
  · rw [hlex₀, solid_word hw, ← h'.whole]
    rfl
  · omega
  · omega
  · intro ha
    have := ((apart_word_append hw hne _).mp ha).1 b rfl
    rw [hb] at this
    cases this
  · rw [hlex₀, hlex₁]
    exact Nat.succ_le_succ (h.length.trans (length_lex_operator 0 hb t))

theorem counted (s : Text) (hs : IsCString s) : Counted s := by
  induction hlength : s.length using Nat.strong_induction_on generalizing s with
  | _ n ih =>
    subst hlength
    cases s with
    | nil => exact counted_nil
    | cons c s =>
      have ihs : Counted s := ih _ (Nat.lt_succ_self _) s hs.tail rfl
      by_cases hc : isSpace c
      · exact ihs.space hc
      have hc' := Bool.eq_false_iff.mpr hc
      by_cases hop : isOperator c
      · have hnot : isWord c = false := by simp [isWord, hop]
        by_cases hgt : c = '>'.toUInt8 ∧ s.head? = some '>'.toUInt8
        · obtain ⟨t, rfl⟩ : ∃ t, s = c :: t := by
            cases s with
            | nil => cases hgt.2
            | cons b t => exact ⟨t, by rw [hgt.1, Option.some_inj.mp hgt.2]⟩
          have iht : Counted t := ih _ (by simp) t hs.tail.tail rfl
          refine Counted.token (w := [c, c]) iht ?_ (fun d _ ↦ lexWith_append hgt) ?_
          · change solid (c :: c :: t) = 2 + _
            rw [solid_cons hc', solid_cons hc']
            omega
          · change Apart (c :: c :: t) ↔ _
            rw [apart_cons hnot, apart_cons hnot]
        · refine Counted.token (w := [c]) ihs ?_ (fun d _ ↦ lexWith_single hop hgt)
            (apart_cons hnot s)
          change solid (c :: s) = 1 + _
          rw [solid_cons hc', Nat.add_comm]
      -- a word, and what is directly behind it
      have hword : isWord c := by rw [isWord_eq hs.head_ne, hc', Bool.eq_false_iff.mpr hop]; rfl
      have hlex := fun d ↦ lexWith_word (d := d) (s := s) hword
      have hsplit : c :: s = (c :: s.takeWhile isWord) ++ s.dropWhile isWord := by
        rw [List.cons_append, List.takeWhile_append_dropWhile]
      have hw : ∀ b ∈ c :: s.takeWhile isWord, isWord b := by
        intro b hb
        rcases List.mem_cons.mp hb with rfl | hb
        · exact hword
        · exact List.mem_takeWhile_imp hb
      have hne : c :: s.takeWhile isWord ≠ [] := List.cons_ne_nil _ _
      have hhead := List.head?_dropWhile_not isWord s
      generalize c :: s.takeWhile isWord = w at hlex hsplit hw hne
      generalize s.dropWhile isWord = r at hlex hsplit hhead
      rw [hsplit] at hs ih hlex ⊢
      have hr : ∀ t, t.length ≤ r.length → IsCString t → Counted t := by
        refine fun t ht htc ↦ ih _ ?_ t htc rfl
        have := List.length_pos_of_ne_nil hne
        rw [List.length_append]
        omega
      have hrc := hs.of_append_right
      cases r with
      | nil =>
        refine counted_nil.token (solid_word hw _) (fun d _ ↦ ?_) ?_
        · rw [hlex, List.drop_nil]
        · rw [apart_word_append hw hne]
          exact ⟨fun h ↦ h.2, fun h ↦ ⟨by simp, h⟩⟩
      | cons b t =>
        have hbt := hr _ le_rfl hrc
        rw [List.head?_cons] at hhead
        have hspace := isWord_eq hrc.head_ne
        rw [hhead] at hspace
        by_cases hb : isOperator b
        · exact (hr t (by simp) hrc.tail).joined hbt hw hne hb (hlex 0) (hlex 1)
        · rw [Bool.eq_false_iff.mpr hb, Bool.not_false, Bool.and_true] at hspace
          have hbs : isSpace b := by simpa using hspace.symm
          refine hbt.token (solid_word hw _) (fun d hd ↦ ?_) ?_
          · rw [hlex]
            rcases Nat.le_one_iff_eq_zero_or_eq_one.mp hd with rfl | rfl
            · rfl
            · rw [lexWith_space hbs]
              rfl
          · rw [apart_word_append hw hne]
            refine ⟨fun h ↦ h.2, fun h ↦ ⟨fun b' hb' ↦ ?_, h⟩⟩
            rw [← Option.some_inj.mp hb']
            exact Bool.eq_false_iff.mpr hb

/-! ## The line with spaces around the operators -/

section

variable {c : UInt8} {s : Text}

theorem spaceOut_append (h : c = '>'.toUInt8 ∧ s.head? = some '>'.toUInt8) :
    spaceOut (c :: s) = ' '.toUInt8 :: c :: c :: ' '.toUInt8 :: spaceOut s.tail := by
  rw [spaceOut, if_pos h]

theorem spaceOut_single (hop : isOperator c)
    (h : ¬(c = '>'.toUInt8 ∧ s.head? = some '>'.toUInt8)) :
    spaceOut (c :: s) = ' '.toUInt8 :: c :: ' '.toUInt8 :: spaceOut s := by
  rw [spaceOut, if_neg h, if_pos hop]

theorem spaceOut_other (hop : isOperator c = false) : spaceOut (c :: s) = c :: spaceOut s := by
  have hgt : ¬(c = '>'.toUInt8 ∧ s.head? = some '>'.toUInt8) := by
    rintro ⟨rfl, -⟩
    cases hop
  rw [spaceOut, if_neg hgt, hop, if_neg Bool.false_ne_true]

/-- In front of an operator there is a space. -/
theorem spaceOut_operator (hop : isOperator c) : ∃ t, spaceOut (c :: s) = ' '.toUInt8 :: t := by
  by_cases h : c = '>'.toUInt8 ∧ s.head? = some '>'.toUInt8
  · exact ⟨_, spaceOut_append h⟩
  · exact ⟨_, spaceOut_single hop h⟩

end

/-- A word is not changed, and what is behind it is spaced out. -/
theorem spaceOut_word (s : Text) : (spaceOut s).takeWhile isWord = s.takeWhile isWord ∧
    (spaceOut s).dropWhile isWord = spaceOut (s.dropWhile isWord) := by
  induction s with
  | nil => rw [spaceOut]; exact ⟨rfl, by rw [List.dropWhile_nil, spaceOut]⟩
  | cons c s ih =>
    by_cases hop : isOperator c
    · obtain ⟨t, ht⟩ := spaceOut_operator (s := s) hop
      have hnot : isWord c = false := by simp [isWord, hop]
      rw [List.takeWhile_cons, List.dropWhile_cons, hnot, if_neg Bool.false_ne_true,
        if_neg Bool.false_ne_true, ht]
      exact ⟨rfl, rfl⟩
    · rw [spaceOut_other (Bool.eq_false_iff.mpr hop)]
      by_cases hc : isWord c
      · rw [List.takeWhile_cons_of_pos hc, List.takeWhile_cons_of_pos hc,
          List.dropWhile_cons_of_pos hc, List.dropWhile_cons_of_pos hc, ih.1, ih.2]
        exact ⟨rfl, rfl⟩
      · rw [List.takeWhile_cons_of_neg hc, List.takeWhile_cons_of_neg hc,
          List.dropWhile_cons_of_neg hc, List.dropWhile_cons_of_neg hc,
          spaceOut_other (Bool.eq_false_iff.mpr hop)]
        exact ⟨rfl, rfl⟩

/-- The line with spaces has the same tokens. -/
theorem lex_spaceOut (s : Text) : lexWith 0 (spaceOut s) = lexWith 0 s := by
  fun_induction lexWith 0 s with
  | case1 => rw [spaceOut, lexWith_nil]
  | case2 c s hc ih =>
    have hop : isOperator c = false := by
      by_contra hop
      rw [isSpace_of_isOperator (Bool.eq_true_of_not_eq_false hop)] at hc
      cases hc
    rw [spaceOut_other hop, lexWith_space hc, ih]
  | case3 c s hc hop hgt ih =>
    rw [spaceOut_append hgt, lexWith_space rfl, lexWith_append ⟨hgt.1, by rw [← hgt.1]; rfl⟩,
      List.tail_cons, lexWith_space rfl, ih]
  | case4 c s hc hop hgt ih =>
    rw [spaceOut_single hop hgt, lexWith_space rfl, lexWith_single hop, lexWith_space rfl, ih]
    exact fun h ↦ absurd (Option.some_inj.mp h.2) (by decide)
  | case5 c s hc hop ih =>
    rw [spaceOut_other (Bool.eq_false_iff.mpr hop)]
    rw [lexWith, if_neg hc, if_neg hop, (spaceOut_word s).1, (spaceOut_word s).2]
    rw [List.drop_zero] at ih ⊢
    rw [ih, List.drop_zero]

theorem head_spaceOut (s : Text) : ∀ b ∈ (spaceOut s).head?, isOperator b = false := by
  intro b hb
  cases s with
  | nil => rw [spaceOut] at hb; cases hb
  | cons c s =>
    by_cases hop : isOperator c
    · obtain ⟨t, ht⟩ := spaceOut_operator (s := s) hop
      rw [ht] at hb
      rw [← Option.some_inj.mp hb]
      rfl
    · rw [spaceOut_other (Bool.eq_false_iff.mpr hop)] at hb
      rw [← Option.some_inj.mp hb]
      exact Bool.eq_false_iff.mpr hop

theorem apart_spaceOut (s : Text) : Apart (spaceOut s) := by
  fun_induction spaceOut s with
  | case1 => exact List.isChain_nil
  | case2 c s hgt ih =>
    have hnot : isWord c = false := hgt.1 ▸ rfl
    rwa [apart_cons rfl, apart_cons hnot, apart_cons hnot, apart_cons rfl]
  | case3 c s hgt hop ih =>
    have hnot : isWord c = false := by simp [isWord, hop]
    rwa [apart_cons rfl, apart_cons hnot, apart_cons rfl]
  | case4 c s hgt hop ih =>
    refine List.IsChain.cons ih fun b hb hab ↦ ?_
    rw [head_spaceOut s b hb] at hab
    exact Bool.false_ne_true hab.2

theorem isCString_spaceOut (hs : IsCString s) : IsCString (spaceOut s) := by
  fun_induction spaceOut s with
  | case1 => exact hs
  | case2 c s hgt ih =>
    have htail : IsCString s.tail := fun hmem ↦ hs.tail (List.mem_of_mem_tail hmem)
    intro hmem
    simp only [List.mem_cons] at hmem
    rcases hmem with h | h | h | h | h
    · cases h
    · exact hs.head_ne h.symm
    · exact hs.head_ne h.symm
    · cases h
    · exact ih htail h
  | case3 c s hgt hop ih =>
    intro hmem
    simp only [List.mem_cons] at hmem
    rcases hmem with h | h | h | h
    · cases h
    · exact hs.head_ne h.symm
    · cases h
    · exact ih hs.tail h
  | case4 c s hgt hop ih =>
    intro hmem
    rcases List.mem_cons.mp hmem with h | h
    · exact hs.head_ne h.symm
    · exact ih hs.tail h

/-! ## The result -/

/-- The tokens are those that are left when the character behind each word is lost. -/
theorem tokenTexts_lexes (ops : Bytes) (opidx : Nat) (hs : IsCString s)
    (hn : (lexWith 1 s).length < maxArgs * 2) :
    (tokenTexts ops opidx s).map List.length = (lexWith 1 s).map List.length ∧
      ((lexWith 1 s).countP isSingle ≤ maxCmds * 4 → tokenTexts ops opidx s = lexWith 1 s) := by
  have hheld : HoldsStr ((cstr s).shift 0) s := by
    intro j _
    rw [Bytes.shift, Nat.zero_add]
  obtain ⟨new, hnew, hlen, heq⟩ := (loop_lexes (L := ⟨cstr s, 0, [], ops, opidx⟩) hheld hs
    (Nat.le_succ _) (Nat.lt_succ_self _) (by simpa using hn)).tokens
  rw [List.nil_append] at hnew
  have htexts : tokenTexts ops opidx s = new.map
      ((tokenize (s.length + 1) (cstr s) 0 ops opidx (maxArgs * 2)).text (s.length + 1)) := by
    rw [tokenTexts, ← hnew]
    rfl
  rw [htexts]
  exact ⟨hlen, heq⟩

/-- A line with the operators apart from the words in front of them has all its tokens. -/
theorem tokenTexts_of_apart (ops : Bytes) (opidx : Nat) (hs : IsCString s)
    (hn : (lex s).length < maxArgs * 2 - 1) (hops : (lex s).countP isSingle ≤ maxCmds * 4)
    (h : Apart s) : tokenTexts ops opidx s = lex s := by
  have hsame := (counted s hs).same h
  rw [lex, ← hsame] at hn hops ⊢
  exact (tokenTexts_lexes ops opidx hs (by omega)).2 hops

/-- **Operators need no spaces**, exactly where there is no operator directly behind a word. -/
theorem operators_without_spaces_iff (ops : Bytes) (opidx : Nat) (s : Text) (hs : IsCString s)
    (hn : (lex s).length < maxArgs * 2 - 1) (hops : (lex s).countP isSingle ≤ maxCmds * 4) :
    (tokenTexts ops opidx s = tokenTexts ops opidx (spaceOut s) ∧ tokenTexts ops opidx s = lex s) ↔
      Apart s := by
  have hcounted := counted s hs
  have hspaced : lex (spaceOut s) = lex s := lex_spaceOut s
  constructor
  · rintro ⟨-, heq⟩
    have hlen := (tokenTexts_lexes ops opidx hs
      (by have := hcounted.length; rw [lex] at hn; omega)).1
    apply hcounted.apart
    rw [total, ← hlen, heq]
    exact hcounted.whole
  · intro h
    rw [tokenTexts_of_apart ops opidx hs hn hops h,
      tokenTexts_of_apart ops opidx (isCString_spaceOut hs) (hspaced ▸ hn) (hspaced ▸ hops)
        (apart_spaceOut s), hspaced]
    exact ⟨rfl, rfl⟩

theorem lex_pipe_wc : lexWith 0 (['|', 'w', 'c'].map Char.toUInt8) =
    [['|'], ['w', 'c']].map (List.map Char.toUInt8) := by
  have hwc : lexWith 0 (['w', 'c'].map Char.toUInt8) = [['w', 'c'].map Char.toUInt8] :=
    (lexWith_word rfl).trans (congrArg _ lexWith_nil)
  exact (lexWith_single rfl (by decide)).trans (congrArg _ hwc)

/-- The line `ls |wc`. -/
theorem operators_without_spaces_sample :
    tokenTexts Bytes.zero 0 (['l', 's', ' ', '|', 'w', 'c'].map Char.toUInt8) =
      lex (['l', 's', ' ', '|', 'w', 'c'].map Char.toUInt8) := by
  have hlex : lex (['l', 's', ' ', '|', 'w', 'c'].map Char.toUInt8) =
      [['l', 's'], ['|'], ['w', 'c']].map (List.map Char.toUInt8) :=
    (lexWith_word rfl).trans (congrArg _ ((lexWith_space rfl).trans lex_pipe_wc))
  refine ((operators_without_spaces_iff Bytes.zero 0 _ (by decide) ?_ ?_).mpr (by decide)).2
  · rw [hlex]
    decide
  · rw [hlex]
    decide

/-- The line `ls|wc`: the pipe is lost. -/
theorem pipe_behind_word_is_lost :
    tokenTexts Bytes.zero 0 (['l', 's', '|', 'w', 'c'].map Char.toUInt8) =
        [['l', 's'], ['w', 'c']].map (List.map Char.toUInt8) ∧
      tokenTexts Bytes.zero 0 (spaceOut (['l', 's', '|', 'w', 'c'].map Char.toUInt8)) =
        [['l', 's'], ['|'], ['w', 'c']].map (List.map Char.toUInt8) ∧
      lex (['l', 's', '|', 'w', 'c'].map Char.toUInt8) =
        [['l', 's'], ['|'], ['w', 'c']].map (List.map Char.toUInt8) := by
  refine ⟨by decide, ?_, (lexWith_word rfl).trans (congrArg _ lex_pipe_wc)⟩
  have hspaced : spaceOut (['l', 's', '|', 'w', 'c'].map Char.toUInt8) =
      ['l', 's', ' ', '|', ' ', 'w', 'c'].map Char.toUInt8 := by
    rw [List.map_cons, spaceOut_other rfl, List.map_cons, spaceOut_other rfl, List.map_cons,
      spaceOut_single rfl (by decide), List.map_cons, spaceOut_other rfl, List.map_cons,
      spaceOut_other rfl, List.map_nil, spaceOut]
    rfl
  rw [hspaced]
  decide

end FentoOS.Shell
