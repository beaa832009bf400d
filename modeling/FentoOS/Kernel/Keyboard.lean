import FentoOS.Lib.Ring
import FentoOS.Lib.Run

/-!
# The keyboard buffer

The interrupt handlers of the keyboard and of the serial line put characters in a ring of 256
cells, and one reader takes them out while interrupts are enabled.  `keyboard_enqueue` runs to
completion, but it may fall between any two statements of `keyboard_getchar`, so the reader is
modelled statement by statement.

Neither side needs a lock.  Only the handler moves `khead` and only the reader moves `ktail`, and
one cell stays empty: an enqueue can make a ring that the reader found non-empty only longer, and
it never writes the cell that the reader is about to load.  `Keyboard.Inv` ties the histories of
the two sides to the cells between the indices.
-/

namespace FentoOS.Kernel

open FentoOS.Lib Function

/-- The buffer of the keyboard driver. -/
structure Keyboard where
  kbuf : Nat → UInt8
  khead : Nat
  ktail : Nat

namespace Keyboard

/-- `BUF_SIZE`. -/
def bufSize : Nat := 256

/-- The buffer after `keyboard_init`. -/
def init (kbuf : Nat → UInt8) : Keyboard := ⟨kbuf, 0, 0⟩

/-- `keyboard_enqueue`.  What `interrupt_foreground` returns for a Ctrl-C is `killed`. -/
def enqueue (k : Keyboard) (c : UInt8) (killed : Bool) : Keyboard :=
  if c = 3 ∧ killed then k
  else
    let next := (k.khead + 1) % bufSize
    if next ≠ k.ktail then { k with kbuf := Function.update k.kbuf k.khead c, khead := next }
    else k

/-- `keyboard_available`. -/
def available (k : Keyboard) : Bool := k.khead ≠ k.ktail

/-- `keyboard_getchar` without an interrupt. -/
def getchar (k : Keyboard) : Int × Keyboard :=
  if k.khead = k.ktail then (-1, k)
  else ((k.kbuf k.ktail).toNat, { k with ktail := (k.ktail + 1) % bufSize })

/-- The statement of `keyboard_getchar` that comes next. -/
inductive Pc
  | test
  | load
  | advance (c : UInt8)
  | ret (c : UInt8)

/-- One statement of `keyboard_getchar`, and the result if the call returns. -/
def statement (k : Keyboard) : Pc → Keyboard × Pc × Option Int
  | .test => if k.khead = k.ktail then (k, .test, some (-1)) else (k, .load, none)
  | .load => (k, .advance (k.kbuf k.ktail), none)
  | .advance c => ({ k with ktail := (k.ktail + 1) % bufSize }, .ret c, none)
  | .ret c => (k, .test, some c.toNat)

/-- The statements of a call that is not interrupted are the call. -/
theorem getchar_eq_statements (k : Keyboard) (h : k.khead ≠ k.ktail) :
    k.statement .test = (k, .load, none) ∧
      k.statement .load = (k, .advance (k.kbuf k.ktail), none) ∧
      k.statement (.advance (k.kbuf k.ktail)) = (k.getchar.2, .ret (k.kbuf k.ktail), none) ∧
      k.getchar.2.statement (.ret (k.kbuf k.ktail)) = (k.getchar.2, .test, some k.getchar.1) := by
  have hcall : k.getchar =
      (((k.kbuf k.ktail).toNat : Int), { k with ktail := (k.ktail + 1) % bufSize }) := if_neg h
  rw [hcall]
  exact ⟨if_neg h, rfl, rfl, rfl⟩

/-! ## Interleavings -/

/-- The character is put in the buffer. -/
def Accepts (k : Keyboard) (c : UInt8) (killed : Bool) : Prop :=
  ¬(c = 3 ∧ killed) ∧ (k.khead + 1) % bufSize ≠ k.ktail

instance (k : Keyboard) (c : UInt8) (killed : Bool) : Decidable (k.Accepts c killed) :=
  inferInstanceAs (Decidable (_ ∧ _))

/-- The character that a statement takes out of the buffer. -/
def Pc.takes : Pc → List UInt8
  | .advance c => [c]
  | _ => []

/-- The character that has been taken out and not been returned yet. -/
def Pc.inHand : Pc → List UInt8
  | .ret c => [c]
  | _ => []

/-- The buffer and its reader, with the characters accepted, the characters taken out, and the
results of the calls of the reader, each in order. -/
structure Sys where
  kbd : Keyboard
  pc : Pc
  accepted : List UInt8
  taken : List UInt8
  results : List Int

/-- An interrupt, or a statement of the reader. -/
inductive Event
  | enqueue (c : UInt8) (killed : Bool)
  | reader

inductive Step (s : Sys) : Event → Sys → Prop
  | enqueue (c : UInt8) (killed : Bool) : Step s (.enqueue c killed)
      { s with
        kbd := s.kbd.enqueue c killed
        accepted := if s.kbd.Accepts c killed then s.accepted ++ [c] else s.accepted }
  | reader : Step s .reader
      { s with
        kbd := (s.kbd.statement s.pc).1
        pc := (s.kbd.statement s.pc).2.1
        taken := s.taken ++ s.pc.takes
        results := s.results ++ (s.kbd.statement s.pc).2.2.toList }

/-- After `keyboard_init`. -/
def Sys.Init (s : Sys) : Prop := ∃ kbuf, s = ⟨init kbuf, .test, [], [], []⟩

/-- The values that `keyboard_getchar` returns for characters. -/
def codes (l : List UInt8) : List Int := l.map fun c ↦ (c.toNat : Int)

/-- The characters returned. -/
def Sys.returned (s : Sys) : List Int := s.results.filter fun r ↦ decide (0 ≤ r)

/-- The cells from `ktail` to `khead` hold `n` characters. -/
structure Holds (k : Keyboard) (n : Nat) : Prop where
  tail_lt : k.ktail < bufSize
  head_eq : k.khead = (k.ktail + n) % bufSize
  lt : n < bufSize

/-- What the reader knows. -/
def Pc.Knows (k : Keyboard) (n : Nat) : Pc → Prop
  | .load => 0 < n
  | .advance c => 0 < n ∧ k.kbuf k.ktail = c
  | _ => True

/-- The characters accepted are those taken out and those in the ring, and those taken out have
been returned or are in the reader's hand. -/
structure Inv (s : Sys) (n : Nat) : Prop where
  holds : s.kbd.Holds n
  knows : s.pc.Knows s.kbd n
  ring : s.accepted = s.taken ++ ringList bufSize s.kbd.kbuf s.kbd.ktail n
  taken : codes s.taken = s.returned ++ codes s.pc.inHand

section

variable {k : Keyboard} {s s' : Sys} {n : Nat} {e : Event} {c : UInt8} {killed : Bool}

theorem Holds.empty_iff (h : k.Holds n) : k.khead = k.ktail ↔ n = 0 := by
  have htail := h.tail_lt
  have hn := h.lt
  rw [h.head_eq]
  unfold bufSize at *
  omega

/-- The handler finds the ring full exactly if one cell is left. -/
theorem Holds.full_iff (h : k.Holds n) : (k.khead + 1) % bufSize = k.ktail ↔ n = 255 := by
  have htail := h.tail_lt
  have hn := h.lt
  rw [h.head_eq]
  unfold bufSize at *
  omega

theorem enqueue_of_accepts (h : k.Accepts c killed) : k.enqueue c killed =
    { k with kbuf := update k.kbuf k.khead c, khead := (k.khead + 1) % bufSize } := by
  unfold enqueue
  rw [if_neg h.1]
  exact if_pos h.2

theorem enqueue_of_not_accepts (h : ¬k.Accepts c killed) : k.enqueue c killed = k := by
  unfold enqueue
  by_cases hkilled : c = 3 ∧ killed
  · rw [if_pos hkilled]
  · rw [if_neg hkilled]
    exact if_neg fun hnext ↦ h ⟨hkilled, hnext⟩

/-- An interrupt. -/
theorem Inv.enqueue (h : Inv s n) (c : UInt8) (killed : Bool) : ∃ n', Inv
    { s with
      kbd := s.kbd.enqueue c killed
      accepted := if s.kbd.Accepts c killed then s.accepted ++ [c] else s.accepted } n' := by
  by_cases hacc : s.kbd.Accepts c killed
  · have hlt : n < 255 := by
      have hn := h.holds.lt
      have hne : n ≠ 255 := fun heq ↦ hacc.2 (h.holds.full_iff.mpr heq)
      unfold bufSize at hn
      omega
    rw [enqueue_of_accepts hacc, if_pos hacc]
    refine ⟨n + 1, ⟨h.holds.tail_lt, ?_, ?_⟩, ?_, ?_, h.taken⟩
    · change (s.kbd.khead + 1) % bufSize = (s.kbd.ktail + (n + 1)) % bufSize
      rw [h.holds.head_eq, Nat.mod_add_mod, Nat.add_assoc]
    · unfold bufSize
      omega
    · have hknows := h.knows
      change s.pc.Knows _ (n + 1)
      cases hpc : s.pc with
      | test => trivial
      | load => exact Nat.succ_pos n
      | advance c' =>
        rw [hpc] at hknows
        refine ⟨Nat.succ_pos n, ?_⟩
        have hne : s.kbd.ktail ≠ s.kbd.khead :=
          fun heq ↦ hknows.1.ne' (h.holds.empty_iff.mp heq.symm)
        exact (update_of_ne hne ..).trans hknows.2
      | ret c' => trivial
    · change s.accepted ++ [c] =
        s.taken ++ ringList bufSize (update s.kbd.kbuf s.kbd.khead c) s.kbd.ktail (n + 1)
      have hcell : update s.kbd.kbuf s.kbd.khead c =
          fun j ↦ if j = (s.kbd.ktail + n) % bufSize then c else s.kbd.kbuf j := by
        funext j
        rw [update_apply, h.holds.head_eq]
      rw [hcell, ringList_snoc _ _ _ h.holds.lt, h.ring, List.append_assoc]
  · rw [enqueue_of_not_accepts hacc, if_neg hacc]
    exact ⟨n, h⟩

/-- The reader takes a character out of the ring. -/
theorem Holds.advance (h : k.Holds n) (hn : 0 < n) :
    Holds { k with ktail := (k.ktail + 1) % bufSize } (n - 1) where
  tail_lt := Nat.mod_lt _ (by decide)
  head_eq := by
    change k.khead = ((k.ktail + 1) % bufSize + (n - 1)) % bufSize
    rw [h.head_eq, Nat.mod_add_mod]
    congr 1
    omega
  lt := by
    have := h.lt
    omega

/-- A statement that takes nothing and returns no character. -/
theorem Inv.stay {pc : Pc} {r : List Int} (h : Inv s n) (hold : s.pc.inHand = [])
    (hnew : pc.inHand = []) (hknows : pc.Knows s.kbd n)
    (hr : r.filter (fun r ↦ decide (0 ≤ r)) = []) :
    Inv { s with pc := pc, taken := s.taken ++ [], results := s.results ++ r } n := by
  refine ⟨h.holds, hknows, ?_, ?_⟩
  · rw [List.append_nil]
    exact h.ring
  · change codes (s.taken ++ []) = List.filter _ (s.results ++ r) ++ codes pc.inHand
    rw [List.append_nil, List.filter_append, hr, List.append_nil, h.taken, hold, hnew]
    rfl

/-- A statement of the reader. -/
theorem Inv.reader (h : Inv s n) : ∃ n', Inv
    { s with
      kbd := (s.kbd.statement s.pc).1
      pc := (s.kbd.statement s.pc).2.1
      taken := s.taken ++ s.pc.takes
      results := s.results ++ (s.kbd.statement s.pc).2.2.toList } n' := by
  obtain ⟨kbd, pc, accepted, taken, results⟩ := s
  cases pc with
  | test =>
    by_cases hempty : kbd.khead = kbd.ktail
    · simp only [statement, if_pos hempty]
      exact ⟨n, h.stay (r := [-1]) rfl rfl trivial rfl⟩
    · simp only [statement, if_neg hempty]
      have hpos : 0 < n := Nat.pos_of_ne_zero fun hn ↦ hempty (h.holds.empty_iff.mpr hn)
      exact ⟨n, h.stay (r := []) rfl rfl hpos rfl⟩
  | load => exact ⟨n, h.stay (r := []) rfl rfl ⟨h.knows, rfl⟩ rfl⟩
  | advance c =>
    obtain ⟨hholds, ⟨hpos, hc⟩, hring, htaken⟩ := h
    refine ⟨n - 1, hholds.advance hpos, trivial, ?_, ?_⟩
    · obtain ⟨m, rfl⟩ : ∃ m, n = m + 1 := ⟨n - 1, by omega⟩
      change accepted = taken ++ ringList bufSize kbd.kbuf kbd.ktail (m + 1) at hring
      change accepted = (taken ++ [c]) ++ ringList bufSize kbd.kbuf ((kbd.ktail + 1) % bufSize) m
      rw [hring, ringList_succ, Nat.mod_eq_of_lt hholds.tail_lt, hc, List.append_assoc]
      rfl
    · change codes taken = List.filter _ results ++ [] at htaken
      change codes (taken ++ [c]) = List.filter _ (results ++ []) ++ codes [c]
      rw [codes, List.map_append, ← codes, htaken, List.append_nil, List.append_nil]
      rfl
  | ret c =>
    obtain ⟨hholds, -, hring, htaken⟩ := h
    refine ⟨n, hholds, trivial, ?_, ?_⟩
    · change accepted = (taken ++ []) ++ _
      rw [List.append_nil]
      exact hring
    · change codes taken = List.filter _ results ++ [(c.toNat : Int)] at htaken
      change codes (taken ++ []) = List.filter _ (results ++ [(c.toNat : Int)]) ++ []
      rw [List.append_nil, htaken, List.filter_append, List.append_nil]
      congr 1

theorem Inv.step (h : Inv s n) (hstep : Step s e s') : ∃ n', Inv s' n' := by
  cases hstep with
  | enqueue c killed => exact h.enqueue c killed
  | reader => exact h.reader

theorem inv_init (kbuf : Nat → UInt8) : Inv ⟨init kbuf, .test, [], [], []⟩ 0 :=
  ⟨⟨Nat.zero_lt_succ _, rfl, by decide⟩, trivial, rfl, rfl⟩

/-- The keyboard buffer is a lossless queue for one reader.  However the interrupts fall between
the statements of the reader, the characters accepted are those taken out followed by those
waiting, of which there are at most 255; those taken out have been returned, in order and each
once, up to the one in the reader's hand; a call that is about to find the ring empty finds all
of them returned; and a character that does not kill a task is dropped exactly if 255 characters
are waiting. -/
theorem keyboard_is_fifo (hs : Reach Sys.Init Step s) :
    s.kbd.khead < 256 ∧ s.kbd.ktail < 256 ∧
      ∃ waiting, s.accepted = s.taken ++ waiting ∧ waiting.length ≤ 255 ∧
        codes s.taken = s.returned ++ codes s.pc.inHand ∧
        (s.pc = .test → s.kbd.khead = s.kbd.ktail → s.returned = codes s.accepted) ∧
        ∀ c killed, ¬(c = 3 ∧ killed = true) →
          (¬s.kbd.Accepts c killed ↔ waiting.length = 255) := by
  obtain ⟨n, hinv⟩ : ∃ n, Inv s n := by
    refine hs.invariant (P := fun s ↦ ∃ n, Inv s n) ?_ ?_
    · rintro _ ⟨kbuf, rfl⟩
      exact ⟨0, inv_init kbuf⟩
    · rintro _ _ _ ⟨n, hinv⟩ hstep
      exact hinv.step hstep
  have hn : n ≤ 255 := Nat.le_of_lt_succ hinv.holds.lt
  refine ⟨?_, hinv.holds.tail_lt, _, hinv.ring, ?_, hinv.taken, ?_, ?_⟩
  · rw [hinv.holds.head_eq]
    exact Nat.mod_lt _ (by decide)
  · rwa [length_ringList]
  · intro hpc hempty
    obtain rfl := hinv.holds.empty_iff.mp hempty
    rw [hinv.ring, ringList_zero, List.append_nil, hinv.taken, hpc]
    exact (List.append_nil _).symm
  · intro c killed hkill
    rw [length_ringList, ← hinv.holds.full_iff, Accepts, not_and_not_right]
    exact ⟨fun h ↦ h hkill, fun h _ ↦ h⟩

/-- Two characters arrive and the first of them is returned. -/
theorem keyboard_is_fifo_two : ∃ s, Reach Sys.Init Step s ∧ s.accepted = [65, 66] ∧
    s.returned = [65] ∧ ∃ waiting, s.accepted = s.taken ++ waiting ∧ waiting.length ≤ 255 ∧
      codes s.taken = s.returned ++ codes s.pc.inHand := by
  have htwo : Reach Sys.Init Step _ :=
    .step (.step (.init ⟨fun _ ↦ 0, rfl⟩) (.enqueue 65 false)) (.enqueue 66 false)
  have hone := (((htwo.step .reader).step .reader).step .reader).step .reader
  obtain ⟨-, -, waiting, haccepted, hlen, htaken, -, -⟩ := keyboard_is_fifo hone
  exact ⟨_, hone, rfl, rfl, waiting, haccepted, hlen, htaken⟩

end

end Keyboard

end FentoOS.Kernel
