import FentoOS.Mm.Paging

/-!
# Entries of directories and tables

Directories and tables are read and written word by word, frame by frame.  A
write inside a frame is seen at its own word and nowhere else; a word that is
present names a frame by its upper twenty bits.
-/

namespace FentoOS.Mm

open FentoOS.Lib

/-! ## Words of a frame -/

theorem pdIndex_lt (va : Nat) : pdIndex va < 1024 := Nat.mod_lt _ (by decide)

theorem ptIndex_lt (va : Nat) : ptIndex va < 1024 := Nat.mod_lt _ (by decide)

/-- Memory differs in frame `n` only. -/
def Touches (n : Nat) (mem mem' : Bytes) : Prop := ∀ x, x / 4096 ≠ n → mem' x = mem x

theorem frameOf_mod (e : Nat) : frameOf e % 4096 = 0 := Nat.mul_mod_left ..

theorem frameOf_div (e : Nat) : frameOf e / 4096 = e / 4096 := Nat.mul_div_cancel _ (by decide)

theorem frame_div (f : Nat) : f * 4096 / 4096 = f := Nat.mul_div_cancel _ (by decide)

theorem eq_mul_of_mod {tab : Nat} (h : tab % 4096 = 0) : tab = tab / 4096 * 4096 := by omega

theorem entry_lt (mem : Bytes) (tab k : Nat) : entry mem tab k < 2 ^ 32 := mem.get32_lt _

section Words

variable {mem mem' : Bytes} {n tab k : Nat}

/-- The words of a frame are in the frame. -/
theorem entry_congr (ha : tab % 4096 = 0) (hk : k < 1024)
    (h : ∀ x, x / 4096 = tab / 4096 → mem' x = mem x) : entry mem' tab k = entry mem tab k := by
  refine Bytes.get32_congr fun j hj hj' ↦ h j ?_
  omega

/-- What an address resolves to is in an entry of the directory and in one table. -/
theorem dirResolve_congr {va : Nat}
    (hdir : entry mem' tab (pdIndex va) = entry mem tab (pdIndex va))
    (htable : present (entry mem tab (pdIndex va)) →
      ∀ x, x / 4096 = entry mem tab (pdIndex va) / 4096 → mem' x = mem x) :
    dirResolve mem' tab va = dirResolve mem tab va := by
  rw [dirResolve, dirResolve, hdir]
  by_cases hp : present (entry mem tab (pdIndex va))
  · simp only [entry_congr (frameOf_mod _) (ptIndex_lt va) fun x hx ↦
      htable hp x (hx.trans (frameOf_div _))]
  · simp only [hp, not_false_eq_true, if_true]

theorem Touches.entry (h : Touches n mem mem') (ha : tab % 4096 = 0) (hn : tab / 4096 ≠ n)
    (hk : k < 1024) : entry mem' tab k = entry mem tab k :=
  entry_congr ha hk fun x hx ↦ h x (hx ▸ hn)

theorem Touches.word {f : Nat} (h : Touches n mem mem') (hf : f ≠ n) (hk : k < 1024) :
    Mm.entry mem' (f * 4096) k = Mm.entry mem (f * 4096) k :=
  h.entry (Nat.mul_mod_left ..) (by rwa [frame_div]) hk

theorem touches_put32 (ha : tab % 4096 = 0) (hk : k < 1024) (e : Nat) :
    Touches (tab / 4096) mem (mem.put32 (tab + 4 * k) e) := by
  intro x hx
  exact mem.put32_of_notMem (by omega)

theorem touches_word (f : Nat) (hk : k < 1024) (e : Nat) :
    Touches f mem (mem.put32 (f * 4096 + 4 * k) e) := by
  intro x hx
  exact mem.put32_of_notMem (by omega)

theorem touches_memcpy (ha : tab % 4096 = 0) {off len : Nat} (hlen : off + len ≤ 4096)
    (src : Bytes) (from' : Nat) :
    Touches (tab / 4096) mem (mem.memcpy (tab + off) src from' len) := by
  intro x hx
  exact mem.memcpy_of_notMem src (by omega)

/-- A frame is filled with zeros. -/
theorem touches_zero (f : Nat) : Touches f mem (mem.memset (f * 4096) 0 4096) := by
  intro x hx
  exact mem.memset_of_notMem 0 (by omega)

/-- A frame is overwritten. -/
theorem touches_copy (f : Nat) (src : Bytes) (i : Nat) :
    Touches f mem (mem.memcpy (f * 4096) src i 4096) := by
  intro x hx
  exact mem.memcpy_of_notMem src (by omega)

theorem entry_put32_same {e : Nat} (he : e < 2 ^ 32) :
    entry (mem.put32 (tab + 4 * k) e) tab k = e := by
  rw [entry, Bytes.get32_put32_same, Nat.mod_eq_of_lt he]

theorem entry_setEntry {m : Memory} {e : Nat} (he : e < 2 ^ 32) :
    entry (setEntry m tab k e).mem tab k = e :=
  entry_put32_same he

theorem entry_put32_of_ne {k' : Nat} (h : k' ≠ k) (e : Nat) :
    entry (mem.put32 (tab + 4 * k) e) tab k' = entry mem tab k' :=
  mem.get32_put32_of_disjoint (by omega)

theorem entry_memset (hk : k < 1024) : entry (mem.memset tab 0 4096) tab k = 0 := by
  rw [← Bytes.get32_zero 0]
  have h : ∀ j, tab + 4 * k ≤ j → j < tab + 4 * k + 4 → mem.memset tab 0 4096 j = 0 :=
    fun j hj hj' ↦ mem.memset_of_mem 0 (by omega) (by omega)
  simp only [entry, Bytes.get32, h _ (le_refl _) (by omega),
    h (tab + 4 * k + 1) (by omega) (by omega),
    h (tab + 4 * k + 2) (by omega) (by omega), h (tab + 4 * k + 3) (by omega) (by omega)]
  rfl

end Words

/-! ## The words that name a frame -/

/-- `v` is present and names frame `f`. -/
structure Names (v f : Nat) : Prop where
  lt : v < 2 ^ 32
  frame : v / 4096 = f
  present : present v

theorem present_mod {e : Nat} (h : present e) : present (e % 4096) := by
  unfold present at h ⊢
  omega

theorem present_or_left {a : Nat} (h : present a) (b : Nat) : present (a ||| b) := by
  have hbit : (a ||| b).testBit 0 = true := by
    rw [Nat.testBit_or, Nat.testBit_zero, show a % 2 = 1 from h]
    rfl
  rwa [Nat.testBit_zero, decide_eq_true_eq] at hbit

theorem word_eq_add {f x : Nat} (hx : x < 4096) : f * 4096 ||| x = f * 4096 + x := by
  rw [mul_comm]
  exact (Nat.two_pow_add_eq_or_of_lt (i := 12) hx f).symm

/-- The word of a frame with flags. -/
theorem names_word {f x : Nat} (hf : f < 2 ^ 20) (hx : x < 4096) (hp : present x) :
    Names (f * 4096 ||| x) f := by
  rw [word_eq_add hx]
  unfold present at hp
  exact ⟨by omega, by omega, by unfold present; omega⟩

theorem names_pageEntry {f : Nat} (hf : f < 2 ^ 20) (flags : Nat) :
    Names (pageEntry (f * 4096) flags) f := by
  have hframe : frameOf (f * 4096) = f * 4096 := by
    rw [frameOf, frame_div]
  rw [pageEntry, hframe]
  refine names_word hf (Nat.or_lt_two_pow (n := 12) (Nat.mod_lt _ (by decide)) (by decide)) ?_
  rw [Nat.or_comm]
  exact present_or_left (a := 1) rfl _

theorem names_or_four {e : Nat} (he : e < 2 ^ 32) (hp : present e) :
    Names (e ||| 4) (e / 4096) := by
  refine ⟨Nat.or_lt_two_pow he (by decide), ?_, present_or_left hp 4⟩
  have := Nat.or_div_two_pow (a := e) (b := 4) (n := 12)
  simpa using this

end FentoOS.Mm
