import FentoOS.Fs.Growth
import Mathlib.Data.Set.Card

/-!
# The zones a growing file takes

`Spent g ino v S w` compares two views of one run in which slots in `S` of `ino` have
been filled: the other slots are as they were, and the bits that have become set are those
of the zones in the slots that have been filled.  It is a `Supply`, so it holds after
everything that grows a file.

Counting both sides tells whether a file can grow.  `spare` is the number of clear bits of
the zone map and `missing` the number of slots that have to be filled for a range of blocks.
-/

namespace FentoOS.Fs

open FentoOS.Lib

/-- Zones have been put in slots in `S` of `ino`, and nowhere else. -/
structure Spent (g : Superblock) (ino : Nat) (v : View) (S : Slot → Prop) (w : View) : Prop where
  padded : Padded g w
  kept : ∀ t, ¬S t ∨ v.zone ino t ≠ 0 → w.zone ino t = v.zone ino t
  clear : ∀ t, v.zone ino t = 0 → w.zone ino t ≠ 0 → v.zmap (zoneBit g (w.zone ino t)) = false
  zmap : ∀ n, w.zmap n = true ↔
    v.zmap n = true ∨ ∃ t, v.zone ino t = 0 ∧ w.zone ino t ≠ 0 ∧ zoneBit g (w.zone ino t) = n

section

variable {g : Superblock} {live : Nat → Prop} {v w : View} {ino : Nat} {S S' : Slot → Prop}

theorem Spent.refl (hp : Padded g v) : Spent g ino v S v where
  padded := hp
  kept := fun _ _ ↦ rfl
  clear := fun _ hz hnz ↦ absurd hz hnz
  zmap := fun _ ↦ ⟨.inl, fun h ↦ h.resolve_right fun ⟨_, hz, hnz, _⟩ ↦ hnz hz⟩

theorem Spent.mono (h : Spent g ino v S w) (hS : ∀ t, S t → S' t) : Spent g ino v S' w :=
  ⟨h.padded, fun t ht ↦ h.kept t (ht.imp_left fun hn hs ↦ hn (hS t hs)), h.clear, h.zmap⟩

/-- A fresh zone has its bit clear. -/
theorem Fresh.bit {z : Nat} (h : Fresh g v z) : v.zmap (zoneBit g z) = false :=
  Bool.eq_false_iff.mpr fun hset ↦ h.not_marked ⟨h.isZone, hset⟩

theorem Spent.fill (h : Spent g ino v S w) (ho : Owned g live w) (hl : live ino)
    {s : Slot} {z : Nat}
    (hz : Fresh g w z) (hopen : Open w ino s) (hs : S s) :
    Spent g ino v S (w.fill g ino s z) := by
  have hzone : ∀ t, (w.fill g ino s z).zone ino t = if t = s then z else w.zone ino t := by
    intro t
    rw [ho.zone_fill hl hz hopen hl t]
    simp only [true_and]
  have hempty : v.zone ino s = 0 := by
    by_contra hne
    rw [← h.kept s (.inr hne)] at hne
    exact hne hopen.empty
  have hset : ∀ n, (w.fill g ino s z).zmap n = true ↔ w.zmap n = true ∨ zoneBit g z = n := by
    intro n
    rw [fill_zmap]
    by_cases hn : n = zoneBit g z
    · subst hn
      rw [Function.update_self]
      exact ⟨fun _ ↦ .inr rfl, fun _ ↦ rfl⟩
    · rw [Function.update_of_ne hn]
      exact ⟨.inl, fun hor ↦ hor.resolve_right fun heq ↦ hn heq.symm⟩
  constructor
  · exact h.padded.mono fun hn ↦ (hset _).mpr (.inl hn)
  · intro t ht
    have hne : t ≠ s := by
      rintro rfl
      rcases ht with hn | hn
      · exact hn hs
      · exact hn hempty
    rw [hzone, if_neg hne, h.kept t ht]
  · intro t hv hne
    rw [hzone] at hne ⊢
    split at hne
    · rw [if_pos ‹_›]
      have hclear := hz.bit
      rw [Bool.eq_false_iff, Ne, h.zmap] at hclear
      exact Bool.eq_false_iff.mpr fun hset ↦ hclear (.inl hset)
    · rw [if_neg ‹_›]
      exact h.clear t hv hne
  · intro n
    rw [hset, h.zmap, or_assoc]
    refine or_congr_right ⟨?_, ?_⟩
    · rintro (⟨t, hv, hne, hbit⟩ | rfl)
      · have hts : t ≠ s := by
          rintro rfl
          exact hne hopen.empty
        refine ⟨t, hv, ?_⟩
        rw [hzone, if_neg hts]
        exact ⟨hne, hbit⟩
      · refine ⟨s, hempty, ?_⟩
        rw [hzone, if_pos rfl]
        exact ⟨hz.pos, rfl⟩
    · rintro ⟨t, hv, hne, hbit⟩
      rw [hzone] at hne hbit
      split at hbit
      · exact .inr hbit
      · rw [if_neg ‹_›] at hne
        exact .inl ⟨t, hv, hne, hbit⟩

theorem Spent.congr_left {v' : View} (h : Spent g ino v S w)
    (hzone : ∀ s, v'.zone ino s = v.zone ino s) (hzmap : v'.zmap = v.zmap) :
    Spent g ino v' S w where
  padded := h.padded
  kept := by simpa only [hzone] using h.kept
  clear := by simpa only [hzone, hzmap] using h.clear
  zmap := by simpa only [hzone, hzmap] using h.zmap

theorem Spent.congr {w' : View} (h : Spent g ino v S w) (hzone : ∀ s, w'.zone ino s = w.zone ino s)
    (hzmap : w'.zmap = w.zmap) : Spent g ino v S w' where
  padded := fun n ↦ hzmap ▸ h.padded n
  kept := fun t ht ↦ (hzone t).trans (h.kept t ht)
  clear := by simpa only [hzone] using h.clear
  zmap := by simpa only [hzone, hzmap] using h.zmap

theorem Spent.supply : Supply g live ino S (Spent g ino v S) where
  stocked := fun h _ _ n hn ↦ h.padded n hn.1
  fill := fun h ho hl hz hopen hs ↦ h.fill ho hl hz hopen hs
  congr := fun h hzone hzmap ↦ h.congr hzone hzmap

end

/-! ## Counting -/

instance : Finite Slot := by
  let code : Slot → Fin 4 × Fin 256 × Fin 256
    | .top k => (0, k.castLE (by decide), 0)
    | .ind j => (1, j, 0)
    | .dbl j => (2, j, 0)
    | .sng j k => (3, j, k)
  refine Finite.of_injective code ?_
  rintro (a | a | a | ⟨a, b⟩) (a' | a' | a' | ⟨a', b'⟩) h <;> simp_all [code]

/-- The number of blocks a file can have. -/
def maxBlocks : Nat := 65799

/-- The slots on the way to the blocks from `lo` to before `hi`. -/
def slotsFor (lo hi : Nat) (t : Slot) : Prop :=
  ∃ b s, lo ≤ b ∧ b < hi ∧ slotOf b = some s ∧ t ∈ s.path

/-- The number of zones that are free. -/
noncomputable def spare (v : View) : Nat := {n | v.zmap n = false}.ncard

/-- The number of slots of `ino` in `S` that are empty. -/
noncomputable def missing (v : View) (ino : Nat) (S : Slot → Prop) : Nat :=
  {t | S t ∧ v.zone ino t = 0}.ncard

/-- The blocks of `ino` from `lo` to before `hi` can all get zones. -/
def Fits (v : View) (ino lo hi : Nat) : Prop :=
  hi ≤ maxBlocks ∧ missing v ino (slotsFor lo hi) ≤ spare v

section

variable {g : Superblock} {live : Nat → Prop} {v w : View} {ino lo hi : Nat} {S : Slot → Prop}

theorem Padded.finite (h : Padded g v) : {n | v.zmap n = false}.Finite :=
  (Set.finite_Iic (g.sZones - g.sFirstdatazone)).subset fun n hn ↦ (h n hn).2

theorem spare_of_full (h : Full v.zmap) : spare v = 0 := by
  have hempty : {n | v.zmap n = false} = ∅ := by
    ext n
    simp [h n]
  rw [spare, hempty, Set.ncard_empty]

/-- Each zone that has been put in a slot was free. -/
theorem Spent.count (h : Spent g ino v S w) (ho : Owned g live w) (hl : live ino) :
    spare w + {t | v.zone ino t = 0 ∧ w.zone ino t ≠ 0}.ncard = spare v := by
  have hinj : Set.InjOn (fun t ↦ zoneBit g (w.zone ino t))
      {t | v.zone ino t = 0 ∧ w.zone ino t ≠ 0} := by
    rintro t ⟨-, ht⟩ t' ⟨-, ht'⟩ heq
    have hzone := zoneBit_inj (ho.marked hl ht).1 (ho.marked hl ht').1 heq
    exact (ho.inj hl hl ht' hzone).2
  have hunion : {n | v.zmap n = false} = {n | w.zmap n = false} ∪
      (fun t ↦ zoneBit g (w.zone ino t)) '' {t | v.zone ino t = 0 ∧ w.zone ino t ≠ 0} := by
    ext n
    have hn := h.zmap n
    constructor
    · intro hv
      by_cases hw : w.zmap n = true
      · obtain ⟨t, h₁, h₂, h₃⟩ := (hn.mp hw).resolve_left (Bool.eq_false_iff.mp hv)
        exact .inr ⟨t, ⟨h₁, h₂⟩, h₃⟩
      · exact .inl (Bool.eq_false_iff.mpr hw)
    · rintro (hw | ⟨t, ⟨h₁, h₂⟩, rfl⟩)
      · exact Bool.eq_false_iff.mpr fun hv ↦ Bool.eq_false_iff.mp hw (hn.mpr (.inl hv))
      · exact h.clear t h₁ h₂
  have hdisj : Disjoint {n | w.zmap n = false}
      ((fun t ↦ zoneBit g (w.zone ino t)) '' {t | v.zone ino t = 0 ∧ w.zone ino t ≠ 0}) := by
    refine Set.disjoint_left.mpr ?_
    rintro n hw ⟨t, ⟨h₁, h₂⟩, rfl⟩
    exact Bool.eq_false_iff.mp hw ((h.zmap _).mpr (.inr ⟨t, h₁, h₂, rfl⟩))
  rw [spare, spare, hunion, Set.ncard_union_eq hdisj h.padded.finite (Set.toFinite _),
    hinj.ncard_image]

/-- The slots on the way to a slot that holds a zone hold zones. -/
theorem Readable.zone_path (hr : Readable g v ino) {s t : Slot} (hs : v.zone ino s ≠ 0)
    (ht : t ∈ s.path) : v.zone ino t ≠ 0 := by
  have hword : ∀ j, v.word 0 j = 0 := by
    intro j
    rw [View.word, hr.zero, Bytes.get32_zero]
  have hstep : ∀ {s p : Slot} {j : Fin 256}, s.parent = some (p, j) → v.zone ino s ≠ 0 →
      v.zone ino p ≠ 0 := by
    intro s p j hp hne hzero
    rw [v.zone_child ino hp, hzero, hword] at hne
    exact hne rfl
  cases s with
  | top k =>
    obtain rfl := List.mem_singleton.mp ht
    exact hs
  | ind j =>
    rcases List.mem_pair.mp ht with rfl | rfl
    · exact hstep (s := .ind j) rfl hs
    · exact hs
  | dbl j =>
    rcases List.mem_pair.mp ht with rfl | rfl
    · exact hstep (s := .dbl j) rfl hs
    · exact hs
  | sng j k =>
    rcases List.mem_cons.mp ht with rfl | ht
    · exact hstep (s := .dbl j) rfl (hstep (s := .sng j k) rfl hs)
    · rcases List.mem_pair.mp ht with rfl | rfl
      · exact hstep (s := .sng j k) rfl hs
      · exact hs

/-- Blocks that have got zones did fit. -/
theorem Spent.fits (h : Spent g ino v S w) (ho : Owned g live w) (hl : live ino)
    (hmax : hi ≤ maxBlocks) (hgot : ∀ b, lo ≤ b → b < hi → w.blockZone ino b ≠ 0) :
    Fits v ino lo hi := by
  refine ⟨hmax, ?_⟩
  have hsub : {t | slotsFor lo hi t ∧ v.zone ino t = 0} ⊆
      {t | v.zone ino t = 0 ∧ w.zone ino t ≠ 0} := by
    rintro t ⟨⟨b, s, hlo, hhi, hs, ht⟩, hz⟩
    refine ⟨hz, (ho.readable hl).zone_path ?_ ht⟩
    have hb := hgot b hlo hhi
    rwa [View.blockZone, hs] at hb
  have hle := Set.ncard_le_ncard hsub (Set.toFinite _)
  have hcount := h.count ho hl
  exact hle.trans (Nat.le_of_add_left_le hcount.le)

/-- Fewer blocks fit too. -/
theorem Fits.mono {hi' : Nat} (h : Fits v ino lo hi) (hle : hi' ≤ hi) : Fits v ino lo hi' := by
  refine ⟨hle.trans h.1, le_trans (Set.ncard_le_ncard ?_ (Set.toFinite _)) h.2⟩
  rintro t ⟨⟨b, s, hlo, hlt, hs, ht⟩, hz⟩
  exact ⟨⟨b, s, hlo, hlt.trans_le hle, hs, ht⟩, hz⟩

theorem Fits.congr (h : Fits w ino lo hi) (hzone : ∀ s, w.zone ino s = v.zone ino s)
    (hzmap : w.zmap = v.zmap) : Fits v ino lo hi := by
  obtain ⟨hmax, hroom⟩ := h
  refine ⟨hmax, ?_⟩
  unfold missing spare at hroom ⊢
  simp only [hzone, hzmap] at hroom
  exact hroom

/-- When zones have run out, a block that has got none did not fit. -/
theorem Spent.not_fits (h : Spent g ino v (slotsFor lo (hi + 1)) w)
    (ho : Owned g live w) (hl : live ino) (hlo : lo ≤ hi) (hnone : w.blockZone ino hi = 0)
    (hwhy : Full w.zmap ∨ slotOf hi = none) : ¬Fits v ino lo (hi + 1) := by
  rintro ⟨hmax, hle⟩
  cases hs : slotOf hi with
  | none => exact absurd hs (slotOf_ne_none hmax)
  | some s =>
    have hfull := hwhy.resolve_right (by rw [hs]; exact Option.some_ne_none s)
    rw [View.blockZone, hs] at hnone
    have hcount := h.count ho hl
    rw [spare_of_full hfull, Nat.zero_add] at hcount
    -- the slot of the block is missing and has not been filled
    have hsub : {t | v.zone ino t = 0 ∧ w.zone ino t ≠ 0} ⊂
        {t | slotsFor lo (hi + 1) t ∧ v.zone ino t = 0} := by
      refine (Set.ssubset_iff_of_subset ?_).mpr ⟨s, ⟨⟨hi, s, hlo, Nat.lt_succ_self hi, hs, ?_⟩, ?_⟩,
        fun hc ↦ hc.2 hnone⟩
      · rintro t ⟨hz, hne⟩
        refine ⟨?_, hz⟩
        by_contra hS
        rw [h.kept t (.inl hS)] at hne
        exact hne hz
      · cases s <;> simp [Slot.path]
      · by_contra hne
        rw [← h.kept s (.inr hne)] at hne
        exact hne hnone
    have hlt := Set.ncard_lt_ncard hsub (Set.toFinite _)
    rw [hcount] at hlt
    exact absurd hle (not_le.mpr hlt)

end

end FentoOS.Fs
