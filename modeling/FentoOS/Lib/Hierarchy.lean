import Mathlib.Data.Set.Card
import Mathlib.Logic.Function.Basic

/-!
# Hierarchies of directories

A hierarchy has nodes, some of them directories, and a directory has numbered lines, each
blank or with a name and a node.  Two names are special: `here` and `up`.  The lines with
other names are the *proper* ones, and `Below` is what they lead to from the root.

In a `Tree` the special lines are redundant: `here` names the directory itself and `up` the
directory with the proper line that names it.  Therefore whatever any lines lead to is
`Below` (`Tree.below_of_reached`), and a node can be taken away with the last proper line that
names it.  The lemmas say what writing and blanking a line does to a tree, whatever the
nodes are and wherever the lines are stored.
-/

namespace FentoOS.Lib

open Function

universe u v

/-- Nodes and the lines of the directories among them. -/
structure Hierarchy (ν : Type u) (κ : Type v) where
  line : ν → ℕ → Option (κ × ν)
  IsDir : ν → Prop
  Live : ν → Prop
  links : ν → ℕ
  isDir_of_line : ∀ {y e a}, line y e = some a → IsDir y

section

variable {ν : Type u} {κ : Type v} (root : ν) (here up : κ) (H : Hierarchy ν κ)

/-- The name is none of the special ones. -/
def Proper (k : κ) : Prop := k ≠ here ∧ k ≠ up

/-- What proper lines lead to. -/
inductive Below : ν → Prop
  | root : Below root
  | step {y x : ν} {e : ℕ} {k : κ} (hy : Below y) (hline : H.line y e = some (k, x))
      (hk : Proper here up k) : Below x

/-- What any lines lead to. -/
inductive Reached : ν → Prop
  | root : Reached root
  | step {y x : ν} {e : ℕ} {k : κ} (hy : Reached y) (hline : H.line y e = some (k, x)) : Reached x

/-- The proper lines that name a node. -/
def naming (x : ν) : Set (ν × ℕ) :=
  {l | Below root here up H l.1 ∧ ∃ k, Proper here up k ∧ H.line l.1 l.2 = some (k, x)}

/-- The special lines are redundant, and nodes are not named too often. -/
structure Tree : Prop where
  ne : here ≠ up
  root_dir : H.IsDir root
  live : ∀ {x}, Below root here up H x → H.Live x
  here_line : ∀ {d}, Below root here up H d → H.IsDir d → ∃ e, H.line d e = some (here, d)
  here_eq : ∀ {d x e}, Below root here up H d → H.line d e = some (here, x) → x = d
  up_line : ∀ {y d}, (∃ e, (y, e) ∈ naming root here up H d) → d ≠ root → H.IsDir d →
    ∃ e, H.line d e = some (up, y)
  up_eq : ∀ {y d x e}, (∃ e, (y, e) ∈ naming root here up H d) → d ≠ root →
    H.line d e = some (up, x) → x = y
  root_up_line : ∃ e, H.line root e = some (up, root)
  root_up_eq : ∀ {x e}, H.line root e = some (up, x) → x = root
  links : ∀ {x}, x ≠ root → ¬H.IsDir x → (naming root here up H x).encard ≤ H.links x
  single : ∀ {x}, x ≠ root → H.IsDir x → (naming root here up H x).Subsingleton

end

variable {ν : Type u} {κ : Type v} {root : ν} {here up : κ} {H H' : Hierarchy ν κ}

theorem Below.naming {x : ν} (h : Below root here up H x) (hx : x ≠ root) :
    ∃ y e, (y, e) ∈ Lib.naming root here up H x := by
  cases h with
  | root => exact absurd rfl hx
  | step hy hline hk => exact ⟨_, _, hy, _, hk, hline⟩

/-- In a tree, any lines lead to the same nodes as proper lines. -/
theorem Tree.below_of_reached (h : Tree root here up H) {x : ν} (hx : Reached root H x) :
    Below root here up H x := by
  induction hx with
  | root => exact .root
  | @step y x e k _ hline ih =>
    by_cases hhere : k = here
    · subst hhere
      rw [h.here_eq ih hline]
      exact ih
    · by_cases hup : k = up
      · subst hup
        by_cases hy : y = root
        · subst hy
          rw [h.root_up_eq hline]
          exact .root
        · obtain ⟨z, e', hz⟩ := ih.naming hy
          rw [h.up_eq ⟨e', hz⟩ hy hline]
          exact hz.1
      · exact .step ih hline ⟨hhere, hup⟩

theorem Below.reached {x : ν} (h : Below root here up H x) : Reached root H x := by
  induction h with
  | root => exact .root
  | step _ hline _ ih => exact .step ih hline

/-- Every line that can be reached names a live node. -/
theorem Tree.live_of_reached (h : Tree root here up H) {x : ν} (hx : Reached root H x) :
    H.Live x :=
  h.live (h.below_of_reached hx)

/-- A directory of a tree has a line `up`. -/
theorem Tree.has_up (h : Tree root here up H) {d : ν} (hd : Below root here up H d)
    (hdir : H.IsDir d) : ∃ e x, H.line d e = some (up, x) := by
  by_cases hroot : d = root
  · subst hroot
    obtain ⟨e, he⟩ := h.root_up_line
    exact ⟨e, _, he⟩
  · obtain ⟨y, e, hy⟩ := hd.naming hroot
    obtain ⟨e', he'⟩ := h.up_line ⟨e, hy⟩ hroot hdir
    exact ⟨e', y, he'⟩

/-- The root is named by no line, or has a proper line. -/
theorem Tree.ne_root (h : Tree root here up H) {p x : ν} {e : ℕ}
    (hname : (p, e) ∈ naming root here up H x)
    (hleaf : ∀ e' k y, H.line x e' = some (k, y) → ¬Proper here up k) : x ≠ root := by
  rintro rfl
  obtain ⟨hp, k, hk, hline⟩ := hname
  have hall : ∀ y, Below x here up H y → y = x := by
    intro y hy
    induction hy with
    | root => rfl
    | step _ hline' hk' ih =>
      rw [ih] at hline'
      exact absurd hk' (hleaf _ _ _ hline')
  rw [hall p hp] at hline
  exact hleaf _ _ _ hline hk

/-! ## The root alone -/

/-- The hierarchy with no node but the root, which has the two special lines. -/
def Hierarchy.single [DecidableEq ν] (root : ν) (here up : κ) : Hierarchy ν κ where
  line y e := if y = root then
    (if e = 0 then some (here, root) else if e = 1 then some (up, root) else none) else none
  IsDir y := y = root
  Live y := y = root
  links _ := 0
  isDir_of_line := by
    intro y e a h
    by_contra hy
    rw [if_neg hy] at h
    cases h

section Single

variable [DecidableEq ν]

theorem Hierarchy.single_line {y x : ν} {e : ℕ} {k : κ}
    (h : (single root here up).line y e = some (k, x)) :
    y = root ∧ x = root ∧ (k = here ∨ k = up) := by
  obtain rfl : y = root := (single root here up).isDir_of_line h
  simp only [single, if_true] at h
  split at h
  · cases h
    exact ⟨rfl, rfl, .inl rfl⟩
  · split at h
    · cases h
      exact ⟨rfl, rfl, .inr rfl⟩
    · cases h

/-- The root alone is a tree. -/
theorem Hierarchy.tree_single (hne : here ≠ up) : Tree root here up (single root here up) := by
  have hnaming : ∀ x, Lib.naming root here up (Hierarchy.single root here up) x = ∅ := by
    intro x
    refine Set.eq_empty_of_forall_notMem ?_
    rintro ⟨y, e⟩ ⟨-, k, hk, hl⟩
    rcases (Hierarchy.single_line hl).2.2 with rfl | rfl
    · exact hk.1 rfl
    · exact hk.2 rfl
  constructor
  · exact hne
  · exact rfl
  · intro x hx
    by_contra hc
    obtain ⟨y, e, hy⟩ := hx.naming hc
    rw [hnaming] at hy
    exact hy
  · rintro d - rfl
    exact ⟨0, by simp [Hierarchy.single]⟩
  · intro d x e _ hl
    obtain ⟨rfl, rfl, -⟩ := Hierarchy.single_line hl
    rfl
  · rintro y d ⟨e, hy⟩
    rw [hnaming] at hy
    exact hy.elim
  · rintro y d x e' ⟨e, hy⟩
    rw [hnaming] at hy
    exact hy.elim
  · exact ⟨1, by simp [Hierarchy.single]⟩
  · intro x e hl
    exact (Hierarchy.single_line hl).2.1
  · intro x _ _
    rw [hnaming, Set.encard_empty]
    exact bot_le
  · intro x _ _
    rw [hnaming]
    exact Set.subsingleton_empty

end Single

/-! ## Changing a tree -/

/-- Nothing changes but what a node is besides its lines. -/
theorem Tree.congr (h : Tree root here up H) (hline : H'.line = H.line)
    (hdir : ∀ y, H'.IsDir y ↔ H.IsDir y) (hlive : ∀ y, H.Live y → H'.Live y)
    (hlinks : ∀ y, ¬H.IsDir y → H.links y ≤ H'.links y) : Tree root here up H' := by
  have hbelow : Below root here up H' = Below root here up H := by
    funext x
    refine propext ⟨fun hx ↦ ?_, fun hx ↦ ?_⟩
    · induction hx with
      | root => exact .root
      | step _ hl hk ih => exact .step ih (hline ▸ hl) hk
    · induction hx with
      | root => exact .root
      | step _ hl hk ih => exact .step ih (hline.symm ▸ hl) hk
  have hnaming : naming root here up H' = naming root here up H := by
    funext x
    unfold naming
    rw [hbelow, hline]
  constructor
  · exact h.ne
  · exact (hdir root).mpr h.root_dir
  · intro x hx
    exact hlive x (h.live (hbelow ▸ hx))
  · intro d hd hdd
    rw [hline]
    exact h.here_line (hbelow ▸ hd) ((hdir d).mp hdd)
  · intro d x e hd hl
    exact h.here_eq (hbelow ▸ hd) (hline ▸ hl)
  · intro y d hy hd hdd
    rw [hline]
    exact h.up_line (hnaming ▸ hy) hd ((hdir d).mp hdd)
  · intro y d x e hy hd hl
    exact h.up_eq (hnaming ▸ hy) hd (hline ▸ hl)
  · rw [hline]
    exact h.root_up_line
  · intro x e hl
    exact h.root_up_eq (hline ▸ hl)
  · intro x hx hdx
    have hdx' : ¬H.IsDir x := fun hc ↦ hdx ((hdir x).mpr hc)
    rw [hnaming]
    exact (h.links hx hdx').trans (Nat.cast_le.mpr (hlinks x hdx'))
  · intro x hx hdx
    rw [hnaming]
    exact h.single hx ((hdir x).mp hdx)

section Add

variable {p x : ν} {e : ℕ} {k : κ}

/-- A new node `x` is written in a blank line of the directory `p`.  If it is a directory, it
has the two special lines and no other. -/
structure Joined (root : ν) (here up : κ) (H : Hierarchy ν κ) (p : ν) (e : ℕ) (k : κ) (x : ν)
    (H' : Hierarchy ν κ) : Prop where
  below : Below root here up H p
  isDir : H.IsDir p
  fresh : ¬H.Live x
  blank : H.line p e = none
  proper : Proper here up k
  line : H'.line p = Function.update (H.line p) e (some (k, x))
  line_other : ∀ y, y ≠ x → y ≠ p → H'.line y = H.line y
  line_new : ∀ e' k' y, H'.line x e' = some (k', y) → k' = here ∧ y = x ∨ k' = up ∧ y = p
  here_new : H'.IsDir x → ∃ e', H'.line x e' = some (here, x)
  up_new : H'.IsDir x → ∃ e', H'.line x e' = some (up, p)
  isDir_other : ∀ y, y ≠ x → (H'.IsDir y ↔ H.IsDir y)
  live : ∀ y, H.Live y ∨ y = x → H'.Live y
  links : ∀ y, y ≠ x → ¬H.IsDir y → H.links y ≤ H'.links y
  links_new : 1 ≤ H'.links x

theorem Joined.ne (h : Tree root here up H) (hl : Joined root here up H p e k x H') {y : ν}
    (hy : Below root here up H y) : y ≠ x := by
  rintro rfl
  exact hl.fresh (h.live hy)

theorem Joined.not_proper (hl : Joined root here up H p e k x H') {e' : ℕ} {k' : κ} {y : ν}
    (hline : H'.line x e' = some (k', y)) : ¬Proper here up k' := by
  rcases hl.line_new e' k' y hline with ⟨rfl, -⟩ | ⟨rfl, -⟩
  · exact fun hc ↦ hc.1 rfl
  · exact fun hc ↦ hc.2 rfl

/-- What the lines of the old nodes are. -/
theorem Joined.line_iff (hl : Joined root here up H p e k x H') {y : ν} (hy : y ≠ x) {e' : ℕ}
    {a : κ × ν} : H'.line y e' = some a ↔ H.line y e' = some a ∨ y = p ∧ e' = e ∧ a = (k, x) := by
  by_cases hyp : y = p
  · subst hyp
    rw [hl.line]
    by_cases he : e' = e
    · subst he
      rw [update_self, hl.blank]
      simp [eq_comm]
    · rw [update_of_ne he]
      simp [he]
  · rw [hl.line_other y hy hyp]
    simp [hyp]

theorem Joined.below_iff (h : Tree root here up H) (hl : Joined root here up H p e k x H') {y : ν} :
    Below root here up H' y ↔ Below root here up H y ∨ y = x := by
  constructor
  · intro hy
    induction hy with
    | root => exact .inl .root
    | step _ hline hk ih =>
      rcases ih with ih | rfl
      · rcases (hl.line_iff (hl.ne h ih)).mp hline with hline | ⟨-, -, heq⟩
        · exact .inl (.step ih hline hk)
        · exact .inr (Prod.mk.inj heq).2
      · exact absurd hk (hl.not_proper hline)
  · have hmono : ∀ {y}, Below root here up H y → Below root here up H' y := by
      intro y hy
      induction hy with
      | root => exact .root
      | step hy hline hk ih => exact .step ih ((hl.line_iff (hl.ne h hy)).mpr (.inl hline)) hk
    rintro (hy | rfl)
    · exact hmono hy
    · exact .step (hmono hl.below) ((hl.line_iff (hl.ne h hl.below)).mpr (.inr ⟨rfl, rfl, rfl⟩))
        hl.proper

/-- The old nodes are named as before, and the new one once. -/
theorem Joined.naming_iff (h : Tree root here up H) (hl : Joined root here up H p e k x H')
    {y z : ν} {e' : ℕ} : (z, e') ∈ naming root here up H' y ↔
      (z, e') ∈ naming root here up H y ∨ y = x ∧ z = p ∧ e' = e := by
  constructor
  · rintro ⟨hz, k', hk', hline⟩
    rcases (hl.below_iff h).mp hz with hz | rfl
    · rcases (hl.line_iff (hl.ne h hz)).mp hline with hline | ⟨hzp, he, heq⟩
      · exact .inl ⟨hz, k', hk', hline⟩
      · exact .inr ⟨(Prod.mk.inj heq).2, hzp, he⟩
    · exact absurd hk' (hl.not_proper hline)
  · rintro (⟨hz, k', hk', hline⟩ | ⟨rfl, rfl, rfl⟩)
    · exact ⟨(hl.below_iff h).mpr (.inl hz), k', hk',
        (hl.line_iff (hl.ne h hz)).mpr (.inl hline)⟩
    · exact ⟨(hl.below_iff h).mpr (.inl hl.below), k, hl.proper,
        (hl.line_iff (hl.ne h hl.below)).mpr (.inr ⟨rfl, rfl, rfl⟩)⟩

/-- A node that is not live is named by no line. -/
theorem Tree.not_named (h : Tree root here up H) (hx : ¬H.Live x) {l : ν × ℕ} :
    l ∉ naming root here up H x := by
  rintro ⟨hl, k', hk', hline⟩
  exact hx (h.live (.step hl hline hk'))

/-- A tree with a new node is a tree. -/
theorem Tree.join (h : Tree root here up H) (hl : Joined root here up H p e k x H') :
    Tree root here up H' := by
  have hroot : root ≠ x := hl.ne h .root
  have hnew : ∀ {z e'}, (z, e') ∈ naming root here up H' x → z = p ∧ e' = e := by
    intro z e' hz
    rcases (hl.naming_iff h).mp hz with hz | ⟨-, hz⟩
    · exact absurd hz (h.not_named hl.fresh)
    · exact hz
  have hold : ∀ {y}, y ≠ x → naming root here up H' y = naming root here up H y := by
    intro y hy
    ext ⟨z, e'⟩
    rw [hl.naming_iff h]
    exact or_iff_left fun hc ↦ hy hc.1
  constructor
  · exact h.ne
  · exact (hl.isDir_other root hroot).mpr h.root_dir
  · intro y hy
    exact hl.live y (((hl.below_iff h).mp hy).imp_left h.live)
  · intro d hd hdd
    rcases (hl.below_iff h).mp hd with hd | rfl
    · obtain ⟨e', he'⟩ := h.here_line hd ((hl.isDir_other d (hl.ne h hd)).mp hdd)
      exact ⟨e', (hl.line_iff (hl.ne h hd)).mpr (.inl he')⟩
    · exact hl.here_new hdd
  · intro d y e' hd hline
    rcases (hl.below_iff h).mp hd with hd | rfl
    · rcases (hl.line_iff (hl.ne h hd)).mp hline with hline | ⟨-, -, heq⟩
      · exact h.here_eq hd hline
      · exact absurd (Prod.mk.inj heq).1.symm hl.proper.1
    · rcases hl.line_new _ _ _ hline with ⟨-, rfl⟩ | ⟨heq, -⟩
      · rfl
      · exact absurd heq h.ne
  · rintro y d ⟨e', hy⟩ hd hdd
    by_cases hdx : d = x
    · subst hdx
      obtain ⟨rfl, -⟩ := hnew hy
      exact hl.up_new hdd
    · rw [hold hdx] at hy
      obtain ⟨e'', he''⟩ := h.up_line ⟨e', hy⟩ hd ((hl.isDir_other d hdx).mp hdd)
      exact ⟨e'', (hl.line_iff hdx).mpr (.inl he'')⟩
  · rintro y d z e'' ⟨e', hy⟩ hd hline
    by_cases hdx : d = x
    · subst hdx
      obtain ⟨rfl, -⟩ := hnew hy
      rcases hl.line_new _ _ _ hline with ⟨heq, -⟩ | ⟨-, rfl⟩
      · exact absurd heq.symm h.ne
      · rfl
    · rw [hold hdx] at hy
      rcases (hl.line_iff hdx).mp hline with hline | ⟨-, -, heq⟩
      · exact h.up_eq ⟨e', hy⟩ hd hline
      · exact absurd (Prod.mk.inj heq).1.symm hl.proper.2
  · obtain ⟨e', he'⟩ := h.root_up_line
    exact ⟨e', (hl.line_iff hroot).mpr (.inl he')⟩
  · intro y e' hline
    rcases (hl.line_iff hroot).mp hline with hline | ⟨-, -, heq⟩
    · exact h.root_up_eq hline
    · exact absurd (Prod.mk.inj heq).1.symm hl.proper.2
  · intro y hy hdy
    by_cases hyx : y = x
    · subst hyx
      have hone : (naming root here up H' y).encard ≤ 1 := by
        refine Set.encard_le_one_iff.mpr ?_
        rintro ⟨z, e'⟩ ⟨z', e''⟩ hz hz'
        obtain ⟨rfl, rfl⟩ := hnew hz
        obtain ⟨rfl, rfl⟩ := hnew hz'
        rfl
      exact hone.trans (Nat.one_le_cast.mpr hl.links_new)
    · rw [hold hyx]
      have hdy' : ¬H.IsDir y := fun hc ↦ hdy ((hl.isDir_other y hyx).mpr hc)
      exact (h.links hy hdy').trans (Nat.cast_le.mpr (hl.links y hyx hdy'))
  · intro y hy hdy
    by_cases hyx : y = x
    · subst hyx
      rintro ⟨z, e'⟩ hz ⟨z', e''⟩ hz'
      obtain ⟨rfl, rfl⟩ := hnew hz
      obtain ⟨rfl, rfl⟩ := hnew hz'
      rfl
    · rw [hold hyx]
      exact h.single hy ((hl.isDir_other y hyx).mp hdy)

end Add

section Remove

variable {p x : ν} {e : ℕ}

/-- The node is no directory and has lost a link. -/
structure LosesLink (H : Hierarchy ν κ) (x : ν) (H' : Hierarchy ν κ) : Prop where
  line : H'.line x = H.line x
  isDir : H'.IsDir x ↔ H.IsDir x
  live : H.Live x → H'.Live x
  not_isDir : ¬H.IsDir x
  links : H.links x ≤ H'.links x + 1

/-- The proper line `e` of `p`, which names the node `x` without proper lines, is blanked. -/
structure Parted (root : ν) (here up : κ) (H : Hierarchy ν κ) (p : ν) (e : ℕ) (x : ν)
    (H' : Hierarchy ν κ) : Prop where
  named : (p, e) ∈ naming root here up H x
  leaf : ∀ e' k y, H.line x e' = some (k, y) → ¬Proper here up k
  line : H'.line p = Function.update (H.line p) e none
  line_other : ∀ y, y ≠ x → y ≠ p → H'.line y = H.line y
  isDir_other : ∀ y, y ≠ x → (H'.IsDir y ↔ H.IsDir y)
  live_other : ∀ y, y ≠ x → H.Live y → H'.Live y
  links_other : ∀ y, y ≠ x → ¬H.IsDir y → H.links y ≤ H'.links y
  -- either the node stays with one link less, or it goes with its last line
  node : LosesLink H x H' ∨ (naming root here up H x).Subsingleton

theorem Parted.ne (hu : Parted root here up H p e x H') : p ≠ x := by
  rintro rfl
  obtain ⟨-, k, hk, hline⟩ := hu.named
  exact hu.leaf _ _ _ hline hk

theorem Parted.line_iff (hu : Parted root here up H p e x H') {y : ν} (hy : y ≠ x) {e' : ℕ}
    {a : κ × ν} : H'.line y e' = some a ↔ H.line y e' = some a ∧ ¬(y = p ∧ e' = e) := by
  by_cases hyp : y = p
  · subst hyp
    rw [hu.line]
    by_cases he : e' = e
    · subst he
      rw [update_self]
      simp
    · rw [update_of_ne he]
      simp [he]
  · rw [hu.line_other y hy hyp]
    simp [hyp]

/-- What is still below was below, and has kept its lines. -/
theorem Parted.below (h : Tree root here up H) (hu : Parted root here up H p e x H') {y : ν}
    (hy : Below root here up H' y) : Below root here up H y ∧ (y = x → LosesLink H x H') := by
  have hroot := h.ne_root hu.named hu.leaf
  induction hy with
  | root => exact ⟨.root, fun hc ↦ absurd hc.symm hroot⟩
  | @step z y e' k _ hline hk ih =>
    obtain ⟨hz, hzx⟩ := ih
    have hne : z ≠ x := by
      rintro rfl
      rw [(hzx rfl).line] at hline
      exact hu.leaf _ _ _ hline hk
    obtain ⟨hold, hnot⟩ := (hu.line_iff hne).mp hline
    refine ⟨.step hz hold hk, ?_⟩
    rintro rfl
    refine hu.node.resolve_right fun hsub ↦ hnot ?_
    have heq := hsub (⟨hz, k, hk, hold⟩ : (z, e') ∈ naming root here up H y) hu.named
    exact Prod.mk.inj heq

/-- A tree with a line blanked is a tree. -/
theorem Tree.part (h : Tree root here up H) (hu : Parted root here up H p e x H') :
    Tree root here up H' := by
  have hroot := h.ne_root hu.named hu.leaf
  have hline : ∀ {y e' a}, Below root here up H' y → H'.line y e' = some a →
      H.line y e' = some a ∧ ¬(y = p ∧ e' = e) := by
    intro y e' a hy hl
    by_cases hyx : y = x
    · have hkeep := (hu.below h hy).2 hyx
      subst hyx
      rw [hkeep.line] at hl
      exact ⟨hl, fun hc ↦ hu.ne hc.1.symm⟩
    · exact (hu.line_iff hyx).mp hl
  have hnaming : ∀ {y z e'}, (z, e') ∈ naming root here up H' y →
      (z, e') ∈ naming root here up H y ∧ (z, e') ≠ (p, e) := by
    rintro y z e' ⟨hz, k, hk, hl⟩
    obtain ⟨hold, hnot⟩ := hline hz hl
    exact ⟨⟨(hu.below h hz).1, k, hk, hold⟩, fun hc ↦ hnot (Prod.mk.inj hc)⟩
  have hsubset : ∀ y, naming root here up H' y ⊆ naming root here up H y := by
    rintro y ⟨z, e'⟩ hz
    exact (hnaming hz).1
  have hdir : ∀ {y}, Below root here up H' y → (H'.IsDir y ↔ H.IsDir y) := by
    intro y hy
    by_cases hyx : y = x
    · subst hyx
      exact ((hu.below h hy).2 rfl).isDir
    · exact hu.isDir_other y hyx
  -- special lines are not blanked
  have hkeep : ∀ {y e' k a}, Below root here up H' y → H.line y e' = some (k, a) →
      ¬Proper here up k → H'.line y e' = some (k, a) := by
    intro y e' k a hy hl hk
    by_cases hyx : y = x
    · have hsame := (hu.below h hy).2 hyx
      subst hyx
      rwa [hsame.line]
    · refine (hu.line_iff hyx).mpr ⟨hl, ?_⟩
      rintro ⟨rfl, rfl⟩
      obtain ⟨-, k', hk', hl'⟩ := hu.named
      have heq := (Prod.mk.inj (Option.some.inj (hl.symm.trans hl'))).1
      exact hk (heq ▸ hk')
  have hhere : ¬Proper here up here := fun hc ↦ hc.1 rfl
  have hup : ¬Proper here up up := fun hc ↦ hc.2 rfl
  have hbelow : ∀ {y z}, (∃ e', (z, e') ∈ naming root here up H' y) → Below root here up H' y := by
    rintro y z ⟨e', hz, k, hk, hl⟩
    exact .step hz hl hk
  constructor
  · exact h.ne
  · exact (hu.isDir_other root hroot.symm).mpr h.root_dir
  · intro y hy
    obtain ⟨hold, hx⟩ := hu.below h hy
    by_cases hyx : y = x
    · subst hyx
      exact (hx rfl).live (h.live hold)
    · exact hu.live_other y hyx (h.live hold)
  · intro d hd hdd
    obtain ⟨e', he'⟩ := h.here_line (hu.below h hd).1 ((hdir hd).mp hdd)
    exact ⟨e', hkeep hd he' hhere⟩
  · intro d y e' hd hl
    exact h.here_eq (hu.below h hd).1 (hline hd hl).1
  · intro y d hy hd hdd
    obtain ⟨e'', he''⟩ := h.up_line (hy.imp fun _ hz ↦ (hnaming hz).1) hd
      ((hdir (hbelow hy)).mp hdd)
    exact ⟨e'', hkeep (hbelow hy) he'' hup⟩
  · intro y d z e'' hy hd hl
    exact h.up_eq (hy.imp fun _ hz ↦ (hnaming hz).1) hd (hline (hbelow hy) hl).1
  · obtain ⟨e', he'⟩ := h.root_up_line
    exact ⟨e', hkeep .root he' hup⟩
  · intro y e' hl
    exact h.root_up_eq (hline .root hl).1
  · intro y hy hdy
    by_cases hyx : y = x
    · subst hyx
      rcases Set.eq_empty_or_nonempty (naming root here up H' y) with hempty | ⟨⟨z, e'⟩, hz⟩
      · rw [hempty, Set.encard_empty]
        exact bot_le
      · have hlose := (hu.below h (hbelow ⟨e', hz⟩)).2 rfl
        -- the blanked line named it too
        have hss : insert (p, e) (naming root here up H' y) ⊆ naming root here up H y :=
          Set.insert_subset hu.named (hsubset y)
        have hnot : (p, e) ∉ naming root here up H' y := fun hc ↦ (hnaming hc).2 rfl
        have hcard := Set.encard_le_encard hss
        rw [Set.encard_insert_of_notMem hnot] at hcard
        have hle := hcard.trans ((h.links hy hlose.not_isDir).trans (Nat.cast_le.mpr hlose.links))
        rw [Nat.cast_add, Nat.cast_one] at hle
        exact (ENat.add_le_add_iff_right (by decide)).mp hle
    · have hdy' : ¬H.IsDir y := fun hc ↦ hdy ((hu.isDir_other y hyx).mpr hc)
      exact (Set.encard_le_encard (hsubset y)).trans
        ((h.links hy hdy').trans (Nat.cast_le.mpr (hu.links_other y hyx hdy')))
  · intro y hy hdy
    rcases Set.eq_empty_or_nonempty (naming root here up H' y) with hempty | ⟨⟨z, e'⟩, hz⟩
    · rw [hempty]
      exact Set.subsingleton_empty
    · exact (h.single hy ((hdir (hbelow ⟨e', hz⟩)).mp hdy)).anti (hsubset y)

end Remove

end FentoOS.Lib
