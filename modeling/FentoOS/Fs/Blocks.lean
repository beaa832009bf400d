import FentoOS.Fs.View
import FentoOS.Lib.Ledger

/-!
# Who owns which zone

An inode holds zones in `Slot`s: ten in the inode itself, and further ones in the
zones that three kinds of slots name.  `View.zone v ino s` is the zone number in a
slot.  A slot whose zone holds numbers of zones is a *table*; the others hold data.

`Owned g live v` says that the slots of the inodes in `live` hold zones in the
sense of a ledger: a zone in a slot is one of the disk's, it is marked as used, and
no other slot holds it.  This is what keeps files apart.  A zone that is written as
data is no table and belongs to nobody else, so nothing but the one file changes;
a zone that is put in a slot was in no other.  Each way in which the code changes
slots is a move on views, and for each move there are three lemmas: what the slots
hold after it, what the data slots contain after it, and that `Owned` is kept.

The set `live` is a parameter.  It is one directory where only that directory is
looked at, and the allocated inodes where the whole disk is.
-/

namespace FentoOS.Fs

open FentoOS.Lib Function

/-! ## Slots -/

instance neZero_zones : NeZero 10 := ⟨by decide⟩

instance neZero_entries : NeZero 256 := ⟨by decide⟩

/-- A place in which an inode holds a zone. -/
inductive Slot
  | top (k : Fin 10)
  | ind (j : Fin 256)
  | dbl (j : Fin 256)
  | sng (j k : Fin 256)
deriving DecidableEq

namespace Slot

/-- The slot whose zone a slot lies in, and the slot's index there. -/
def parent : Slot → Option (Slot × Fin 256)
  | top _ => none
  | ind j => some (top 7, j)
  | dbl j => some (top 8, j)
  | sng j k => some (dbl j, k)

/-- The zone of the slot holds zone numbers. -/
def IsTable : Slot → Prop
  | top k => k = 7 ∨ k = 8
  | ind _ => False
  | dbl _ => True
  | sng _ _ => False

variable {s p : Slot}

theorem isTable_of_parent {j : Fin 256} (h : s.parent = some (p, j)) : p.IsTable := by
  cases s with
  | top k => cases h
  | ind j => cases h; exact .inl rfl
  | dbl j => cases h; exact .inr rfl
  | sng j k => cases h; trivial

theorem parent_inj {s' : Slot} {x : Slot × Fin 256} (h : s.parent = some x)
    (h' : s'.parent = some x) : s = s' := by
  cases s <;> cases s' <;> cases h <;> cases h' <;> rfl

/-- Slots from the inode downwards. -/
theorem descend {P : Slot → Prop} (top : ∀ k, P (.top k))
    (child : ∀ s p j, s.parent = some (p, j) → P p → P s) (s : Slot) : P s := by
  cases s with
  | top k => exact top k
  | ind j => exact child _ _ _ rfl (top 7)
  | dbl j => exact child _ _ _ rfl (top 8)
  | sng j k => exact child _ _ _ rfl (child _ _ _ rfl (top 8))

end Slot

/-- The slot of a block of a file. -/
def slotOf (fb : Nat) : Option Slot :=
  if h : fb < 7 then some (.top ⟨fb, by omega⟩)
  else if h : fb - 7 < 256 then some (.ind ⟨fb - 7, h⟩)
  else if h : (fb - 263) / 256 < 256 then
    some (.sng ⟨(fb - 263) / 256, h⟩ ⟨(fb - 263) % 256, Nat.mod_lt _ (by decide)⟩)
  else none

/-- The four cases of `map_block`. -/
theorem slotOf_cases (fb : Nat) :
    (∃ h : fb < 7, slotOf fb = some (.top ⟨fb, by omega⟩)) ∨
    (¬fb < 7 ∧ ∃ h : fb - 7 < 256, slotOf fb = some (.ind ⟨fb - 7, h⟩)) ∨
    (¬fb < 7 ∧ ¬fb - 7 < 256 ∧ ∃ h : (fb - 263) / 256 < 256, slotOf fb =
      some (.sng ⟨(fb - 263) / 256, h⟩ ⟨(fb - 263) % 256, Nat.mod_lt _ (by decide)⟩)) ∨
    (¬fb < 7 ∧ ¬fb - 7 < 256 ∧ ¬(fb - 263) / 256 < 256 ∧ slotOf fb = none) := by
  unfold slotOf
  by_cases h₁ : fb < 7
  · exact .inl ⟨h₁, dif_pos h₁⟩
  by_cases h₂ : fb - 7 < 256
  · exact .inr (.inl ⟨h₁, h₂, by rw [dif_neg h₁, dif_pos h₂]⟩)
  by_cases h₃ : (fb - 263) / 256 < 256
  · exact .inr (.inr (.inl ⟨h₁, h₂, h₃, by rw [dif_neg h₁, dif_neg h₂, dif_pos h₃]⟩))
  · exact .inr (.inr (.inr ⟨h₁, h₂, h₃, by rw [dif_neg h₁, dif_neg h₂, dif_neg h₃]⟩))

variable {fb : Nat}

theorem slotOf_isData (h : slotOf fb = some s) : ¬s.IsTable := by
  rcases slotOf_cases fb with ⟨hlt, heq⟩ | ⟨-, _, heq⟩ | ⟨-, -, _, heq⟩ | ⟨-, -, -, heq⟩
  · cases heq.symm.trans h
    rintro (hc | hc)
    · exact absurd (congrArg Fin.val hc) (Nat.ne_of_lt hlt)
    · exact absurd (congrArg Fin.val hc) (Nat.ne_of_lt (Nat.lt_succ_of_lt hlt))
  · cases heq.symm.trans h
    exact id
  · cases heq.symm.trans h
    exact id
  · cases heq.symm.trans h

theorem lt_of_slotOf (h : slotOf fb = some s) : fb < 65799 := by
  rcases slotOf_cases fb with ⟨h₁, -⟩ | ⟨-, h₁, -⟩ | ⟨-, -, h₁, -⟩ | ⟨-, -, -, heq⟩
  · omega
  · omega
  · omega
  · cases heq.symm.trans h

theorem slotOf_ne_none (h : fb < 65799) : slotOf fb ≠ none := by
  rcases slotOf_cases fb with ⟨_, heq⟩ | ⟨-, _, heq⟩ | ⟨-, -, _, heq⟩ | ⟨-, -, h₃, heq⟩
  · rw [heq]; exact Option.some_ne_none _
  · rw [heq]; exact Option.some_ne_none _
  · rw [heq]; exact Option.some_ne_none _
  · omega

/-- Different blocks of a file have different slots. -/
theorem slotOf_inj {fb' : Nat} (h : slotOf fb = some s) (h' : slotOf fb' = some s) : fb = fb' := by
  have heq := h.trans h'.symm
  rcases slotOf_cases fb with ⟨_, h₁⟩ | ⟨h₀, _, h₁⟩ | ⟨h₀, h₀', _, h₁⟩ | ⟨-, -, -, h₁⟩ <;>
    rcases slotOf_cases fb' with ⟨_, h₂⟩ | ⟨h₃, _, h₂⟩ | ⟨h₃, h₃', _, h₂⟩ | ⟨-, -, -, h₂⟩ <;>
    rw [h₁, h₂] at heq <;>
    simp only [Option.some.injEq, Slot.top.injEq, Slot.ind.injEq, Slot.sng.injEq, Fin.mk.injEq,
      reduceCtorEq] at heq
  · exact heq
  · omega
  · omega
  · rw [h₁] at h
    cases h

/-! ## What the slots hold -/

namespace View

/-- The zone number at index `j` of a zone. -/
def word (v : View) (z j : Nat) : Nat := (v.data z).get32 (4 * j)

/-- The zone in a slot. -/
def zone (v : View) (ino : Nat) : Slot → Nat
  | .top k => (v.inode ino).iZone k
  | .ind j => v.word ((v.inode ino).iZone 7) j
  | .dbl j => v.word ((v.inode ino).iZone 8) j
  | .sng j k => v.word (v.word ((v.inode ino).iZone 8) j) k

/-- What the zone in a slot contains.  Where there is none, this is the zero block. -/
def slot (v : View) (ino : Nat) (s : Slot) : Bytes := v.data (v.zone ino s)

theorem zone_child (v : View) (ino : Nat) {j : Fin 256} (h : s.parent = some (p, j)) :
    v.zone ino s = v.word (v.zone ino p) j := by
  cases s <;> cases h <;> rfl

variable {v : View} {ino : Nat}

/-- The slots hold the same when the inode and the tables do. -/
theorem zone_congr {v' : View} (hinode : (v'.inode ino).iZone = (v.inode ino).iZone)
    (hdata : ∀ p, p.IsTable → v'.data (v.zone ino p) = v.data (v.zone ino p)) (s : Slot) :
    v'.zone ino s = v.zone ino s := by
  induction s using Slot.descend with
  | top k => exact congrFun hinode k
  | child s p j hs ih =>
    rw [v'.zone_child ino hs, v.zone_child ino hs, ih, word, word,
      hdata p (Slot.isTable_of_parent hs)]

end View

open Classical in
/-- The zones that the slots of the inodes in `live` hold. -/
noncomputable def own (live : Nat → Prop) (v : View) (o : Nat × Slot) : Option Nat :=
  if live o.1 ∧ v.zone o.1 o.2 ≠ 0 then some (v.zone o.1 o.2) else none

theorem own_eq_some {live : Nat → Prop} {z : Nat} :
    own live v (ino, s) = some z ↔ live ino ∧ v.zone ino s = z ∧ z ≠ 0 := by
  unfold own
  constructor
  · intro h
    split at h
    case isTrue hl =>
      obtain rfl := Option.some.inj h
      exact ⟨hl.1, rfl, hl.2⟩
    case isFalse => cases h
  · rintro ⟨hl, rfl, hz⟩
    exact if_pos ⟨hl, hz⟩

theorem own_congr {live : Nat → Prop} {v' : View} (h : live ino → v'.zone ino s = v.zone ino s) :
    own live v' (ino, s) = own live v (ino, s) := by
  ext z
  rw [own_eq_some, own_eq_some]
  constructor
  · rintro ⟨hl, hz⟩
    exact ⟨hl, h hl ▸ hz⟩
  · rintro ⟨hl, hz⟩
    exact ⟨hl, (h hl).symm ▸ hz⟩

/-- A zone of the disk that is marked as used. -/
def Marked (g : Superblock) (v : View) (z : Nat) : Prop :=
  IsZone g z ∧ v.zmap (zoneBit g z) = true

/-- The inodes in `live` hold zones of the disk, marked as used and each held once. -/
structure Owned (g : Superblock) (live : Nat → Prop) (v : View) : Prop where
  ledger : Ledger (own live v) (Marked g v)
  zero : v.data 0 = Bytes.zero
  number : ∀ {ino}, live ino → IsIno g ino

section

variable {g : Superblock} {live live' : Nat → Prop} {v v' : View} {ino ino' z : Nat} {s s' : Slot}

theorem IsZone.pos (hfirst : 0 < g.sFirstdatazone) (h : IsZone g z) : z ≠ 0 := by
  rintro rfl
  exact absurd h.1 (not_le.mpr hfirst)

theorem Owned.marked (h : Owned g live v) (hl : live ino) (hz : v.zone ino s ≠ 0) :
    Marked g v (v.zone ino s) :=
  h.ledger.used (own_eq_some.mpr ⟨hl, rfl, hz⟩)

theorem Owned.data_range (h : Owned g live v) (hl : live ino) (s : Slot) :
    v.zone ino s = 0 ∨ IsZone g (v.zone ino s) := by
  by_cases hz : v.zone ino s = 0
  · exact .inl hz
  · exact .inr ((h.marked hl hz).1)

/-- The slots of an inode hold zones of the disk or none.  This is all that reading its file
takes. -/
structure Readable (g : Superblock) (v : View) (ino : Nat) : Prop where
  number : IsIno g ino
  range : ∀ s, v.zone ino s = 0 ∨ IsZone g (v.zone ino s)
  zero : v.data 0 = Bytes.zero

theorem Owned.readable (h : Owned g live v) (hl : live ino) : Readable g v ino :=
  ⟨h.number hl, h.data_range hl, h.zero⟩

/-- Two slots with the same zone are the same slot. -/
theorem Owned.inj (h : Owned g live v) (hl : live ino) (hl' : live ino')
    (hz : v.zone ino s ≠ 0) (heq : v.zone ino' s' = v.zone ino s) : ino' = ino ∧ s' = s := by
  have h₁ := own_eq_some.mpr ⟨hl, rfl, hz⟩
  have h₂ := own_eq_some.mpr ⟨hl', heq, hz⟩
  exact Prod.mk.inj (h.ledger.inj h₂ h₁)

/-- A zone that is not marked is in no slot. -/
theorem Owned.ne_of_not_marked (h : Owned g live v) (hl : live ino) (hz : z ≠ 0)
    (hfree : ¬Marked g v z) : v.zone ino s ≠ z := by
  rintro rfl
  exact hfree (h.marked hl hz)

/-- The slots hold no more than they did, and what they hold is still marked. -/
theorem Owned.shrink (h : Owned g live v) (hnumber : ∀ ino, live' ino → IsIno g ino)
    (hzone : ∀ ino s, live' ino → v'.zone ino s ≠ 0 → live ino ∧ v'.zone ino s = v.zone ino s)
    (hmark : ∀ ino s, live' ino → v'.zone ino s ≠ 0 → Marked g v' (v.zone ino s))
    (hzero : v'.data 0 = Bytes.zero) : Owned g live' v' := by
  have hown : ∀ {o z}, own live' v' o = some z → own live v o = some z ∧ Marked g v' z := by
    rintro ⟨ino, s⟩ z ho
    obtain ⟨hl, rfl, hz⟩ := own_eq_some.mp ho
    obtain ⟨hl', heq⟩ := hzone ino s hl hz
    exact ⟨own_eq_some.mpr ⟨hl', heq.symm, hz⟩, heq ▸ hmark ino s hl hz⟩
  exact ⟨⟨fun ho ↦ (hown ho).2, fun h₁ h₂ ↦ h.ledger.inj (hown h₁).1 (hown h₂).1⟩, hzero,
    fun hl ↦ hnumber _ hl⟩

/-- Nothing the slots depend on changes. -/
theorem Owned.congr (h : Owned g live v) (hlive : ∀ ino, live' ino → live ino)
    (hzone : ∀ ino s, live' ino → v'.zone ino s = v.zone ino s)
    (hzmap : v'.zmap = v.zmap) (hzero : v'.data 0 = Bytes.zero) : Owned g live' v' := by
  refine h.shrink (fun ino hl ↦ h.number (hlive ino hl))
    (fun ino s hl _ ↦ ⟨hlive ino hl, hzone ino s hl⟩) (fun ino s hl hz ↦ ?_) hzero
  rw [hzone ino s hl] at hz
  unfold Marked
  rw [hzmap]
  exact h.marked (hlive ino hl) hz

/-! ## Writing data -/

section Data

variable (h : Owned g live v) (hl : live ino) (hz : v.zone ino s ≠ 0) (hs : ¬s.IsTable)
  (buf : Bytes)

include h hl hz hs

/-- Writing the zone of a data slot keeps the slots. -/
theorem Owned.zone_setData (hl' : live ino') (s' : Slot) :
    (v.setData (v.zone ino s) buf).zone ino' s' = v.zone ino' s' := by
  apply View.zone_congr
  · rfl
  · intro p hp
    have hne : v.zone ino' p ≠ v.zone ino s := by
      intro heq
      obtain ⟨-, rfl⟩ := h.inj hl hl' hz heq
      exact hs hp
    exact update_of_ne hne ..

/-- Writing the zone of a data slot changes what that slot contains. -/
theorem Owned.slot_setData (hl' : live ino') (s' : Slot) :
    (v.setData (v.zone ino s) buf).slot ino' s' =
      if ino' = ino ∧ s' = s then buf else v.slot ino' s' := by
  rw [View.slot, h.zone_setData hl hz hs buf hl']
  split
  case isTrue heq =>
    obtain ⟨rfl, rfl⟩ := heq
    exact update_self ..
  case isFalse hne =>
    exact update_of_ne (fun heq ↦ hne (h.inj hl hl' hz heq)) ..

theorem Owned.setData : Owned g live (v.setData (v.zone ino s) buf) := by
  refine h.congr (fun _ ↦ id) (fun ino s hl' ↦ h.zone_setData hl hz hs buf hl' s) rfl ?_
  exact (update_of_ne hz.symm ..).trans h.zero

end Data

/-! ## Changing an inode's other fields -/

/-- The fields of an inode besides its zones. -/
def Inode.attr (i : Inode) : Inode := { i with iZone := fun _ ↦ 0 }

/-- Another inode is written. -/
theorem zone_setInode_of_ne (v : View) (i : Inode) (hne : ino' ≠ ino) (s : Slot) :
    (v.setInode ino i).zone ino' s = v.zone ino' s := by
  have hinode : (v.setInode ino i).inode ino' = v.inode ino' := update_of_ne hne ..
  have hzone := congrArg Inode.iZone hinode
  exact View.zone_congr hzone (fun _ _ ↦ rfl) s

/-- The inode is written with the same zones. -/
theorem zone_setInode (v : View) {i : Inode} (hi : i.iZone = (v.inode ino).iZone) (ino' : Nat)
    (s : Slot) : (v.setInode ino i).zone ino' s = v.zone ino' s := by
  apply View.zone_congr
  · rw [View.setInode_inode]
    by_cases hne : ino' = ino
    · subst hne
      rw [update_self, hi]
    · rw [update_of_ne hne]
  · intro p _
    rfl

theorem Owned.setInode (h : Owned g live v) {i : Inode}
    (hi : i.iZone = (v.inode ino).iZone) : Owned g live (v.setInode ino i) :=
  h.congr (fun _ ↦ id) (fun ino' s _ ↦ zone_setInode v hi ino' s) rfl h.zero

/-! ## Filling an empty slot -/

namespace View

/-- Store a zone number at index `j` of a zone. -/
def poke (v : View) (p j z : Nat) : View := v.setData p ((v.data p).put32 (4 * j) z)

/-- Store a zone number in a slot. -/
def attach (v : View) (ino : Nat) (s : Slot) (z : Nat) : View :=
  match s with
  | .top k => v.setInode ino ((v.inode ino).setZone k z)
  | .ind j => v.poke (v.zone ino (.top 7)) j z
  | .dbl j => v.poke (v.zone ino (.top 8)) j z
  | .sng j k => v.poke (v.zone ino (.dbl j)) k z

/-- Hand out a zone and store its number in a slot. -/
def fill (g : Superblock) (v : View) (ino : Nat) (s : Slot) (z : Nat) : View :=
  (v.take g z).attach ino s z

theorem attach_child (v : View) (ino : Nat) {j : Fin 256} (h : s.parent = some (p, j)) (z : Nat) :
    v.attach ino s z = v.poke (v.zone ino p) j z := by
  cases s <;> cases h <;> rfl

end View

/-- The zone is one of the disk's and is not marked. -/
structure Fresh (g : Superblock) (v : View) (z : Nat) : Prop where
  isZone : IsZone g z
  not_marked : ¬Marked g v z
  pos : z ≠ 0
  lt : z < 2 ^ 32

/-- The slot can be filled: it is empty, and it lies in the inode or in a zone. -/
structure Open (v : View) (ino : Nat) (s : Slot) : Prop where
  empty : v.zone ino s = 0
  parent : ∀ {p j}, s.parent = some (p, j) → v.zone ino p ≠ 0

/-- Handing out a zone keeps the slots. -/
theorem Owned.zone_take (h : Owned g live v) (hz : Fresh g v z) (hl : live ino) (s : Slot) :
    (v.take g z).zone ino s = v.zone ino s := by
  apply View.zone_congr
  · rfl
  · intro p _
    exact update_of_ne (h.ne_of_not_marked hl hz.pos hz.not_marked) ..

theorem take_data_self (v : View) : (v.take g z).data z = Bytes.zero :=
  update_self ..

theorem word_poke_self (v : View) (p j z k : Nat) (hz : z < 2 ^ 32) :
    (v.poke p j z).word p k = if k = j then z else v.word p k := by
  rw [View.word, View.poke, View.setData_data, update_self]
  split
  case isTrue hk =>
    subst hk
    rw [Bytes.get32_put32_same, Nat.mod_eq_of_lt hz]
  case isFalse hk => exact Bytes.get32_put32_of_disjoint _ (by omega)

theorem word_poke_of_ne (v : View) {p q : Nat} (j z k : Nat) (h : q ≠ p) :
    (v.poke p j z).word q k = v.word q k := by
  rw [View.word, View.poke, View.setData_data, update_of_ne h, View.word]

/-- What the slots hold when one of them has been filled, from what the tables hold. -/
theorem zone_of_words {w : View} (hempty : v.zone ino s = 0) (hzero : v.data 0 = Bytes.zero)
    (hself : ∀ j, s.parent ≠ some (s, j)) (hword : ∀ j, w.word z j = 0)
    (htop : ∀ ino', live ino' → ∀ k, w.zone ino' (.top k) =
      if ino' = ino ∧ .top k = s then z else v.zone ino' (.top k))
    (hchild : ∀ ino', live ino' → ∀ (s' p : Slot) (j : Fin 256), s'.parent = some (p, j) →
      w.word (v.zone ino' p) j = if ino' = ino ∧ s' = s then z else v.zone ino' s')
    (hl : live ino') (s' : Slot) :
    w.zone ino' s' = if ino' = ino ∧ s' = s then z else v.zone ino' s' := by
  induction s' using Slot.descend with
  | top k => exact htop ino' hl k
  | child s' p j hs' ih =>
    rw [w.zone_child ino' hs', ih]
    split
    case isFalse => exact hchild ino' hl s' p j hs'
    case isTrue heq =>
      -- a slot below the filled one holds nothing, before and after
      obtain ⟨rfl, rfl⟩ := heq
      have hne : ¬(ino' = ino' ∧ s' = p) := by
        rintro ⟨-, rfl⟩
        exact hself j hs'
      rw [hword, if_neg hne, v.zone_child ino' hs', hempty, View.word, hzero, Bytes.get32_zero]

theorem Slot.parent_ne_self (s : Slot) (j : Fin 256) : s.parent ≠ some (s, j) := by
  cases s <;> rintro ⟨⟩

theorem fill_zmap (v : View) : (v.fill g ino s z).zmap = update v.zmap (zoneBit g z) true := by
  cases s <;> rfl

theorem fill_imap (v : View) : (v.fill g ino s z).imap = v.imap := by
  cases s <;> rfl

theorem fill_attr (v : View) (ino' : Nat) :
    ((v.fill g ino s z).inode ino').attr = (v.inode ino').attr := by
  cases s with
  | top k =>
    change (update v.inode ino ((v.inode ino).setZone k z) ino').attr = _
    by_cases hino : ino' = ino
    · subst hino
      rw [update_self]
      rfl
    · rw [update_of_ne hino]
  | ind | dbl | sng => rfl

section Fill

variable (h : Owned g live v) (hl : live ino) (hz : Fresh g v z) (hopen : Open v ino s)

include h hl hz hopen

/-- A filled slot holds its zone, the others what they did. -/
theorem Owned.zone_fill (hl' : live ino') (s' : Slot) :
    (v.fill g ino s z).zone ino' s' =
      if ino' = ino ∧ s' = s then z else v.zone ino' s' := by
  have hfresh : ∀ j, (v.take g z).word z j = 0 := by
    intro j
    rw [View.word, take_data_self, Bytes.get32_zero]
  have hkeep : ∀ ino', live ino' → ∀ (s' p : Slot) (j : Fin 256), s'.parent = some (p, j) →
      (v.take g z).word (v.zone ino' p) j = v.zone ino' s' := by
    intro ino' hl' s' p j hs'
    rw [← h.zone_take hz hl' p, ← View.zone_child _ _ hs', h.zone_take hz hl']
  apply zone_of_words hopen.empty h.zero s.parent_ne_self _ _ _ hl' s'
  · intro j
    cases hp : s.parent with
    | none => cases s <;> first | exact hfresh j | cases hp
    | some x =>
      have hne : z ≠ (v.take g z).zone ino x.1 := by
        rw [h.zone_take hz hl]
        exact (h.ne_of_not_marked hl hz.pos hz.not_marked).symm
      rw [View.fill, View.attach_child _ _ hp, word_poke_of_ne _ _ _ _ hne]
      exact hfresh j
  · intro ino' hl' k
    cases s with
    | top k' =>
      change (update v.inode ino ((v.inode ino).setZone k' z) ino').iZone k = _
      by_cases hino : ino' = ino
      · subst hino
        rw [update_self]
        by_cases hk : k = k'
        · subst hk
          rw [if_pos ⟨rfl, rfl⟩]
          exact update_self ..
        · rw [if_neg fun hc ↦ hk (Slot.top.inj hc.2)]
          exact update_of_ne (fun hc ↦ hk (Fin.ext hc)) ..
      · rw [update_of_ne hino, if_neg fun hc ↦ hino hc.1]
        rfl
    | ind | dbl | sng => exact (if_neg fun hc ↦ Slot.noConfusion hc.2).symm
  · intro ino' hl' s' p j hs'
    cases hp : s.parent with
    | none =>
      have hne : ¬(ino' = ino ∧ s' = s) := by
        rintro ⟨-, rfl⟩
        rw [hp] at hs'
        cases hs'
      rw [if_neg hne, ← hkeep ino' hl' s' p j hs']
      cases s <;> first | rfl | cases hp
    | some x =>
      obtain ⟨q, i⟩ := x
      have hq := hopen.parent hp
      rw [View.fill, View.attach_child _ _ hp, h.zone_take hz hl]
      by_cases heq : v.zone ino' p = v.zone ino q
      · -- the zone that is written to
        obtain ⟨rfl, rfl⟩ := h.inj hl hl' hq heq
        rw [word_poke_self _ _ _ _ _ hz.lt, hkeep ino' hl' s' p j hs']
        by_cases hj : j = i
        · subst hj
          rw [if_pos rfl, if_pos ⟨rfl, Slot.parent_inj hs' hp⟩]
        · have hne : ¬(ino' = ino' ∧ s' = s) := by
            rintro ⟨-, rfl⟩
            rw [hp] at hs'
            cases hs'
            exact hj rfl
          rw [if_neg fun hc ↦ hj (Fin.ext hc), if_neg hne]
      · have hne : ¬(ino' = ino ∧ s' = s) := by
          rintro ⟨rfl, rfl⟩
          rw [hp] at hs'
          cases hs'
          exact heq rfl
        rw [word_poke_of_ne _ _ _ _ heq, hkeep ino' hl' s' p j hs', if_neg hne]

/-- What a zone contains after a slot has been filled. -/
theorem Owned.data_fill {x : Nat} (hx : ∀ {p j}, s.parent = some (p, j) → x ≠ v.zone ino p) :
    (v.fill g ino s z).data x = if x = z then Bytes.zero else v.data x := by
  have htake : (v.take g z).data x = if x = z then Bytes.zero else v.data x := by
    split
    case isTrue heq =>
      subst heq
      exact take_data_self v
    case isFalse hne => exact update_of_ne hne ..
  rw [← htake]
  cases hp : s.parent with
  | none => cases s <;> first | rfl | cases hp
  | some y =>
    rw [View.fill, View.attach_child _ _ hp, h.zone_take hz hl]
    exact update_of_ne (hx hp) ..

/-- Filling a slot changes no data. -/
theorem Owned.slot_fill (hl' : live ino') (hs' : ¬s'.IsTable) :
    (v.fill g ino s z).slot ino' s' = v.slot ino' s' := by
  rw [View.slot, h.zone_fill hl hz hopen hl']
  split
  case isTrue heq =>
    obtain ⟨rfl, rfl⟩ := heq
    rw [h.data_fill hl hz hopen, if_pos rfl, View.slot, hopen.empty, h.zero]
    intro p j hp
    exact (h.ne_of_not_marked hl hz.pos hz.not_marked).symm
  case isFalse =>
    have hne : v.zone ino' s' ≠ z := h.ne_of_not_marked hl' hz.pos hz.not_marked
    rw [h.data_fill hl hz hopen, if_neg hne, View.slot]
    intro p j hp heq
    obtain ⟨-, rfl⟩ := h.inj hl hl' (hopen.parent hp) heq
    exact hs' (Slot.isTable_of_parent hp)

theorem Owned.fill : Owned g live (v.fill g ino s z) := by
  have hused : ∀ b, Marked g (v.fill g ino s z) b ↔ Marked g v b ∨ b = z := by
    intro b
    unfold Marked
    rw [fill_zmap]
    by_cases hb : b = z
    · subst hb
      simp [hz.isZone]
    · have hbit : IsZone g b → zoneBit g b ≠ zoneBit g z :=
        fun hb' hc ↦ hb (zoneBit_inj hb' hz.isZone hc)
      constructor
      · rintro ⟨hb', hset⟩
        rw [update_of_ne (hbit hb')] at hset
        exact .inl ⟨hb', hset⟩
      · rintro (⟨hb', hset⟩ | rfl)
        · rw [update_of_ne (hbit hb')]
          exact ⟨hb', hset⟩
        · exact absurd rfl hb
  have hspare := (h.ledger.spare_take hz.not_marked hused z).mpr (.inr rfl)
  have hempty : own live v (ino, s) = none := by
    cases ho : own live v (ino, s) with
    | none => rfl
    | some y =>
      obtain ⟨-, rfl, hy⟩ := own_eq_some.mp ho
      exact absurd hopen.empty hy
  have hself : own live (v.fill g ino s z) (ino, s) = some z :=
    own_eq_some.mpr ⟨hl, by rw [h.zone_fill hl hz hopen hl, if_pos ⟨rfl, rfl⟩], hz.pos⟩
  have hother : ∀ o, o ≠ (ino, s) → own live (v.fill g ino s z) o = own live v o := by
    rintro ⟨ino', s'⟩ hne
    have hne' : ¬(ino' = ino ∧ s' = s) := by
      rintro ⟨rfl, rfl⟩
      exact hne rfl
    apply own_congr
    intro hl'
    rw [h.zone_fill hl hz hopen hl', if_neg hne']
  refine ⟨(h.ledger.take hused).put hempty hspare hself hother, ?_, h.number⟩
  rw [h.data_fill hl hz hopen fun hp ↦ (hopen.parent hp).symm, if_neg hz.pos.symm, h.zero]

end Fill

end

end FentoOS.Fs
