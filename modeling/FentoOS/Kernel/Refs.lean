import FentoOS.Kernel.File
import FentoOS.Lib.RefCount

/-!
# What the counters count

An open file counts the descriptors that name it, a pipe counts the open files
that are its read ends and its write ends.  Here both tables are explicit: a
descriptor table `g` says which open file each descriptor names, and
`Files.endAt` says of which pipe an open file is an end.

`Counted leak g s` allows for references that were counted and then forgotten:
`leak f` of them for the open file `f`.  Every operation that makes, shares or
drops a reference keeps the leak as it is, and forgetting a descriptor without
closing it adds to the leak.
-/

namespace FentoOS.Kernel

open FentoOS.Lib Function

/-! ## Pipes count their ends -/

/-- `p->readers` or `p->writers`. -/
def Pipe.ends (P : Pipe) (e : Int) : Int := if e = 0 then P.readers else P.writers

/-- The pipe of which an open file is an end, of kind `e`. -/
def Filp.endOf (e : Int) (F : Filp) : Option Addr := if F.pipeEnd = e then F.pipe else none

/-- The pipe of which the open file at `f` is an end, of kind `e`. -/
def Files.endAt (s : Files) (e : Int) (f : Addr) : Option Addr := (s.filps f).bind (Filp.endOf e)

/-- The two kinds of ends. -/
def IsEnd (e : Int) : Prop := e = 0 ∨ e = 1

/-- Each pipe counts its ends, has one as long as it lives, and lives as long as it
has one. -/
structure Joined (s : Files) : Prop where
  finite : FiniteRefs s.filps
  port : ∀ {f F p}, s.filps f = some F → F.pipe = some p → F.type = .pipe ∧ IsEnd F.pipeEnd
  named : ∀ {f F p}, s.filps f = some F → F.pipe = some p → s.pipes p ≠ none
  counts : ∀ {p P e}, s.pipes p = some P → IsEnd e → P.ends e = refCount (s.endAt e) p
  open_ : ∀ {p P}, s.pipes p = some P → ∃ e, IsEnd e ∧ P.ends e ≠ 0

theorem endAt_setFilp (s : Files) (f : Addr) (F : Option Filp) (e : Int) :
    (s.setFilp f F).endAt e = update (s.endAt e) f (F.bind (Filp.endOf e)) := by
  funext f'
  by_cases h : f' = f
  · subst h
    simp [Files.endAt]
  · simp [Files.endAt, h]

theorem endAt_setPipe (s : Files) (p : Addr) (P : Option Pipe) (e : Int) :
    (s.setPipe p P).endAt e = s.endAt e := rfl

variable {s : Files}

theorem Joined.finiteEnds (h : Joined s) (e : Int) : FiniteRefs (s.endAt e) := by
  refine h.finite.subset fun f hf hnone ↦ hf ?_
  simp [Files.endAt, hnone]

variable {e : Int} {f p : Addr}

/-- Reading an end off the table. -/
theorem endAt_eq_some :
    s.endAt e f = some p ↔ ∃ F, s.filps f = some F ∧ F.pipeEnd = e ∧ F.pipe = some p := by
  simp only [Files.endAt, Filp.endOf, Option.bind_eq_some_iff]
  refine ⟨?_, ?_⟩
  · rintro ⟨F, hF, h⟩
    split at h
    case isTrue he => exact ⟨F, hF, he, h⟩
    case isFalse => cases h
  · rintro ⟨F, hF, he, hp⟩
    exact ⟨F, hF, by rw [if_pos he, hp]⟩

/-- What an open file says about its pipe. -/
def Filp.port (F : Filp) : Option (FType × Int × Addr) :=
  F.pipe.map fun p ↦ (F.type, F.pipeEnd, p)

variable {F : Filp}

theorem port_eq_some {t : FType} :
    F.port = some (t, e, p) ↔ F.type = t ∧ F.pipeEnd = e ∧ F.pipe = some p := by
  simp only [Filp.port, Option.map_eq_some_iff, Prod.mk.injEq]
  refine ⟨?_, fun ⟨ht, he, hp⟩ ↦ ⟨p, hp, ht, he, rfl⟩⟩
  rintro ⟨q, hq, ht, he, rfl⟩
  exact ⟨ht, he, hq⟩

/-- Making or changing an open file in what does not concern its pipe. -/
theorem Joined.setFilp (h : Joined s) (hport : (s.filps f).bind Filp.port = F.port) :
    Joined (s.setFilp f (some F)) := by
  have hold : ∀ {p}, F.pipe = some p →
      ∃ G, s.filps f = some G ∧ G.type = F.type ∧ G.pipeEnd = F.pipeEnd ∧ G.pipe = some p := by
    intro p hp
    rw [port_eq_some.mpr ⟨rfl, rfl, hp⟩] at hport
    obtain ⟨G, hG, hGp⟩ := Option.bind_eq_some_iff.mp hport
    exact ⟨G, hG, port_eq_some.mp hGp⟩
  have hends : ∀ e, (s.setFilp f (some F)).endAt e = s.endAt e := by
    intro e
    rw [endAt_setFilp, update_eq_self_iff]
    refine Option.ext fun p ↦ ?_
    rw [endAt_eq_some]
    constructor
    · intro hp
      obtain ⟨he, hp⟩ : F.pipeEnd = e ∧ F.pipe = some p := by
        simpa [Filp.endOf] using hp
      obtain ⟨G, hG, -, hGe, hGp⟩ := hold hp
      exact ⟨G, hG, hGe.trans he, hGp⟩
    · rintro ⟨G, hG, he, hp⟩
      rw [hG, Option.bind_some, port_eq_some.mpr ⟨rfl, he, hp⟩, eq_comm, port_eq_some] at hport
      simp [Filp.endOf, hport]
  refine ⟨h.finite.update f _, ?_, ?_, ?_, fun hP ↦ h.open_ hP⟩
  · intro f' G p hG hp
    by_cases hf : f' = f
    · subst hf
      obtain rfl : F = G := by simpa using hG
      obtain ⟨G, hG, ht, he, hGp⟩ := hold hp
      rw [← ht, ← he]
      exact h.port hG hGp
    · exact h.port (by simpa [hf] using hG) hp
  · intro f' G p hG hp
    by_cases hf : f' = f
    · subst hf
      obtain rfl : F = G := by simpa using hG
      obtain ⟨G, hG, -, -, hGp⟩ := hold hp
      exact h.named hG hGp
    · exact h.named (by simpa [hf] using hG) hp
  · intro p P e hP he
    rw [hends]
    exact h.counts hP he

/-- Two open files become the ends of a new pipe. -/
theorem Joined.connect (h : Joined s) {rf wf : Addr} {R W : Filp} (hp : s.pipes p = none)
    (hne : rf ≠ wf) (hrf : ∀ F, s.filps rf = some F → F.pipe = none)
    (hwf : ∀ F, s.filps wf = some F → F.pipe = none)
    (hR : R.type = .pipe ∧ R.pipe = some p ∧ R.pipeEnd = 0)
    (hW : W.type = .pipe ∧ W.pipe = some p ∧ W.pipeEnd = 1) :
    Joined (((s.setPipe p (some Pipe.fresh)).setFilp rf (some R)).setFilp wf (some W)) := by
  have hfree : ∀ e f, s.endAt e f ≠ some p := by
    intro e f hf
    obtain ⟨F, hF, -, hpipe⟩ := endAt_eq_some.mp hf
    exact h.named hF hpipe hp
  have hnone : ∀ e f, (∀ F, s.filps f = some F → F.pipe = none) → s.endAt e f = none := by
    intro e f hf
    refine Option.eq_none_iff_forall_not_mem.mpr fun q hq ↦ ?_
    obtain ⟨F, hF, -, hpipe⟩ := endAt_eq_some.mp hq
    rw [hf F hF] at hpipe
    cases hpipe
  have hcount : ∀ e, refCount (s.endAt e) p = 0 := fun e ↦
    (refCount_eq_zero (h.finiteEnds e)).mpr (hfree e)
  have hends : ∀ e, IsEnd e → ∀ q, refCount
      ((((s.setPipe p (some Pipe.fresh)).setFilp rf (some R)).setFilp wf (some W)).endAt e) q =
      refCount (s.endAt e) q + if q = p then 1 else 0 := by
    intro e he q
    rw [endAt_setFilp, endAt_setFilp, endAt_setPipe]
    have hskip : ∀ f, s.endAt e f = none → update (s.endAt e) f none = s.endAt e :=
      fun f hf ↦ update_eq_self_iff.mpr hf.symm
    rcases he with rfl | rfl
    · rw [show (some W).bind (Filp.endOf 0) = none by simp [Filp.endOf, hW.2.2],
        show (some R).bind (Filp.endOf 0) = some p by simp [Filp.endOf, hR.2],
        update_comm hne, hskip wf (hnone 0 wf hwf)]
      exact refCount_fill (h.finiteEnds 0) (hnone 0 rf hrf) p q
    · rw [show (some W).bind (Filp.endOf 1) = some p by simp [Filp.endOf, hW.2],
        show (some R).bind (Filp.endOf 1) = none by simp [Filp.endOf, hR.2.2],
        hskip rf (hnone 1 rf hrf)]
      exact refCount_fill (h.finiteEnds 1) (hnone 1 wf hwf) p q
  refine ⟨(h.finite.update rf _).update wf _, ?_, ?_, ?_, ?_⟩
  · intro f F q hF hq
    by_cases hfw : f = wf
    · subst hfw
      obtain rfl : W = F := by simpa using hF
      exact ⟨hW.1, .inr hW.2.2⟩
    · by_cases hfr : f = rf
      · subst hfr
        obtain rfl : R = F := by simpa [hfw] using hF
        exact ⟨hR.1, .inl hR.2.2⟩
      · exact h.port (by simpa [hfw, hfr] using hF) hq
  · intro f F q hF hq
    by_cases hqp : q = p
    · simp [hqp]
    · have hq' : s.pipes q ≠ none := by
        refine h.named (f := f) (F := F) ?_ hq
        by_cases hfw : f = wf
        · subst hfw
          obtain rfl : W = F := by simpa using hF
          exact absurd (Option.some.inj (hq.symm.trans hW.2.1)) hqp
        · by_cases hfr : f = rf
          · subst hfr
            obtain rfl : R = F := by simpa [hfw] using hF
            exact absurd (Option.some.inj (hq.symm.trans hR.2.1)) hqp
          · simpa [hfw, hfr] using hF
      simpa [hqp] using hq'
  · intro q Q e hQ he
    rw [hends e he]
    by_cases hqp : q = p
    · subst hqp
      obtain rfl : Pipe.fresh = Q := by simpa using hQ
      rw [hcount e]
      rcases he with rfl | rfl <;> simp [Pipe.ends, Pipe.fresh]
    · rw [if_neg hqp, Nat.add_zero]
      exact h.counts (by simpa [hqp] using hQ) he
  · intro q Q hQ
    by_cases hqp : q = p
    · subst hqp
      obtain rfl : Pipe.fresh = Q := by simpa using hQ
      exact ⟨0, .inl rfl, by simp [Pipe.ends, Pipe.fresh]⟩
    · exact h.open_ (by simpa [hqp] using hQ)

/-- An end fewer. -/
def Pipe.withoutEnd (P : Pipe) (e : Int) : Pipe :=
  if e = 0 then { P with readers := P.readers - 1 } else { P with writers := P.writers - 1 }

/-- The pipe survives the loss of an end if it has another one. -/
theorem dropEnd_eq_some {P Q : Pipe} :
    P.dropEnd e = some Q ↔ P.withoutEnd e = Q ∧ ∃ d, IsEnd d ∧ (P.withoutEnd e).ends d ≠ 0 := by
  have hends : (∃ d, IsEnd d ∧ (P.withoutEnd e).ends d ≠ 0) ↔
      ¬((P.withoutEnd e).readers = 0 ∧ (P.withoutEnd e).writers = 0) := by
    constructor
    · rintro ⟨d, rfl | rfl, hd⟩ ⟨hr, hw⟩
      · exact hd (by simp [Pipe.ends, hr])
      · exact hd (by simp [Pipe.ends, hw])
    · intro h
      by_cases hr : (P.withoutEnd e).readers = 0
      · exact ⟨1, .inr rfl, fun hw ↦ h ⟨hr, by simpa [Pipe.ends] using hw⟩⟩
      · exact ⟨0, .inl rfl, by simpa [Pipe.ends] using hr⟩
  rw [hends]
  change (if (P.withoutEnd e).readers = 0 ∧ (P.withoutEnd e).writers = 0 then none
    else some (P.withoutEnd e)) = some Q ↔ _
  split <;> simp_all

theorem ends_withoutEnd (P : Pipe) {d : Int} (he : IsEnd e) (hd : IsEnd d) :
    (P.withoutEnd e).ends d = P.ends d - if d = e then 1 else 0 := by
  rcases he with rfl | rfl <;> rcases hd with rfl | rfl <;> simp [Pipe.withoutEnd, Pipe.ends]

/-- An open file goes away: its pipe, if it has one, has one end fewer. -/
theorem refCount_endAt_remove (h : Joined s) (hF : s.filps f = some F) (e : Int) (q : Addr) :
    refCount (s.endAt e) q =
      refCount ((s.setFilp f none).endAt e) q + if F.endOf e = some q then 1 else 0 := by
  rw [endAt_setFilp, Option.bind_none]
  cases hp : F.endOf e with
  | none =>
    rw [if_neg (by simp), Nat.add_zero, update_eq_self_iff.mpr]
    simp [Files.endAt, hF, hp]
  | some p =>
    rw [refCount_empty (h.finiteEnds e) (i := f) (k := p) (by simp [Files.endAt, hF, hp])]
    simp [eq_comm]

/-- The last reference to an open file is dropped. -/
theorem Joined.closeLast (h : Joined s) (hF : s.filps f = some F) :
    Joined ((closePipeEnd s F).setFilp f none) := by
  have hold : ∀ {f' G}, (s.setFilp f none).filps f' = some G → s.filps f' = some G := by
    intro f' G hG
    by_cases hf : f' = f
    · subst hf
      simp at hG
    · simpa [hf] using hG
  cases hp : F.pipe with
  | none =>
    have hclose : closePipeEnd s F = s := by
      rw [closePipeEnd, hp]
      split <;> first | rfl | (rename_i h; cases h)
    rw [hclose]
    refine ⟨h.finite.update f _, fun hG ↦ h.port (hold hG), fun hG ↦ h.named (hold hG), ?_,
      fun hP ↦ h.open_ hP⟩
    intro q Q e hQ he
    rw [h.counts hQ he, refCount_endAt_remove h hF]
    simp [Filp.endOf, hp]
  | some p =>
    obtain ⟨htype, hend⟩ := h.port hF hp
    obtain ⟨P, hP⟩ := Option.ne_none_iff_exists'.mp (h.named hF hp)
    have hclose : closePipeEnd s F = s.setPipe p (P.dropEnd F.pipeEnd) := by
      simp [closePipeEnd, htype, hp, hP]
    have hcount : ∀ {e}, IsEnd e → (P.withoutEnd F.pipeEnd).ends e =
        refCount ((s.setFilp f none).endAt e) p := by
      intro e he
      rw [ends_withoutEnd P hend he, h.counts hP he, refCount_endAt_remove h hF]
      by_cases hee : F.pipeEnd = e
      · simp [Filp.endOf, hp, hee]
      · simp [Filp.endOf, hee, Ne.symm hee]
    have hother : ∀ {q} e, q ≠ p → refCount (s.endAt e) q =
        refCount ((s.setFilp f none).endAt e) q := by
      intro q e hq
      rw [refCount_endAt_remove h hF, if_neg, Nat.add_zero]
      intro hqe
      exact hq (Option.some.inj (hqe.symm.trans (by
        rw [Filp.endOf] at hqe ⊢; split at hqe <;> simp_all)))
    have hfin : FiniteRefs (s.setFilp f none).filps := h.finite.update f _
    rw [hclose]
    refine ⟨hfin, fun hG ↦ h.port (hold hG), ?_, ?_, ?_⟩
    · intro f' G q hG hq
      by_cases hqp : q = p
      · subst hqp
        -- another open file still names the pipe, so one of its counts is not zero
        have hG' : s.filps f' = some G := hold hG
        obtain ⟨-, he⟩ := h.port hG' hq
        have hpos : ∃ d, IsEnd d ∧ (P.withoutEnd F.pipeEnd).ends d ≠ 0 := by
          refine ⟨G.pipeEnd, he, ?_⟩
          rw [hcount he]
          have : 0 < refCount ((s.setFilp f none).endAt G.pipeEnd) q := by
            refine refCount_pos (i := f') ?_ (endAt_eq_some.mpr ⟨G, hG, rfl, hq⟩)
            exact hfin.subset fun x hx hn ↦ hx (by simp only [Files.endAt, hn]; rfl)
          omega
        rw [Files.setFilp_pipes, Files.setPipe_pipes, update_self,
          dropEnd_eq_some.mpr ⟨rfl, hpos⟩]
        exact Option.some_ne_none _
      · simpa [hqp] using h.named (hold hG) hq
    · intro q Q e hQ he
      change Q.ends e = refCount ((s.setFilp f none).endAt e) q
      by_cases hqp : q = p
      · subst hqp
        obtain ⟨rfl, -⟩ := dropEnd_eq_some.mp (by simpa using hQ)
        exact hcount he
      · rw [← hother e hqp]
        exact h.counts (by simpa [hqp] using hQ) he
    · intro q Q hQ
      by_cases hqp : q = p
      · subst hqp
        obtain ⟨rfl, hpos⟩ := dropEnd_eq_some.mp (by simpa using hQ)
        exact hpos
      · exact h.open_ (by simpa [hqp] using hQ)

/-! ## Open files count their descriptors -/

/-- Every open file counts the descriptors that name it, and `leak` references more;
it has a reference as long as it lives, and lives as long as it has one. -/
structure Counted (leak : Addr → Nat) (g : Addr × Nat → Option Addr) (s : Files) : Prop where
  joined : Joined s
  finite : FiniteRefs g
  slot : ∀ {i f}, g i = some f → s.filps f ≠ none
  leaked : ∀ {f}, leak f ≠ 0 → s.filps f ≠ none
  refcount : ∀ {f F}, s.filps f = some F → F.refcount = refCount g f + leak f
  live : ∀ {f F}, s.filps f = some F → 0 < F.refcount

variable {leak : Addr → Nat} {g : Addr × Nat → Option Addr} {s : Files}

/-- An address that holds no open file has no references. -/
theorem Counted.of_free (h : Counted leak g s) (hf : s.filps f = none) :
    refCount g f = 0 ∧ leak f = 0 :=
  ⟨(refCount_eq_zero h.finite).mpr fun _ hi ↦ h.slot hi hf,
    by_contra fun hl ↦ h.leaked hl hf⟩

/-- Making or changing one open file, together with the descriptors that name it. -/
theorem Counted.setFilp (h : Counted leak g s) {g' : Addr × Nat → Option Addr}
    (hfin : FiniteRefs g') (hg : ∀ {i f'}, f' ≠ f → (g' i = some f' ↔ g i = some f'))
    (hport : (s.filps f).bind Filp.port = F.port) (hcount : F.refcount = refCount g' f + leak f)
    (hpos : 0 < F.refcount) : Counted leak g' (s.setFilp f (some F)) := by
  refine ⟨h.joined.setFilp hport, hfin, ?_, ?_, ?_, ?_⟩
  · intro i f' hi
    by_cases hf : f' = f
    · simp [hf]
    · simpa [hf] using h.slot ((hg hf).mp hi)
  · intro f' hl
    by_cases hf : f' = f
    · simp [hf]
    · simpa [hf] using h.leaked hl
  · intro f' F' hF'
    by_cases hf : f' = f
    · subst hf
      obtain rfl : F = F' := by simpa using hF'
      exact hcount
    · rw [refCount_congr fun _ ↦ hg hf]
      exact h.refcount (by simpa [hf] using hF')
  · intro f' F' hF'
    by_cases hf : f' = f
    · subst hf
      obtain rfl : F = F' := by simpa using hF'
      exact hpos
    · exact h.live (by simpa [hf] using hF')

variable {i : Addr × Nat}

/-- A descriptor that neither did name `f'` nor does is no reference to it. -/
theorem update_eq_some_iff {j : Addr × Nat} {f' : Addr} {r : Option Addr} (hr : r ≠ some f')
    (hi : g i ≠ some f') : update g i r j = some f' ↔ g j = some f' := by
  by_cases hj : j = i
  · subst hj
    simp [hr, hi]
  · rw [update_of_ne hj]

/-- A new open file, named by the descriptor `i`. -/
theorem Counted.alloc (h : Counted leak g s) (hi : g i = none) (hf : s.filps f = none)
    (hcount : F.refcount = 1) (hpipe : F.pipe = none) :
    Counted leak (update g i (some f)) (s.setFilp f (some F)) := by
  obtain ⟨hzero, hleak⟩ := h.of_free hf
  refine h.setFilp (h.finite.update _ _) ?_ (by simp [hf, Filp.port, hpipe]) ?_ (by omega)
  · intro j f' hff
    exact update_eq_some_iff (by simpa using Ne.symm hff) (by simp [hi])
  · rw [refCount_fill h.finite hi, if_pos rfl, hzero, hleak, hcount]
    rfl

/-- A further descriptor `i` for an open file. -/
theorem Counted.share (h : Counted leak g s) (hi : g i = none) (hf : s.filps f ≠ none) :
    Counted leak (update g i (some f)) (filpRef s f) := by
  obtain ⟨F, hF⟩ := Option.ne_none_iff_exists'.mp hf
  have hcount := h.refcount hF
  have hlive := h.live hF
  rw [filpRef, hF]
  refine h.setFilp (h.finite.update _ _) ?_ (by rw [hF]; rfl) ?_ ?_
  · intro j f' hff
    exact update_eq_some_iff (by simpa using Ne.symm hff) (by simp [hi])
  · rw [refCount_fill h.finite hi, if_pos rfl]
    push_cast
    omega
  · change 0 < F.refcount + 1
    omega

/-- The descriptor `i` is closed. -/
theorem Counted.drop (h : Counted leak g s) (hi : g i = some f) :
    Counted leak (update g i none) (filpClose s f) := by
  obtain ⟨F, hF⟩ := Option.ne_none_iff_exists'.mp (h.slot hi)
  have hcount := h.refcount hF
  have hempty := refCount_empty h.finite hi
  have hother : ∀ {j f'}, f' ≠ f → (update g i none j = some f' ↔ g j = some f') :=
    fun hff ↦ update_eq_some_iff (by simp) (by rw [hi]; simpa using Ne.symm hff)
  rw [filpClose, hF]
  simp only
  split
  case isTrue hmore =>
    refine h.setFilp (h.finite.update _ _) hother (by rw [hF]; rfl) ?_ hmore
    have := hempty f
    rw [if_pos rfl] at this
    change F.refcount - 1 = _
    omega
  case isFalse hlast =>
    have hzero : refCount (update g i none) f = 0 ∧ leak f = 0 := by
      have := hempty f
      rw [if_pos rfl] at this
      omega
    have hfilps : ∀ f', f' ≠ f → ((closePipeEnd s F).setFilp f none).filps f' = s.filps f' := by
      intro f' hff
      rw [Files.setFilp_filps, update_of_ne hff, closePipeEnd]
      split
      · split <;> rfl
      · rfl
    have hlost : ((closePipeEnd s F).setFilp f none).filps f = none := by simp
    refine ⟨h.joined.closeLast hF, h.finite.update _ _, ?_, ?_, ?_, ?_⟩
    · intro j f' hj
      by_cases hff : f' = f
      · subst hff
        exact absurd hj ((refCount_eq_zero (h.finite.update _ _)).mp hzero.1 j)
      · rw [hfilps f' hff]
        exact h.slot ((hother hff).mp hj)
    · intro f' hl
      by_cases hff : f' = f
      · subst hff
        exact absurd hzero.2 hl
      · rw [hfilps f' hff]
        exact h.leaked hl
    · intro f' F' hF'
      by_cases hff : f' = f
      · subst hff
        rw [hlost] at hF'
        cases hF'
      · rw [hfilps f' hff] at hF'
        rw [refCount_congr fun _ ↦ hother hff]
        exact h.refcount hF'
    · intro f' F' hF'
      by_cases hff : f' = f
      · subst hff
        rw [hlost] at hF'
        cases hF'
      · rw [hfilps f' hff] at hF'
        exact h.live hF'

/-- The counts depend on the open files only through their counters. -/
theorem Counted.congr {s' : Files} (h : Counted leak g s) (hjoined : Joined s')
    (hcounts : ∀ f, (s'.filps f).map Filp.refcount = (s.filps f).map Filp.refcount) :
    Counted leak g s' := by
  have hsome : ∀ {f F'}, s'.filps f = some F' →
      ∃ F, s.filps f = some F ∧ F.refcount = F'.refcount := by
    intro f F' hF'
    have := hcounts f
    rw [hF'] at this
    exact Option.map_eq_some_iff.mp this.symm
  have hnone : ∀ {f}, s.filps f ≠ none → s'.filps f ≠ none := by
    intro f hf hf'
    have := hcounts f
    rw [hf', Option.map_none, eq_comm, Option.map_eq_none_iff] at this
    exact hf this
  refine ⟨hjoined, h.finite, fun hi ↦ hnone (h.slot hi), fun hl ↦ hnone (h.leaked hl), ?_, ?_⟩
  · intro f F' hF'
    obtain ⟨F, hF, hcount⟩ := hsome hF'
    rw [← hcount]
    exact h.refcount hF
  · intro f F' hF'
    obtain ⟨F, hF, hcount⟩ := hsome hF'
    rw [← hcount]
    exact h.live hF

/-- The open file at `rf` becomes the read end of a new pipe, and a new open file at
`wf`, named by the descriptor `j`, its write end. -/
theorem Counted.connect (h : Counted leak g s) {j : Addr × Nat} (rf wf p : Addr) {R : Filp}
    (hj : g j = none) (hR : s.filps rf = some R) (hRp : R.pipe = none)
    (hwf : s.filps wf = none) (hp : s.pipes p = none) :
    Counted leak (update g j (some wf))
      (((s.setPipe p (some Pipe.fresh)).setFilp rf
          (some { R with type := .pipe, pipe := some p, pipeEnd := 0 })).setFilp wf
        (some { Filp.fresh with type := .pipe, pipe := some p, pipeEnd := 1 })) := by
  have hne : rf ≠ wf := by
    rintro rfl
    rw [hwf] at hR
    cases hR
  refine (h.alloc (F := Filp.fresh) hj hwf rfl rfl).congr ?_ fun f ↦ ?_
  · refine h.joined.connect hp hne ?_ ?_ ⟨rfl, rfl, rfl⟩ ⟨rfl, rfl, rfl⟩
    · intro F hF
      rw [hR] at hF
      obtain rfl := Option.some.inj hF
      exact hRp
    · intro F hF
      rw [hwf] at hF
      cases hF
  · by_cases hfw : f = wf
    · subst hfw
      simp [Filp.fresh]
    · by_cases hfr : f = rf
      · subst hfr
        simp [hfw, hR]
      · simp [hfw, hfr]

/-- The descriptor `i` goes away without being closed. -/
theorem Counted.forget (h : Counted leak g s) (hi : g i = some f) :
    Counted (update leak f (leak f + 1)) (update g i none) s := by
  refine ⟨h.joined, h.finite.update _ _, ?_, ?_, ?_, h.live⟩
  · intro j f' hj
    by_cases hji : j = i
    · subst hji
      simp at hj
    · exact h.slot (by simpa [hji] using hj)
  · intro f' hl
    by_cases hff : f' = f
    · rw [hff]
      exact h.slot hi
    · exact h.leaked (by simpa [hff] using hl)
  · intro f' F' hF'
    have hcount := h.refcount hF'
    rw [refCount_empty h.finite hi] at hcount
    by_cases hff : f' = f
    · subst hff
      simp only [if_pos, update_self] at hcount ⊢
      omega
    · simpa [hff] using hcount

end FentoOS.Kernel
