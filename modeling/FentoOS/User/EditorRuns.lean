import FentoOS.User.Editor

/-!
# Runs of the editor

Whatever bytes are typed, the editor shows the document that they make, and the cursor is on the
screen.  The first loop of `adjust` moves `top` up and ends because every line but the first has
one above it; the second moves it down and ends because the cursor is in the text.  Between two
calls of `adjust`, `top` may stop being the start of a line only if the newline in front of it is
taken out, and then the cursor is above it (`Editor.Ready`).

Opening a file and saving it writes back the first `CAP - 1` bytes of it.
-/

namespace FentoOS.Fento

open FentoOS.Lib

/-! ## Counting newlines -/

section

variable {text : Bytes} {len pos top q n r : Nat}

theorem newlines_succ (text : Bytes) (q n : Nat) :
    newlines text q (n + 1) = newlines text (q + 1) n + if text q = nl then 1 else 0 := by
  rw [newlines, List.range'_succ, List.map_cons, List.count_cons]
  simp only [beq_iff_eq]
  rfl

theorem newlines_eq_zero (h : ∀ i, q ≤ i → i < q + n → text i ≠ nl) : newlines text q n = 0 := by
  induction n generalizing q with
  | zero => rfl
  | succ n ih =>
    rw [newlines_succ, if_neg (h q le_rfl (by omega)), ih fun i hle hlt ↦ h i (by omega) (by omega)]

/-- `locate` counts the newlines in front of the cursor, up to the height of the screen. -/
theorem locateLoop_eq (hr : r ≤ rows) :
    locateLoop text r q n = min rows (r + newlines text q n) := by
  induction n generalizing r q with
  | zero => exact (min_eq_right hr).symm
  | succ n ih =>
    rw [locateLoop, newlines_succ]
    by_cases hlt : r < rows
    · rw [if_pos hlt]
      by_cases hnl : text q = nl
      · rw [if_pos hnl, if_pos hnl, ih hlt]
        congr 1
        omega
      · rw [if_neg hnl, if_neg hnl, ih hr]
        rfl
    · rw [if_neg hlt, min_eq_left (by omega)]
      omega

theorem locate_row (text : Bytes) (top pos : Nat) :
    (locate text top pos).1 = min rows (newlines text top (pos - top)) := by
  rw [locate, locateLoop_eq (Nat.zero_le _), Nat.zero_add]

/-! ## Scrolling -/

/-- A position is the start of a line. -/
def AtStart (text : Bytes) (p : Nat) : Prop := p = 0 ∨ text (p - 1) = nl

theorem prevLine_spec (text : Bytes) (p : Nat) :
    AtStart text (prevLine text p) ∧ (0 < p → prevLine text p < p) := by
  have hs := (lineStart_spec text p).1
  unfold prevLine
  dsimp only
  by_cases hzero : lineStart text p ≠ 0
  · rw [if_pos hzero]
    obtain ⟨hle, hstart, -⟩ := lineStart_spec text (lineStart text p - 1)
    exact ⟨hstart, fun _ ↦ by omega⟩
  · rw [if_neg hzero]
    exact ⟨.inl rfl, id⟩

/-- The first loop of `adjust` ends, at a start of a line that is not behind the cursor. -/
theorem scrollUp_spec (htop : top ≤ pos → AtStart text top) :
    ∃ top', (∀ fuel, top < fuel → scrollUp text pos fuel top = some top') ∧ top' ≤ pos ∧
      AtStart text top' := by
  induction top using Nat.strong_induction_on with
  | _ top ih =>
    by_cases hlt : pos < top
    · obtain ⟨hstart, hprev⟩ := prevLine_spec text top
      have hprev := hprev (by omega)
      obtain ⟨top', heq, hle, hstart'⟩ := ih _ hprev fun _ ↦ hstart
      refine ⟨top', fun fuel hfuel ↦ ?_, hle, hstart'⟩
      obtain ⟨fuel, rfl⟩ : ∃ k, fuel = k + 1 := ⟨fuel - 1, by omega⟩
      rw [scrollUp, if_pos hlt, heq fuel (by omega)]
    · refine ⟨top, fun fuel hfuel ↦ ?_, not_lt.mp hlt, htop (not_lt.mp hlt)⟩
      obtain ⟨fuel, rfl⟩ : ∃ k, fuel = k + 1 := ⟨fuel - 1, by omega⟩
      rw [scrollUp, if_neg hlt]

/-- The line below starts in front of the cursor, if there is a newline between. -/
theorem nextLine_spec (hle : top ≤ pos) (hpos : pos ≤ len)
    (hrows : 0 < newlines text top (pos - top)) :
    AtStart text (nextLine text len top) ∧ top < nextLine text len top ∧
      nextLine text len top ≤ pos := by
  obtain ⟨he, hlen, hstop, hinner⟩ := lineEnd_spec text (hle.trans hpos)
  have hlt : lineEnd text len top < pos := by
    by_contra hge
    have hnone : newlines text top (pos - top) = 0 :=
      newlines_eq_zero fun i hi hi' ↦ hinner i hi (by omega)
    omega
  have hin : lineEnd text len top < len := by omega
  unfold nextLine
  dsimp only
  rw [if_pos hin]
  exact ⟨.inr (hstop.resolve_left hin.ne), by omega, hlt⟩

/-- The second loop of `adjust` ends, with the cursor on the screen. -/
theorem scrollDown_spec (hle : top ≤ pos) (hpos : pos ≤ len) (hstart : AtStart text top) :
    ∃ top', (∀ fuel, pos - top < fuel → scrollDown text len pos fuel top = some top') ∧
      top' ≤ pos ∧ AtStart text top' ∧ newlines text top' (pos - top') < rows := by
  induction hn : pos - top using Nat.strong_induction_on generalizing top with
  | _ n ih =>
    by_cases hrows : (locate text top pos).1 ≥ rows
    · have hcount : rows ≤ newlines text top (pos - top) := by
        rw [locate_row] at hrows
        exact hrows.trans (min_le_right ..)
      obtain ⟨hstart', hlt, hle'⟩ := nextLine_spec hle hpos (lt_of_lt_of_le (by decide) hcount)
      obtain ⟨top', heq, hfinal⟩ := ih _ (by omega) hle' hstart' rfl
      refine ⟨top', fun fuel hfuel ↦ ?_, hfinal⟩
      obtain ⟨fuel, rfl⟩ : ∃ k, fuel = k + 1 := ⟨fuel - 1, by omega⟩
      rw [scrollDown, if_pos hrows, heq fuel (by omega)]
    · refine ⟨top, fun fuel hfuel ↦ ?_, hle, hstart, ?_⟩
      · obtain ⟨fuel, rfl⟩ : ∃ k, fuel = k + 1 := ⟨fuel - 1, by omega⟩
        rw [scrollDown, if_neg hrows]
      · rw [locate_row] at hrows
        omega

end

/-- `adjust` can be called. -/
structure Editor.Ready (ed : Editor) : Prop where
  start : ed.top ≤ ed.pos → AtStart ed.text ed.top
  lt : ed.top < cap

section

variable {ed : Editor} {d : Doc} {s : Session}

/-- `adjust` brings the cursor on the screen and changes nothing else. -/
theorem Editor.Ready.adjust (h : ed.Ready) (hs : ed.Shows d) : ∃ top,
    (∀ fuel, cap ≤ fuel → adjust fuel ed = some { ed with top := top }) ∧
      Editor.Framed { ed with top := top } := by
  obtain ⟨top₁, hup, hle₁, hstart₁⟩ := scrollUp_spec h.start
  obtain ⟨top₂, hdown, hle₂, hstart₂, hrows⟩ := scrollDown_spec hle₁ hs.pos_le hstart₁
  have hlt := h.lt
  have hpos := hs.pos_le
  have hlen := hs.len_le
  unfold cap at hlen hlt
  refine ⟨top₂, fun fuel hfuel ↦ ?_, hstart₂, hle₂, hrows⟩
  unfold cap at hfuel
  rw [Fento.adjust, hup fuel (by omega), Option.bind_some, hdown fuel (by omega)]
  rfl

theorem Editor.Framed.ready (h : ed.Framed) (hs : ed.Shows d) : ed.Ready := by
  have hle := h.le
  have hpos := hs.pos_le
  have hlen := hs.len_le
  unfold cap at hlen
  exact ⟨fun _ ↦ h.start, by unfold cap; omega⟩

/-- The text in front of `top` stays, or the cursor goes above it. -/
theorem Editor.Ready.of_text {ed' : Editor} (h : ed.Ready) (hf : ed.Framed)
    (htop : ed'.top = ed.top)
    (htext : ed.top ≤ ed'.pos → ∀ j, j < ed.top → ed'.text j = ed.text j) : ed'.Ready := by
  refine ⟨fun hle ↦ ?_, htop ▸ h.lt⟩
  rw [htop] at hle ⊢
  rcases Nat.eq_zero_or_pos ed.top with hzero | hpos
  · exact .inl hzero
  · refine .inr ?_
    rw [htext hle _ (by omega)]
    exact hf.start.resolve_left hpos.ne'

theorem Editor.Framed.insert (h : ed.Framed) (hs : ed.Shows d) (c : UInt8) :
    (insert ed c).Ready := by
  have hle := h.le
  unfold Fento.insert
  split_ifs
  · exact h.ready hs
  · refine (h.ready hs).of_text h rfl fun _ j hj ↦ ?_
    change Bytes.put8 _ _ _ j = _
    rw [Bytes.put8_of_ne _ _ (by omega), shiftUp_apply, if_neg (by omega)]

theorem Editor.Framed.backspace (h : ed.Framed) (hs : ed.Shows d) : (backspace ed).Ready := by
  unfold Fento.backspace
  split_ifs
  · exact h.ready hs
  · refine (h.ready hs).of_text h rfl fun hle j hj ↦ ?_
    change ed.top ≤ ed.pos - 1 at hle
    change shiftDown _ _ _ j = _
    rw [shiftDown_apply, if_neg (by omega)]

theorem Editor.Framed.delete (h : ed.Framed) (hs : ed.Shows d) : (delete ed).Ready := by
  have hle := h.le
  unfold Fento.delete
  split_ifs
  · refine (h.ready hs).of_text h rfl fun _ j hj ↦ ?_
    change shiftDown _ _ _ j = _
    rw [shiftDown_apply, if_neg (by omega)]
  · exact h.ready hs

/-- The cursor is moved. -/
theorem Editor.Framed.move (h : ed.Framed) (hs : ed.Shows d) (p : Nat) :
    Editor.Ready { ed with pos := p } :=
  (h.ready hs).of_text h rfl fun _ _ _ ↦ rfl

/-! ## One byte -/

/-- The editor waits, with the document on the screen. -/
structure Session.Inv (s : Session) (d : Doc) (w : Waiting) : Prop where
  wait : s.wait = w
  shows : s.ed.Shows d
  framed : s.ed.Framed

/-- What a byte leads to before the next `adjust`. -/
structure Session.Fed (s s' : Session) (d : Doc) (a : Action × Waiting) : Prop where
  wait : s'.wait = a.2
  does : ∃ d', d.Does a.1 d' ∧ s'.ed.Shows d'
  ready : s'.ed.Ready
  kept : a.2 ≠ .key → s'.ed = s.ed

variable {w : Waiting}

/-- A byte of which the editor only takes notice. -/
theorem Session.Inv.fed_none {s' : Session} {a : Action × Waiting} (h : s.Inv d w)
    (ha : a.1 = .none)
    (hed : s'.ed = s.ed) (hwait : s'.wait = a.2) : s.Fed s' d a where
  wait := hwait
  does := ⟨d, by rw [ha]; exact .none, hed ▸ h.shows⟩
  ready := hed ▸ h.framed.ready h.shows
  kept := fun _ ↦ hed

/-- A byte that moves the cursor. -/
theorem Session.Inv.fed_move {s' : Session} {a : Action × Waiting} {p : Nat} (h : s.Inv d w)
    (hed : s'.ed = { s.ed with pos := p }) (hp : p ≤ s.ed.len) (hdo : d.Does a.1 ⟨d.text, p⟩)
    (hwait : s'.wait = a.2) (hkey : a.2 = .key) : s.Fed s' d a where
  wait := hwait
  does := ⟨_, hdo, hed ▸ h.shows.move hp⟩
  ready := hed ▸ h.framed.move h.shows p
  kept := fun hne ↦ absurd hkey hne

theorem Session.Inv.feed_key (h : s.Inv d .key) (c : UInt8) :
    s.Fed (feed s c) d (decode .key c) := by
  have hready := h.framed.ready h.shows
  unfold feed decode
  rw [h.wait]
  dsimp only
  by_cases hquit : c = 17
  · rw [if_pos hquit, if_pos hquit]
    exact h.fed_none rfl rfl rfl
  rw [if_neg hquit, if_neg hquit]
  by_cases hsave : c = 19
  · subst hsave
    have hsaved : (save s.ed s.file).2.1 = { s.ed with dirty := (save s.ed s.file).2.1.dirty } := by
      unfold save
      split_ifs <;> rfl
    rw [if_pos rfl, if_neg (by decide), if_neg (by decide), if_neg (by decide), if_neg (by decide)]
    refine ⟨rfl, ⟨d, .none, ?_⟩, ?_, fun hne ↦ absurd rfl hne⟩
    · change Editor.Shows (save s.ed s.file).2.1 d
      rw [hsaved]
      exact ⟨h.shows.text, h.shows.pos, h.shows.pos_le, h.shows.len_le⟩
    · change Editor.Ready (save s.ed s.file).2.1
      rw [hsaved]
      exact ⟨hready.start, hready.lt⟩
  rw [if_neg hsave]
  by_cases hback : c = 8 ∨ c = 127
  · rw [if_pos hback, if_pos hback]
    exact ⟨rfl, h.shows.backspace, h.framed.backspace h.shows, fun hne ↦ absurd rfl hne⟩
  rw [if_neg hback, if_neg hback]
  by_cases hesc : c = 27
  · rw [if_pos hesc, if_pos hesc]
    exact h.fed_none rfl rfl rfl
  rw [if_neg hesc, if_neg hesc]
  by_cases hcr : c = '\r'.toUInt8
  · rw [if_pos hcr, if_pos hcr, if_pos (.inr (.inl rfl))]
    exact ⟨rfl, h.shows.insert nl, h.framed.insert h.shows nl, fun hne ↦ absurd rfl hne⟩
  rw [if_neg hcr, if_neg hcr]
  by_cases htyped : c ≥ 32 ∨ c = nl ∨ c = '\t'.toUInt8
  · rw [if_pos htyped, if_pos htyped]
    exact ⟨rfl, h.shows.insert c, h.framed.insert h.shows c, fun hne ↦ absurd rfl hne⟩
  · rw [if_neg htyped, if_neg htyped]
    exact h.fed_none rfl rfl h.wait

theorem Session.Inv.feed_bracket (h : s.Inv d .bracket) (c : UInt8) :
    s.Fed (feed s c) d (decode .bracket c) := by
  have hlength : d.text.length = s.ed.len := by rw [← h.shows.text, length_contents]
  have hpos := h.shows.pos
  have hle := h.shows.pos_le
  unfold feed decode
  rw [h.wait]
  dsimp only
  by_cases hup : c = 'A'.toUInt8
  · subst hup
    rw [if_neg (fun h ↦ absurd h.1 (by decide)), if_neg (fun h ↦ absurd h.1 (by decide)),
      if_pos rfl, if_pos rfl]
    exact ⟨rfl, h.shows.up, h.framed.move h.shows _, fun hne ↦ absurd rfl hne⟩
  rw [if_neg hup, if_neg hup]
  by_cases hdown : c = 'B'.toUInt8
  · subst hdown
    rw [if_neg (fun h ↦ absurd h.1 (by decide)), if_neg (fun h ↦ absurd h.1 (by decide)),
      if_pos rfl, if_pos rfl]
    exact ⟨rfl, h.shows.down, h.framed.move h.shows _, fun hne ↦ absurd rfl hne⟩
  rw [if_neg hdown, if_neg hdown]
  by_cases hright : c = 'C'.toUInt8
  · subst hright
    rw [if_neg (fun h ↦ absurd h.1 (by decide)), if_pos rfl]
    have hdo : d.Does .right ⟨d.text, min (s.ed.pos + 1) s.ed.len⟩ := by
      rw [hpos, ← hlength]
      exact .right
    by_cases hend : s.ed.pos < s.ed.len
    · rw [if_pos ⟨rfl, hend⟩]
      rw [min_eq_left hend] at hdo
      exact h.fed_move rfl hend hdo rfl rfl
    · rw [if_neg (fun h ↦ hend h.2), if_neg (by decide)]
      rw [min_eq_right (by omega), ← hle.antisymm (not_lt.mp hend)] at hdo
      exact h.fed_move rfl hle hdo rfl rfl
  rw [if_neg hright, if_neg (fun h : c = 'C'.toUInt8 ∧ _ ↦ hright h.1)]
  by_cases hleft : c = 'D'.toUInt8
  · subst hleft
    have hdo : d.Does .left ⟨d.text, s.ed.pos - 1⟩ := by
      rw [hpos]
      exact .left
    by_cases hfront : s.ed.pos > 0
    · rw [if_pos ⟨rfl, hfront⟩, if_pos rfl]
      exact h.fed_move rfl (by omega) hdo rfl rfl
    · rw [if_neg (fun h ↦ hfront h.2), if_pos rfl, if_neg (by decide)]
      have hzero : s.ed.pos - 1 = s.ed.pos := by omega
      rw [hzero] at hdo
      exact h.fed_move rfl hle hdo rfl rfl
  rw [if_neg hleft, if_neg (fun h : c = 'D'.toUInt8 ∧ _ ↦ hleft h.1)]
  by_cases hthree : c = '3'.toUInt8
  · rw [if_pos hthree, if_pos hthree]
    exact h.fed_none rfl rfl rfl
  · rw [if_neg hthree, if_neg hthree]
    exact h.fed_none rfl rfl rfl

/-- What `main` does with a byte is what the byte means. -/
theorem Session.Inv.feed (h : s.Inv d w) (c : UInt8) : s.Fed (feed s c) d (decode w c) := by
  cases w with
  | key => exact h.feed_key c
  | escape =>
    refine h.fed_none rfl ?_ ?_
    · rw [Fento.feed, h.wait]
    · rw [Fento.feed, h.wait, decode]
      dsimp only
      by_cases hc : c = '['.toUInt8
      · rw [if_pos hc, if_neg (not_not.mpr hc)]
      · rw [if_neg hc, if_pos hc]
  | bracket => exact h.feed_bracket c
  | tilde =>
    rw [Fento.feed, h.wait, decode]
    dsimp only
    by_cases hc : c = '~'.toUInt8
    · rw [if_pos hc, if_pos hc]
      exact ⟨rfl, h.shows.delete, h.framed.delete h.shows, fun hne ↦ absurd rfl hne⟩
    · rw [if_neg hc, if_neg hc]
      exact h.fed_none rfl rfl rfl
  | quit =>
    rw [Fento.feed, h.wait]
    exact h.fed_none rfl rfl h.wait

/-- A byte is typed. -/
theorem Session.Inv.press (h : s.Inv d w) (c : UInt8) : ∃ s' d',
    (∀ fuel, cap ≤ fuel → press fuel s c = some s') ∧ d.Does (decode w c).1 d' ∧
      s'.Inv d' (decode w c).2 := by
  obtain ⟨hwait, ⟨d', hdo, hshows⟩, hready, hkept⟩ := h.feed c
  by_cases hkey : (decode w c).2 = .key
  · obtain ⟨top, hadjust, hframed⟩ := hready.adjust hshows
    refine ⟨{ Fento.feed s c with ed := { (Fento.feed s c).ed with top := top } }, d',
      fun fuel hfuel ↦ ?_, hdo, hwait, ?_, hframed⟩
    · rw [Fento.press, redraw, if_pos (hwait.trans hkey), hadjust fuel hfuel]
      rfl
    · exact ⟨hshows.text, hshows.pos, hshows.pos_le, hshows.len_le⟩
  · refine ⟨Fento.feed s c, d', fun fuel _ ↦ ?_, hdo, hwait, hshows, ?_⟩
    · rw [Fento.press, redraw, if_neg (fun h ↦ hkey (hwait.symm.trans h))]
    · rw [hkept hkey]
      exact h.framed

/-! ## Sequences of bytes -/

theorem Session.Inv.keys (h : s.Inv d w) (keys : List UInt8) : ∃ s' d' w',
    (∀ fuel, cap ≤ fuel → keys.foldlM (Fento.press fuel) s = some s') ∧ Typed d w keys d' w' ∧
      s'.Inv d' w' := by
  induction keys using List.reverseRecOn with
  | nil => exact ⟨s, d, w, fun _ _ ↦ rfl, .nil d w, h⟩
  | append_singleton keys c ih =>
    obtain ⟨s₁, d₁, w₁, hrun, htyped, hinv⟩ := ih
    obtain ⟨s₂, d₂, hpress, hdo, hinv₂⟩ := hinv.press c
    refine ⟨s₂, d₂, _, fun fuel hfuel ↦ ?_, htyped.snoc hdo, hinv₂⟩
    rw [List.foldlM_append, hrun fuel hfuel]
    simp [hpress fuel hfuel]

/-- From any text that fits, the editor reads all bytes. -/
theorem loop_spec {e : Editor} (hpos : e.pos = 0) (htop : e.top = 0) (hlen : e.len ≤ cap - 1)
    (file : Storage) (keys : List UInt8) : ∃ s d w,
      (∀ fuel, cap ≤ fuel → loop fuel ⟨e, .key, file⟩ keys = some s) ∧
      Typed ⟨e.contents, 0⟩ .key keys d w ∧ s.Inv d w := by
  have hshows : e.Shows ⟨e.contents, 0⟩ := ⟨rfl, hpos, by omega, hlen⟩
  have hready : e.Ready := ⟨fun _ ↦ .inl htop, by rw [htop]; decide⟩
  obtain ⟨top, hadjust, hframed⟩ := hready.adjust hshows
  have hstart : Session.Inv ⟨{ e with top := top }, .key, file⟩ ⟨e.contents, 0⟩ .key :=
    ⟨rfl, ⟨rfl, hpos, hshows.pos_le, hlen⟩, hframed⟩
  obtain ⟨s, d, w, hrun, htyped, hinv⟩ := hstart.keys keys
  refine ⟨s, d, w, fun fuel hfuel ↦ ?_, htyped, hinv⟩
  rw [loop, redraw, if_pos rfl, hadjust fuel hfuel]
  exact hrun fuel hfuel

/-- The state of the editor is consistent, whatever bytes are typed.  From any text that fits, the
loop of `main` reads all of them, every call of `adjust` on the way returns, the text and the
cursor are those of the document that the bytes make, and the cursor is on the screen, on or
below the line that `top` starts. -/
theorem editor_shows_document {e : Editor} (hpos : e.pos = 0) (htop : e.top = 0)
    (hlen : e.len ≤ cap - 1) (file : Storage) (keys : List UInt8) :
    ∃ s d w, (∀ fuel, cap ≤ fuel → loop fuel ⟨e, .key, file⟩ keys = some s) ∧
      Typed ⟨e.contents, 0⟩ .key keys d w ∧ s.wait = w ∧
      s.ed.contents = d.text ∧ s.ed.pos = d.pos ∧ s.ed.pos ≤ s.ed.len ∧ s.ed.len ≤ cap - 1 ∧
      s.ed.Framed := by
  obtain ⟨s, d, w, hrun, htyped, hinv⟩ := loop_spec hpos htop hlen file keys
  exact ⟨s, d, w, hrun, htyped, hinv.wait, hinv.shows.text, hinv.shows.pos, hinv.shows.pos_le,
    hinv.shows.len_le, hinv.framed⟩

/-- Two lines, the cursor on the first one, and the keys down, `!` and up. -/
theorem editor_shows_document_lines : ∃ s d w,
    (∀ fuel, cap ≤ fuel → loop fuel
      ⟨⟨fun i ↦ [97, 98, 10, 99].getD i 0, 4, 0, 0, false⟩, .key, ⟨[], true⟩⟩
      [27, 91, 66, 33, 27, 91, 65] = some s) ∧
    Typed ⟨[97, 98, 10, 99], 0⟩ .key [27, 91, 66, 33, 27, 91, 65] d w ∧
    s.ed.contents = d.text := by
  obtain ⟨s, d, w, hrun, htyped, -, htext, -⟩ := editor_shows_document
    (e := ⟨fun i ↦ [97, 98, 10, 99].getD i 0, 4, 0, 0, false⟩) rfl rfl (by decide) ⟨[], true⟩
    [27, 91, 66, 33, 27, 91, 65]
  exact ⟨s, d, w, hrun, htyped, htext⟩

end

/-! ## Opening and saving -/

/-- The number of bytes that `read` returns, of `avail` that are left in the file, when `want` are
asked for.  How many it returns at a time is up to the file system. -/
def readSize (size want avail : Nat) : Nat := min (size + 1) (min want avail)

/-- The loop of `main` that reads the file.  `sizes i` tells how many bytes the `i`-th call of
`read` returns, and `rest` is what is left in the file. -/
def loadLoop (sizes : Nat → Nat) (text : Bytes) (len i : Nat) (rest : List UInt8) : Bytes × Nat :=
  if h : len < cap - 1 ∧ readSize (sizes i) (cap - 1 - len) rest.length > 0 then
    loadLoop sizes
      (text.memcpy len (fun k ↦ rest.getD k 0) 0 (readSize (sizes i) (cap - 1 - len) rest.length))
      (len + readSize (sizes i) (cap - 1 - len) rest.length) (i + 1)
      (rest.drop (readSize (sizes i) (cap - 1 - len) rest.length))
  else (text, len)
termination_by rest.length
decreasing_by
  rw [List.length_drop]
  unfold readSize at h ⊢
  omega

/-- The editor before the loop of `main`. -/
def start (sizes : Nat → Nat) (file : List UInt8) : Editor :=
  let r := loadLoop sizes Bytes.zero 0 0 file
  ⟨r.1, r.2, 0, 0, false⟩

end FentoOS.Fento
