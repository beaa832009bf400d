import FentoOS.Lib.Bytes

/-!
# The editor

`fento` keeps its text in an array of which the first `len` bytes count, a cursor `pos` in it, and
the start `top` of the first line on the screen.  Keys come as bytes: a key that types a
character or a control character is one byte, and the arrows and `Delete` are escape sequences, of
which the editor reads as many bytes as it needs to see whether it knows the sequence.

What it is for is said by `Doc.Does`: a document is a list of characters with a cursor, characters
are put in and taken out at the cursor, and up and down go to the line above or below, to the
same column or to its end if it is shorter.  The bytes of the array behind `len` are stale.  They
are never part of the document, but `line_start` may look at them for the `top` of a text that
has just become shorter.
-/

namespace FentoOS.Fento

open FentoOS.Lib

/-! ## The code -/

/-- `CAP`. -/
def cap : Nat := 32768

/-- `ROWS`. -/
def rows : Nat := 23

/-- `COLS`. -/
def cols : Nat := 80

def nl : UInt8 := '\n'.toUInt8

/-- The variables of the editor. -/
structure Editor where
  text : Bytes
  len : Nat
  pos : Nat
  top : Nat
  dirty : Bool

/-- `line_start`. -/
def lineStart (text : Bytes) : Nat → Nat
  | 0 => 0
  | p + 1 => if text p ≠ nl then lineStart text p else p + 1

/-- The loop of `line_end`, for the `n` bytes up to `len`. -/
def lineEndLoop (text : Bytes) : (p n : Nat) → Nat
  | p, 0 => p
  | p, n + 1 => if text p ≠ nl then lineEndLoop text (p + 1) n else p

/-- `line_end`. -/
def lineEnd (text : Bytes) (len p : Nat) : Nat := lineEndLoop text p (len - p)

/-- `prev_line`. -/
def prevLine (text : Bytes) (p : Nat) : Nat :=
  let p := lineStart text p
  if p ≠ 0 then lineStart text (p - 1) else 0

/-- `next_line`. -/
def nextLine (text : Bytes) (len p : Nat) : Nat :=
  let p := lineEnd text len p
  if p < len then p + 1 else len

/-- `column`. -/
def column (text : Bytes) (p : Nat) : Nat := p - lineStart text p

/-- The loop of `locate`, for the `n` bytes from `q` up to the position. -/
def locateLoop (text : Bytes) : (r q n : Nat) → Nat
  | r, _, 0 => r
  | r, q, n + 1 =>
    if r < rows then locateLoop text (if text q = nl then r + 1 else r) (q + 1) n else r

/-- `locate`: the row and the column of a position on the screen. -/
def locate (text : Bytes) (top p : Nat) : Nat × Nat :=
  let col := p - lineStart text p
  (locateLoop text 0 top (p - top), if col ≥ cols then cols - 1 else col)

/-- The first loop of `adjust`, for `fuel` iterations at most. -/
def scrollUp (text : Bytes) (pos : Nat) : (fuel top : Nat) → Option Nat
  | 0, _ => none
  | fuel + 1, top => if pos < top then scrollUp text pos fuel (prevLine text top) else some top

/-- The second loop of `adjust`, for `fuel` iterations at most. -/
def scrollDown (text : Bytes) (len pos : Nat) : (fuel top : Nat) → Option Nat
  | 0, _ => none
  | fuel + 1, top =>
    if (locate text top pos).1 ≥ rows then scrollDown text len pos fuel (nextLine text len top)
    else some top

/-- `adjust`, for `fuel` iterations of each loop at most. -/
def adjust (fuel : Nat) (e : Editor) : Option Editor :=
  (scrollUp e.text e.pos fuel e.top).bind fun top ↦
    (scrollDown e.text e.len e.pos fuel top).map fun top ↦ { e with top := top }

/-- `for (int i = pos + n; i > pos; i--) text[i] = text[i - 1];` -/
def shiftUp (text : Bytes) (pos : Nat) : Nat → Bytes
  | 0 => text
  | n + 1 => shiftUp (text.put8 (pos + n + 1) (text (pos + n))) pos n

/-- `for (; n > 0; i++, n--) text[i] = text[i + 1];` -/
def shiftDown (text : Bytes) : (i n : Nat) → Bytes
  | _, 0 => text
  | i, n + 1 => shiftDown (text.put8 i (text (i + 1))) (i + 1) n

/-- `insert`. -/
def insert (e : Editor) (c : UInt8) : Editor :=
  if e.len ≥ cap - 1 then e
  else
    { e with
      text := (shiftUp e.text e.pos (e.len - e.pos)).put8 e.pos c
      pos := e.pos + 1
      len := e.len + 1
      dirty := true }

/-- `backspace`. -/
def backspace (e : Editor) : Editor :=
  if e.pos = 0 then e
  else
    let pos := e.pos - 1
    { e with
      text := shiftDown e.text pos (e.len - 1 - pos)
      pos := pos
      len := e.len - 1
      dirty := true }

/-- The key `Delete`. -/
def delete (e : Editor) : Editor :=
  if e.pos < e.len then
    { e with
      text := shiftDown e.text e.pos (e.len - 1 - e.pos)
      len := e.len - 1
      dirty := true }
  else e

/-- The key up. -/
def up (e : Editor) : Editor :=
  let col := column e.text e.pos
  let p := prevLine e.text e.pos
  let q := lineEnd e.text e.len p
  { e with pos := p + (if col < q - p then col else q - p) }

/-- The key down. -/
def down (e : Editor) : Editor :=
  let col := column e.text e.pos
  let p := nextLine e.text e.len e.pos
  let q := lineEnd e.text e.len p
  { e with pos := p + (if col < q - p then col else q - p) }

/-- The bytes of the text. -/
def Editor.contents (e : Editor) : List UInt8 := (List.range e.len).map e.text

/-- The file that is edited: what is in it, and whether it can be opened for writing. -/
structure Storage where
  contents : List UInt8
  writable : Bool

/-- `save`, on a file system that writes what it is given. -/
def save (e : Editor) (file : Storage) : Int × Editor × Storage :=
  if file.writable then (0, { e with dirty := false }, { file with contents := e.contents })
  else (-1, e, file)

/-- Where `main` waits for a byte: at the head of its loop, at one of three places in an escape
sequence, or nowhere any more. -/
inductive Waiting
  | key
  | escape
  | bracket
  | tilde
  | quit
deriving DecidableEq

/-- The editor while it waits for a byte. -/
structure Session where
  ed : Editor
  wait : Waiting
  file : Storage

/-- What `main` does with a byte until it waits again or comes to the head of its loop. -/
def feed (s : Session) (c : UInt8) : Session :=
  match s.wait with
  | .key =>
    if c = 17 then { s with wait := .quit }
    else if c = 19 then
      let r := save s.ed s.file
      { s with ed := r.2.1, file := r.2.2 }
    else if c = 8 ∨ c = 127 then { s with ed := backspace s.ed }
    else if c = 27 then { s with wait := .escape }
    else
      let c := if c = '\r'.toUInt8 then nl else c
      if c ≥ 32 ∨ c = nl ∨ c = '\t'.toUInt8 then { s with ed := insert s.ed c } else s
  | .escape => { s with wait := if c ≠ '['.toUInt8 then .key else .bracket }
  | .bracket =>
    if c = 'D'.toUInt8 ∧ s.ed.pos > 0 then
      { s with ed := { s.ed with pos := s.ed.pos - 1 }, wait := .key }
    else if c = 'C'.toUInt8 ∧ s.ed.pos < s.ed.len then
      { s with ed := { s.ed with pos := s.ed.pos + 1 }, wait := .key }
    else if c = 'A'.toUInt8 then { s with ed := up s.ed, wait := .key }
    else if c = 'B'.toUInt8 then { s with ed := down s.ed, wait := .key }
    else if c = '3'.toUInt8 then { s with wait := .tilde }
    else { s with wait := .key }
  | .tilde =>
    if c = '~'.toUInt8 then { s with ed := delete s.ed, wait := .key } else { s with wait := .key }
  | .quit => s

/-- The head of the loop of `main`, where `draw` calls `adjust`. -/
def redraw (fuel : Nat) (s : Session) : Option Session :=
  if s.wait = .key then (adjust fuel s.ed).map fun e ↦ { s with ed := e } else some s

/-- One byte. -/
def press (fuel : Nat) (s : Session) (c : UInt8) : Option Session := redraw fuel (feed s c)

/-- The loop of `main`, for a sequence of bytes. -/
def loop (fuel : Nat) (s : Session) (keys : List UInt8) : Option Session :=
  (redraw fuel s).bind fun s ↦ keys.foldlM (press fuel) s

/-! ## Documents -/

/-- What is edited: characters and a cursor. -/
structure Doc where
  text : List UInt8
  pos : Nat

/-- The line from `s` up to `e`, without its newline. -/
structure IsLine (t : List UInt8) (s e : Nat) : Prop where
  le : s ≤ e
  start : s = 0 ∨ t[s - 1]? = some nl
  stop : e = t.length ∨ t[e]? = some nl
  inner : ∀ i, s ≤ i → i < e → t[i]? ≠ some nl

/-- What a key means. -/
inductive Action
  | insert (c : UInt8)
  | backspace
  | delete
  | left
  | right
  | up
  | down
  | none

/-- What an action does to a document. -/
inductive Doc.Does (d : Doc) : Action → Doc → Prop
  | insert (c : UInt8) (h : d.text.length < cap - 1) :
      Does d (.insert c) ⟨d.text.insertIdx d.pos c, d.pos + 1⟩
  | full (c : UInt8) (h : cap - 1 ≤ d.text.length) : Does d (.insert c) d
  | backspace (h : 0 < d.pos) : Does d .backspace ⟨d.text.eraseIdx (d.pos - 1), d.pos - 1⟩
  | backspace_front (h : d.pos = 0) : Does d .backspace d
  | delete (h : d.pos < d.text.length) : Does d .delete ⟨d.text.eraseIdx d.pos, d.pos⟩
  | delete_end (h : d.text.length ≤ d.pos) : Does d .delete d
  | left : Does d .left ⟨d.text, d.pos - 1⟩
  | right : Does d .right ⟨d.text, min (d.pos + 1) d.text.length⟩
  | up_first {e : Nat} (h : IsLine d.text 0 e) (hpos : d.pos ≤ e) : Does d .up d
  | up {s s' e : Nat} (h : IsLine d.text (s + 1) e) (hs : s + 1 ≤ d.pos) (hpos : d.pos ≤ e)
      (h' : IsLine d.text s' s) : Does d .up ⟨d.text, s' + min (d.pos - (s + 1)) (s - s')⟩
  | down_last {s : Nat} (h : IsLine d.text s d.text.length) (hs : s ≤ d.pos) :
      Does d .down ⟨d.text, d.text.length⟩
  | down {s e e' : Nat} (h : IsLine d.text s e) (hs : s ≤ d.pos) (hpos : d.pos ≤ e)
      (h' : IsLine d.text (e + 1) e') :
      Does d .down ⟨d.text, e + 1 + min (d.pos - s) (e' - (e + 1))⟩
  | none : Does d .none d

/-- The action that a byte completes, and what is waited for then. -/
def decode : Waiting → UInt8 → Action × Waiting
  | .key, c =>
    if c = 17 then (.none, .quit)
    else if c = 8 ∨ c = 127 then (.backspace, .key)
    else if c = 27 then (.none, .escape)
    else if c = '\r'.toUInt8 then (.insert nl, .key)
    else if c ≥ 32 ∨ c = nl ∨ c = '\t'.toUInt8 then (.insert c, .key)
    else (.none, .key)
  | .escape, c => (.none, if c = '['.toUInt8 then .bracket else .key)
  | .bracket, c =>
    if c = 'A'.toUInt8 then (.up, .key)
    else if c = 'B'.toUInt8 then (.down, .key)
    else if c = 'C'.toUInt8 then (.right, .key)
    else if c = 'D'.toUInt8 then (.left, .key)
    else if c = '3'.toUInt8 then (.none, .tilde)
    else (.none, .key)
  | .tilde, c => (if c = '~'.toUInt8 then .delete else .none, .key)
  | .quit, _ => (.none, .quit)

/-- A sequence of bytes is typed. -/
inductive Typed : Doc → Waiting → List UInt8 → Doc → Waiting → Prop
  | nil (d : Doc) (w : Waiting) : Typed d w [] d w
  | snoc {d d' d'' : Doc} {w w' : Waiting} {keys : List UInt8} {c : UInt8}
      (h : Typed d w keys d' w') (hdo : d'.Does (decode w' c).1 d'') :
      Typed d w (keys ++ [c]) d'' (decode w' c).2

/-- The editor shows a document. -/
structure Editor.Shows (e : Editor) (d : Doc) : Prop where
  text : e.contents = d.text
  pos : e.pos = d.pos
  pos_le : e.pos ≤ e.len
  len_le : e.len ≤ cap - 1

/-- The number of newlines among `n` bytes. -/
def newlines (text : Bytes) (q n : Nat) : Nat := ((List.range' q n).map text).count nl

/-- The first line on the screen is a line, and the cursor is on the screen. -/
structure Editor.Framed (e : Editor) : Prop where
  start : e.top = 0 ∨ e.text (e.top - 1) = nl
  le : e.top ≤ e.pos
  rows : newlines e.text e.top (e.pos - e.top) < 23

/-! ## Lines -/

section

variable {text : Bytes} {len p e : Nat}

theorem lineStart_spec (text : Bytes) (p : Nat) : lineStart text p ≤ p ∧
    (lineStart text p = 0 ∨ text (lineStart text p - 1) = nl) ∧
    ∀ i, lineStart text p ≤ i → i < p → text i ≠ nl := by
  induction p with
  | zero => exact ⟨le_rfl, .inl rfl, fun i _ hi ↦ absurd hi (Nat.not_lt_zero i)⟩
  | succ p ih =>
    by_cases hp : text p ≠ nl
    · rw [lineStart, if_pos hp]
      refine ⟨ih.1.trans (Nat.le_succ p), ih.2.1, fun i hle hlt ↦ ?_⟩
      rcases Nat.lt_succ_iff_lt_or_eq.mp hlt with hlt | rfl
      · exact ih.2.2 i hle hlt
      · exact hp
    · rw [lineStart, if_neg hp]
      exact ⟨le_rfl, .inr (not_not.mp hp), fun i hle hlt ↦ absurd hlt (not_lt.mpr hle)⟩

theorem lineEndLoop_spec (text : Bytes) (p n : Nat) : p ≤ lineEndLoop text p n ∧
    lineEndLoop text p n ≤ p + n ∧
    (lineEndLoop text p n = p + n ∨ text (lineEndLoop text p n) = nl) ∧
    ∀ i, p ≤ i → i < lineEndLoop text p n → text i ≠ nl := by
  induction n generalizing p with
  | zero => exact ⟨le_rfl, le_rfl, .inl rfl, fun i hle hlt ↦ absurd hlt (not_lt.mpr hle)⟩
  | succ n ih =>
    obtain ⟨hle, hle', hstop, hinner⟩ := ih (p + 1)
    by_cases hp : text p ≠ nl
    · rw [lineEndLoop, if_pos hp]
      refine ⟨by omega, by omega, ?_, fun i hi hlt ↦ ?_⟩
      · rcases hstop with heq | hnl
        · exact .inl (by omega)
        · exact .inr hnl
      · rcases Nat.eq_or_lt_of_le hi with rfl | hi
        · exact hp
        · exact hinner i hi hlt
    · rw [lineEndLoop, if_neg hp]
      exact ⟨le_rfl, by omega, .inr (not_not.mp hp), fun i hle hlt ↦ absurd hlt (not_lt.mpr hle)⟩

theorem lineEnd_spec (text : Bytes) (hp : p ≤ len) : p ≤ lineEnd text len p ∧
    lineEnd text len p ≤ len ∧ (lineEnd text len p = len ∨ text (lineEnd text len p) = nl) ∧
    ∀ i, p ≤ i → i < lineEnd text len p → text i ≠ nl := by
  have hspec := lineEndLoop_spec text p (len - p)
  rwa [Nat.add_sub_cancel' hp] at hspec

/-- The end of a line is determined by the newlines. -/
theorem lineEnd_eq (hle : p ≤ e) (he : e ≤ len) (hstop : e = len ∨ text e = nl)
    (hinner : ∀ i, p ≤ i → i < e → text i ≠ nl) : lineEnd text len p = e := by
  obtain ⟨hle', he', hstop', hinner'⟩ := lineEnd_spec text (hle.trans he)
  rcases lt_trichotomy (lineEnd text len p) e with hlt | heq | hlt
  · rcases hstop' with hlen | hnl
    · omega
    · exact absurd hnl (hinner _ hle' hlt)
  · exact heq
  · rcases hstop with hlen | hnl
    · omega
    · exact absurd hnl (hinner' e hle hlt)

end

/-! ## The text -/

section

variable {ed : Editor} {d : Doc}

theorem getElem?_contents (ed : Editor) (i : Nat) :
    ed.contents[i]? = if i < ed.len then some (ed.text i) else none := by
  unfold Editor.contents
  rw [List.getElem?_map]
  by_cases hi : i < ed.len
  · rw [if_pos hi, List.getElem?_range hi]
    rfl
  · rw [if_neg hi, List.getElem?_eq_none (by simpa using hi)]
    rfl

theorem length_contents (ed : Editor) : ed.contents.length = ed.len := by
  simp [Editor.contents]

theorem contents_nl {i : Nat} : ed.contents[i]? = some nl ↔ i < ed.len ∧ ed.text i = nl := by
  rw [getElem?_contents]
  by_cases hi : i < ed.len
  · rw [if_pos hi]
    exact ⟨fun h ↦ ⟨hi, Option.some.inj h⟩, fun h ↦ congrArg some h.2⟩
  · rw [if_neg hi]
    exact ⟨fun h ↦ (by cases h), fun h ↦ absurd h.1 hi⟩

/-- The line of a text, from the newlines in the array. -/
theorem isLine_contents (ed : Editor) {s e : Nat} (hle : s ≤ e) (he : e ≤ ed.len)
    (hstart : s = 0 ∨ ed.text (s - 1) = nl) (hstop : e = ed.len ∨ ed.text e = nl)
    (hinner : ∀ i, s ≤ i → i < e → ed.text i ≠ nl) : IsLine ed.contents s e where
  le := hle
  start := by
    by_cases hs : s = 0
    · exact .inl hs
    · exact .inr (contents_nl.mpr ⟨by omega, hstart.resolve_left hs⟩)
  stop := by
    rw [length_contents]
    by_cases hlen : e = ed.len
    · exact .inl hlen
    · exact .inr (contents_nl.mpr ⟨by omega, hstop.resolve_left hlen⟩)
  inner := fun i hi hlt hnl ↦ hinner i hi hlt (contents_nl.mp hnl).2

/-- The line of a position. -/
theorem isLine_at (ed : Editor) {p : Nat} (hp : p ≤ ed.len) :
    IsLine ed.contents (lineStart ed.text p) (lineEnd ed.text ed.len p) := by
  obtain ⟨hs, hstart, hin⟩ := lineStart_spec ed.text p
  obtain ⟨he, hlen, hstop, hin'⟩ := lineEnd_spec ed.text hp
  refine isLine_contents ed (hs.trans he) hlen hstart hstop fun i hi hlt ↦ ?_
  by_cases hip : i < p
  · exact hin i hi hip
  · exact hin' i (not_lt.mp hip) hlt

theorem shiftUp_apply (text : Bytes) (pos n j : Nat) :
    shiftUp text pos n j = if pos < j ∧ j ≤ pos + n then text (j - 1) else text j := by
  induction n generalizing text with
  | zero => rw [shiftUp, if_neg (by omega)]
  | succ n ih =>
    rw [shiftUp, ih]
    by_cases hin : pos < j ∧ j ≤ pos + n
    · rw [if_pos hin, if_pos (by omega), Bytes.put8_of_ne _ _ (by omega)]
    · rw [if_neg hin]
      by_cases hj : j = pos + n + 1
      · rw [hj, Bytes.put8_same, if_pos (by omega)]
        rfl
      · rw [Bytes.put8_of_ne _ _ hj, if_neg (by omega)]

theorem shiftDown_apply (text : Bytes) (i n j : Nat) :
    shiftDown text i n j = if i ≤ j ∧ j < i + n then text (j + 1) else text j := by
  induction n generalizing text i with
  | zero => rw [shiftDown, if_neg (by omega)]
  | succ n ih =>
    rw [shiftDown, ih]
    by_cases hin : i + 1 ≤ j ∧ j < i + 1 + n
    · rw [if_pos hin, if_pos (by omega), Bytes.put8_of_ne _ _ (by omega)]
    · rw [if_neg hin]
      by_cases hj : j = i
      · rw [hj, Bytes.put8_same, if_pos (by omega)]
      · rw [Bytes.put8_of_ne _ _ hj, if_neg (by omega)]

/-- A character is put in. -/
theorem contents_insert {pos : Nat} {c : UInt8} {ed' : Editor} (hpos : pos ≤ ed.len)
    (hlen : ed'.len = ed.len + 1)
    (htext : ed'.text = (shiftUp ed.text pos (ed.len - pos)).put8 pos c) :
    ed'.contents = ed.contents.insertIdx pos c := by
  refine List.ext_getElem? fun j ↦ ?_
  rw [List.getElem?_insertIdx, length_contents, getElem?_contents, getElem?_contents,
    getElem?_contents, hlen, htext]
  rcases lt_trichotomy j pos with hlt | rfl | hgt
  · have hnew : j < ed.len + 1 := by omega
    have hold : j < ed.len := by omega
    rw [if_pos hnew, if_pos hlt, if_pos hold, Bytes.put8_of_ne _ _ hlt.ne, shiftUp_apply,
      if_neg (by omega)]
  · have hnew : j < ed.len + 1 := by omega
    rw [if_pos hnew, if_neg (lt_irrefl j), if_pos rfl, if_pos hpos, Bytes.put8_same]
  · rw [if_neg (not_lt.mpr hgt.le), if_neg hgt.ne', Bytes.put8_of_ne _ _ hgt.ne', shiftUp_apply]
    by_cases hj : j < ed.len + 1
    · have hshift : pos < j ∧ j ≤ pos + (ed.len - pos) := by omega
      have hold : j - 1 < ed.len := by omega
      rw [if_pos hj, if_pos hshift, if_pos hold]
    · have hold : ¬j - 1 < ed.len := by omega
      rw [if_neg hj, if_neg hold]

/-- A character is taken out. -/
theorem contents_erase {pos : Nat} {ed' : Editor} (hpos : pos < ed.len)
    (hlen : ed'.len = ed.len - 1) (htext : ed'.text = shiftDown ed.text pos (ed.len - 1 - pos)) :
    ed'.contents = ed.contents.eraseIdx pos := by
  refine List.ext_getElem? fun j ↦ ?_
  rw [List.getElem?_eraseIdx, getElem?_contents, getElem?_contents, getElem?_contents, hlen, htext,
    shiftDown_apply]
  by_cases hlt : j < pos
  · have hshift : ¬(pos ≤ j ∧ j < pos + (ed.len - 1 - pos)) := by omega
    have hnew : j < ed.len - 1 := by omega
    have hold : j < ed.len := by omega
    rw [if_pos hlt, if_neg hshift, if_pos hnew, if_pos hold]
  · rw [if_neg hlt]
    by_cases hj : j < ed.len - 1
    · have hshift : pos ≤ j ∧ j < pos + (ed.len - 1 - pos) := by omega
      have hold : j + 1 < ed.len := by omega
      rw [if_pos hj, if_pos hshift, if_pos hold]
    · have hold : ¬j + 1 < ed.len := by omega
      rw [if_neg hj, if_neg hold]

/-! ## Keys -/

theorem min_eq_ite (a b : Nat) : (if a < b then a else b) = min a b := by
  rw [Nat.min_def]
  split_ifs <;> omega

theorem Editor.Shows.insert (h : ed.Shows d) (c : UInt8) :
    ∃ d', d.Does (.insert c) d' ∧ (insert ed c).Shows d' := by
  obtain ⟨htext, hpos, hle, hlen⟩ := h
  have hlength : d.text.length = ed.len := by rw [← htext, length_contents]
  unfold Fento.insert
  by_cases hfull : ed.len ≥ cap - 1
  · rw [if_pos hfull]
    exact ⟨d, .full c (by omega), htext, hpos, hle, hlen⟩
  · rw [if_neg hfull]
    refine ⟨_, .insert c (by omega), ?_, congrArg (· + 1) hpos, Nat.succ_le_succ hle, by
      change ed.len + 1 ≤ _; omega⟩
    rw [← htext, ← hpos]
    exact contents_insert hle rfl rfl

theorem Editor.Shows.backspace (h : ed.Shows d) :
    ∃ d', d.Does .backspace d' ∧ (backspace ed).Shows d' := by
  obtain ⟨htext, hpos, hle, hlen⟩ := h
  unfold Fento.backspace
  by_cases hzero : ed.pos = 0
  · rw [if_pos hzero]
    exact ⟨d, .backspace_front (by omega), htext, hpos, hle, hlen⟩
  · rw [if_neg hzero]
    refine ⟨_, .backspace (by omega), ?_, congrArg (· - 1) hpos, ?_, ?_⟩
    · rw [← htext, ← hpos]
      exact contents_erase (by omega) rfl rfl
    · change ed.pos - 1 ≤ ed.len - 1
      omega
    · change ed.len - 1 ≤ cap - 1
      omega

theorem Editor.Shows.delete (h : ed.Shows d) :
    ∃ d', d.Does .delete d' ∧ (delete ed).Shows d' := by
  obtain ⟨htext, hpos, hle, hlen⟩ := h
  have hlength : d.text.length = ed.len := by rw [← htext, length_contents]
  unfold Fento.delete
  by_cases hend : ed.pos < ed.len
  · rw [if_pos hend]
    refine ⟨_, .delete (by omega), ?_, hpos, ?_, ?_⟩
    · rw [← htext, ← hpos]
      exact contents_erase hend rfl rfl
    · change ed.pos ≤ ed.len - 1
      omega
    · change ed.len - 1 ≤ cap - 1
      omega
  · rw [if_neg hend]
    exact ⟨d, .delete_end (by omega), htext, hpos, hle, hlen⟩

/-- The cursor is moved. -/
theorem Editor.Shows.move (h : ed.Shows d) {p : Nat} (hp : p ≤ ed.len) :
    Editor.Shows { ed with pos := p } ⟨d.text, p⟩ := ⟨h.text, rfl, hp, h.len_le⟩

theorem Editor.Shows.up (h : ed.Shows d) : ∃ d', d.Does .up d' ∧ (up ed).Shows d' := by
  have hline := isLine_at ed h.pos_le
  obtain ⟨hs, hstart, hin⟩ := lineStart_spec ed.text ed.pos
  obtain ⟨he, hlen, -⟩ := lineEnd_spec ed.text h.pos_le
  rw [h.text] at hline
  unfold Fento.up prevLine column
  dsimp only
  rw [min_eq_ite]
  rcases Nat.eq_zero_or_pos (lineStart ed.text ed.pos) with hzero | hpos
  · -- the first line reaches the cursor
    obtain ⟨-, hq, hstop, -⟩ := lineEnd_spec ed.text (Nat.zero_le ed.len)
    have hreach : ed.pos ≤ lineEnd ed.text ed.len 0 := by
      by_contra hlt
      rcases hstop with heq | hnl
      · have := h.pos_le
        omega
      · exact hin _ (by omega) (by omega) hnl
    rw [hzero] at hline ⊢
    rw [if_neg (not_not.mpr rfl), Nat.sub_zero, Nat.sub_zero, Nat.zero_add, min_eq_left hreach]
    exact ⟨d, .up_first hline (h.pos ▸ he), h⟩
  · obtain ⟨s, hs'⟩ : ∃ s, lineStart ed.text ed.pos = s + 1 := ⟨_, (Nat.succ_pred hpos.ne').symm⟩
    have hnl : ed.text s = nl := by
      have := hstart.resolve_left hpos.ne'
      rwa [hs', Nat.add_sub_cancel] at this
    obtain ⟨hle', hstart', hin'⟩ := lineStart_spec ed.text s
    have hend : lineEnd ed.text ed.len (lineStart ed.text s) = s :=
      lineEnd_eq hle' (by omega) (.inr hnl) hin'
    have hprev := isLine_contents ed hle' (by omega) hstart' (.inr hnl) hin'
    rw [h.text] at hprev
    rw [hs'] at hline ⊢
    rw [if_pos (Nat.succ_ne_zero s), Nat.add_sub_cancel, hend]
    refine ⟨_, .up hline (h.pos ▸ hs' ▸ hs) (h.pos ▸ he) hprev, ?_⟩
    rw [← h.pos]
    refine h.move ?_
    omega

theorem Editor.Shows.down (h : ed.Shows d) : ∃ d', d.Does .down d' ∧ (down ed).Shows d' := by
  have hline := isLine_at ed h.pos_le
  obtain ⟨hs, -⟩ := lineStart_spec ed.text ed.pos
  obtain ⟨he, hlen, hstop, -⟩ := lineEnd_spec ed.text h.pos_le
  have hlength : d.text.length = ed.len := by rw [← h.text, length_contents]
  rw [h.text] at hline
  unfold Fento.down nextLine column
  dsimp only
  rw [min_eq_ite]
  by_cases hlast : lineEnd ed.text ed.len ed.pos < ed.len
  · have hnl := hstop.resolve_left hlast.ne
    have hp : lineEnd ed.text ed.len ed.pos + 1 ≤ ed.len := hlast
    obtain ⟨hle', hq, hstop', hin'⟩ := lineEnd_spec ed.text hp
    have hnext := isLine_contents ed hle' hq (.inr hnl) hstop' hin'
    rw [h.text] at hnext
    rw [if_pos hlast]
    refine ⟨_, .down hline (h.pos ▸ hs) (h.pos ▸ he) hnext, ?_⟩
    rw [← h.pos]
    refine h.move ?_
    omega
  · have heq : lineEnd ed.text ed.len ed.pos = d.text.length := by omega
    rw [heq] at hline
    obtain ⟨-, hq, -⟩ := lineEnd_spec ed.text (le_refl ed.len)
    have hempty : lineEnd ed.text ed.len ed.len - ed.len = 0 := by omega
    rw [if_neg hlast, hempty, Nat.min_zero, Nat.add_zero]
    refine ⟨_, .down_last hline (h.pos ▸ hs), ?_⟩
    rw [hlength]
    exact h.move le_rfl

end

end FentoOS.Fento
