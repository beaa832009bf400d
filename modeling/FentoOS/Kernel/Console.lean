import FentoOS.Lib.Decimal

/-!
# The console

`console_putc` takes the bytes that user programs write to the terminal.  It is
an automaton: text goes to the cursor, and an escape sequence collects two
numbers and ends with the letter of a command.  The numbers wrap, and the
cursor's row and column are bytes, so a position is cut to eight bits before it
is compared with the size of the screen.

The screen is memory of the display adapter.  The code keeps no account of the
cells it reads and writes; the model does, in `touched`, so that `Inside` can say
of a state that no step up to it has been off the screen.
-/

namespace FentoOS.Kernel

open FentoOS.Lib

def vgaCols : Nat := 80

def vgaRows : Nat := 25

/-- The values of `esc_state`: in the text (0), behind an escape (1), and in the numbers of an
escape sequence (2). -/
inductive EscState
  | text
  | escape
  | numbers
  deriving DecidableEq, Repr

/-- The variables of the console, the screen, the ports of the display adapter and the serial
line, and the cells accessed so far. -/
structure Console where
  vga : Nat → UInt16
  touched : List Nat
  curRow : UInt8
  curCol : UInt8
  color : UInt8
  escState : EscState
  escA : Int32
  escB : Int32
  escSecond : Bool
  /-- The bytes written to ports, the last one first. -/
  ports : List (UInt16 × UInt8)

namespace Console

/-- Before `console_init`: the variables are zero except for the color, and the screen holds
anything. -/
def atBoot (vga : Nat → UInt16) : Console where
  vga := vga
  touched := []
  curRow := 0
  curCol := 0
  color := 0x07
  escState := .text
  escA := 0
  escB := 0
  escSecond := false
  ports := []

/-! ## The screen -/

/-- `vga[i] = x`. -/
def setCell (s : Console) (i : Nat) (x : UInt16) : Console :=
  { s with vga := Function.update s.vga i x, touched := i :: s.touched }

/-- `vga[i] = vga[j]`. -/
def copyCell (s : Console) (i j : Nat) : Console :=
  { s with touched := j :: s.touched }.setCell i (s.vga j)

/-- A character in the current color. -/
def glyph (s : Console) (c : UInt8) : UInt16 := (s.color.toUInt16 <<< 8) ||| c.toUInt16

def blank (s : Console) : UInt16 := s.glyph ' '.toUInt8

/-- The index of a cell of the cursor's row. -/
def inRow (s : Console) (col : Nat) : Nat := s.curRow.toNat * vgaCols + col

def outb (s : Console) (port : UInt16) (x : UInt8) : Console :=
  { s with ports := (port, x) :: s.ports }

/-- `serial_putc`, once the line is ready. -/
def serialPutc (s : Console) (c : UInt8) : Console := s.outb 0x3F8 c

def updateCursor (s : Console) : Console :=
  let pos := s.inRow s.curCol.toNat
  (((s.outb 0x3D4 0x0F).outb 0x3D5 pos.toUInt8).outb 0x3D4 0x0E).outb 0x3D5 (pos >>> 8).toUInt8

/-- The cells given are cleared, in this order. -/
def blankCells (s : Console) (l : List Nat) : Console :=
  l.foldl (fun s i ↦ s.setCell i s.blank) s

/-- Every row is copied to the one above. -/
def moveUp (s : Console) : Console :=
  (List.range' 1 (vgaRows - 1)).foldl (fun s r ↦
    (List.range vgaCols).foldl (fun s c ↦
      s.copyCell ((r - 1) * vgaCols + c) (r * vgaCols + c)) s) s

def scroll (s : Console) : Console :=
  if s.curRow.toNat < vgaRows then s
  else
    { s.moveUp.blankCells ((List.range vgaCols).map ((vgaRows - 1) * vgaCols + ·)) with
      curRow := (vgaRows - 1).toUInt8 }

def consoleClear (s : Console) : Console :=
  { s.blankCells (List.range (vgaCols * vgaRows)) with curRow := 0, curCol := 0 }.updateCursor

def consoleInit (s : Console) : Console := { s with color := 0x07 }.consoleClear

/-! ## The automaton -/

/-- A number of an escape sequence, counted from one, as a row or a column, before it is compared
with the size of the screen. -/
def position (n : Int32) : UInt8 := if 0 < n then (n - 1).toUInt32.toUInt8 else 0

/-- A row or a column of a screen with `n` of them. -/
def clamp (x : UInt8) (n : Nat) : UInt8 := if n ≤ x.toNat then (n - 1).toUInt8 else x

/-- The letter that ends an escape sequence. -/
def escCommand (s : Console) (c : UInt8) : Console :=
  if c = 'H'.toUInt8 ∨ c = 'f'.toUInt8 then
    { s with
      curRow := clamp (position s.escA) vgaRows
      curCol := clamp (position s.escB) vgaCols }
  else if c = 'J'.toUInt8 ∧ s.escA = 2 then s.consoleClear
  else if c = 'K'.toUInt8 then
    s.blankCells ((List.range' s.curCol.toNat (vgaCols - s.curCol.toNat)).map s.inRow)
  else if c = 'm'.toUInt8 then { s with color := if s.escA = 7 then 0x70 else 0x07 }
  else s

/-- A byte inside an escape sequence. -/
def escByte (s : Console) (c : UInt8) : Console :=
  if c = '?'.toUInt8 then s
  else if isDigit c then
    if s.escSecond then { s with escB := pushDigit s.escB c }
    else { s with escA := pushDigit s.escA c }
  else if c = ';'.toUInt8 then { s with escSecond := true }
  else { s.escCommand c with escState := .text }.updateCursor

/-- A byte of text, before the end of the line and of the screen are looked at. -/
def textByte (s : Console) (c : UInt8) : Console :=
  if c = '\n'.toUInt8 then { s with curCol := 0, curRow := s.curRow + 1 }
  else if c = '\r'.toUInt8 then { s with curCol := 0 }
  else if c = '\t'.toUInt8 then { s with curCol := (s.curCol + 8) &&& ~~~7 }
  else if c = 8 then
    if 0 < s.curCol then
      let s := { s with curCol := s.curCol - 1 }
      s.setCell (s.inRow s.curCol.toNat) s.blank
    else s
  else
    let s := s.setCell (s.inRow s.curCol.toNat) (s.glyph c)
    { s with curCol := s.curCol + 1 }

/-- The end of the line. -/
def wrapLine (s : Console) : Console :=
  if vgaCols ≤ s.curCol.toNat then { s with curCol := 0, curRow := s.curRow + 1 } else s

def consolePutc (s : Console) (c : UInt8) : Console :=
  let s := s.serialPutc c
  match s.escState with
  | .text =>
    if c = 27 then { s with escState := .escape, escA := 0, escB := 0, escSecond := false }
    else (s.textByte c).wrapLine.scroll.updateCursor
  | .escape =>
    if c = '['.toUInt8 then { s with escState := .numbers }
    else ({ s with escState := .text }.textByte c).wrapLine.scroll.updateCursor
  | .numbers => s.escByte c

/-! ## The accesses stay on the screen -/

/-- No cell off the screen has been read or written. -/
def OnScreen (s : Console) : Prop := ∀ i ∈ s.touched, i < vgaCols * vgaRows

/-- What holds between two bytes. -/
structure Inside (s : Console) : Prop where
  row : s.curRow.toNat < vgaRows
  col : s.curCol.toNat < vgaCols
  onScreen : s.OnScreen

variable {s s' : Console}

/-- The cursor and the cells accessed are all that `Inside` is about. -/
theorem Inside.congr (h : s.Inside) (hrow : s'.curRow = s.curRow) (hcol : s'.curCol = s.curCol)
    (htouched : s'.touched = s.touched) : s'.Inside where
  row := hrow ▸ h.row
  col := hcol ▸ h.col
  onScreen := by
    intro i hi
    exact h.onScreen i (htouched ▸ hi)

theorem Inside.updateCursor (h : s.Inside) : s.updateCursor.Inside :=
  h.congr rfl rfl rfl

theorem OnScreen.inside_of_cursor (h : s.OnScreen) {row col : UInt8} (hrow : row.toNat < vgaRows)
    (hcol : col.toNat < vgaCols) : Inside { s with curRow := row, curCol := col } :=
  ⟨hrow, hcol, h⟩

variable {i : Nat}

theorem OnScreen.setCell (h : s.OnScreen) (hi : i < vgaCols * vgaRows) (x : UInt16) :
    (s.setCell i x).OnScreen := by
  intro j hj
  rcases List.mem_cons.mp hj with rfl | hj
  · exact hi
  · exact h j hj

theorem OnScreen.copyCell (h : s.OnScreen) {j : Nat} (hi : i < vgaCols * vgaRows)
    (hj : j < vgaCols * vgaRows) : (s.copyCell i j).OnScreen := by
  have hread : OnScreen { s with touched := j :: s.touched } := by
    intro k hk
    rcases List.mem_cons.mp hk with rfl | hk
    · exact hj
    · exact h k hk
  exact hread.setCell hi _

/-- A cell of a row on the screen is on the screen. -/
theorem cell_lt {row col : Nat} (hrow : row < vgaRows) (hcol : col < vgaCols) :
    row * vgaCols + col < vgaCols * vgaRows := by
  unfold vgaRows vgaCols at *
  omega

/-- The loops below write cells and leave the cursor and the sequence alone. -/
structure Draws (s s' : Console) : Prop where
  row : s'.curRow = s.curRow
  col : s'.curCol = s.curCol
  onScreen : s.OnScreen → s'.OnScreen

theorem Draws.refl (s : Console) : Draws s s := ⟨rfl, rfl, id⟩

theorem Draws.trans {s'' : Console} (h : Draws s s') (h' : Draws s' s'') : Draws s s'' :=
  ⟨h'.row.trans h.row, h'.col.trans h.col, fun hs ↦ h'.onScreen (h.onScreen hs)⟩

theorem Draws.setCell (s : Console) (hi : i < vgaCols * vgaRows) (x : UInt16) :
    Draws s (s.setCell i x) :=
  ⟨rfl, rfl, fun h ↦ h.setCell hi x⟩

/-- A loop draws if its body does. -/
theorem Draws.foldl (s : Console) (l : List Nat) (f : Console → Nat → Console)
    (h : ∀ s', Draws s s' → ∀ i ∈ l, Draws s' (f s' i)) : Draws s (l.foldl f s) :=
  List.foldlRecOn l f (Draws.refl s) fun s' hs' i hi ↦ hs'.trans (h s' hs' i hi)

theorem Draws.inside (h : Draws s s') (hs : s.Inside) : s'.Inside :=
  ⟨h.row ▸ hs.row, h.col ▸ hs.col, h.onScreen hs.onScreen⟩

theorem Draws.blankCells (s : Console) {l : List Nat} (hl : ∀ i ∈ l, i < vgaCols * vgaRows) :
    Draws s (s.blankCells l) :=
  Draws.foldl s l _ fun s' _ i hi ↦ Draws.setCell s' (hl i hi) _

theorem Draws.moveUp (s : Console) : Draws s s.moveUp := by
  refine Draws.foldl _ _ _ fun s' _ r hr ↦ Draws.foldl _ _ _ fun s'' _ c hc ↦ ?_
  have hr' : r < vgaRows := (List.mem_range'_1.mp hr).2
  have hc' := List.mem_range.mp hc
  exact ⟨rfl, rfl, fun h ↦ h.copyCell (cell_lt (by omega) hc') (cell_lt hr' hc')⟩

/-- `scroll` brings a cursor back that is below the last row. -/
theorem inside_scroll (hcol : s.curCol.toNat < vgaCols) (h : s.OnScreen) : s.scroll.Inside := by
  unfold scroll
  split
  case isTrue hrow => exact ⟨hrow, hcol, h⟩
  case isFalse =>
    have hlast : ∀ i ∈ (List.range vgaCols).map ((vgaRows - 1) * vgaCols + ·),
        i < vgaCols * vgaRows := by
      intro i hi
      obtain ⟨c, hc, rfl⟩ := List.mem_map.mp hi
      exact cell_lt (by decide) (List.mem_range.mp hc)
    have hdraws := (Draws.moveUp s).trans (Draws.blankCells s.moveUp hlast)
    exact OnScreen.inside_of_cursor (hdraws.onScreen h) (by decide)
      ((congrArg UInt8.toNat hdraws.col).trans_lt hcol)

theorem OnScreen.consoleClear (h : s.OnScreen) : s.consoleClear.Inside := by
  have hdraws := Draws.blankCells s (l := List.range (vgaCols * vgaRows))
    fun _ hi ↦ List.mem_range.mp hi
  exact (OnScreen.inside_of_cursor (hdraws.onScreen h) (by decide) (by decide)).updateCursor

/-! ## One byte -/

theorem clamp_lt (x : UInt8) {n : Nat} (hpos : 0 < n) (hn : n ≤ 256) : (clamp x n).toNat < n := by
  unfold clamp
  split
  · have hmod : (n - 1).toUInt8.toNat = (n - 1) % 2 ^ 8 := UInt8.toNat_ofNat'
    rw [hmod, Nat.mod_eq_of_lt (by omega)]
    exact Nat.sub_lt hpos Nat.one_pos
  case isFalse h => exact Nat.lt_of_not_le h

/-- The command of an escape sequence.  A position is cut to eight bits first, and then compared
with the size of the screen, so whatever is left of it is inside. -/
theorem Inside.escCommand (h : s.Inside) (c : UInt8) : (s.escCommand c).Inside := by
  unfold Console.escCommand
  split
  · exact ⟨clamp_lt _ (by decide) (by decide), clamp_lt _ (by decide) (by decide), h.onScreen⟩
  split
  · exact h.onScreen.consoleClear
  split
  · refine Draws.inside (Draws.blankCells s fun i hi ↦ ?_) h
    obtain ⟨x, hx, rfl⟩ := List.mem_map.mp hi
    have hend := (List.mem_range'_1.mp hx).2
    rw [Nat.add_sub_cancel' h.col.le] at hend
    exact cell_lt h.row hend
  split
  · exact h.congr rfl rfl rfl
  · exact h

theorem Inside.escByte (h : s.Inside) (c : UInt8) : (s.escByte c).Inside := by
  unfold Console.escByte
  split
  · exact h
  split
  · split <;> exact h.congr rfl rfl rfl
  split
  · exact h.congr rfl rfl rfl
  · have hcommand := h.escCommand c
    exact Inside.updateCursor ⟨hcommand.row, hcommand.col, hcommand.onScreen⟩

/-- A byte of text leaves the cursor at most one column behind the last one and one row below the
last one. -/
theorem Inside.textByte (h : s.Inside) (c : UInt8) : (s.textByte c).OnScreen := by
  have hcol := h.col
  unfold Console.textByte
  split
  · exact h.onScreen
  split
  · exact h.onScreen
  split
  · exact h.onScreen
  split
  · split
    case isTrue hpos =>
      refine OnScreen.setCell (s := { s with curCol := s.curCol - 1 }) h.onScreen
        (cell_lt h.row ?_) _
      have hle : (s.curCol - 1).toNat = s.curCol.toNat - 1 := by
        apply UInt8.toNat_sub_of_le
        exact hpos
      change (s.curCol - 1).toNat < vgaCols
      omega
    case isFalse => exact h.onScreen
  · exact h.onScreen.setCell (cell_lt h.row h.col) (s.glyph c)

theorem wrapLine_onScreen (h : s.OnScreen) : s.wrapLine.OnScreen := by
  unfold wrapLine
  split <;> exact h

theorem wrapLine_col (s : Console) : s.wrapLine.curCol.toNat < vgaCols := by
  unfold wrapLine
  split
  case isTrue => exact (show 0 < vgaCols by decide)
  case isFalse h => exact Nat.lt_of_not_le h

/-- Text, whatever it does to the cursor, ends with the cursor inside. -/
theorem Inside.text (h : s.Inside) (c : UInt8) :
    (s.textByte c).wrapLine.scroll.updateCursor.Inside :=
  (inside_scroll (wrapLine_col _) (wrapLine_onScreen (h.textByte c))).updateCursor

/-- The step: a byte from inside leads inside. -/
theorem Inside.consolePutc (h : s.Inside) (c : UInt8) : (s.consolePutc c).Inside := by
  have hserial : (s.serialPutc c).Inside := h.congr rfl rfl rfl
  unfold Console.consolePutc
  cases hesc : (s.serialPutc c).escState with
  | text =>
    dsimp only
    rw [hesc]
    dsimp only
    split
    · exact hserial.congr rfl rfl rfl
    · exact hserial.text c
  | escape =>
    dsimp only
    rw [hesc]
    dsimp only
    split
    · exact hserial.congr rfl rfl rfl
    · have htext : Inside { s.serialPutc c with escState := .text } := hserial.congr rfl rfl rfl
      exact htext.text c
  | numbers =>
    dsimp only
    rw [hesc]
    exact hserial.escByte c

/-! ## Every sequence of bytes -/

/-- The run: from inside, any bytes lead inside. -/
theorem Inside.putAll (h : s.Inside) (bytes : List UInt8) :
    (bytes.foldl Console.consolePutc s).Inside := by
  induction bytes generalizing s with
  | nil => exact h
  | cons c bytes ih => exact ih (h.consolePutc c)

theorem inside_atBoot (vga : Nat → UInt16) : (atBoot vga).Inside :=
  OnScreen.inside_of_cursor (s := atBoot vga) (fun _ hi ↦ absurd hi List.not_mem_nil) (by decide)
    (by decide)

/-- **The console stays on the screen**: after any bytes, before `console_init` and behind it, the
cursor is inside and no cell off the screen has been read or written. -/
theorem console_stays_inside (vga : Nat → UInt16) (bytes : List UInt8) :
    (bytes.foldl consolePutc (atBoot vga)).Inside ∧
      (bytes.foldl consolePutc (atBoot vga).consoleInit).Inside := by
  have hboot := inside_atBoot vga
  have hinit : (atBoot vga).consoleInit.Inside := OnScreen.consoleClear hboot.onScreen
  exact ⟨hboot.putAll bytes, hinit.putAll bytes⟩

end Console

end FentoOS.Kernel
