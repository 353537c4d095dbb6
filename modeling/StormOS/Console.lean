import StormOS.Screen
import StormOS.Library.Terminals

namespace StormOS.Console

open Library.Terminals Screen Terminal

structure State where
  screen : Screen.State
  row : ℤ
  col : ℤ

def moveRow (s : State) (dRow : ℤ) : State :=
  let row := s.row + dRow
  let row := if row < 0 then 0 else row
  if row ≥ charRows then { s with screen := scrollScreen s.screen charSize, row := charRows - 1 }
  else { s with row := row }

@[simp] theorem moveRow_col (s : State) (dRow : ℤ) : (moveRow s dRow).col = s.col := by
  simp only [moveRow, apply_ite State.col, ite_self]

def moveCursor (s : State) (dRow dCol : ℤ) : State :=
  let r := moveRow s dRow
  let col := if r.col + dCol < 0 then 0 else r.col + dCol
  if col ≥ charCols then moveCursor { r with col := col } 1 (-col) else { r with col := col }
termination_by (s.col + dCol).toNat
decreasing_by
  rename_i hcol
  simp only [r, col, moveRow_col, charCols, vgaWidth, vgaPixelsPerByte, charSize] at hcol ⊢
  by_cases hneg : s.col + dCol < 0
  · simp only [hneg, dite_true] at hcol
    omega
  · simp only [hneg, dite_false] at hcol ⊢
    omega

def resetCursor (s : State) : State := { s with row := 0, col := 0 }

section PutChar

variable (font : UInt8 → ℕ → UInt8) (reverseBits : UInt8 → UInt8)

def putChar (s : State) (c : UInt8) (color : ℕ) : State :=
  if c = 10 then moveCursor s 1 (-s.col)
  else if c = 8 then
    let s := moveCursor s 0 (-1)
    { s with screen := drawCharAt font reverseBits s.screen 8 s.row s.col color }
  else
    moveCursor { s with screen := drawCharAt font reverseBits s.screen c s.row s.col color } 0 1

end PutChar

inductive Cell
  | blank
  | glyph (ch : UInt8) (color : ℕ)

/-- The console as a terminal of coloured characters. -/
abbrev TextScreen := Terminal Cell charRows charCols

/-- Bytes from 0x80 on have no glyph. -/
def cellOf (c : UInt8) (color : ℕ) : Cell := if c ≥ 0x80 then .blank else .glyph c color

def put (t : TextScreen) (x : UInt8 × ℕ) : TextScreen :=
  if x.1 = 10 then t.lineFeed .blank
  else if x.1 = 8 then t.backspace .blank
  else t.place .blank (cellOf x.1 x.2)

def cleared : TextScreen := ⟨fun _ _ ↦ .blank, 0, 0, by decide, by decide⟩

section Render

variable (font : UInt8 → ℕ → UInt8) (reverseBits : UInt8 → UInt8) (c0 : ℕ)

def Cell.byte (p i : ℕ) : Cell → UInt8
  | .blank => planeColor c0 p
  | .glyph ch color =>
    (reverseBits (font ch i) &&& planeColor color p) |||
      (~~~reverseBits (font ch i) &&& planeColor c0 p)

def render (grid : ℕ → ℕ → Cell) (n : ℕ) : UInt8 :=
  (grid (scanLine n / charSize) (column n)).byte font reverseBits c0 (plane n)
    (scanLine n % charSize)

/-- The screen shows the grid, and the cursors are at the same place. -/
structure Shows (s : State) (t : TextScreen) : Prop where
  row : s.row = t.row
  col : s.col = t.col
  clear : s.screen.lastClearColor = c0
  bytes : ∀ n < screenSize, s.screen.screenBuf n = render font reverseBits c0 t.grid n

end Render

variable {font : UInt8 → ℕ → UInt8} {reverseBits : UInt8 → UInt8} {c0 : ℕ} {s : State}
  {t : TextScreen}

theorem moveCursor_within (s : State) (dRow dCol : ℤ) (h : s.col + dCol < 80) :
    moveCursor s dRow dCol =
      { moveRow s dRow with col := if s.col + dCol < 0 then 0 else s.col + dCol } := by
  rw [moveCursor]
  simp only [moveRow_col]
  rw [if_neg]
  simp only [charCols, vgaWidth, vgaPixelsPerByte, charSize]
  split
  · omega
  · omega

theorem moveCursor_wrap (s : State) (dRow dCol : ℤ) (h : 80 ≤ s.col + dCol) :
    moveCursor s dRow dCol =
      moveCursor { moveRow s dRow with col := s.col + dCol } 1 (-(s.col + dCol)) := by
  have hneg : ¬ s.col + dCol < 0 := by omega
  conv_lhs => rw [moveCursor]
  simp only [moveRow_col, hneg, if_false]
  rw [if_pos]
  simp only [charCols, vgaWidth, vgaPixelsPerByte, charSize]
  omega

theorem moveCursor_newline (s : State) :
    moveCursor s 1 (-s.col) = { moveRow s 1 with col := 0 } := by
  have hzero : s.col + -s.col = 0 := by omega
  rw [moveCursor_within s 1 _ (by omega), hzero]
  rfl

theorem moveRow_zero (h : 0 ≤ s.row ∧ s.row < 60) : moveRow s 0 = s := by
  simp only [moveRow, charRows, vgaHeight, charSize, add_zero]
  rw [if_neg (by omega), if_neg (by omega)]

theorem moveRow_down (h : 0 ≤ s.row ∧ s.row < 59) : moveRow s 1 = { s with row := s.row + 1 } := by
  simp only [moveRow, charRows, vgaHeight, charSize]
  rw [if_neg (by omega), if_neg (by omega)]

theorem moveRow_last (h : s.row = 59) :
    moveRow s 1 = { s with screen := scrollScreen s.screen charSize, row := 59 } := by
  simp only [moveRow, charRows, vgaHeight, charSize, h]
  rfl

end StormOS.Console
