import Mathlib.Logic.Function.Basic
import Mathlib.Data.Nat.Notation

namespace StormOS.Library.Terminals

open Function

/-- A text terminal: a grid of cells and a cursor that cannot leave it. -/
@[ext]
structure Terminal (α : Type) (rows cols : ℕ) where
  grid : ℕ → ℕ → α
  row : ℕ
  col : ℕ
  row_lt : row < rows
  col_lt : col < cols

namespace Terminal

variable {α : Type} {rows cols : ℕ}

/-- The next row, at column 0. Below the last row the grid scrolls. -/
def lineFeed (blank : α) (t : Terminal α rows cols) : Terminal α rows cols :=
  if h : t.row + 1 < rows then
    { t with
      row := t.row + 1
      col := 0
      row_lt := h
      col_lt := Nat.lt_of_le_of_lt (Nat.zero_le _) t.col_lt }
  else
    { t with
      grid := fun r c ↦ if r + 1 < rows then t.grid (r + 1) c else blank
      col := 0
      col_lt := Nat.lt_of_le_of_lt (Nat.zero_le _) t.col_lt }

def write (t : Terminal α rows cols) (a : α) : Terminal α rows cols :=
  { t with grid := update t.grid t.row (update (t.grid t.row) t.col a) }

def left (t : Terminal α rows cols) : Terminal α rows cols :=
  { t with
    col := t.col - 1
    col_lt := Nat.lt_of_le_of_lt (Nat.sub_le _ _) t.col_lt }

def right (blank : α) (t : Terminal α rows cols) : Terminal α rows cols :=
  if h : t.col + 1 < cols then { t with col := t.col + 1, col_lt := h } else t.lineFeed blank

def backspace (blank : α) (t : Terminal α rows cols) : Terminal α rows cols := t.left.write blank

def place (blank : α) (t : Terminal α rows cols) (a : α) : Terminal α rows cols :=
  (t.write a).right blank

/-- Every cell from the cursor on is blank. -/
def BlankFrom (blank : α) (t : Terminal α rows cols) : Prop :=
  ∀ r < rows, ∀ c < cols, t.row < r ∨ t.row = r ∧ t.col ≤ c → t.grid r c = blank

variable {blank : α} {t : Terminal α rows cols}

theorem write_grid (t : Terminal α rows cols) (a : α) (r c : ℕ) :
    (t.write a).grid r c = if r = t.row ∧ c = t.col then a else t.grid r c := by
  by_cases hr : r = t.row
  · by_cases hc : c = t.col
    · simp [write, hr, hc]
    · simp [write, hr, hc]
  · simp [write, hr]

theorem lineFeed_of_lt (blank : α) (h : t.row + 1 < rows) :
    (t.lineFeed blank).grid = t.grid ∧ (t.lineFeed blank).row = t.row + 1 := by
  rw [lineFeed, dif_pos h]
  exact ⟨rfl, rfl⟩

theorem lineFeed_of_last (blank : α) (h : ¬ t.row + 1 < rows) :
    (t.lineFeed blank).grid = (fun r c ↦ if r + 1 < rows then t.grid (r + 1) c else blank) ∧
      (t.lineFeed blank).row = t.row := by
  rw [lineFeed, dif_neg h]
  exact ⟨rfl, rfl⟩

theorem lineFeed_col (blank : α) (t : Terminal α rows cols) : (t.lineFeed blank).col = 0 := by
  rw [lineFeed]
  split
  · rfl
  · rfl

theorem blankFrom_lineFeed (h : ∀ r < rows, ∀ c < cols, t.row < r → t.grid r c = blank) :
    (t.lineFeed blank).BlankFrom blank := by
  intro r hr c hc hfrom
  by_cases hlast : t.row + 1 < rows
  · obtain ⟨hgrid, hrow⟩ := lineFeed_of_lt blank hlast
    rw [hrow] at hfrom
    rw [hgrid]
    exact h r hr c hc (by omega)
  · obtain ⟨hgrid, hrow⟩ := lineFeed_of_last blank hlast
    have ht := t.row_lt
    rw [hrow] at hfrom
    rw [hgrid]
    exact if_neg (by omega)

theorem BlankFrom.lineFeed (h : t.BlankFrom blank) : (t.lineFeed blank).BlankFrom blank :=
  blankFrom_lineFeed fun r hr c hc hlt ↦ h r hr c hc (.inl hlt)

theorem BlankFrom.backspace (h : t.BlankFrom blank) : (t.backspace blank).BlankFrom blank := by
  intro r hr c hc hfrom
  have hrow : (t.backspace blank).row = t.row := rfl
  have hcol : (t.backspace blank).col = t.col - 1 := rfl
  rw [hrow, hcol] at hfrom
  rw [Terminal.backspace, write_grid]
  split
  · rfl
  · rename_i hne
    have hleft : ¬ (r = t.row ∧ c = t.col - 1) := hne
    exact h r hr c hc (by omega)

/-- A cell may be put at the cursor if the cursor then moves on. -/
theorem BlankFrom.place (h : t.BlankFrom blank) (a : α) : (t.place blank a).BlankFrom blank := by
  have hwrite (r : ℕ) (hr : r < rows) (c : ℕ) (hc : c < cols)
      (hfrom : t.row < r ∨ t.row = r ∧ t.col + 1 ≤ c) : (t.write a).grid r c = blank := by
    rw [write_grid, if_neg (by omega)]
    exact h r hr c hc (by omega)
  by_cases hcol : t.col + 1 < cols
  · have hplace : t.place blank a = { t.write a with col := t.col + 1, col_lt := hcol } :=
      dif_pos hcol
    rw [hplace]
    exact hwrite
  · have hplace : t.place blank a = (t.write a).lineFeed blank := dif_neg hcol
    rw [hplace]
    exact blankFrom_lineFeed fun r hr c hc hlt ↦ hwrite r hr c hc (.inl hlt)

section Lines

/-- The place of the cursor when the rows are counted through. -/
def pos (t : Terminal α rows cols) : ℕ := t.row * cols + t.col

def cell (t : Terminal α rows cols) (k : ℕ) : α := t.grid (k / cols) (k % cols)

variable {k : ℕ}

theorem div_mod_iff {r c : ℕ} (hc : c < cols) : k / cols = r ∧ k % cols = c ↔ k = r * cols + c := by
  constructor
  · rintro ⟨rfl, rfl⟩
    exact (Nat.div_add_mod' k cols).symm
  · rintro rfl
    have hpos : 0 < cols := Nat.zero_lt_of_lt hc
    rw [Nat.mul_comm, Nat.mul_add_div hpos, Nat.div_eq_of_lt hc, Nat.mul_add_mod,
      Nat.mod_eq_of_lt hc]
    exact ⟨Nat.add_zero _, rfl⟩

theorem pos_lt (t : Terminal α rows cols) : t.pos < rows * cols := by
  have hrow := Nat.mul_le_mul_right cols (Nat.succ_le_of_lt t.row_lt)
  have hcol := t.col_lt
  rw [Nat.succ_mul] at hrow
  rw [pos]
  omega

theorem write_cell (t : Terminal α rows cols) (a : α) (k : ℕ) :
    (t.write a).cell k = if k = t.pos then a else t.cell k := by
  rw [cell, write_grid, pos]
  exact if_congr (div_mod_iff t.col_lt) rfl rfl

/-- At the last place of the screen everything moves up by a row. -/
def scrolled (t : Terminal α rows cols) : ℕ :=
  if t.row + 1 = rows ∧ t.col + 1 = cols then cols else 0

theorem add_div_mod (hcols : 0 < cols) (k : ℕ) :
    (k + cols) / cols = k / cols + 1 ∧ (k + cols) % cols = k % cols :=
  ⟨Nat.add_div_right k hcols, Nat.add_mod_right k cols⟩

/-- Putting a cell moves the cursor on by one place, on the grid as it then is. -/
theorem place_pos (blank : α) (t : Terminal α rows cols) (a : α) :
    (t.place blank a).pos + t.scrolled = t.pos + 1 := by
  have hrow := t.row_lt
  have hcol := t.col_lt
  by_cases hright : t.col + 1 < cols
  · have hplace : t.place blank a = { t.write a with col := t.col + 1, col_lt := hright } :=
      dif_pos hright
    rw [hplace, scrolled, if_neg (by omega)]
    rfl
  · have hplace : t.place blank a = (t.write a).lineFeed blank := dif_neg hright
    have hlast : t.col + 1 = cols := by omega
    have hzero := lineFeed_col blank (t.write a)
    have hnext : t.pos + 1 = (t.row + 1) * cols := by rw [pos, Nat.add_assoc, hlast, Nat.succ_mul]
    rw [hplace, hnext, scrolled, pos, hzero]
    by_cases hdown : t.row + 1 < rows
    · obtain ⟨-, hrow'⟩ := lineFeed_of_lt (t := t.write a) blank hdown
      rw [hrow', if_neg (by omega)]
      rfl
    · obtain ⟨-, hrow'⟩ := lineFeed_of_last (t := t.write a) blank hdown
      rw [hrow', if_pos ⟨by omega, hlast⟩, Nat.succ_mul]
      rfl

theorem place_cell (a : α) (hk : k + t.scrolled < rows * cols) :
    (t.place blank a).cell k = if k + t.scrolled = t.pos then a else t.cell (k + t.scrolled) := by
  have hrow := t.row_lt
  have hcol := t.col_lt
  have hcols : 0 < cols := Nat.zero_lt_of_lt hcol
  rw [← write_cell]
  by_cases hright : t.col + 1 < cols
  · have hplace : t.place blank a = { t.write a with col := t.col + 1, col_lt := hright } :=
      dif_pos hright
    rw [hplace, scrolled, if_neg (by omega)]
    rfl
  · have hplace : t.place blank a = (t.write a).lineFeed blank := dif_neg hright
    by_cases hdown : t.row + 1 < rows
    · obtain ⟨hgrid, -⟩ := lineFeed_of_lt (t := t.write a) blank hdown
      rw [hplace, scrolled, if_neg (by omega), cell, hgrid]
      rfl
    · obtain ⟨hgrid, -⟩ := lineFeed_of_last (t := t.write a) blank hdown
      have hscroll : t.scrolled = cols := if_pos ⟨by omega, by omega⟩
      obtain ⟨hdiv, hmod⟩ := add_div_mod hcols k
      rw [hscroll] at hk ⊢
      have hlt := (Nat.div_lt_iff_lt_mul hcols).mpr hk
      rw [hplace, cell, cell, hgrid, hdiv, hmod]
      rw [hdiv] at hlt
      exact if_pos hlt

theorem backspace_pos (blank : α) (t : Terminal α rows cols) :
    (t.backspace blank).pos = if t.col = 0 then t.pos else t.pos - 1 := by
  have hpos : (t.backspace blank).pos = t.row * cols + (t.col - 1) := rfl
  rw [hpos, pos]
  split
  · omega
  · omega

theorem backspace_cell (blank : α) (t : Terminal α rows cols) (k : ℕ) :
    (t.backspace blank).cell k = if k = (t.backspace blank).pos then blank else t.cell k := by
  rw [Terminal.backspace, write_cell]
  rfl

end Lines

end Terminal

end StormOS.Library.Terminals
