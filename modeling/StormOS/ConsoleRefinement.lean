import StormOS.Console

namespace StormOS.Console

open Library.Terminals Screen Terminal

variable {font : UInt8 → ℕ → UInt8} {reverseBits : UInt8 → UInt8} {c0 color : ℕ} {s : State}
  {t : TextScreen} {c : UInt8}

theorem shows_cleared (font : UInt8 → ℕ → UInt8) (reverseBits : UInt8 → UInt8) (c0 : ℕ)
    (s : State) :
    Shows font reverseBits c0 (resetCursor { s with screen := clearScreen s.screen c0 }) cleared :=
  ⟨rfl, rfl, rfl, fun n hn ↦ by rw [resetCursor, clearScreen_apply _ _ hn]; rfl⟩

theorem render_write (t : TextScreen) (a : Cell) (n : ℕ) :
    render font reverseBits c0 (t.write a).grid n =
      if scanLine n / 8 = t.row ∧ column n = t.col then
        a.byte font reverseBits c0 (plane n) (scanLine n % 8)
      else render font reverseBits c0 t.grid n := by
  rw [render, render, write_grid]
  split
  · rfl
  · rfl

theorem Shows.drawCharAt (h : Shows font reverseBits c0 s t) (hc : c < 0x80) {n : ℕ}
    (hn : n < screenSize) :
    (drawCharAt font reverseBits s.screen c s.row s.col color).screenBuf n =
      if scanLine n / 8 = t.row ∧ column n = t.col then
        drawByte font reverseBits s.screen c color (plane n) (scanLine n % 8)
          (render font reverseBits c0 t.grid n)
      else render font reverseBits c0 t.grid n := by
  rw [h.row, h.col, drawCharAt_apply font reverseBits s.screen color hc t.row_lt t.col_lt,
    h.bytes n hn]
  exact if_congr (and_iff_right hn) rfl rfl

theorem drawCharAt_clear (s : Screen.State) (c : UInt8) (row col : ℤ) (color : ℕ) :
    (Screen.drawCharAt font reverseBits s c row col color).lastClearColor = s.lastClearColor := by
  simp only [Screen.drawCharAt, apply_ite Screen.State.lastClearColor, ite_self]

/-- A backspace blanks the cell at the cursor, whatever is there. -/
theorem Shows.erase (h : Shows font reverseBits c0 s t) (color : ℕ) :
    Shows font reverseBits c0
      { s with screen := Screen.drawCharAt font reverseBits s.screen 8 s.row s.col color }
      (t.write .blank) := by
  refine ⟨h.row, h.col, (drawCharAt_clear _ _ _ _ _).trans h.clear, fun n hn ↦ ?_⟩
  rw [h.drawCharAt (by decide) hn, render_write, drawByte, if_pos rfl, h.clear]
  rfl

/-- Other characters are laid over what is there, so they need a blank cell. -/
theorem Shows.overlay (h : Shows font reverseBits c0 s t) (hblank : t.BlankFrom .blank)
    (hc : c ≠ 8) (color : ℕ) :
    Shows font reverseBits c0
      { s with screen := Screen.drawCharAt font reverseBits s.screen c s.row s.col color }
      (t.write (cellOf c color)) := by
  refine ⟨h.row, h.col, (drawCharAt_clear _ _ _ _ _).trans h.clear, fun n hn ↦ ?_⟩
  have hcell : t.grid t.row t.col = .blank := hblank _ t.row_lt _ t.col_lt (.inr ⟨rfl, le_rfl⟩)
  have hat (hcur : scanLine n / 8 = t.row ∧ column n = t.col) :
      render font reverseBits c0 t.grid n = planeColor c0 (plane n) := by
    rw [render, hcur.2]
    simp only [charSize]
    rw [hcur.1, hcell]
    rfl
  rw [render_write]
  by_cases hneg : c ≥ 0x80
  · have hdraw : Screen.drawCharAt font reverseBits s.screen c s.row s.col color = s.screen := by
      rw [Screen.drawCharAt, if_pos hneg]
    dsimp only
    rw [hdraw, h.bytes n hn, cellOf, if_pos hneg]
    split
    · rename_i hcur
      exact hat hcur
    · rfl
  · have hlt : c < 0x80 := UInt8.not_le.mp hneg
    dsimp only
    rw [h.drawCharAt hlt hn]
    by_cases hcur : scanLine n / 8 = t.row ∧ column n = t.col
    · rw [if_pos hcur, if_pos hcur, hat hcur, drawByte, if_neg hc, cellOf, if_neg hneg, Cell.byte,
        UInt8.or_comm, UInt8.and_comm (planeColor c0 _)]
    · rw [if_neg hcur, if_neg hcur]

theorem Shows.scroll (h : Shows font reverseBits c0 s t) {n : ℕ} (hn : n < screenSize) :
    (scrollScreen s.screen charSize).screenBuf n =
      render font reverseBits c0
        (fun r c ↦ if r + 1 < charRows then t.grid (r + 1) c else .blank) n := by
  simp only [screenSize, vgaWidth, vgaHeight, vgaPlanes] at hn
  rw [scrollScreen_apply s.screen (show charSize < 480 by decide) hn, h.clear, render]
  simp only [charSize, charRows, vgaHeight]
  by_cases hrow : n % 38400 + 80 * 8 < 38400
  · have hscan : scanLine (n + 80 * 8) = scanLine n + 8 := by
      simp only [scanLine]
      omega
    have hplane : plane (n + 80 * 8) = plane n := by
      simp only [plane]
      omega
    have hcolumn : column (n + 80 * 8) = column n := by
      simp only [column]
      omega
    have hnext : scanLine n / 8 + 1 < 480 / 8 := by
      simp only [scanLine]
      omega
    have hbyte := h.bytes (n + 80 * 8)
      (by simp only [screenSize, vgaWidth, vgaHeight, vgaPlanes]; omega)
    have hcell : (scanLine n + 8) / 8 = scanLine n / 8 + 1 := by omega
    have hline : (scanLine n + 8) % 8 = scanLine n % 8 := by omega
    rw [if_pos hrow, if_pos hnext, hbyte, render, hscan, hplane, hcolumn]
    simp only [charSize]
    rw [hcell, hline]
  · have hlast : ¬ scanLine n / 8 + 1 < 480 / 8 := by
      simp only [scanLine]
      omega
    rw [if_neg hrow, if_neg hlast]
    rfl

theorem Shows.lineFeed (h : Shows font reverseBits c0 s t) (k : ℤ) :
    Shows font reverseBits c0 (moveCursor { s with col := k } 1 (-k)) (t.lineFeed .blank) := by
  have hrow := h.row
  have ht := t.row_lt
  simp only [charRows, vgaHeight, charSize] at ht
  have hmove : moveCursor { s with col := k } 1 (-k) = _ := moveCursor_newline { s with col := k }
  have hcol := lineFeed_col Cell.blank t
  rw [hmove]
  by_cases hlast : t.row + 1 < charRows
  · obtain ⟨hgrid, hrow'⟩ := lineFeed_of_lt Cell.blank hlast
    simp only [charRows, vgaHeight, charSize] at hlast
    have hdown := moveRow_down (s := { s with col := k }) (show 0 ≤ s.row ∧ s.row < 59 by omega)
    rw [hdown]
    refine ⟨?_, by rw [hcol]; rfl, h.clear, fun n hn ↦ by rw [hgrid]; exact h.bytes n hn⟩
    rw [hrow', Nat.cast_succ, ← hrow]
  · obtain ⟨hgrid, hrow'⟩ := lineFeed_of_last Cell.blank hlast
    simp only [charRows, vgaHeight, charSize] at hlast
    have hscroll := moveRow_last (s := { s with col := k }) (show s.row = 59 by omega)
    rw [hscroll]
    refine ⟨?_, by rw [hcol]; rfl, h.clear, fun n hn ↦ by rw [hgrid]; exact h.scroll hn⟩
    rw [hrow']
    dsimp only
    omega

theorem Shows.left (h : Shows font reverseBits c0 s t) :
    Shows font reverseBits c0 (moveCursor s 0 (-1)) t.left := by
  have hrow := h.row
  have hcol := h.col
  have ht := t.row_lt
  have ht' := t.col_lt
  simp only [charRows, charCols, vgaHeight, vgaWidth, vgaPixelsPerByte, charSize] at ht ht'
  rw [moveCursor_within s 0 (-1) (by omega), moveRow_zero (by omega)]
  refine ⟨h.row, ?_, h.clear, h.bytes⟩
  have hleft : t.left.col = t.col - 1 := rfl
  rw [hleft]
  dsimp only
  split
  · omega
  · omega

theorem Shows.right (h : Shows font reverseBits c0 s t) :
    Shows font reverseBits c0 (moveCursor s 0 1) (t.right .blank) := by
  have hrow := h.row
  have hcol := h.col
  have ht := t.row_lt
  have ht' := t.col_lt
  by_cases hlast : t.col + 1 < charCols
  · have hright : t.right Cell.blank = { t with col := t.col + 1, col_lt := hlast } := dif_pos hlast
    simp only [charRows, charCols, vgaHeight, vgaWidth, vgaPixelsPerByte, charSize] at ht hlast
    rw [hright, moveCursor_within s 0 1 (by omega), moveRow_zero (by omega), if_neg (by omega)]
    refine ⟨h.row, ?_, h.clear, h.bytes⟩
    dsimp only
    omega
  · have hright : t.right Cell.blank = t.lineFeed .blank := dif_neg hlast
    simp only [charRows, charCols, vgaHeight, vgaWidth, vgaPixelsPerByte, charSize] at ht hlast
    rw [hright, moveCursor_wrap s 0 1 (by omega), moveRow_zero (by omega)]
    exact h.lineFeed (s.col + 1)

/-- One character. The cells from the cursor on must be blank for it, and are again after it. -/
theorem Shows.putChar (h : Shows font reverseBits c0 s t) (hblank : t.BlankFrom .blank)
    (x : UInt8 × ℕ) :
    Shows font reverseBits c0 (putChar font reverseBits s x.1 x.2) (put t x) ∧
      (put t x).BlankFrom .blank := by
  rw [Console.putChar, put]
  by_cases hnl : x.1 = 10
  · rw [if_pos hnl, if_pos hnl]
    exact ⟨h.lineFeed s.col, hblank.lineFeed⟩
  · rw [if_neg hnl, if_neg hnl]
    by_cases hbs : x.1 = 8
    · rw [if_pos hbs, if_pos hbs]
      exact ⟨h.left.erase x.2, hblank.backspace⟩
    · rw [if_neg hbs, if_neg hbs]
      exact ⟨(h.overlay hblank hbs x.2).right, hblank.place _⟩

theorem shows_run (font : UInt8 → ℕ → UInt8) (reverseBits : UInt8 → UInt8) (c0 : ℕ) (s : State)
    (chars : List (UInt8 × ℕ)) :
    Shows font reverseBits c0
        (chars.foldl (fun s x ↦ Console.putChar font reverseBits s x.1 x.2)
          (resetCursor { s with screen := clearScreen s.screen c0 })) (chars.foldl put cleared) ∧
      (chars.foldl put cleared).BlankFrom .blank :=
  List.foldl_rel (r := fun s t ↦ Shows font reverseBits c0 s t ∧ t.BlankFrom Cell.blank)
    ⟨shows_cleared font reverseBits c0 s, fun _ _ _ _ _ ↦ rfl⟩ fun x _ _ _ h ↦ h.1.putChar h.2 x

end StormOS.Console
