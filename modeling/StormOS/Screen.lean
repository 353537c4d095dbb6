import StormOS.Machine
import Mathlib.Data.Nat.Bitwise

namespace StormOS.Screen

open Library.Bytes Library.Loops Machine Function

abbrev vgaWidth : ℕ := 80
abbrev vgaHeight : ℕ := 480
abbrev vgaPixelsPerByte : ℕ := 8
abbrev vgaPlanes : ℕ := 4

abbrev charSize : ℕ := 8
abbrev charRows : ℕ := vgaHeight / charSize
abbrev charCols : ℕ := vgaWidth * vgaPixelsPerByte / charSize

/-- The globals of the screen. Places in `screenBuf` are counted from its start. -/
structure State where
  screenBuf : Memory
  lastClearColor : ℕ

def planeColor (color p : ℕ) : UInt8 := if color &&& (1 <<< p) ≠ 0 then 0xff else 0

def paintRange (buf : Memory) (start size : ℤ) (color : ℕ) : Memory :=
  if start < 0 ∨ start > vgaWidth * vgaPixelsPerByte * vgaHeight then buf
  else if size < 0 ∨ start + size > vgaWidth * vgaPixelsPerByte * vgaHeight then buf
  else
    -- the quotients of `int` are truncated
    let startByte := (start - 1).tdiv vgaPixelsPerByte + 1
    let sizeBytes := size.tdiv vgaPixelsPerByte
    forUpTo (fun p buf ↦
      memSet buf (p * vgaWidth * vgaHeight + startByte.toNat) (planeColor color p)
        sizeBytes.toNat) vgaPlanes buf

section Glyphs

-- the font, and the table that reverses the order of the bits in a byte
variable (font : UInt8 → ℕ → UInt8) (reverseBits : UInt8 → UInt8)

/-- One scan line of a character in one plane. A backspace clears, anything else is laid over what
is there. -/
def drawByte (s : State) (c : UInt8) (color p i : ℕ) (old : UInt8) : UInt8 :=
  if c = 8 then planeColor s.lastClearColor p
  else (old &&& ~~~reverseBits (font c i)) ||| (reverseBits (font c i) &&& planeColor color p)

def drawCharAt (s : State) (c : UInt8) (row col : ℤ) (color : ℕ) : State :=
  -- the character is signed
  if c ≥ 0x80 then s
  else if row < 0 ∨ row ≥ charRows then s
  else if col < 0 ∨ col ≥ charCols then s
  else
    let start := (row * charSize * vgaWidth + col).toNat
    { s with
      screenBuf := forUpTo (fun p buf ↦
        forUpTo (fun i buf ↦
          let offset := start + p * vgaWidth * vgaHeight + i * vgaWidth
          update buf offset (drawByte font reverseBits s c color p i (buf offset)))
          charSize buf) vgaPlanes s.screenBuf }

end Glyphs

def scrollScreen (s : State) (rows : ℕ) : State :=
  let buf := memCopy s.screenBuf 0 (vgaWidth * rows)
    (vgaWidth * vgaHeight * vgaPlanes - vgaWidth * rows)
  { s with
    screenBuf := paintRange buf (vgaWidth * vgaPixelsPerByte * (vgaHeight - rows : ℤ))
      (vgaWidth * vgaPixelsPerByte * rows) s.lastClearColor }

def clearScreen (s : State) (color : ℕ) : State where
  screenBuf := forUpTo (fun p buf ↦
    memSet buf (p * vgaWidth * vgaHeight) (planeColor color p) (vgaWidth * vgaHeight)) vgaPlanes
    s.screenBuf
  lastClearColor := color

/-- The bytes of `screenBuf`, and where the `n`-th of them is. -/
abbrev screenSize : ℕ := vgaWidth * vgaHeight * vgaPlanes

def plane (n : ℕ) : ℕ := n / 38400

def scanLine (n : ℕ) : ℕ := n % 38400 / 80

def column (n : ℕ) : ℕ := n % 80

variable {buf : Memory} {s : State} {color x a n : ℕ}

theorem paintPlanes_apply (buf : Memory) (color : ℕ) (ha : a + n ≤ 38400) (x : ℕ) :
    forUpTo (fun p buf ↦ memSet buf (p * vgaWidth * vgaHeight + a) (planeColor color p) n)
        vgaPlanes buf x =
      if x < screenSize ∧ a ≤ x % 38400 ∧ x % 38400 < a + n then planeColor color (plane x)
      else buf x := by
  have hloop := forUpTo_invariant
    (f := fun p buf ↦ memSet buf (p * vgaWidth * vgaHeight + a) (planeColor color p) n) (s := buf)
    (I := fun k buf' ↦ buf' x =
      if plane x < k ∧ a ≤ x % 38400 ∧ x % 38400 < a + n then planeColor color (plane x)
      else buf x) vgaPlanes ?_ ?_
  · rw [hloop]
    refine if_congr ?_ rfl rfl
    simp only [plane, screenSize, vgaPlanes, vgaWidth, vgaHeight]
    omega
  · rw [if_neg (by omega)]
  · intro k buf' hk hbuf'
    simp only [vgaPlanes, vgaWidth, vgaHeight] at hk ⊢
    rw [memSet_apply (by omega), hbuf']
    by_cases hx : plane x = k ∧ a ≤ x % 38400 ∧ x % 38400 < a + n
    · have hin : k * 80 * 480 + a ≤ x ∧ x < k * 80 * 480 + a + n := by
        simp only [plane] at hx
        omega
      rw [if_pos hin, if_pos (by omega), hx.1]
    · have hout : ¬ (k * 80 * 480 + a ≤ x ∧ x < k * 80 * 480 + a + n) := by
        simp only [plane] at hx
        omega
      rw [if_neg hout]
      exact if_congr (by omega) rfl rfl

theorem clearScreen_apply (s : State) (color : ℕ) (hx : x < screenSize) :
    (clearScreen s color).screenBuf x = planeColor color (plane x) := by
  have hpaint := paintPlanes_apply (a := 0) (n := vgaWidth * vgaHeight) s.screenBuf color le_rfl x
  have hmod := Nat.mod_lt x (show 0 < 38400 by decide)
  rw [if_pos ⟨hx, Nat.zero_le _, by omega⟩] at hpaint
  simp only [Nat.add_zero] at hpaint
  exact hpaint

theorem paintRange_apply (buf : Memory) (color : ℕ) (h0 : 0 < a) (han : a + n ≤ 38400) (x : ℕ) :
    paintRange buf (8 * a : ℕ) (8 * n : ℕ) color x =
      if x < screenSize ∧ a ≤ x % 38400 ∧ x % 38400 < a + n then planeColor color (plane x)
      else buf x := by
  have hstart : (((8 * a : ℕ) : ℤ) - 1).tdiv 8 + 1 = a := by
    rw [Int.tdiv_eq_ediv_of_nonneg (by omega)]
    omega
  have hsize : ((8 * n : ℕ) : ℤ).tdiv 8 = n := by
    rw [Int.tdiv_eq_ediv_of_nonneg (by omega)]
    omega
  rw [paintRange]
  simp only [vgaWidth, vgaPixelsPerByte, vgaHeight, Nat.cast_ofNat]
  rw [if_neg (by omega), if_neg (by omega), hstart, hsize, Int.toNat_natCast, Int.toNat_natCast]
  exact paintPlanes_apply buf color han x

/-- The planes scroll one by one, although they are moved as one piece. -/
theorem scrollScreen_apply (s : State) {rows : ℕ} (h : rows < 480) (hx : x < screenSize) :
    (scrollScreen s rows).screenBuf x =
      if x % 38400 + 80 * rows < 38400 then s.screenBuf (x + 80 * rows)
      else planeColor s.lastClearColor (plane x) := by
  have hmod := Nat.mod_lt x (show 0 < 38400 by decide)
  simp only [screenSize, vgaWidth, vgaHeight, vgaPlanes] at hx
  have hstart : (vgaWidth * vgaPixelsPerByte * (vgaHeight - rows : ℤ) : ℤ) =
      ((8 * (80 * (480 - rows)) : ℕ) : ℤ) := by
    simp only [vgaWidth, vgaPixelsPerByte, vgaHeight]
    omega
  have hsize : (vgaWidth * vgaPixelsPerByte * rows : ℤ) = ((8 * (80 * rows) : ℕ) : ℤ) := by
    simp only [vgaWidth, vgaPixelsPerByte]
    omega
  rw [scrollScreen]
  dsimp only
  rw [hstart, hsize, paintRange_apply _ _ (by omega) (by omega)]
  by_cases hrow : x % 38400 + 80 * rows < 38400
  · rw [if_pos hrow, if_neg (by omega)]
    simp only [vgaWidth, vgaHeight, vgaPlanes]
    rw [memCopy_apply (by omega) (by omega) (by omega), if_pos (by omega), Nat.sub_zero,
      Nat.add_comm]
  · rw [if_neg hrow, if_pos ⟨hx, by omega, by omega⟩]

section Draw

variable (font : UInt8 → ℕ → UInt8) (reverseBits : UInt8 → UInt8) {c : UInt8} {row col : ℕ}

theorem place_iff (hrow : row < 60) (hcol : col < 80) {p i : ℕ} (hi : i < 8) (x : ℕ) :
    x = row * 8 * 80 + col + p * 80 * 480 + i * 80 ↔
      plane x = p ∧ scanLine x / 8 = row ∧ scanLine x % 8 = i ∧ column x = col := by
  simp only [plane, scanLine, column]
  omega

theorem drawCharAt_apply (s : State) (color : ℕ) (hc : c < 0x80) (hrow : row < 60)
    (hcol : col < 80) (x : ℕ) :
    (drawCharAt font reverseBits s c row col color).screenBuf x =
      if x < screenSize ∧ scanLine x / 8 = row ∧ column x = col then
        drawByte font reverseBits s c color (plane x) (scanLine x % 8) (s.screenBuf x)
      else s.screenBuf x := by
  have hstart : ((row : ℤ) * charSize * vgaWidth + col).toNat = row * 8 * 80 + col := by
    simp only [charSize, vgaWidth]
    omega
  have hneg : ¬ c ≥ 0x80 := UInt8.not_le.mpr hc
  rw [drawCharAt, if_neg hneg, if_neg (by simp only [charRows, vgaHeight, charSize]; omega),
    if_neg (by simp only [charCols, vgaWidth, vgaPixelsPerByte, charSize]; omega)]
  dsimp only
  rw [hstart]
  obtain ⟨g, hg⟩ : ∃ g, g = drawByte font reverseBits s c color (plane x) (scanLine x % 8)
    (s.screenBuf x) := ⟨_, rfl⟩
  rw [← hg]
  have hplanes := forUpTo_invariant (s := s.screenBuf)
    (f := fun p buf ↦ forUpTo (fun i buf ↦
      update buf (row * 8 * 80 + col + p * vgaWidth * vgaHeight + i * vgaWidth)
        (drawByte font reverseBits s c color p i
          (buf (row * 8 * 80 + col + p * vgaWidth * vgaHeight + i * vgaWidth)))) charSize buf)
    (I := fun k buf ↦ buf x =
      if plane x < k ∧ scanLine x / 8 = row ∧ column x = col then g else s.screenBuf x)
    vgaPlanes ?_ ?_
  · rw [hplanes]
    refine if_congr ?_ rfl rfl
    simp only [plane, screenSize, vgaPlanes, vgaWidth, vgaHeight]
    omega
  · rw [if_neg (by omega)]
  · intro p buf hp hbuf
    have hlines := forUpTo_invariant (s := buf)
      (f := fun i buf ↦
        update buf (row * 8 * 80 + col + p * vgaWidth * vgaHeight + i * vgaWidth)
          (drawByte font reverseBits s c color p i
            (buf (row * 8 * 80 + col + p * vgaWidth * vgaHeight + i * vgaWidth))))
      (I := fun k buf' ↦ buf' x =
        if (plane x < p ∨ plane x = p ∧ scanLine x % 8 < k) ∧ scanLine x / 8 = row ∧
          column x = col then g else s.screenBuf x) charSize ?_ ?_
    · rw [hlines]
      refine if_congr ?_ rfl rfl
      simp only [charSize]
      omega
    · rw [hbuf]
      exact if_congr (by omega) rfl rfl
    · intro i buf' hi hbuf'
      have hplace := place_iff hrow hcol (p := p) hi x
      by_cases hx : x = row * 8 * 80 + col + p * 80 * 480 + i * 80
      · obtain ⟨hp', hr, hi', hcl⟩ := hplace.mp hx
        rw [if_neg (by omega)] at hbuf'
        dsimp only [vgaWidth, vgaHeight]
        rw [← hx, update_self, hbuf', if_pos (by omega), hg, hp', hi']
      · dsimp only [vgaWidth, vgaHeight]
        rw [update_of_ne hx, hbuf']
        refine if_congr ?_ rfl rfl
        have hnot := mt hplace.mpr hx
        omega

end Draw

end StormOS.Screen
