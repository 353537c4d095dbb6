import StormOS.ScrollWrites

namespace StormOS.Screen

open Library.Bytes Library.Loops Machine

/-- The range checks at the start of `PaintRange`. -/
structure Paintable (start size : ℤ) : Prop where
  start_nonneg : 0 ≤ start
  size_nonneg : 0 ≤ size
  end_le : start + size ≤ vgaWidth * vgaPixelsPerByte * vgaHeight

/-- In every plane the bytes wholly inside the range of pixels get the colour, and the others stay
as they were. -/
def Paints (start size : ℤ) (color : ℕ) (buf buf' : Memory) : Prop :=
  ∀ p < vgaPlanes, ∀ b < vgaWidth * vgaHeight,
    buf' (p * (vgaWidth * vgaHeight) + b) =
      if start ≤ 8 * b ∧ 8 * b + 8 ≤ start + size then if color.testBit p then 0xff else 0
      else buf (p * (vgaWidth * vgaHeight) + b)

/-- Either the range is smaller than a byte, or it does not start at the first pixel, and what it
has beside whole bytes reaches from its start to the next byte. -/
def CountsBytes (start size : ℤ) : Prop := size < 8 ∨ 0 < start ∧ -start % 8 ≤ size % 8

instance (start size : ℤ) : Decidable (CountsBytes start size) :=
  inferInstanceAs (Decidable (size < 8 ∨ 0 < start ∧ -start % 8 ≤ size % 8))

variable {start size : ℤ} {color : ℕ} {buf : Memory}

theorem Paintable.paintRange_eq (h : Paintable start size) :
    paintRange buf start size color =
      forUpTo (fun p buf ↦ memSet buf
        (p * vgaWidth * vgaHeight + ((start - 1).tdiv vgaPixelsPerByte + 1).toNat)
        (planeColor color p) (size / 8).toNat) vgaPlanes buf := by
  obtain ⟨hstart, hsize, hend⟩ := h
  have hbytes : size.tdiv vgaPixelsPerByte = size / 8 := Int.tdiv_eq_ediv_of_nonneg hsize
  rw [paintRange]
  simp only [vgaWidth, vgaPixelsPerByte, vgaHeight, Nat.cast_ofNat] at hend hbytes ⊢
  rw [if_neg (by omega), if_neg (by omega), hbytes]

/-- The first pixel of every plane is left out, because the quotient of a negative `int` is
truncated. -/
theorem Paintable.paintRange_first (h : Paintable 0 size) :
    paintRange buf 0 size color 0 = buf 0 := by
  have hsize := h.size_nonneg
  have hend := h.end_le
  simp only [vgaWidth, vgaPixelsPerByte, vgaHeight, Nat.cast_ofNat] at hend
  rw [h.paintRange_eq]
  refine forUpTo_invariant (I := fun _ (buf' : Memory) ↦ buf' 0 = buf 0) vgaPlanes rfl ?_
  intro p buf' hp hbuf'
  have hfirst : ((0 - 1 : ℤ).tdiv vgaPixelsPerByte + 1).toNat = 1 := rfl
  simp only [vgaPlanes, vgaWidth, vgaHeight] at hp ⊢
  rw [hfirst, memSet_apply (by omega), if_neg (by omega), hbuf']

/-- The start is rounded up to whole bytes, and the size is rounded down on its own. -/
theorem Paintable.paintRange_bytes (h : Paintable start size) (h0 : 0 < start ∨ size < 8) {p b : ℕ}
    (hp : p < vgaPlanes) (hb : b < vgaWidth * vgaHeight) :
    paintRange buf start size color (p * (vgaWidth * vgaHeight) + b) =
      if (start + 7) / 8 ≤ b ∧ b < (start + 7) / 8 + size / 8 then planeColor color p
      else buf (p * (vgaWidth * vgaHeight) + b) := by
  have hstart := h.start_nonneg
  have hsize := h.size_nonneg
  have hend := h.end_le
  rw [h.paintRange_eq]
  simp only [vgaPlanes, vgaWidth, vgaHeight, vgaPixelsPerByte, Nat.cast_ofNat] at *
  by_cases hnone : size < 8
  · have hzero : (size / 8).toNat = 0 := by omega
    rw [hzero, if_neg (by omega)]
    exact congrFun (forUpTo_invariant (I := fun _ (buf' : Memory) ↦ buf' = buf) 4 rfl
      fun _ _ _ hbuf' ↦ hbuf') _
  · have hfirst : ((start - 1).tdiv 8 + 1).toNat = ((start + 7) / 8).toNat := by
      rw [Int.tdiv_eq_ediv_of_nonneg (by omega)]
      omega
    have hplane : plane (p * (80 * 480) + b) = p := by
      rw [plane]
      omega
    have hpaint := paintPlanes_apply (a := ((start + 7) / 8).toNat) (n := (size / 8).toNat) buf
      color (by omega) (p * (80 * 480) + b)
    simp only [vgaPlanes, vgaWidth, vgaHeight, screenSize, hplane] at hpaint
    rw [hfirst, hpaint]
    exact if_congr (by omega) rfl rfl

/-- `PaintRange` paints the bytes that are wholly inside its range exactly where these are as many
as the size is rounded down to. -/
theorem paintRange_paints_iff (start size : ℤ) (color : ℕ) (h : Paintable start size) :
    (∀ buf, Paints start size color buf (paintRange buf start size color)) ↔
      CountsBytes start size := by
  have hstart := h.start_nonneg
  have hsize := h.size_nonneg
  have hend := h.end_le
  simp only [vgaWidth, vgaHeight, vgaPixelsPerByte, Nat.cast_ofNat] at hend
  constructor
  · intro hpaints
    by_contra hcount
    obtain ⟨hbig, hshort⟩ := not_or.mp hcount
    have hgray : ∀ c : Bool, (if c then 0xff else 0 : UInt8) ≠ 1 := by decide
    rcases hstart.eq_or_lt with rfl | hpos
    · have hfirst := hpaints (fun _ ↦ 1) 0 (by decide) 0 (by decide)
      rw [if_pos ⟨le_rfl, by omega⟩] at hfirst
      exact hgray _ (hfirst.symm.trans h.paintRange_first)
    · -- the last byte that is painted is not inside the range
      obtain ⟨b, hb⟩ : ∃ b : ℕ, (b : ℤ) = (start + 7) / 8 + size / 8 - 1 :=
        ⟨((start + 7) / 8 + size / 8 - 1).toNat, by omega⟩
      have hlt : b < vgaWidth * vgaHeight := by
        simp only [vgaWidth, vgaHeight]
        omega
      have hlast := hpaints (fun _ ↦ 1) 0 (by decide) b hlt
      rw [h.paintRange_bytes (.inl hpos) (by decide) hlt, if_pos (by omega), if_neg (by omega),
        planeColor_eq] at hlast
      exact hgray _ hlast
  · intro hcount buf p hp b hb
    rw [h.paintRange_bytes (hcount.symm.imp_left And.left) hp hb, planeColor_eq]
    refine if_congr ?_ rfl rfl
    rcases hcount with hcount | hcount
    · omega
    · omega

theorem paintRange_paints_iff_row :
    (∀ buf, Paints 640 640 1 buf (paintRange buf 640 640 1)) ↔ CountsBytes 640 640 :=
  paintRange_paints_iff 640 640 1 ⟨by decide, by decide, by decide⟩

/-- The whole screen is painted from its second byte on. -/
theorem not_paints_screen : ¬ ∀ (start size : ℤ) (color : ℕ) (buf : Memory),
    Paintable start size → Paints start size color buf (paintRange buf start size color) := by
  intro h
  have hrange : Paintable 0 307200 := ⟨by decide, by decide, by decide⟩
  have hbyte := h 0 307200 1 (fun _ ↦ 0) hrange 0 (by decide) 0 (by decide)
  rw [if_pos (by decide)] at hbyte
  exact absurd (hbyte.symm.trans hrange.paintRange_first) (by decide)

end StormOS.Screen
