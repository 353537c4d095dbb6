import StormOS.Screen

namespace StormOS.Screen

open Library.Bytes Library.Loops Machine

abbrev Range := ℕ × ℕ

structure Traced where
  m : Memory
  writes : List Range

def memSetTraced (t : Traced) (dst : ℕ) (value : UInt8) (size : ℕ) : Traced :=
  ⟨memSet t.m dst value size, t.writes ++ [(dst, size)]⟩

def memCopyTraced (t : Traced) (dst src size : ℕ) : Traced :=
  ⟨memCopy t.m dst src size, t.writes ++ [(dst, size)]⟩

def paintRangeTraced (t : Traced) (start size : ℤ) (color : ℕ) : Traced :=
  if start < 0 ∨ start > vgaWidth * vgaPixelsPerByte * vgaHeight then t
  else if size < 0 ∨ start + size > vgaWidth * vgaPixelsPerByte * vgaHeight then t
  else
    let startByte := (start - 1).tdiv vgaPixelsPerByte + 1
    let sizeBytes := size.tdiv vgaPixelsPerByte
    forUpTo (fun p t ↦
      memSetTraced t (p * vgaWidth * vgaHeight + startByte.toNat) (planeColor color p)
        sizeBytes.toNat) vgaPlanes t

def scrollScreenTraced (s : State) (rows : ℕ) : State × List Range :=
  let t := memCopyTraced ⟨s.screenBuf, []⟩ 0 (vgaWidth * rows)
    (vgaWidth * vgaHeight * vgaPlanes - vgaWidth * rows)
  let t := paintRangeTraced t (vgaWidth * vgaPixelsPerByte * (vgaHeight - rows : ℤ))
    (vgaWidth * vgaPixelsPerByte * rows) s.lastClearColor
  ({ s with screenBuf := t.m }, t.writes)

theorem paintRangeTraced_m (t : Traced) (start size : ℤ) (color : ℕ) :
    (paintRangeTraced t start size color).m = paintRange t.m start size color := by
  rw [paintRangeTraced, paintRange]
  split
  · rfl
  · split
    · rfl
    · exact forUpTo_map Traced.m (fun _ _ ↦ rfl) _ _

theorem scrollScreenTraced_fst (s : State) (rows : ℕ) :
    (scrollScreenTraced s rows).1 = scrollScreen s rows := by
  rw [scrollScreenTraced, scrollScreen, paintRangeTraced_m]
  rfl

theorem mem_paintRangeTraced (t : Traced) {start size : ℤ} (color : ℕ) (hstart : 0 ≤ start)
    (hsize : 0 ≤ size) (hend : start + size ≤ 307200) (r : Range) :
    r ∈ (paintRangeTraced t start size color).writes ↔ r ∈ t.writes ∨
      ∃ p < 4, r = (p * 38400 + ((start - 1).tdiv 8 + 1).toNat, (size.tdiv 8).toNat) := by
  rw [paintRangeTraced]
  simp only [vgaWidth, vgaPixelsPerByte, vgaHeight, Nat.cast_ofNat]
  rw [if_neg (by omega), if_neg (by omega)]
  have hloop := forUpTo_invariant (s := t)
    (f := fun p t ↦ memSetTraced t (p * 80 * 480 + ((start - 1).tdiv 8 + 1).toNat)
      (planeColor color p) (size.tdiv 8).toNat)
    (I := fun k t' ↦ r ∈ t'.writes ↔ r ∈ t.writes ∨
      ∃ p < k, r = (p * 38400 + ((start - 1).tdiv 8 + 1).toNat, (size.tdiv 8).toNat))
    vgaPlanes ?_ ?_
  · exact hloop
  · simp
  · intro k t' _ ht'
    rw [memSetTraced, List.mem_append, List.mem_singleton, ht', or_assoc, Nat.mul_assoc]
    refine or_congr_right ⟨?_, ?_⟩
    · rintro (⟨p, hp, rfl⟩ | rfl)
      · exact ⟨p, Nat.lt_succ_of_lt hp, rfl⟩
      · exact ⟨k, Nat.lt_succ_self k, rfl⟩
    · rintro ⟨p, hp, rfl⟩
      rcases Nat.lt_succ_iff_lt_or_eq.mp hp with hp | rfl
      · exact .inl ⟨p, hp, rfl⟩
      · exact .inr rfl

/-- The planes have moved up by some scan lines, and no place outside `screenBuf` is written. -/
structure Scrolled (s : State) (rows : ℕ) (r : State × List Range) : Prop where
  moved : ∀ p < vgaPlanes, ∀ y < vgaHeight - rows, ∀ x < vgaWidth,
    r.1.screenBuf (p * (vgaWidth * vgaHeight) + y * vgaWidth + x) =
      s.screenBuf (p * (vgaWidth * vgaHeight) + (y + rows) * vgaWidth + x)
  painted : ∀ p < vgaPlanes, ∀ y, vgaHeight - rows ≤ y → y < vgaHeight → ∀ x < vgaWidth,
    r.1.screenBuf (p * (vgaWidth * vgaHeight) + y * vgaWidth + x) =
      if s.lastClearColor.testBit p then 0xff else 0
  inside : ∀ w ∈ r.2, ∀ x, w.1 ≤ x → x < w.1 + w.2 → x < screenSize

variable {s : State} {rows : ℕ}

theorem planeColor_eq (color p : ℕ) : planeColor color p = if color.testBit p then 0xff else 0 := by
  rw [planeColor, Nat.one_shiftLeft, Nat.and_two_pow]
  cases color.testBit p with
  | false => simp
  | true => simp

theorem mem_scrollScreenTraced (s : State) (h : rows ≤ 480) (r : Range) :
    r ∈ (scrollScreenTraced s rows).2 ↔ r = (0, 153600 - 80 * rows) ∨
      ∃ p < 4, r = (p * 38400 + ((640 * (480 - rows : ℤ) - 1).tdiv 8 + 1).toNat, 80 * rows) := by
  have hsize : ((640 * (rows : ℤ)).tdiv 8).toNat = 80 * rows := by
    rw [Int.tdiv_eq_ediv_of_nonneg (by omega)]
    omega
  rw [scrollScreenTraced]
  dsimp only
  simp only [vgaWidth, vgaPixelsPerByte, vgaHeight, vgaPlanes, Nat.cast_ofNat]
  rw [mem_paintRangeTraced _ _ (by omega) (by omega) (by omega)]
  simp only [Int.reduceMul, hsize]
  apply or_congr_left
  rw [memCopyTraced, List.nil_append, List.mem_singleton]

theorem scrolled_of_lt (s : State) (h : rows < vgaHeight) :
    Scrolled s rows (scrollScreenTraced s rows) where
  moved p hp y hy x hx := by
    simp only [vgaPlanes, vgaHeight, vgaWidth] at *
    have hin : p * (80 * 480) + y * 80 + x < screenSize := by
      simp only [screenSize, vgaPlanes, vgaHeight, vgaWidth]
      omega
    have hnext : p * (80 * 480) + y * 80 + x + 80 * rows =
        p * (80 * 480) + (y + rows) * 80 + x := by
      omega
    rw [scrollScreenTraced_fst, scrollScreen_apply s h hin, if_pos (by omega), hnext]
  painted p hp y hlo hy x hx := by
    simp only [vgaPlanes, vgaHeight, vgaWidth] at *
    have hin : p * (80 * 480) + y * 80 + x < screenSize := by
      simp only [screenSize, vgaPlanes, vgaHeight, vgaWidth]
      omega
    have hplane : plane (p * (80 * 480) + y * 80 + x) = p := by
      rw [plane]
      omega
    rw [scrollScreenTraced_fst, scrollScreen_apply s h hin, if_neg (by omega), hplane,
      planeColor_eq]
  inside w hw x hlo hhi := by
    simp only [vgaHeight] at h
    rw [mem_scrollScreenTraced s h.le] at hw
    rcases hw with rfl | ⟨p, hp, rfl⟩
    · exact (show x < 153600 by omega)
    · rw [Int.tdiv_eq_ediv_of_nonneg (by omega)] at hlo hhi
      exact (show x < 153600 by omega)

/-- The quotient of a negative `int` is truncated, so the planes are painted one byte late. -/
theorem not_scrolled (s : State) : ¬ Scrolled s 480 (scrollScreenTraced s 480) := by
  intro h
  have hlast : (115201, 38400) ∈ (scrollScreenTraced s 480).2 :=
    (mem_scrollScreenTraced s (by decide) _).mpr (.inr ⟨3, by decide, by decide⟩)
  have hinside := h.inside _ hlast 153600 (by decide) (by decide)
  exact absurd hinside (by decide)

/-- `ScrollScreen` scrolls the planes one by one, except by the whole height of the screen. -/
theorem scrollScreen_scrolled_iff (s : State) (h : rows ≤ vgaHeight) :
    Scrolled s rows (scrollScreenTraced s rows) ↔ rows < vgaHeight := by
  refine ⟨fun hs ↦ ?_, scrolled_of_lt s⟩
  rcases Nat.lt_or_eq_of_le h with hlt | rfl
  · exact hlt
  · exact absurd hs (not_scrolled s)

theorem scrollScreen_scrolled_iff_line :
    Scrolled ⟨fun _ ↦ 0, 1⟩ charSize (scrollScreenTraced ⟨fun _ ↦ 0, 1⟩ charSize) ↔
      charSize < vgaHeight :=
  scrollScreen_scrolled_iff ⟨fun _ ↦ 0, 1⟩ (by decide)

theorem scrollScreen_whole : ¬ ∀ (s : State) (rows : ℕ), rows ≤ vgaHeight →
    Scrolled s rows (scrollScreenTraced s rows) := by
  intro h
  exact not_scrolled ⟨fun _ ↦ 0, 0⟩ (h _ 480 (by decide))

end StormOS.Screen
