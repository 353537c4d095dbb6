import StormOS.ElfContents

namespace StormOS.Elf

open Library.Bytes Library.Loops Machine VirtualMemory UserCopy

section Image

variable (m : Memory) (exe : ℕ)

def Loads (i : ℕ) : Prop := i < ePhnum m exe ∧ pType m (header m exe i) = elfProgLoad

/-- An image in kernel memory that the ELF format allows. -/
structure WellFormed : Prop where
  accepted : Accepted m exe
  headers : exe + ePhoff m exe + ePhnum m exe * proghdrSize ≤ memUserLo
  range : ∀ i, Loads m exe i → memUserLo ≤ pVa m (header m exe i) ∧
    pVa m (header m exe i) + pMemsz m (header m exe i) ≤ memUserHi
  filesz : ∀ i, Loads m exe i → pFilesz m (header m exe i) ≤ pMemsz m (header m exe i)
  congruent : ∀ i, Loads m exe i →
    pVa m (header m exe i) % pageSize = pOffset m (header m exe i) % pageSize
  file : ∀ i, Loads m exe i → pFilesz m (header m exe i) ≠ 0 →
    exe + pOffset m (header m exe i) + pFilesz m (header m exe i) ≤ memUserLo

def segmentByte (ph k : ℕ) : UInt8 := if k < pFilesz m ph then m (exe + pOffset m ph + k) else 0

/-- The address is on one of the pages that a segment takes, its first and last ones included. -/
def SegmentCovers (ph x : ℕ) : Prop := roundDown (pVa m ph) pageSize ≤ x ∧ x < segmentEnd m ph

instance (ph x : ℕ) : Decidable (SegmentCovers m ph x) := inferInstanceAs (Decidable (_ ∧ _))

/-- What a segment brings to an address on its pages: what the file has around the segment up to
its end in the file, and zeroes from there on. -/
def segmentFill (ph x : ℕ) : UInt8 :=
  if x < pVa m ph + pFilesz m ph ∧ pFilesz m ph ≠ 0 then
    m (exe + roundDown (pOffset m ph) pageSize + (x - roundDown (pVa m ph) pageSize))
  else 0

/-- The last segment to take a page brings the bytes that earlier segments have there. -/
def SharedPagesAgree : Prop :=
  ∀ i j, i < j → Loads m exe i → Loads m exe j → ∀ k < pMemsz m (header m exe i),
    SegmentCovers m (header m exe j) (pVa m (header m exe i) + k) →
    (∀ l, j < l → Loads m exe l →
      ¬ SegmentCovers m (header m exe l) (pVa m (header m exe i) + k)) →
    segmentFill m exe (header m exe j) (pVa m (header m exe i) + k) =
      segmentByte m exe (header m exe i) k

end Image

variable {m : Memory} {exe ph perm zva va fa n x i k : ℕ} {b : Option UInt8}

theorem pagesFrom_foldl : (pagesFrom ph perm zva va fa n).foldl (afterRound m x) b =
    if va ≤ x ∧ x < va + n * 4096 then
      some (roundByte m ⟨ph, perm, zva, va + (x - va) / 4096 * 4096,
        u32 (fa + (x - va) / 4096 * 4096)⟩ x)
    else b := by
  rw [pagesFrom, List.foldl_map]
  induction n with
  | zero =>
    rw [if_neg (by omega)]
    rfl
  | succ n ih =>
    rw [List.range_succ, List.foldl_append, ih, List.foldl_cons, List.foldl_nil, afterRound]
    by_cases hcov : PageLoad.Covers ⟨ph, perm, zva, va + n * 4096, u32 (fa + n * 4096)⟩ x
    · have hcov' : va + n * 4096 ≤ x ∧ x < va + n * 4096 + 4096 := hcov
      have hdiv : (x - va) / 4096 = n := by omega
      rw [if_pos hcov, if_pos (by omega), hdiv]
    · have hcov' : ¬ (va + n * 4096 ≤ x ∧ x < va + n * 4096 + 4096) := hcov
      rw [if_neg hcov]
      exact if_congr (by omega) rfl rfl

theorem WellFormed.segment (h : WellFormed m exe) (hi : Loads m exe i) :
    (0x40000000 ≤ pVa m (header m exe i) ∧
      pVa m (header m exe i) + pMemsz m (header m exe i) ≤ 0xF0000000) ∧
    roundDown (pVa m (header m exe i)) pageSize = pVa m (header m exe i) / 4096 * 4096 ∧
    segmentEnd m (header m exe i) =
      (pVa m (header m exe i) + pMemsz m (header m exe i) + 4095) / 4096 * 4096 := by
  have hrange : 0x40000000 ≤ pVa m (header m exe i) ∧
      pVa m (header m exe i) + pMemsz m (header m exe i) ≤ 0xF0000000 := h.range i hi
  refine ⟨hrange, roundDown_page _, ?_⟩
  rw [segmentEnd, u32_of_lt (by omega), roundUp_page (by omega)]

theorem WellFormed.source (h : WellFormed m exe) (hi : Loads m exe i)
    (hx : x < pVa m (header m exe i) + pFilesz m (header m exe i))
    (hne : pFilesz m (header m exe i) ≠ 0) :
    exe + roundDown (pOffset m (header m exe i)) pageSize +
      (x - roundDown (pVa m (header m exe i)) pageSize) < 0x40000000 := by
  have hfile := h.file i hi hne
  have hcong := h.congruent i hi
  simp only [memUserLo, pageSize] at hfile hcong
  rw [roundDown_page, roundDown_page]
  omega

theorem WellFormed.filesz_le (h : WellFormed m exe) (hi : Loads m exe i) :
    u32 (pVa m (header m exe i) + pFilesz m (header m exe i)) =
      pVa m (header m exe i) + pFilesz m (header m exe i) := by
  have hfilesz := h.filesz i hi
  have hrange := (h.segment hi).1
  exact u32_of_lt (by omega)

theorem segmentPages_foldl (h : WellFormed m exe) (hi : Loads m exe i) :
    (segmentPages m exe (header m exe i)).foldl (afterRound m x) b =
      if SegmentCovers m (header m exe i) x then some (segmentFill m exe (header m exe i) x)
      else b := by
  have htype : ¬ pType m (header m exe i) ≠ elfProgLoad := not_not.mpr hi.2
  have hsub := segmentEnd_sub m (header m exe i)
  have hz := h.filesz_le hi
  rw [segmentPages, if_neg htype, pagesFrom_foldl]
  by_cases hcov : SegmentCovers m (header m exe i) x
  · have hcov' := hcov
    obtain ⟨hlo, hhi⟩ := hcov'
    rw [if_pos hcov, if_pos (by omega), roundByte, segmentFill]
    dsimp only
    rw [hz]
    by_cases hfile : x < pVa m (header m exe i) + pFilesz m (header m exe i) ∧
        pFilesz m (header m exe i) ≠ 0
    · have hsrc := h.source hi hfile.1 hfile.2
      rw [if_pos hfile, if_pos hfile]
      congr 2
      simp only [u32]
      omega
    · rw [if_neg hfile, if_neg hfile]
  · have hcov' : ¬ (roundDown (pVa m (header m exe i)) pageSize ≤ x ∧
        x < segmentEnd m (header m exe i)) := hcov
    rw [if_neg hcov, if_neg (by omega)]

theorem WellFormed.programHeaders_eq (h : WellFormed m exe) :
    programHeaders m exe = exe + ePhoff m exe := by
  have hh := h.headers
  simp only [memUserLo] at hh
  exact u32_of_lt (by omega)

theorem WellFormed.imagePages_eq (h : WellFormed m exe) :
    imagePages m exe = tablePages m exe (programHeaders m exe) (ePhnum m exe) := by
  have hh := h.headers
  have hp := h.programHeaders_eq
  simp only [memUserLo, proghdrSize] at hh
  rw [imagePages, if_pos (by omega)]

/-- The last segment to take the page of an address decides on its byte. -/
theorem imagePages_foldl (h : WellFormed m exe) (hi : Loads m exe i)
    (hcov : SegmentCovers m (header m exe i) x)
    (hlast : ∀ l, i < l → Loads m exe l → ¬ SegmentCovers m (header m exe l) x) :
    (imagePages m exe).foldl (afterRound m x) b =
      some (segmentFill m exe (header m exe i) x) := by
  rw [h.imagePages_eq, tablePages, List.foldl_flatMap]
  refine foldl_range_last (C := fun k ↦ pType m (header m exe k) = elfProgLoad ∧
      SegmentCovers m (header m exe k) x)
    (v := fun k ↦ some (segmentFill m exe (header m exe k) x)) b ?_ hi.1 ⟨hi.2, hcov⟩
    fun l hl hn hC ↦ hlast l hl ⟨hn, hC.1⟩ hC.2
  intro b' k hk
  by_cases htype : pType m (header m exe k) = elfProgLoad
  · have hseg := segmentPages_foldl (x := x) (b := b') h ⟨hk, htype⟩
    simp only [htype, true_and]
    exact hseg
  · have hseg : segmentPages m exe (header m exe k) = [] := if_pos htype
    rw [if_neg fun hC ↦ htype hC.1]
    exact congrArg (List.foldl (afterRound m x) b') hseg

theorem WellFormed.covers (h : WellFormed m exe) (hi : Loads m exe i)
    (hk : k < pMemsz m (header m exe i)) :
    SegmentCovers m (header m exe i) (pVa m (header m exe i) + k) := by
  obtain ⟨_, hrd, hend⟩ := h.segment hi
  rw [SegmentCovers, hrd, hend]
  omega

theorem WellFormed.fill_self (h : WellFormed m exe) (hi : Loads m exe i) :
    segmentFill m exe (header m exe i) (pVa m (header m exe i) + k) =
      segmentByte m exe (header m exe i) k := by
  have hcong := h.congruent i hi
  simp only [pageSize] at hcong
  rw [segmentFill, segmentByte]
  by_cases hk : k < pFilesz m (header m exe i)
  · rw [if_pos ⟨by omega, by omega⟩, if_pos hk, roundDown_page, roundDown_page]
    congr 1
    omega
  · rw [if_neg hk, if_neg fun hx ↦ hk (by omega)]

theorem exists_last (hi : Loads m exe i) (hcov : SegmentCovers m (header m exe i) x) :
    ∃ j, i ≤ j ∧ Loads m exe j ∧ SegmentCovers m (header m exe j) x ∧
      ∀ l, j < l → Loads m exe l → ¬ SegmentCovers m (header m exe l) x := by
  classical
  let P := fun l ↦ Loads m exe l ∧ SegmentCovers m (header m exe l) x
  have hP : P (Nat.findGreatest P (ePhnum m exe)) := Nat.findGreatest_spec hi.1.le ⟨hi, hcov⟩
  refine ⟨Nat.findGreatest P (ePhnum m exe), Nat.le_findGreatest hi.1.le ⟨hi, hcov⟩, hP.1, hP.2,
    fun l hl hload hcov' ↦ ?_⟩
  exact Nat.findGreatest_is_greatest hl hload.1.le ⟨hload, hcov'⟩

theorem WellFormed.pages (h : WellFormed m exe) {p : PageLoad} (hp : p ∈ imagePages m exe) :
    SourceOk m p ∧ 0x40000000 ≤ p.va ∧ p.va < 0xF0000000 := by
  obtain ⟨i, hi, j, htype, rfl, hend⟩ := exists_segment hp
  have hload : Loads m exe i := ⟨hi, htype⟩
  obtain ⟨hrange, hrd, hsend⟩ := h.segment hload
  have hz := h.filesz_le hload
  have hh := h.headers
  have hph := h.programHeaders_eq
  have hcong := h.congruent i hload
  have hro := roundDown_page (pOffset m (header m exe i))
  simp only [memUserLo, proghdrSize] at hh
  simp only [pageSize] at hcong
  rw [segmentPage] at hend ⊢
  dsimp only at hend ⊢
  rw [hrd, hz, hro]
  rw [hrd] at hend
  refine ⟨⟨?_, fun hlt hne ↦ ?_, fun hlt ↦ ?_⟩, by omega⟩
  · dsimp only
    simp only [header, proghdrSize]
    omega
  · have hfile := h.file i hload hne
    simp only [memUserLo] at hfile
    dsimp only at hlt ⊢
    simp only [u32]
    omega
  · rw [roundDown_page] at hlt
    dsimp only at hlt ⊢
    omega

end StormOS.Elf
