import StormOS.Elf

namespace StormOS.Elf

open Library.Bytes Machine VirtualMemory UserCopy

/-- One round of the page loop, as the program headers call for it. -/
structure PageLoad where
  ph : ℕ
  perm : ℕ
  zva : ℕ
  va : ℕ
  fa : ℕ
  deriving DecidableEq

def PageLoad.run (pid : ℕ) (s : State) (p : PageLoad) : Option State :=
  loadPage s pid p.ph p.perm p.zva p.va p.fa

def loadAll (pid : ℕ) (s : State) (pages : List PageLoad) : Option State :=
  pages.foldlM (PageLoad.run pid) s

def pagesFrom (ph perm zva va fa n : ℕ) : List PageLoad :=
  (List.range n).map fun k ↦ ⟨ph, perm, zva, va + k * 4096, u32 (fa + k * 4096)⟩

def segmentEnd (m : Memory) (ph : ℕ) : ℕ := roundUp (u32 (pVa m ph + pMemsz m ph)) pageSize

/-- The rounds that one program header calls for. -/
def segmentPages (m : Memory) (exe ph : ℕ) : List PageLoad :=
  if pType m ph ≠ elfProgLoad then []
  else
    pagesFrom ph (segmentPerm (pFlags m ph)) (u32 (pVa m ph + pFilesz m ph))
      (roundDown (pVa m ph) pageSize) (u32 (exe + roundDown (pOffset m ph) pageSize))
      ((segmentEnd m ph - roundDown (pVa m ph) pageSize) / 4096)

def tablePages (m : Memory) (exe ph n : ℕ) : List PageLoad :=
  (List.range n).flatMap fun k ↦ segmentPages m exe (ph + k * 32)

/-- The rounds of a whole image. A header table that runs over the end of memory is skipped. -/
def imagePages (m : Memory) (exe : ℕ) : List PageLoad :=
  tablePages m exe (programHeaders m exe)
    (if programHeaders m exe + ePhnum m exe * 32 < 2 ^ 32 then ePhnum m exe else 0)

variable {pid : ℕ} {s s' : State} {m : Memory} {exe ph perm zva eva va fa n : ℕ}

@[simp] theorem loadAll_nil : loadAll pid s [] = some s := rfl

theorem loadAll_cons (p : PageLoad) (pages : List PageLoad) :
    loadAll pid s (p :: pages) = (p.run pid s).bind fun s ↦ loadAll pid s pages := rfl

theorem loadAll_append (ps qs : List PageLoad) :
    loadAll pid s (ps ++ qs) = (loadAll pid s ps).bind fun s ↦ loadAll pid s qs :=
  List.foldlM_append ..

theorem loadAll_invariant {P : State → Prop} {pages : List PageLoad} (hs : P s)
    (hstep : ∀ p ∈ pages, ∀ s s', P s → p.run pid s = some s' → P s')
    (hload : loadAll pid s pages = some s') : P s' := by
  induction pages generalizing s with
  | nil =>
    rw [loadAll_nil, Option.some.injEq] at hload
    exact hload ▸ hs
  | cons p pages ih =>
    rw [loadAll_cons, Option.bind_eq_some_iff] at hload
    obtain ⟨s₁, hp, hload⟩ := hload
    exact ih (hstep p (by simp) s s₁ hs hp)
      (fun q hq ↦ hstep q (List.mem_cons_of_mem p hq)) hload

theorem pagesFrom_succ : pagesFrom ph perm zva va fa (n + 1) =
    ⟨ph, perm, zva, va, u32 fa⟩ :: pagesFrom ph perm zva (va + 4096) (u32 (fa + 4096)) n := by
  rw [pagesFrom, pagesFrom, List.range_succ_eq_map, List.map_cons, List.map_map, Nat.zero_mul,
    Nat.add_zero, Nat.add_zero]
  refine congrArg (List.cons _) (List.map_congr_left fun k _ ↦ ?_)
  have hva : va + (k + 1) * 4096 = va + 4096 + k * 4096 := by omega
  have hfa : u32 (fa + (k + 1) * 4096) = u32 (u32 (fa + 4096) + k * 4096) := by
    simp only [u32]
    omega
  simp only [Function.comp, Nat.succ_eq_add_one, hva, hfa]

theorem loadPages_eq (hfa : fa < 2 ^ 32) (heva : eva - va = n * 4096) :
    loadPages s pid ph perm zva eva va fa = loadAll pid s (pagesFrom ph perm zva va fa n) := by
  induction n generalizing s va fa with
  | zero =>
    rw [loadPages, if_neg (by omega)]
    rfl
  | succ n ih =>
    rw [loadPages, if_pos (by omega), pagesFrom_succ, loadAll_cons, u32_of_lt hfa]
    refine congrArg _ (funext fun s ↦ ?_)
    exact ih (u32_lt _) (by simp only [pageSize]; omega)

theorem segmentEnd_sub (m : Memory) (ph : ℕ) :
    segmentEnd m ph - roundDown (pVa m ph) pageSize =
      (segmentEnd m ph - roundDown (pVa m ph) pageSize) / 4096 * 4096 := by
  rw [segmentEnd, roundUp, roundDown_page, roundDown_page]
  omega

theorem loadSegment_eq (s : State) (pid exe ph : ℕ) :
    loadSegment s exe pid ph = loadAll pid s (segmentPages s.memory exe ph) := by
  rw [loadSegment, segmentPages]
  split
  · rfl
  · exact loadPages_eq (u32_lt _) (segmentEnd_sub s.memory ph)

/-- The header fields are read from the words of the header. -/
theorem segmentPages_congr (h : AgreeOn m s.memory ph (ph + 32)) :
    segmentPages s.memory exe ph = segmentPages m exe ph := by
  have hf (k : ℕ) (hk : k + 4 ≤ 32) : load32 s.memory (ph + k) = load32 m (ph + k) :=
    h.load32 (by omega) (by omega)
  have h₀ : load32 s.memory ph = load32 m ph := hf 0 (by omega)
  have h₄ := hf 4 (by omega)
  have h₈ := hf 8 (by omega)
  have h₁₆ := hf 16 (by omega)
  have h₂₀ := hf 20 (by omega)
  have h₂₄ := hf 24 (by omega)
  simp only [segmentPages, segmentEnd, pType, pOffset, pVa, pFilesz, pMemsz, pFlags, h₀, h₄, h₈,
    h₁₆, h₂₀, h₂₄]
  rfl

theorem tablePages_succ (m : Memory) (exe ph n : ℕ) :
    tablePages m exe ph (n + 1) = segmentPages m exe ph ++ tablePages m exe (ph + 32) n := by
  rw [tablePages, tablePages, List.range_succ_eq_map, List.flatMap_cons, List.flatMap_map,
    Nat.zero_mul, Nat.add_zero]
  refine congrArg (segmentPages m exe ph ++ ·) (List.flatMap_congr fun k _ ↦ ?_)
  rw [Nat.succ_eq_add_one, Nat.succ_mul, Nat.add_assoc, Nat.add_comm 32]

/-- As long as an invariant keeps the headers in place, the loop over them runs the rounds that
the headers called for at the start. -/
theorem loadSegments_eq {P : State → Prop} (hP : ∀ s, P s → AgreeOn m s.memory ph (ph + n * 32))
    (hstep : ∀ p ∈ tablePages m exe ph n, ∀ s s', P s → p.run pid s = some s' → P s')
    (hs : P s) :
    loadSegments s exe pid ph (ph + n * 32) = loadAll pid s (tablePages m exe ph n) := by
  induction n generalizing s ph with
  | zero =>
    rw [loadSegments, if_neg (by omega)]
    rfl
  | succ n ih =>
    rw [tablePages_succ] at hstep ⊢
    have hhead : segmentPages s.memory exe ph = segmentPages m exe ph :=
      segmentPages_congr ((hP s hs).mono le_rfl (by omega))
    have hend : ph + (n + 1) * 32 = ph + 32 + n * 32 := by omega
    rw [loadSegments, if_pos (by omega), loadSegment_eq, hhead, loadAll_append]
    cases hseg : loadAll pid s (segmentPages m exe ph) with
    | none => rfl
    | some s₁ =>
      have hs₁ : P s₁ := loadAll_invariant hs
        (fun p hp ↦ hstep p (List.mem_append_left _ hp)) hseg
      rw [Option.bind_some, Option.bind_some, hend]
      exact ih (fun s hs ↦ hend ▸ (hP s hs).mono (by omega) (by omega))
        (fun p hp ↦ hstep p (List.mem_append_right _ hp)) hs₁

def Accepted (m : Memory) (exe : ℕ) : Prop :=
  eMagic m exe = elfMagic ∧ eShstrndx m exe ≠ elfShnUndef ∧
    shType m (u32 (u32 (exe + eShoff m exe) + eShstrndx m exe * sechdrSize)) = elfShtStrtab

instance (m : Memory) (exe : ℕ) : Decidable (Accepted m exe) := inferInstanceAs (Decidable (_ ∧ _))

theorem elfLoad_of_accepted (h : Accepted s.memory exe) : elfLoad s exe pid =
    loadSegments s exe pid (programHeaders s.memory exe) (programHeadersEnd s.memory exe) := by
  obtain ⟨hmagic, hshn, hsh⟩ := h
  rw [elfLoad, if_neg (by simp [hmagic]), if_neg hshn]
  dsimp only
  rw [if_neg (by simp [hsh])]

theorem elfLoad_eq {P : State → Prop}
    (hP : ∀ s', P s' → AgreeOn s.memory s'.memory (programHeaders s.memory exe)
      (programHeadersEnd s.memory exe))
    (hstep : ∀ p ∈ imagePages s.memory exe, ∀ s s', P s → p.run pid s = some s' → P s')
    (hs : P s) (hacc : Accepted s.memory exe) :
    elfLoad s exe pid = loadAll pid s (imagePages s.memory exe) := by
  rw [elfLoad_of_accepted hacc]
  rw [programHeadersEnd] at hP ⊢
  by_cases hend : programHeaders s.memory exe + ePhnum s.memory exe * 32 < 2 ^ 32
  · have he : u32 (programHeaders s.memory exe + ePhnum s.memory exe * proghdrSize) =
        programHeaders s.memory exe + ePhnum s.memory exe * 32 := u32_of_lt hend
    rw [imagePages, if_pos hend] at hstep ⊢
    rw [he] at hP ⊢
    exact loadSegments_eq hP hstep hs
  · have hph : programHeaders s.memory exe < 2 ^ 32 := u32_lt _
    have hnum : ePhnum s.memory exe < 2 ^ 16 := load16_lt _ _
    have hwrap : ¬ programHeaders s.memory exe <
        u32 (programHeaders s.memory exe + ePhnum s.memory exe * proghdrSize) := by
      simp only [u32, proghdrSize]
      omega
    rw [imagePages, if_neg hend, loadSegments, if_neg hwrap]
    rfl

theorem accepted_of_elfLoad (h : elfLoad s exe pid = some s') : Accepted s.memory exe := by
  rw [elfLoad] at h
  by_cases hmagic : eMagic s.memory exe ≠ elfMagic
  · rw [if_pos hmagic] at h
    cases h
  · by_cases hshn : eShstrndx s.memory exe = elfShnUndef
    · rw [if_neg hmagic, if_pos hshn] at h
      cases h
    · rw [if_neg hmagic, if_neg hshn] at h
      dsimp only at h
      by_cases hsh : shType s.memory (u32 (u32 (exe + eShoff s.memory exe) +
          eShstrndx s.memory exe * sechdrSize)) ≠ elfShtStrtab
      · rw [if_pos hsh] at h
        cases h
      · exact ⟨not_not.mp hmagic, hshn, not_not.mp hsh⟩

def header (m : Memory) (exe i : ℕ) : ℕ := programHeaders m exe + i * proghdrSize

def segmentPage (m : Memory) (exe ph k : ℕ) : PageLoad :=
  ⟨ph, segmentPerm (pFlags m ph), u32 (pVa m ph + pFilesz m ph),
    roundDown (pVa m ph) pageSize + k * 4096,
    u32 (u32 (exe + roundDown (pOffset m ph) pageSize) + k * 4096)⟩

theorem exists_segment {p : PageLoad} (hp : p ∈ imagePages m exe) :
    ∃ i < ePhnum m exe, ∃ k, pType m (header m exe i) = elfProgLoad ∧
      p = segmentPage m exe (header m exe i) k ∧
      p.va + 4096 ≤ segmentEnd m (header m exe i) := by
  rw [imagePages, tablePages, List.mem_flatMap] at hp
  obtain ⟨i, hi, hp⟩ := hp
  have hn : i < ePhnum m exe := by
    have hi' := List.mem_range.mp hi
    split at hi'
    · exact hi'
    · omega
  rw [segmentPages] at hp
  split at hp
  · simp at hp
  · rename_i htype
    obtain ⟨k, hk, rfl⟩ := List.mem_map.mp hp
    have hk' := List.mem_range.mp hk
    have hheader : header m exe i = programHeaders m exe + i * 32 := rfl
    have hsub := segmentEnd_sub m (header m exe i)
    refine ⟨i, hn, k, not_not.mp htype, rfl, ?_⟩
    rw [← hheader] at hk' ⊢
    dsimp only
    omega

theorem segmentEnd_lt (m : Memory) (ph : ℕ) : segmentEnd m ph < 2 ^ 32 := by
  rw [segmentEnd, roundUp]
  exact (roundDown_le _ _).trans_lt (u32_lt _)

theorem segmentPerm_cases (flags : ℕ) : segmentPerm flags = 5 ∨ segmentPerm flags = 7 := by
  rw [segmentPerm]
  split
  · exact .inr rfl
  · exact .inl rfl

theorem mem_imagePages {p : PageLoad} (hp : p ∈ imagePages m exe) :
    p.va % 4096 = 0 ∧ p.va < 2 ^ 32 ∧ (p.perm = 5 ∨ p.perm = 7) := by
  obtain ⟨i, _, k, _, rfl, hend⟩ := exists_segment hp
  have hlt := segmentEnd_lt m (header m exe i)
  refine ⟨?_, by omega, segmentPerm_cases _⟩
  rw [segmentPage, roundDown_page]
  dsimp only
  omega

end StormOS.Elf
