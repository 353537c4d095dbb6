import StormOS.ElfSegments
import StormOS.ElfReturns

namespace StormOS.Elf

open Library.Bytes Library.Loops
open PhysicalMemory hiding State
open AddressSpaces Machine VirtualMemory UserCopy Isolation Function

/-- What process `pid` finds in its memory is what the file describes. -/
def ImageLoaded (m : Memory) (exe pid : ℕ) (s : State) : Prop :=
  ∀ i, Loads m exe i → ∀ k < pMemsz m (header m exe i),
    HoldsByte s pid (pVa m (header m exe i) + k) (segmentByte m exe (header m exe i) k)

variable {L : Layout} {s s' : State} {exe pid x : ℕ}

theorem WellFormed.elfLoad_eq (h : WellFormed s.memory exe) (hs : Isolated L s)
    (hpid : 1 ≤ pid ∧ pid < 64) :
    elfLoad s exe pid = loadAll pid s (imagePages s.memory exe) := by
  have hh := h.headers
  have hp := h.programHeaders_eq
  simp only [memUserLo] at hh
  refine Elf.elfLoad_eq
    (P := fun s' ↦ Isolated L s' ∧ AgreeOn s.memory s'.memory 0 0x40000000) ?_ ?_
    ⟨hs, AgreeOn.refl _ _ _⟩ h.accepted
  · intro s' hs'
    apply hs'.2.mono (by omega)
    rw [programHeadersEnd, hp, u32_of_lt (by omega)]
    exact hh
  · intro p hmem s₁ s₂ hinv hrun
    obtain ⟨hs₁, hagree⟩ := hinv
    obtain ⟨haligned, _, hperm⟩ := mem_imagePages hmem
    obtain ⟨hs₂, _, hmap, _⟩ :=
      loadPage_isolated hs₁ hpid haligned (h.pages hmem).2 hperm hrun
    exact ⟨hs₂, hagree.trans hmap.kernel⟩

theorem WellFormed.holds (h : WellFormed s.memory exe) (hs : Isolated L s)
    (hpid : 1 ≤ pid ∧ pid < 64) (hload : elfLoad s exe pid = some s')
    (hx : 0x40000000 ≤ x ∧ x < 0xF0000000) {j : ℕ} (hj : Loads s.memory exe j)
    (hcov : SegmentCovers s.memory (header s.memory exe j) x)
    (hlast : ∀ l, j < l → Loads s.memory exe l →
      ¬ SegmentCovers s.memory (header s.memory exe l) x) :
    HoldsByte s' pid x (segmentFill s.memory exe (header s.memory exe j) x) := by
  rw [h.elfLoad_eq hs hpid] at hload
  have hholds := holds_loadAll (x := x) (b := none) hs hpid (AgreeOn.refl s.memory 0 0x40000000)
    (fun p hp ↦ (h.pages hp).1) (fun p hp ↦ mem_imagePages hp) (fun p hp ↦ (h.pages hp).2) hload
    hx (fun v hv ↦ by cases hv)
  exact hholds _ (imagePages_foldl h hj hcov hlast)

/-- The load of a well-formed image returns, and builds the memory that the file describes exactly
when pages that segments share get the same bytes from both. -/
theorem elfLoad_imageLoaded_iff (hs : Isolated L s) (hpid : 1 ≤ pid ∧ pid < maxProcs)
    (h : WellFormed s.memory exe)
    (hafford : Affords s.physical pid (demand s pid (imagePages s.memory exe))) :
    ∃ s', elfLoad s exe pid = some s' ∧
      (ImageLoaded s.memory exe pid s' ↔ SharedPagesAgree s.memory exe) := by
  obtain ⟨s', hs'⟩ := loadAll_returns (Isolated.contained hs hpid.2) hpid.2
    (fun p hp ↦ mem_imagePages hp) hafford
  have hload : elfLoad s exe pid = some s' := (h.elfLoad_eq hs hpid).trans hs'
  have hx {i k : ℕ} (hi : Loads s.memory exe i)
      (hk : k < pMemsz s.memory (header s.memory exe i)) :
      0x40000000 ≤ pVa s.memory (header s.memory exe i) + k ∧
        pVa s.memory (header s.memory exe i) + k < 0xF0000000 := by
    have hrange := (h.segment hi).1
    omega
  refine ⟨s', hload, fun hloaded i j hij hi hj k hk hcov hlast ↦ ?_, fun hagree i hi k hk ↦ ?_⟩
  · have hfound := h.holds hs hpid hload (hx hi hk) hj hcov hlast
    exact hfound.2.symm.trans (hloaded i hi k hk).2
  · obtain ⟨j, hij, hj, hcov, hlast⟩ := exists_last hi (h.covers hi hk)
    have hfound := h.holds hs hpid hload (hx hi hk) hj hcov hlast
    rcases hij.eq_or_lt with rfl | hlt
    · rwa [h.fill_self hi] at hfound
    · rwa [hagree i j hlt hi hj k hk hcov hlast] at hfound

def SegmentsDisjoint (m : Memory) (exe : ℕ) : Prop :=
  ∀ i j, Loads m exe i → Loads m exe j → i ≠ j →
    pVa m (header m exe i) + pMemsz m (header m exe i) ≤ pVa m (header m exe j) ∨
      pVa m (header m exe j) + pMemsz m (header m exe j) ≤ pVa m (header m exe i)

def sharedFile : List UInt8 :=
  elfFile 0x40000000 [loadHeader 0 0x40000000 1 1 5, loadHeader 0x10 0x40000010 0 1 6]

theorem sharedFile_isolated : Isolated lowLayout (bootedWith sharedFile) :=
  bootedWith_isolated (by decide +kernel)

theorem sharedFile_loads {i : ℕ} (h : Loads (bootedWith sharedFile).memory 0x10000000 i) :
    i = 0 ∨ i = 1 := by
  have hn : ePhnum (bootedWith sharedFile).memory 0x10000000 = 2 := by decide +kernel
  have hlt := h.1
  omega

theorem sharedFile_wellFormed : WellFormed (bootedWith sharedFile).memory 0x10000000 := by
  constructor
  · decide +kernel
  · decide +kernel
  all_goals
    intro i hi
    rcases sharedFile_loads hi with rfl | rfl
    · decide +kernel
    · decide +kernel

theorem sharedFile_disjoint : SegmentsDisjoint (bootedWith sharedFile).memory 0x10000000 := by
  intro i j hi hj hne
  rcases sharedFile_loads hi with rfl | rfl
  · rcases sharedFile_loads hj with rfl | rfl
    · exact absurd rfl hne
    · decide +kernel
  · rcases sharedFile_loads hj with rfl | rfl
    · decide +kernel
    · exact absurd rfl hne

theorem sharedFile_affords : Affords (bootedWith sharedFile).physical 1 (demand
    (bootedWith sharedFile) 1 (imagePages (bootedWith sharedFile).memory 0x10000000)) := by
  have hpages : (imagePages (bootedWith sharedFile).memory 0x10000000).length = 2 := by
    decide +kernel
  refine bootedWith_affords sharedFile 1 ((demand_le _ _ _).trans ?_)
  rw [hpages]

theorem elfLoad_imageLoaded_iff_sharedFile : ∃ s',
    elfLoad (bootedWith sharedFile) 0x10000000 1 = some s' ∧
      (ImageLoaded (bootedWith sharedFile).memory 0x10000000 1 s' ↔
        SharedPagesAgree (bootedWith sharedFile).memory 0x10000000) :=
  elfLoad_imageLoaded_iff sharedFile_isolated (by decide) sharedFile_wellFormed sharedFile_affords

theorem shared_page_overwritten : ¬ ∀ (L : Layout) (s : State) (exe pid : ℕ), Isolated L s →
    (1 ≤ pid ∧ pid < maxProcs) → (∀ j, UserTable pid j → s.pageDirEntries pid j = 0) →
    WellFormed s.memory exe → SegmentsDisjoint s.memory exe →
    Affords s.physical pid (demand s pid (imagePages s.memory exe)) →
    ∃ s', elfLoad s exe pid = some s' ∧ ImageLoaded s.memory exe pid s' := by
  intro h
  obtain ⟨s', hload, himage⟩ := h _ _ 0x10000000 1 sharedFile_isolated (by decide)
    (fun j hj ↦ bootedWith_pde sharedFile hj) sharedFile_wellFormed sharedFile_disjoint
    sharedFile_affords
  have h₀ : Loads (bootedWith sharedFile).memory 0x10000000 0 :=
    ⟨by decide +kernel, by decide +kernel⟩
  have h₁ : Loads (bootedWith sharedFile).memory 0x10000000 1 :=
    ⟨by decide +kernel, by decide +kernel⟩
  have hfirst := (himage 0 h₀ 0 (by decide +kernel)).2
  have hlast := (sharedFile_wellFormed.holds (x := 0x40000000) sharedFile_isolated (by decide) hload
    (by decide) h₁ (by decide +kernel) fun l hl hl' ↦ by
      have hl'' := sharedFile_loads hl'
      omega).2
  have hva : pVa (bootedWith sharedFile).memory (header (bootedWith sharedFile).memory 0x10000000 0)
      + 0 = 0x40000000 := by decide +kernel
  rw [hva] at hfirst
  exact absurd (hfirst.symm.trans hlast) (by decide +kernel)

end StormOS.Elf
