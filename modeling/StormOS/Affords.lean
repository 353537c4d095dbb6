import StormOS.Translation

namespace StormOS.Isolation

open Library.Bytes
open PhysicalMemory hiding State
open Machine VirtualMemory Function

/-- The container has quota left for `n` pages, and there are as many free pages. -/
structure Affords (p : PhysicalMemory.State) (id n : ℕ) : Prop where
  usage : 0 ≤ (p.containers id).usage
  quota : (p.containers id).usage + n ≤ (p.containers id).quota
  int : (p.containers id).quota < 2 ^ 31
  free : n ≤ (freePages p).card

variable {L : Layout} {s s' : State} {p : PhysicalMemory.State} {id pid n va perm : ℕ}

theorem Affords.mono (h : Affords p id n) {m : ℕ} (hm : m ≤ n) : Affords p id m := by
  have hq := h.quota
  have hf := h.free
  exact ⟨h.usage, by omega, h.int, by omega⟩

/-- A page that one container is given costs every container one. -/
theorem containerAlloc_affords (hl : p.lastFreedPage = -1) (hc : CursorOk p)
    (h : Affords p id 1) :
    ∃ p' page, containerAlloc p id = (p', page) ∧ page ≠ 0 ∧ p'.lastFreedPage = -1 ∧
      CursorOk p' ∧ ∀ i m, Affords p i (m + 1) → Affords p' i m := by
  have hq := h.quota
  have hu := h.usage
  have hi := h.int
  have hf := h.free
  rcases containerAlloc_cases hl hc id with ⟨page, hup, hfree, _, ha⟩ | ⟨hfull, _⟩ | ⟨hnone, _⟩
  · have hb := hup.bounds
    have hint : int32 ((p.containers id).usage + 1) = (p.containers id).usage + 1 :=
      int32_of_bounds (by omega) (by omega)
    have hcard : (freePages (takePage (setUsage p id ((p.containers id).usage + 1)) page)).card =
        (freePages p).card - 1 := by
      have hpages : freePages (setUsage p id ((p.containers id).usage + 1)) = freePages p := rfl
      rw [freePages_takePage, hpages, Finset.card_erase_of_mem (mem_freePages.mpr ⟨hup, hfree⟩)]
    have hcont : (takePage (setUsage p id ((p.containers id).usage + 1)) page).containers =
        update p.containers id { p.containers id with usage := (p.containers id).usage + 1 } := by
      simp only [takePage_containers, setUsage, hint]
    refine ⟨_, page, ha, by omega, hl, takePage_cursorOk _ hup, fun i m h' ↦ ?_⟩
    have hq' := h'.quota
    have hu' := h'.usage
    have hi' := h'.int
    have hf' := h'.free
    push_cast at hq'
    by_cases hid : i = id
    · subst i
      constructor
      · rw [hcont, update_self]
        dsimp only
        omega
      · rw [hcont, update_self]
        dsimp only
        omega
      · rw [hcont, update_self]
        exact hi'
      · omega
    · constructor
      · rwa [hcont, update_of_ne hid]
      · rw [hcont, update_of_ne hid]
        omega
      · rwa [hcont, update_of_ne hid]
      · omega
  · omega
  · rw [freePages_eq_empty hnone, Finset.card_empty] at hf
    omega

def cost (s : State) (pid va : ℕ) : ℕ := if s.pageDirEntries pid (vaPdeIndex va) = 0 then 2 else 1

theorem cost_le (s : State) (pid va : ℕ) : cost s pid va ≤ 2 := by
  rw [cost]
  split
  · exact le_rfl
  · exact Nat.le_succ 1

theorem allocPage_affords (perm : ℕ) (hl : s.physical.lastFreedPage = -1) (hc : CursorOk s.physical)
    (h : Affords s.physical pid (cost s pid va)) :
    ∃ s₁ result, allocPage s pid va perm = (s₁, result, 0) ∧
      (∀ i m, Affords s.physical i (m + cost s pid va) → Affords s₁.physical i m) ∧
      ∀ j, s₁.pageDirEntries pid j = 0 ↔ s.pageDirEntries pid j = 0 ∧ j ≠ vaPdeIndex va := by
  by_cases ht : s.pageDirEntries pid (vaPdeIndex va) = 0
  · have hcost : cost s pid va = 2 := if_pos ht
    rw [hcost] at h ⊢
    obtain ⟨p, page, ha, hpage, hl', hc', h'⟩ := containerAlloc_affords hl hc
      (h.mono (by decide))
    obtain ⟨p', table, ha', htable, hl'', hc'', h''⟩ := containerAlloc_affords hl' hc' (h' pid 1 h)
    have hut : UserPage table := by
      rcases containerAlloc_cases hl' hc' pid with ⟨t, hut, _, _, hat⟩ | ⟨_, hat⟩ | ⟨_, hat⟩
      · rw [hat] at ha'
        exact (Prod.mk.inj ha').2 ▸ hut
      · rw [hat] at ha'
        exact absurd (Prod.mk.inj ha').2.symm htable
      · rw [hat] at ha'
        exact absurd (Prod.mk.inj ha').2.symm htable
    refine ⟨setPageTableEntry (withTable { s with physical := p' } pid (vaPdeIndex va) table) pid
      (vaPdeIndex va) (vaPteIndex va) page perm, table, ?_,
      fun i m hm ↦ h'' i m (h' i (m + 1) hm), fun j ↦ ?_⟩
    · simp only [allocPage, ha, hpage, if_false, mapPage, ht, ne_eq, not_true, allocPageTable, ha',
        htable, not_false_eq_true, if_true, clearPageTable_setPageDirEntry hut.bounds.2]
    · have hpde : (setPageTableEntry (withTable { s with physical := p' } pid (vaPdeIndex va) table)
          pid (vaPdeIndex va) (vaPteIndex va) page perm).pageDirEntries pid j =
            if pid = pid ∧ j = vaPdeIndex va then table * 4096 + 7 else s.pageDirEntries pid j :=
        withTable_pde _ _ _ _ _ _
      rw [hpde]
      by_cases hj : j = vaPdeIndex va
      · simp [hj]
      · simp [hj]
  · have hcost : cost s pid va = 1 := if_neg ht
    rw [hcost] at h ⊢
    obtain ⟨p, page, ha, hpage, _, _, h'⟩ := containerAlloc_affords hl hc h
    refine ⟨setPageTableEntry { s with physical := p } pid (vaPdeIndex va) (vaPteIndex va) page perm,
      s.pageDirEntries pid (vaPdeIndex va) / pageSize, ?_, h', fun j ↦ ?_⟩
    · simp only [allocPage, ha, hpage, if_false, mapPage, ht, ne_eq, not_true, not_false_eq_true,
        if_true]
    · have hpde : (setPageTableEntry { s with physical := p } pid (vaPdeIndex va) (vaPteIndex va)
          page perm).pageDirEntries = s.pageDirEntries := rfl
      rw [hpde]
      refine ⟨fun h0 ↦ ⟨h0, ?_⟩, fun h0 ↦ h0.1⟩
      rintro rfl
      exact ht h0

/-- A process that can afford a page, and a table where it needs one, is given both. -/
theorem Isolated.maps_afforded (h : Isolated L s) (hu : UserTable pid (vaPdeIndex va))
    (hperm : perm < 4096) (hafford : Affords s.physical pid (cost s pid va)) :
    ∃ s' page result, allocPage s pid va perm = (s', result, 0) ∧ Isolated L s' ∧
      MapsPage s s' pid va perm page ∧
      ∀ i m, Affords s.physical i (m + cost s pid va) → Affords s'.physical i m := by
  obtain ⟨s₁, result, ha, hcosts, _⟩ := allocPage_affords perm h.shortcut h.cursor hafford
  rcases h.allocPage_spec hu hperm with ⟨p, _, hfail⟩ | ⟨s', page, result', ha', hs', hmaps⟩
  · rw [ha] at hfail
    cases hfail
  · rw [ha] at ha'
    obtain ⟨rfl, -⟩ := Prod.mk.inj ha'
    exact ⟨s₁, page, result, ha, hs', hmaps, hcosts⟩

end StormOS.Isolation
