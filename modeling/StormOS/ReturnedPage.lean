import StormOS.FailedAllocation

namespace StormOS.ReturnedPage

open Library.Bytes
open PhysicalMemory hiding State
open Machine VirtualMemory Isolation AddressSpaces FailedAllocation Function

/-- The isolation invariant, also where a page has been freed and waits to be handed out next. -/
structure Separated (L : Layout) (s : State) : Prop where
  ready : Ready s.physical
  isolated : Isolated L { s with physical := { s.physical with lastFreedPage := -1 } }

/-- What the comment of `AllocPage` promises of its result. -/
def ReturnsMapped (s : State) (i va perm : ℕ) : Prop :=
  (allocPage s i va perm).2.1 = getPageTableEntryByVA (allocPage s i va perm).1 i va / pageSize

/-- There is no table for `va` yet, and the page that was freed last is the only one to be had: it
becomes the page and the table as well. -/
def ServesTwice (s : State) (i va : ℕ) : Prop :=
  s.pageDirEntries i (vaPdeIndex va) = 0 ∧
    ∃ page : ℕ, s.physical.lastFreedPage = page ∧ freePages s.physical = {page}

variable {L : Layout} {s : State} {p : PhysicalMemory.State} {i j k f id page va perm : ℕ}

theorem separated_of_isolated (h : Isolated L s) : Separated L s := by
  have hs : { s with physical := { s.physical with lastFreedPage := -1 } } = s := by
    rw [← h.shortcut]
  exact ⟨⟨h.cursor, .inl h.shortcut⟩, hs.symm ▸ h⟩

theorem Separated.table_allocated (h : Separated L s) (hf : Names s (.table i j) f) :
    (s.physical.pPageInfo f).allocated = true :=
  (h.isolated.owned (.table i j) f hf).2.1

theorem setPageTableEntry_byVA (hpde : s.pageDirEntries i (vaPdeIndex va) ≠ 0)
    (hpage : UserPage page) (hperm : perm < 4096) :
    getPageTableEntryByVA
        (setPageTableEntry s i (vaPdeIndex va) (vaPteIndex va) page perm) i va / pageSize =
      page := by
  have hb := hpage.bounds
  have hv : u32 (page * pageSize + perm) = page * 4096 + perm :=
    u32_of_lt (by simp only [pageSize]; omega)
  have hpde' : (setPageTableEntry s i (vaPdeIndex va) (vaPteIndex va) page perm).pageDirEntries i
      (vaPdeIndex va) ≠ 0 := hpde
  have haddr : entryAddr (setPageTableEntry s i (vaPdeIndex va) (vaPteIndex va) page perm) i
      (vaPdeIndex va) (vaPteIndex va) = entryAddr s i (vaPdeIndex va) (vaPteIndex va) := rfl
  have hload : getPageTableEntryByVA
      (setPageTableEntry s i (vaPdeIndex va) (vaPteIndex va) page perm) i va =
        page * 4096 + perm := by
    rw [getPageTableEntryByVA, if_neg hpde', getPageTableEntry, haddr, setPageTableEntry, hv]
    exact load32_store32_self _ _ (by omega)
  rw [hload]
  simp only [pageSize]
  omega

/-- The cursor's own page stands last in the order of the scan. -/
theorem physicalPageAlloc_eq_cursor_iff (hl : p.lastFreedPage = -1) (hu : UserPage page)
    (hc : p.lastAllocPage = page) (hfree : isFree p page = true) :
    (physicalPageAlloc p).2 = page ↔ freePages p = {page} := by
  have hmem : page ∈ freePages p := mem_freePages.mpr ⟨hu, hfree⟩
  rcases physicalPageAlloc_scan hl (.inr ⟨page, hu, hc⟩) with
    ⟨first, hfu, hff, hmin, ha⟩ | ⟨hnone, _⟩
  · rw [ha]
    constructor
    · intro hfirst
      have heq : first = page := hfirst
      subst heq
      apply Finset.eq_singleton_iff_unique_mem.mpr
      refine ⟨hmem, fun q hq ↦ ?_⟩
      obtain ⟨hqu, hqf⟩ := mem_freePages.mp hq
      have hle := hmin q hqu hqf
      have hb := hu.bounds
      have hqb := hqu.bounds
      rw [scanOrder, scanOrder, if_neg (by omega)] at hle
      simp only [memUserHiPI, memUserHi, pageSize] at hle
      split at hle
      · omega
      · omega
    · intro hsingle
      have hin : first ∈ freePages p := mem_freePages.mpr ⟨hfu, hff⟩
      rw [hsingle] at hin
      exact Finset.mem_singleton.mp hin
  · rw [hnone page hu] at hfree
    cases hfree

theorem below_quota {p' : PhysicalMemory.State} (ha : containerAlloc p id = (p', page))
    (hne : page ≠ 0) :
    (p', page) = physicalPageAlloc (setUsage p id ((p.containers id).usage + 1)) := by
  rw [containerAlloc] at ha
  split at ha
  · cases ha
    exact absurd rfl hne
  · exact ha.symm

section TwoPages

variable {p' p'' : PhysicalMemory.State} {table : ℕ} (h : Ready p)
  (ha : containerAlloc p id = (p', page)) (hne : page ≠ 0)
  (ha' : containerAlloc p' id = (p'', table)) (hne' : table ≠ 0)

include h ha hne ha' hne'

theorem second_alloc_mem : UserPage table ∧ table ∈ leftOver p page := by
  obtain ⟨_, _, hr, hleft⟩ := containerAlloc_got h ha hne
  obtain ⟨hu, hmem, _⟩ := containerAlloc_got hr ha' hne'
  exact ⟨hu, hleft ▸ hmem⟩

/-- Two pages taken one after the other are one page only if there was no other. -/
theorem second_alloc_eq_iff :
    table = page ↔ ∃ freed : ℕ, p.lastFreedPage = freed ∧ freePages p = {freed} := by
  rcases h.shortcut with hl | ⟨freed, hu, hl, hfree⟩
  · have hmem := (second_alloc_mem h ha hne ha' hne').2
    rw [leftOver, if_pos hl] at hmem
    refine iff_of_false (Finset.ne_of_mem_erase hmem) ?_
    rintro ⟨freed, hf, _⟩
    omega
  · have hfirst := below_quota ha hne
    rw [physicalPageAlloc_shortcut (s := setUsage p id _) hu hl] at hfirst
    cases hfirst
    have hsecond := below_quota ha' hne'
    have hcursor : table = page ↔ freePages p = {page} := by
      have htable : table = (physicalPageAlloc _).2 := congrArg Prod.snd hsecond
      rw [htable]
      exact physicalPageAlloc_eq_cursor_iff rfl hu rfl hfree
    refine hcursor.trans ⟨fun hfp ↦ ⟨page, hl, hfp⟩, ?_⟩
    rintro ⟨freed', hl', hfp⟩
    have heq : freed' = page := by omega
    exact heq ▸ hfp

end TwoPages

/-- With a table in the directory, the result is the page of the table, which is another one. -/
theorem not_returnsMapped_found (h : Separated L s) (hu : UserTable i (vaPdeIndex va))
    (hperm : perm < 4096) (hpage : UserPage page) (hfree : page ∈ freePages s.physical)
    (hpde : s.pageDirEntries i (vaPdeIndex va) ≠ 0)
    (ha : allocPage s i va perm =
      (setPageTableEntry { s with physical := p } i (vaPdeIndex va) (vaPteIndex va) page perm,
        s.pageDirEntries i (vaPdeIndex va) / pageSize, 0)) :
    ¬ ReturnsMapped s i va perm := by
  rw [ReturnsMapped, ha, setPageTableEntry_byVA (s := { s with physical := p }) hpde hpage hperm]
  intro hsame
  have hall := h.table_allocated (names_table hu hpde)
  have hresult : s.pageDirEntries i (vaPdeIndex va) / pageSize = page := hsame
  rw [hresult, (isFree_iff.mp (mem_freePages.mp hfree).2).1] at hall
  cases hall

theorem returnsMapped_made_iff {table : ℕ} (htable : UserPage table) (hperm : perm < 4096)
    (hpage : UserPage page)
    (ha : allocPage s i va perm =
      (setPageTableEntry
        (clearPageTable (setPageDirEntry { s with physical := p } i (vaPdeIndex va) table) i
          (vaPdeIndex va)) i (vaPdeIndex va) (vaPteIndex va) page perm, table, 0)) :
    ReturnsMapped s i va perm ↔ table = page := by
  have hb := htable.bounds
  have hpde : (withTable { s with physical := p } i (vaPdeIndex va) table).pageDirEntries i
      (vaPdeIndex va) ≠ 0 := by
    rw [withTable_pde_self]
    omega
  rw [clearPageTable_setPageDirEntry htable.2] at ha
  rw [ReturnsMapped, ha, setPageTableEntry_byVA hpde hpage hperm]

theorem Separated.returns_iff (h : Separated L s) (hu : UserTable i (vaPdeIndex va))
    (hperm : perm < 4096) (herr : (allocPage s i va perm).2.2 = 0) :
    ReturnsMapped s i va perm ↔ ServesTwice s i va := by
  obtain ⟨p, page, ha⟩ : ∃ p page, containerAlloc s.physical i = (p, page) := ⟨_, _, rfl⟩
  have hne : page ≠ 0 := by
    rintro rfl
    rw [allocPage_no_page ha] at herr
    cases herr
  obtain ⟨hpage, hfree, _⟩ := containerAlloc_got h.ready ha hne
  by_cases hpde : s.pageDirEntries i (vaPdeIndex va) = 0
  · obtain ⟨p', table, ha'⟩ : ∃ p' table, containerAlloc p i = (p', table) := ⟨_, _, rfl⟩
    have hne' : table ≠ 0 := by
      rintro rfl
      rw [allocPage_no_table ha hne hpde ha'] at herr
      cases herr
    have htable := (second_alloc_mem h.ready ha hne ha' hne').1
    rw [returnsMapped_made_iff htable hperm hpage (allocPage_made ha hne hpde ha' hne'),
      second_alloc_eq_iff h.ready ha hne ha' hne']
    exact (and_iff_right hpde).symm
  · apply iff_of_false
    · exact not_returnsMapped_found h hu hperm hpage hfree hpde (allocPage_found ha hne hpde)
    · exact fun hserves ↦ hpde hserves.1

/-- `AllocPage` returns the page of the table. That is the page it mapped only where one page
serves as both. -/
theorem returnsMapped_iff (L : Layout) (s : State) (i va perm : ℕ) (h : Separated L s)
    (hi : 1 ≤ i ∧ i < maxProcs) (hva : va < 2 ^ 32)
    (hnp : ¬ Present (getPageTableEntryByVA s i va)) (hperm : perm < pageSize)
    (herr : (allocPage s i va perm).2.2 = 0) :
    ReturnsMapped s i va perm ↔ ServesTwice s i va :=
  h.returns_iff (userTable_of_not_present h.isolated hi hva hnp) hperm herr

theorem returnsMapped_iff_first :
    ReturnsMapped (pagesFor 2) 1 0x40000000 7 ↔ ServesTwice (pagesFor 2) 1 0x40000000 := by
  have hu := userTable_first
  exact returnsMapped_iff lowLayout (pagesFor 2) 1 0x40000000 7
    (separated_of_isolated (pagesFor_guarded 2).toIsolated) (by decide) (by decide)
    (pagesFor_not_present 2 hu) (by decide) (pagesFor_allocPage 1 0x40000000 7)

/-- The first page of a process: the result is the page of its new table. -/
theorem first_page_not_returned :
    Isolated lowLayout (pagesFor 2) ∧
      ¬ Present (getPageTableEntryByVA (pagesFor 2) 1 0x40000000) ∧
      (allocPage (pagesFor 2) 1 0x40000000 7).2.2 = 0 ∧
      ¬ ReturnsMapped (pagesFor 2) 1 0x40000000 7 := by
  have hu := userTable_first
  have h := (pagesFor_guarded 2).toIsolated
  refine ⟨h, pagesFor_not_present 2 hu, pagesFor_allocPage 1 0x40000000 7, ?_⟩
  rw [(separated_of_isolated h).returns_iff hu (by decide) (pagesFor_allocPage 1 0x40000000 7)]
  rintro ⟨_, page, hl, _⟩
  have hnone := h.shortcut
  omega

end StormOS.ReturnedPage
