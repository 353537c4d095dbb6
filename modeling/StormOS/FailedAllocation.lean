import StormOS.SingleMapping

namespace StormOS.FailedAllocation

open Library.Bytes Library.Runs
open PhysicalMemory hiding State
open Machine VirtualMemory Isolation AddressSpaces Function

inductive Operation
  | allocPage (i va perm : ℕ)
  | containerSplit (id quota : ℕ)
  | containerFree (id page : ℕ)
  | write (memory : Memory)

def perform (s : State) : Operation → State
  | .allocPage i va perm => (allocPage s i va perm).1
  | .containerSplit id quota => { s with physical := (containerSplit s.physical id quota).1 }
  | .containerFree id page => { s with physical := containerFree s.physical id page }
  | .write memory => { s with memory := memory }

/-- Only pages of processes are given back. -/
def kernel : System State Operation where
  enabled s
    | .containerFree _ page => UserPage page ∧ (s.physical.pPageInfo page).perm = .user
    | _ => True
  step := perform

/-- The account of container `i`, the bitmap, and all page directories and page tables agree. -/
structure Unchanged (s s' : State) (i : ℕ) : Prop where
  usage : (s'.physical.containers i).usage = (s.physical.containers i).usage
  allocated : ∀ page, (s'.physical.pPageInfo page).allocated =
    (s.physical.pPageInfo page).allocated
  directory : ∀ i' j, s'.pageDirEntries i' j = s.pageDirEntries i' j
  table : ∀ i' j k, getPageTableEntry s' i' j k = getPageTableEntry s i' j k

def FailsClean (s : State) (i va perm : ℕ) : Prop :=
  (allocPage s i va perm).2.2 = 1 → Unchanged s (allocPage s i va perm).1 i

/-- Either the quota is used up from the start, or there is a page for the data and, where the
directory has no table yet, quota and a page for the table as well. A page that was freed last
stays free in the bitmap when it is taken, so it serves twice. -/
def RoomOrFull (s : State) (i va : ℕ) : Prop :=
  (s.physical.containers i).usage = (s.physical.containers i).quota ∨
    (freePages s.physical).Nonempty ∧
      (s.pageDirEntries i (vaPdeIndex va) ≠ 0 ∨
        int32 ((s.physical.containers i).usage + 1) ≠ (s.physical.containers i).quota ∧
          (s.physical.lastFreedPage ≠ -1 ∨ 2 ≤ (freePages s.physical).card))

variable {s : State} {p : PhysicalMemory.State} {i id page va perm : ℕ}

theorem int32_succ_ne (u : ℤ) : int32 (u + 1) ≠ u := by
  intro h
  have hmod : int32 (u + 1) % 2 ^ 32 = (u + 1) % 2 ^ 32 := Int.bmod_emod
  rw [h] at hmod
  omega

theorem int32_succ_succ_ne (u : ℤ) : int32 (int32 (u + 1) + 1) ≠ u := by
  intro h
  have hmod : int32 (u + 1) % 2 ^ 32 = (u + 1) % 2 ^ 32 := Int.bmod_emod
  have hmod' : int32 (int32 (u + 1) + 1) % 2 ^ 32 = (int32 (u + 1) + 1) % 2 ^ 32 := Int.bmod_emod
  rw [h] at hmod'
  omega

theorem containerAlloc_got {p' : PhysicalMemory.State} (h : Ready p)
    (ha : containerAlloc p id = (p', page)) (hne : page ≠ 0) :
    UserPage page ∧ page ∈ freePages p ∧ Ready p' ∧ freePages p' = leftOver p page := by
  rcases containerAlloc_ready h id with
    ⟨_, hnone⟩ | ⟨_, _, hnone⟩ | ⟨_, q, page', hsome, hu, hmem, hr, hleft, _⟩
  · rw [ha] at hnone
    exact absurd (congrArg Prod.snd hnone) hne
  · rw [ha] at hnone
    exact absurd (congrArg Prod.snd hnone) hne
  · rw [ha] at hsome
    cases hsome
    exact ⟨hu, hmem, hr, hleft⟩

theorem setUsage_usage (p : PhysicalMemory.State) (id : ℕ) (u : ℤ) :
    ((setUsage p id u).containers id).usage = int32 u := by
  simp only [setUsage, update_self]

theorem setUsage_quota (p : PhysicalMemory.State) (id : ℕ) (u : ℤ) :
    ((setUsage p id u).containers id).quota = (p.containers id).quota := by
  simp only [setUsage, update_self]

section Equations

variable {p' : PhysicalMemory.State} {table : ℕ}

theorem allocPage_no_page (ha : containerAlloc s.physical i = (p, 0)) :
    allocPage s i va perm = ({ s with physical := p }, 0, 1) := by
  simp only [allocPage, ha, if_true]

theorem allocPage_found (ha : containerAlloc s.physical i = (p, page)) (hne : page ≠ 0)
    (ht : s.pageDirEntries i (vaPdeIndex va) ≠ 0) :
    allocPage s i va perm =
      (setPageTableEntry { s with physical := p } i (vaPdeIndex va) (vaPteIndex va) page perm,
        s.pageDirEntries i (vaPdeIndex va) / pageSize, 0) := by
  simp only [allocPage, ha, hne, if_false, mapPage, ht, ne_eq, not_false_eq_true, if_true, not_true]

theorem allocPage_no_table (ha : containerAlloc s.physical i = (p, page)) (hne : page ≠ 0)
    (ht : s.pageDirEntries i (vaPdeIndex va) = 0) (ha' : containerAlloc p i = (p', 0)) :
    allocPage s i va perm = ({ s with physical := p' }, 0, 1) := by
  simp only [allocPage, ha, hne, if_false, mapPage, ht, ne_eq, not_true, allocPageTable, ha',
    if_true, one_ne_zero, not_false_eq_true]

theorem allocPage_made (ha : containerAlloc s.physical i = (p, page)) (hne : page ≠ 0)
    (ht : s.pageDirEntries i (vaPdeIndex va) = 0) (ha' : containerAlloc p i = (p', table))
    (hne' : table ≠ 0) :
    allocPage s i va perm =
      (setPageTableEntry
        (clearPageTable (setPageDirEntry { s with physical := p' } i (vaPdeIndex va) table) i
          (vaPdeIndex va)) i (vaPdeIndex va) (vaPteIndex va) page perm, table, 0) := by
  simp only [allocPage, ha, hne, if_false, mapPage, ht, ne_eq, not_true, allocPageTable, ha', hne',
    not_false_eq_true, if_true]

theorem failsClean_of_ok (hok : (allocPage s i va perm).2.2 = 0) : FailsClean s i va perm := by
  intro herr
  rw [hok] at herr
  cases herr

theorem not_failsClean (hfail : allocPage s i va perm = ({ s with physical := p }, 0, 1))
    (hu : (p.containers i).usage ≠ (s.physical.containers i).usage) :
    ¬ FailsClean s i va perm := by
  intro h
  have hclean := h (by rw [hfail])
  rw [hfail] at hclean
  exact hu hclean.usage

end Equations

theorem two_le_card_iff {A : Finset ℕ} (h : page ∈ A) : 2 ≤ A.card ↔ (A.erase page).Nonempty := by
  rw [← Finset.card_pos, Finset.card_erase_of_mem h]
  omega

/-- With a page for the data in hand and no table, the rest depends on the second allocation. -/
theorem roomOrFull_of_page (hq : (s.physical.containers i).usage ≠ (s.physical.containers i).quota)
    (hpage : page ∈ freePages s.physical) (ht : s.pageDirEntries i (vaPdeIndex va) = 0)
    (hleft : freePages p = leftOver s.physical page)
    (hcont : p.containers =
      (setUsage s.physical i ((s.physical.containers i).usage + 1)).containers) :
    RoomOrFull s i va ↔
      (p.containers i).usage ≠ (p.containers i).quota ∧ (freePages p).Nonempty := by
  have hsome : (freePages s.physical).Nonempty := ⟨page, hpage⟩
  rw [RoomOrFull, or_iff_right hq, and_iff_right hsome, or_iff_right (not_not.mpr ht), hcont,
    setUsage_usage, setUsage_quota, hleft, leftOver]
  apply and_congr_right
  intro _
  split
  · rename_i hl
    rw [or_iff_right (not_not.mpr hl), two_le_card_iff hpage]
  · rename_i hl
    exact iff_of_true (.inl hl) hsome

theorem failsClean_iff (h : Ready s.physical) (i va perm : ℕ) :
    FailsClean s i va perm ↔ RoomOrFull s i va := by
  rcases containerAlloc_ready h i with
    ⟨hq, ha⟩ | ⟨hq, hnone, ha⟩ | ⟨hq, p, page, ha, hup, hpage, hr, hleft, hcont⟩
  · refine iff_of_true (fun _ ↦ ?_) (.inl hq)
    rw [allocPage_no_page ha]
    exact ⟨rfl, fun _ ↦ rfl, fun _ _ ↦ rfl, fun _ _ _ ↦ rfl⟩
  · refine iff_of_false (not_failsClean (allocPage_no_page ha) ?_) ?_
    · rw [setUsage_usage]
      exact int32_succ_ne _
    · rintro (hfull | ⟨hsome, _⟩)
      · exact hq hfull
      · exact hsome.ne_empty hnone
  · have hb := hup.bounds
    have hne : page ≠ 0 := by omega
    by_cases ht : s.pageDirEntries i (vaPdeIndex va) = 0
    · have hcharged : (p.containers i).usage = int32 ((s.physical.containers i).usage + 1) := by
        rw [hcont, setUsage_usage]
      rw [roomOrFull_of_page hq hpage ht hleft hcont]
      rcases containerAlloc_ready hr i with
        ⟨hq', ha'⟩ | ⟨_, hnone, ha'⟩ | ⟨hq', p', table, ha', hut, htable, _⟩
      · refine iff_of_false (not_failsClean (allocPage_no_table ha hne ht ha') ?_)
          fun hroom ↦ hroom.1 hq'
        rw [hcharged]
        exact int32_succ_ne _
      · refine iff_of_false (not_failsClean (allocPage_no_table ha hne ht ha') ?_)
          fun hroom ↦ hroom.2.ne_empty hnone
        rw [setUsage_usage, hcharged]
        exact int32_succ_succ_ne _
      · have hbt := hut.bounds
        have hne' : table ≠ 0 := by omega
        exact iff_of_true (failsClean_of_ok (by rw [allocPage_made ha hne ht ha' hne']))
          ⟨hq', table, htable⟩
    · exact iff_of_true (failsClean_of_ok (by rw [allocPage_found ha hne ht]))
        (.inr ⟨⟨page, hpage⟩, .inl ht⟩)

theorem clearPageTable_physical (s : State) (i j : ℕ) :
    (clearPageTable s i j).physical = s.physical :=
  Library.Loops.forUpTo_invariant (I := fun _ (t : State) ↦ t.physical = s.physical) 1024 rfl
    fun _ _ _ ht ↦ ht

theorem ready_mapPage (h : Ready s.physical) (i va page perm : ℕ) :
    Ready (mapPage s i va page perm).1.physical := by
  by_cases ht : s.pageDirEntries i (vaPdeIndex va) = 0
  · have hr := ready_containerAlloc h i
    by_cases htable : (containerAlloc s.physical i).2 = 0
    · simpa only [mapPage, ht, ne_eq, not_true, if_false, allocPageTable, htable, if_true] using hr
    · simp only [mapPage, ht, ne_eq, not_true, if_false, allocPageTable, htable,
        not_false_eq_true, if_true, setPageTableEntry, clearPageTable_physical]
      exact hr
  · simp only [mapPage, ht, ne_eq, not_false_eq_true, if_true]
    exact h

theorem ready_allocPage (h : Ready s.physical) (i va perm : ℕ) :
    Ready (allocPage s i va perm).1.physical := by
  have hr := ready_containerAlloc h i
  by_cases hpage : (containerAlloc s.physical i).2 = 0
  · simpa only [allocPage, hpage, if_true] using hr
  · have hm := ready_mapPage (s := { s with physical := (containerAlloc s.physical i).1 }) hr i va
      (containerAlloc s.physical i).2 perm
    simp only [allocPage, hpage, if_false]
    split
    · exact hm
    · exact hm

theorem ready_step (h : Ready s.physical) {o : Operation} (he : kernel.enabled s o) :
    Ready (kernel.step s o).physical := by
  cases o with
  | allocPage i va perm => exact ready_allocPage h i va perm
  | containerSplit id quota => exact ⟨h.cursor, h.shortcut⟩
  | containerFree id page => exact ready_containerFree h he.1 he.2 id
  | write memory => exact h

/-- In every reachable state a failing `AllocPage` changes nothing exactly if the quota was used up
before the call or there is room for the page and its table. -/
theorem failed_alloc_iff (L : Layout) (smap : List SMAP) (containers : ℕ → Container)
    (memory : Memory) (pageDirEntries : ℕ → ℕ → ℕ) (os : List Operation)
    (hlegal : kernel.Legal (start L smap containers memory pageDirEntries) os)
    (i va perm : ℕ) :
    let s := kernel.final (start L smap containers memory pageDirEntries) os
    FailsClean s i va perm ↔ RoomOrFull s i va := by
  have hstart : Ready (start L smap containers memory pageDirEntries).physical := by
    rw [start_physical]
    exact ⟨(allocator_ready smap containers).2, .inl (allocator_ready smap containers).1⟩
  exact failsClean_iff (hlegal.final (P := fun s ↦ Ready s.physical) hstart
    fun _ _ h he ↦ ready_step h he) i va perm

def booted : State :=
  start lowLayout (pageMap 2) (physicalMemoryInit loaded (pageMap 2)).containers (fun _ ↦ 0)
    (fun _ _ ↦ 0)

theorem final_split (s : State) (id quota : ℕ) :
    kernel.final s [.containerSplit id quota] =
      { s with physical := (containerSplit s.physical id quota).1 } := rfl

theorem booted_split_container (quota : ℕ) :
    (kernel.final booted [.containerSplit 0 quota]).physical.containers 1 =
      ⟨int32 quota, 0, 0, 0, true⟩ := by
  have hp : booted.physical = allocator (pageMap 2) _ := start_physical _ _ _ _ _
  have h0 : (booted.physical.containers 0).numChildren = (0 : ℕ) := by
    rw [hp, allocator, physicalMemoryInit_root]
    rfl
  have hsplit := containerSplit_eq booted.physical (k := 0) quota (by decide) h0 (by decide)
  rw [final_split, hsplit]
  simp

theorem booted_split_pde (quota : ℕ) {j : ℕ} (h : UserTable i j) :
    (kernel.final booted [.containerSplit 0 quota]).pageDirEntries i j = 0 := by
  have hbooted : booted.pageDirEntries i j = 0 := start_pde lowLayout _ _ _ _ h
  rw [final_split]
  exact hbooted

theorem failed_alloc_iff_booted :
    FailsClean (kernel.final booted [.containerSplit 0 2, .allocPage 1 0x40000000 7]) 1 0x40001000
        7 ↔
      RoomOrFull (kernel.final booted [.containerSplit 0 2, .allocPage 1 0x40000000 7]) 1
        0x40001000 :=
  failed_alloc_iff lowLayout (pageMap 2) _ (fun _ ↦ 0) (fun _ _ ↦ 0)
    [.containerSplit 0 2, .allocPage 1 0x40000000 7] ⟨trivial, trivial, trivial⟩ 1 0x40001000 7

/-- A process with a quota of one page faults: the page is taken and charged, there is no quota for
its table, and the page stays on the account, mapped nowhere. -/
theorem last_page_leaks :
    kernel.Legal booted [.containerSplit 0 1] ∧
      ¬ FailsClean (kernel.final booted [.containerSplit 0 1]) 1 0x40000000 7 := by
  have hc := booted_split_container 1
  have hr : Ready (kernel.final booted [.containerSplit 0 1]).physical :=
    ready_step (s := booted) (o := .containerSplit 0 1)
      (by rw [booted, start_physical]
          exact ⟨(allocator_ready _ _).2, .inl (allocator_ready _ _).1⟩) trivial
  have hu := userTable_first
  refine ⟨⟨trivial, trivial⟩, ?_⟩
  rw [failsClean_iff hr, RoomOrFull, hc, booted_split_pde 1 hu]
  rintro (hfull | ⟨_, htable | ⟨hquota, _⟩⟩)
  · exact absurd hfull (by decide)
  · exact htable rfl
  · exact hquota (by decide)

end StormOS.FailedAllocation
