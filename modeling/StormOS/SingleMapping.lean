import StormOS.AddressSpaces

namespace StormOS.Isolation

open Library.Bytes Library.Runs
open PhysicalMemory hiding State
open Machine VirtualMemory AddressSpaces Function

variable {L : Layout} {s s' : State} {i j f va perm page : ℕ}

/-- What `AllocPage` does besides the mapping: it spends a free page, writes to user frames only,
and enters tables with full permissions where there was none. -/
structure Spends (s s' : State) (i va page : ℕ) : Prop where
  free : isFree s.physical page = true
  perm : ∀ p, (s'.physical.pPageInfo p).perm = (s.physical.pPageInfo p).perm
  outside : ∀ x, (s.physical.pPageInfo (x / 4096)).perm ≠ .user → s'.memory x = s.memory x
  directory : ∀ i' j', s'.pageDirEntries i' j' = s.pageDirEntries i' j' ∨
    s'.pageDirEntries i' j' % 4096 = 7
  table : s'.pageDirEntries i (vaPdeIndex va) ≠ 0

theorem Prepared.spends (h : Isolated L s) (hu : UserTable i (vaPdeIndex va))
    (hfree : isFree s.physical page = true) (hs : Prepared s i (vaPdeIndex va) s') :
    Spends s (setPageTableEntry s' i (vaPdeIndex va) (vaPteIndex va) page perm) i va page := by
  obtain ⟨hiso, f, hf⟩ := hs.isolated h hu
  have hk := vaPteIndex_lt va
  have hperm (p : ℕ) : (s'.physical.pPageInfo p).perm = (s.physical.pPageInfo p).perm := by
    cases hs with
    | found hp ht => exact hp.perm p
    | made hp ht hf => exact hp.perm p
  have hout (x : ℕ) (hx : (s.physical.pPageInfo (x / 4096)).perm ≠ .user) :
      s'.memory x = s.memory x := by
    cases hs with
    | found hp ht => rfl
    | @made p g hp ht hg =>
      refine if_neg fun hin ↦ hx ?_
      have hxg : x / 4096 = g := by omega
      rw [hxg]
      exact (hp.perm g).symm.trans hg.perm
  refine ⟨hfree, hperm, fun x hx ↦ ?_, fun i' j' ↦ ?_, hf.2.1⟩
  · rw [setPageTableEntry, hiso.entryAddr hf hk]
    refine (store32_of_outside ?_).trans (hout x hx)
    by_contra hin
    have hxf : x / 4096 = f := by omega
    rw [hxf, ← hperm] at hx
    exact hx (hiso.owned _ _ hf).2.2
  · cases hs with
    | found hp ht => exact .inl rfl
    | @made p g hp ht hg =>
      have hpde := withTable_pde { s with physical := p } i (vaPdeIndex va) g i' j'
      have hset : (setPageTableEntry (withTable { s with physical := p } i (vaPdeIndex va) g) i
          (vaPdeIndex va) (vaPteIndex va) page perm).pageDirEntries =
            (withTable { s with physical := p } i (vaPdeIndex va) g).pageDirEntries := rfl
      rw [hset, hpde]
      split
      · exact .inr (by omega)
      · exact .inl rfl

theorem Isolated.allocPage_spends (h : Isolated L s) (hu : UserTable i (vaPdeIndex va))
    (hperm : perm < 4096) (herr : (allocPage s i va perm).2.2 = 0) :
    Isolated L (allocPage s i va perm).1 ∧ ∃ page,
      MapsPage s (allocPage s i va perm).1 i va perm page ∧
        Spends s (allocPage s i va perm).1 i va page := by
  rcases h.allocPage_cases i va perm with
    ⟨p, _, ha⟩ | ⟨s', page, result, hfree, hs, hpage, ha⟩
  · rw [ha] at herr
    cases herr
  · rw [ha]
    obtain ⟨hiso, hmaps⟩ := hs.mapsPage h hu hperm hfree hpage
    exact ⟨hiso, page, hmaps, hs.spends h hu hfree⟩

/-- The isolation invariant, with the permissions of the tables that it speaks of. -/
structure Guarded (L : Layout) (s : State) : Prop extends Isolated L s where
  tables : ∀ i j, UserTable i j → s.pageDirEntries i j ≠ 0 → s.pageDirEntries i j % 4096 = ptePWU

theorem Guarded.alloc (h : Guarded L s) (hu : UserTable i (vaPdeIndex va)) (hperm : perm < 4096) :
    Guarded L (allocPage s i va perm).1 := by
  rcases h.allocPage_cases i va perm with
    ⟨p, hp, ha⟩ | ⟨s', page, result, hfree, hs, hpage, ha⟩
  · rw [ha]
    exact ⟨h.grow hp, h.tables⟩
  · rw [ha]
    refine ⟨(hs.mapsPage h.toIsolated hu hperm hfree hpage).1, fun i' j' hu' hp ↦ ?_⟩
    rcases (hs.spends h.toIsolated hu hfree).directory i' j' with he | he
    · rw [he] at hp ⊢
      exact h.tables i' j' hu' hp
    · exact he

theorem guarded_step (h : Guarded L s) {a : Action} (he : machine.enabled s a) :
    Guarded L (machine.step s a) := by
  cases a with
  | allocPage i va writable =>
    have hva : va.toNat < 2 ^ 32 := va.toNat_lt
    apply h.alloc (userTable_of_not_present h.toIsolated he.1 hva he.2)
    rw [userPerm]
    split
    · decide
    · decide
  | write i va value => exact ⟨isolated_step h.toIsolated he, h.tables⟩

theorem guarded_of_legal (L : Layout) (smap : List SMAP) (containers : ℕ → Container)
    (memory : Memory) (pageDirEntries : ℕ → ℕ → ℕ) (as : List Action)
    (hlegal : machine.Legal (start L smap containers memory pageDirEntries) as) :
    Guarded L (machine.final (start L smap containers memory pageDirEntries) as) :=
  hlegal.final
    ⟨start_isolated L smap containers memory pageDirEntries,
      fun _ _ hu hp ↦ absurd (start_pde L smap containers memory pageDirEntries hu) hp⟩
    fun _ _ h he ↦ guarded_step h he

/-- The new state maps the page of `va` to a frame that was free, through a table that is present,
writable and open to the user, and is like the old one in all other translations and in the bytes
of the frames mapped before. -/
structure MapsOnly (s s' : State) (i va perm : ℕ) : Prop where
  mapped : ∃ f, UserPage f ∧ isFree s.physical f = true ∧
    ∀ va' < 2 ^ 32, va' / pageSize = va / pageSize →
      getPageTableEntryByVA s' i va' = f * pageSize + perm
  directory : s'.pageDirEntries i (vaPdeIndex va) &&& ptePWU = ptePWU
  others : ∀ i' < maxProcs, i' ≠ i → ∀ w < 2 ^ 32,
    getPageTableEntryByVA s' i' w = getPageTableEntryByVA s i' w
  rest : ∀ w < 2 ^ 32, w / pageSize ≠ va / pageSize →
    getPageTableEntryByVA s' i w = getPageTableEntryByVA s i w
  data : ∀ i' j k g, Names s (.page i' j k) g →
    AgreeOn s.memory s'.memory (g * pageSize) (g * pageSize + pageSize)

/-- `AllocPage` establishes one mapping and nothing else. -/
theorem allocPage_mapsOnly (L : Layout) (s : State) (i va perm : ℕ) (h : Guarded L s)
    (hi : 1 ≤ i ∧ i < maxProcs) (hva : va < 2 ^ 32)
    (hnp : ¬ Present (getPageTableEntryByVA s i va)) (hperm : perm < pageSize)
    (herr : (allocPage s i va perm).2.2 = 0) :
    MapsOnly s (allocPage s i va perm).1 i va perm := by
  have hu := userTable_of_not_present h.toIsolated hi hva hnp
  obtain ⟨_, page, hmaps, hspends⟩ := h.allocPage_spends hu hperm herr
  have hflags : (allocPage s i va perm).1.pageDirEntries i (vaPdeIndex va) % 4096 = 7 :=
    (h.alloc hu hperm).tables i _ hu hspends.table
  refine ⟨⟨page, hmaps.user, hspends.free, fun va' hva' he ↦ ?_⟩, ?_, fun i' hi' hne w hw ↦ ?_,
    fun w hw hne ↦ ?_, hmaps.data⟩
  · rw [hmaps.translation i hi.2 va' hva', if_pos ⟨rfl, he⟩]
  · have hand : (allocPage s i va perm).1.pageDirEntries i (vaPdeIndex va) &&& 7 =
        (allocPage s i va perm).1.pageDirEntries i (vaPdeIndex va) % 2 ^ 3 :=
      Nat.and_two_pow_sub_one_eq_mod _ 3
    have hseven : ptePWU = 7 := by decide
    rw [hseven, hand]
    omega
  · rw [hmaps.translation i' hi' w hw, if_neg (fun he ↦ hne he.1)]
  · rw [hmaps.translation i hi.2 w hw, if_neg (fun he ↦ hne he.2)]

abbrev pagesFor (n : ℕ) : State :=
  start lowLayout (pageMap n) (fun _ ↦ ⟨n, 0, 0, 0, true⟩) (fun _ ↦ 0) (fun _ _ ↦ 0)

theorem pagesFor_physical (n : ℕ) :
    (pagesFor n).physical = allocator (pageMap n) fun _ ↦ ⟨n, 0, 0, 0, true⟩ :=
  start_physical _ _ _ _ _

theorem pagesFor_guarded (n : ℕ) : Guarded lowLayout (pagesFor n) :=
  guarded_of_legal lowLayout _ _ _ _ [] trivial

theorem pagesFor_not_present (n : ℕ) (h : UserTable i (vaPdeIndex va)) :
    ¬ Present (getPageTableEntryByVA (pagesFor n) i va) :=
  not_present_of_no_table (start_pde _ _ _ _ _ h)

/-- The first page of a region costs two, the page and its table. -/
theorem pagesFor_allocPage (i va perm : ℕ) :
    (allocPage (pagesFor 2) i va perm).2.2 = 0 := by
  have haffords : Affords (pagesFor 2).physical i (cost (pagesFor 2) i va) :=
    (start_affords _ _ _ (by decide)).mono (cost_le _ _ _)
  have hready : (pagesFor 2).physical.lastFreedPage = -1 ∧ CursorOk (pagesFor 2).physical := by
    rw [pagesFor_physical]
    exact allocator_ready _ _
  obtain ⟨_, _, ha, _⟩ := allocPage_affords perm hready.1 hready.2 haffords
  rw [ha]

theorem allocPage_mapsOnly_first :
    MapsOnly (pagesFor 2) (allocPage (pagesFor 2) 1 0x40000000 7).1 1 0x40000000 7 := by
  have hu := userTable_first
  exact allocPage_mapsOnly lowLayout (pagesFor 2) 1 0x40000000 7 (pagesFor_guarded 2) (by decide)
    (by decide) (pagesFor_not_present 2 hu) (by decide) (pagesFor_allocPage 1 0x40000000 7)

end StormOS.Isolation
