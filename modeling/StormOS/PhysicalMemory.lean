import StormOS.Machine
import Mathlib.Order.Interval.Finset.Nat
import Mathlib.Algebra.BigOperators.Group.Finset.Basic

namespace StormOS.PhysicalMemory

open Library.Loops Machine Function

abbrev numPhysicalPages : ℕ := 2 ^ 20
abbrev maxChildren : ℕ := 8

/-- One descriptor of the memory map that the boot loader leaves in memory. -/
structure SMAP where
  size : UInt32
  baseAddr : UInt64
  length : UInt64
  type : UInt32

inductive PhysicalPagePerm
  | bios
  | kernel
  | user
  deriving DecidableEq

structure PhysicalPageInfo where
  allocated : Bool
  perm : PhysicalPagePerm

structure Container where
  quota : ℤ
  usage : ℤ
  parent : ℤ
  numChildren : ℤ
  used : Bool

/-- The globals of the physical allocator. -/
structure State where
  pPageInfo : ℕ → PhysicalPageInfo
  containers : ℕ → Container
  lastFreedPage : ℤ
  lastAllocPage : ℤ

def loaded : State where
  pPageInfo _ := ⟨false, .bios⟩
  containers _ := ⟨0, 0, 0, 0, false⟩
  lastFreedPage := -1
  lastAllocPage := -1

def containerInit (s : State) (userPages : ℤ) : State :=
  { s with containers := update s.containers 0 ⟨userPages, 0, 0, 0, true⟩ }

/-- The scan of the memory map for one page. A descriptor of zeroes ends the map. -/
def pageReserved (pgStart pgEnd : ℕ) : List SMAP → Bool
  | [] => true
  | p :: ps =>
    if p.baseAddr ≠ 0 ∨ p.length ≠ 0 ∨ p.type ≠ 0 then
      let start := u32 p.baseAddr.toNat
      let stop := u32 (start + u32 p.length.toNat)
      if pgStart ≥ start ∧ pgEnd ≤ stop ∧ p.type = 1 then false else pageReserved pgStart pgEnd ps
    else true

def initialInfo (smap : List SMAP) (page : ℕ) : PhysicalPageInfo :=
  let pgStart := u32 (page * pageSize)
  if pageReserved pgStart (u32 (pgStart + pageSize)) smap then ⟨true, .bios⟩
  else if page ≥ memUserLoPI ∧ page < memUserHiPI then ⟨false, .user⟩
  else ⟨false, .kernel⟩

/-- One round of the initialisation loop: the page's entry, and the count of user pages. -/
def initPage (smap : List SMAP) (page : ℕ) (s : (ℕ → PhysicalPageInfo) × ℤ) :
    (ℕ → PhysicalPageInfo) × ℤ :=
  (update s.1 page (initialInfo smap page),
    if (initialInfo smap page).perm = .user then s.2 + 1 else s.2)

def physicalMemoryInit (s : State) (smap : List SMAP) : State :=
  let r := forUpTo (initPage smap) numPhysicalPages (s.pPageInfo, 0)
  containerInit { s with pPageInfo := r.1 } r.2

def isFree (s : State) (page : ℕ) : Bool :=
  !(s.pPageInfo page).allocated && (s.pPageInfo page).perm = .user

def takePage (s : State) (page : ℕ) : State :=
  { s with
    pPageInfo := update s.pPageInfo page { s.pPageInfo page with allocated := true }
    lastAllocPage := int32 page }

def physicalPageAlloc (s : State) : State × ℕ :=
  if s.lastFreedPage ≠ -1 then
    -- the bitmap is not updated on this path
    ({ s with lastAllocPage := s.lastFreedPage, lastFreedPage := -1 },
      uint32OfInt s.lastFreedPage)
  else if s.lastAllocPage ≠ -1 then
    let next := u32 (uint32OfInt s.lastAllocPage + 1)
    match scan (isFree s) next memUserHiPI with
    | some page => (takePage s page, page)
    | none =>
      match scan (isFree s) memUserLoPI next with
      | some page => (takePage s page, page)
      | none => (s, 0)
  else
    match scan (isFree s) memUserLoPI memUserHiPI with
    | some page => (takePage s page, page)
    | none => (s, 0)

def physicalPageFree (s : State) (page : ℕ) : State :=
  { s with
    pPageInfo := update s.pPageInfo page { s.pPageInfo page with allocated := false }
    lastFreedPage := int32 page }

def containerSplit (s : State) (id quota : ℕ) : State × ℕ :=
  let numChildren := uint32OfInt (s.containers id).numChildren
  let childID := u32 (id * maxChildren + 1 + numChildren)
  let containers := update s.containers childID ⟨int32 quota, 0, int32 id, 0, true⟩
  let c := containers id
  ({ s with
      containers := update containers id
        { c with usage := int32 (c.usage + quota), numChildren := int32 (c.numChildren + 1) } },
    childID)

def setUsage (s : State) (id : ℕ) (usage : ℤ) : State :=
  { s with containers := update s.containers id { s.containers id with usage := int32 usage } }

def containerAlloc (s : State) (id : ℕ) : State × ℕ :=
  if (s.containers id).usage = (s.containers id).quota then (s, 0)
  else physicalPageAlloc (setUsage s id ((s.containers id).usage + 1))

def containerFree (s : State) (id pageIndex : ℕ) : State :=
  if (s.pPageInfo pageIndex).allocated then
    let s := physicalPageFree s pageIndex
    if (s.containers id).usage > 0 then setUsage s id ((s.containers id).usage - 1) else s
  else s

/-- The containers that a container was split into. The root is listed as its own parent. -/
abbrev IsChild (s : State) (id i : ℕ) : Prop :=
  (s.containers i).used = true ∧ i ≠ 0 ∧ (s.containers i).parent = id

/-- What a split writes, for a parent in the table with few children. -/
theorem containerSplit_eq (s : State) {id k : ℕ} (quota : ℕ) (hid : id < 64)
    (hk : (s.containers id).numChildren = k) (hk' : k < 64) :
    containerSplit s id quota =
      ({ s with
          containers := update
            (update s.containers (id * 8 + 1 + k) ⟨int32 quota, 0, id, 0, true⟩) id
            { s.containers id with
              usage := int32 ((s.containers id).usage + quota)
              numChildren := (k + 1 : ℤ) } }, id * 8 + 1 + k) := by
  have hslot : u32 (id * maxChildren + 1 + uint32OfInt (s.containers id).numChildren) =
      id * 8 + 1 + k := by
    rw [hk, uint32OfInt_natCast (by omega), u32_of_lt (by simp only [maxChildren]; omega)]
  have hold : update s.containers (id * 8 + 1 + k) ⟨int32 quota, 0, id, 0, true⟩ id =
      s.containers id := update_of_ne (by omega) _ _
  rw [containerSplit]
  dsimp only
  rw [hslot, int32_of_bounds (x := id) (by omega) (by omega), hold, hk,
    int32_of_bounds (x := (k + 1 : ℤ)) (by omega) (by omega)]

def UserPage (page : ℕ) : Prop := memUserLoPI ≤ page ∧ page < memUserHiPI

theorem UserPage.bounds {page : ℕ} (h : UserPage page) : 0x40000 ≤ page ∧ page < 0xF0000 := h

theorem UserPage.int32 {page : ℕ} (h : UserPage page) : int32 page = page := by
  have hb := h.bounds
  exact int32_of_bounds (by omega) (by omega)

def CursorOk (s : State) : Prop :=
  s.lastAllocPage = -1 ∨ ∃ page : ℕ, UserPage page ∧ s.lastAllocPage = page

theorem isFree_iff {s : State} {page : ℕ} :
    isFree s page = true ↔
      (s.pPageInfo page).allocated = false ∧ (s.pPageInfo page).perm = .user := by
  simp [isFree]

theorem physicalPageAlloc_shortcut {s : State} {page : ℕ} (hu : UserPage page)
    (h : s.lastFreedPage = page) :
    physicalPageAlloc s = ({ s with lastAllocPage := page, lastFreedPage := -1 }, page) := by
  have hb := hu.bounds
  rw [physicalPageAlloc, if_pos (by omega), h, uint32OfInt_natCast (by omega)]

/-- Where a user page stands in the order in which a scan looks at them: from the cursor to the
upper end, and on from the lower end. -/
def scanOrder (s : State) (page : ℕ) : ℕ :=
  if s.lastAllocPage < page then page else page + memUserHiPI

theorem scanOrder_injective {s : State} {page page' : ℕ} (h : UserPage page) (h' : UserPage page')
    (he : scanOrder s page = scanOrder s page') : page = page' := by
  have hb := h.bounds
  have hb' := h'.bounds
  simp only [scanOrder, memUserHiPI, memUserHi, pageSize] at he
  split at he
  · split at he
    · exact he
    · omega
  · split at he
    · omega
    · omega

/-- Wherever the cursor stands, the two scans cover the user pages with no gap at the seam, and
take the first free one. -/
theorem physicalPageAlloc_scan {s : State} (h : s.lastFreedPage = -1) (hc : CursorOk s) :
    (∃ page, UserPage page ∧ isFree s page = true ∧
      (∀ p, UserPage p → isFree s p = true → scanOrder s page ≤ scanOrder s p) ∧
      physicalPageAlloc s = (takePage s page, page)) ∨
    ((∀ page, UserPage page → isFree s page = false) ∧ physicalPageAlloc s = (s, 0)) := by
  unfold physicalPageAlloc
  rw [if_neg (not_not.mpr h)]
  rcases hc with hc | ⟨c, hcu, hc⟩
  · rw [if_neg (not_not.mpr hc)]
    cases hs : scan (isFree s) memUserLoPI memUserHiPI with
    | some page =>
      refine .inl ⟨page, scan_mem hs, scan_holds hs, fun p hp hfree ↦ ?_, rfl⟩
      rw [scanOrder, scanOrder, if_pos (by omega), if_pos (by omega)]
      exact scan_le hs hp.1 hfree
    | none => exact .inr ⟨fun page hp ↦ scan_eq_none.mp hs page hp.1 hp.2, rfl⟩
  · have hb := hcu.bounds
    have hn : u32 (uint32OfInt s.lastAllocPage + 1) = c + 1 := by
      rw [hc, uint32OfInt_natCast (by omega), u32_of_lt (by omega)]
    rw [if_pos (by omega), hn]
    dsimp only
    cases hs : scan (isFree s) (c + 1) memUserHiPI with
    | some page =>
      have hm := scan_mem hs
      refine .inl ⟨page, ⟨hcu.1.trans (by omega), hm.2⟩, scan_holds hs, fun p hp hfree ↦ ?_, rfl⟩
      rw [scanOrder, scanOrder, if_pos (by omega)]
      split
      · exact scan_le hs (by omega) hfree
      · omega
    | none =>
      have hbefore (p : ℕ) (hp : UserPage p) (hfree : isFree s p = true) : p ≤ c := by
        by_contra hlt
        rw [scan_eq_none.mp hs p (by omega) hp.2] at hfree
        cases hfree
      cases hs' : scan (isFree s) memUserLoPI (c + 1) with
      | some page =>
        have hm := scan_mem hs'
        refine .inl ⟨page, ⟨hm.1, (Nat.lt_succ_iff.mp hm.2).trans_lt hcu.2⟩, scan_holds hs',
          fun p hp hfree ↦ ?_, rfl⟩
        have hpc := hbefore p hp hfree
        rw [scanOrder, scanOrder, if_neg (by omega), if_neg (by omega)]
        exact Nat.add_le_add_right (scan_le hs' hp.1 hfree) _
      | none =>
        refine .inr ⟨fun page hp ↦ ?_, rfl⟩
        by_cases hlt : page < c + 1
        · exact scan_eq_none.mp hs' page hp.1 hlt
        · exact scan_eq_none.mp hs page (not_lt.mp hlt) hp.2

/-- The remembered indices are those of user pages, and the page that was freed last is free. -/
structure Ready (s : State) : Prop where
  cursor : CursorOk s
  shortcut : s.lastFreedPage = -1 ∨
    ∃ page : ℕ, UserPage page ∧ s.lastFreedPage = page ∧ isFree s page = true

/-- The three paths of the allocator: the shortcut, a successful scan, and a scan of no avail. -/
theorem Ready.alloc_cases {s : State} (h : Ready s) :
    (∃ page : ℕ, UserPage page ∧ isFree s page = true ∧ s.lastFreedPage ≠ -1 ∧
      physicalPageAlloc s = ({ s with lastAllocPage := page, lastFreedPage := -1 }, page)) ∨
    (∃ page : ℕ, UserPage page ∧ isFree s page = true ∧ s.lastFreedPage = -1 ∧
      physicalPageAlloc s = (takePage s page, page)) ∨
    ((∀ page, UserPage page → isFree s page = false) ∧ physicalPageAlloc s = (s, 0)) := by
  by_cases hf : s.lastFreedPage = -1
  · rcases physicalPageAlloc_scan hf h.cursor with ⟨page, hu, hfree, _, ha⟩ | hnone
    · exact .inr (.inl ⟨page, hu, hfree, hf, ha⟩)
    · exact .inr (.inr hnone)
  · obtain ⟨page, hu, hl, hfree⟩ := h.shortcut.resolve_left hf
    exact .inl ⟨page, hu, hfree, hf, physicalPageAlloc_shortcut hu hl⟩

section TakePage

variable (s : State) (page : ℕ)

@[simp] theorem takePage_containers : (takePage s page).containers = s.containers := rfl

theorem takePage_pPageInfo_self : (takePage s page).pPageInfo page =
    { s.pPageInfo page with allocated := true } := by
  simp [takePage]

theorem takePage_pPageInfo_of_ne {page : ℕ} {p : ℕ} (h : p ≠ page) :
    (takePage s page).pPageInfo p = s.pPageInfo p := by
  simp [takePage, h]

theorem takePage_perm (p : ℕ) : ((takePage s page).pPageInfo p).perm = (s.pPageInfo p).perm := by
  by_cases h : p = page
  · rw [h, takePage_pPageInfo_self]
  · rw [takePage_pPageInfo_of_ne s h]

theorem takePage_cursorOk {page : ℕ} (h : UserPage page) : CursorOk (takePage s page) := by
  refine .inr ⟨page, h, ?_⟩
  rw [takePage, h.int32]

end TakePage

theorem physicalPageFree_perm (s : State) (page p : ℕ) :
    ((physicalPageFree s page).pPageInfo p).perm = (s.pPageInfo p).perm := by
  by_cases h : p = page
  · simp [physicalPageFree, h]
  · simp [physicalPageFree, h]

/-- The pages that a scan could hand out. -/
def freePages (s : State) : Finset ℕ :=
  (Finset.Ico memUserLoPI memUserHiPI).filter fun page ↦ isFree s page = true

theorem mem_freePages {s : State} {page : ℕ} :
    page ∈ freePages s ↔ UserPage page ∧ isFree s page = true := by
  rw [freePages, Finset.mem_filter, Finset.mem_Ico]
  rfl

theorem freePages_eq_empty {s : State} (h : ∀ page, UserPage page → isFree s page = false) :
    freePages s = ∅ := by
  apply Finset.eq_empty_of_forall_notMem
  intro page hpage
  obtain ⟨hu, hfree⟩ := mem_freePages.mp hpage
  rw [h page hu] at hfree
  cases hfree

theorem freePages_takePage (s : State) (page : ℕ) :
    freePages (takePage s page) = (freePages s).erase page := by
  ext p
  rw [Finset.mem_erase, mem_freePages, mem_freePages, isFree_iff, isFree_iff]
  by_cases hp : p = page
  · subst hp
    simp [takePage_pPageInfo_self]
  · simp [takePage_pPageInfo_of_ne s hp, hp]

theorem freePages_physicalPageFree {s : State} {page : ℕ} (h : UserPage page)
    (hu : (s.pPageInfo page).perm = .user) :
    freePages (physicalPageFree s page) = insert page (freePages s) := by
  ext p
  rw [Finset.mem_insert, mem_freePages, mem_freePages, isFree_iff, isFree_iff]
  by_cases hp : p = page
  · subst hp
    simp [physicalPageFree, h, hu]
  · simp [physicalPageFree, hp]

/-- `ContainerAlloc` fails at the quota, fails after the charge where no page is free, or charges
and hands out a page by one of the two paths. -/
theorem Ready.containerAlloc_cases {s : State} (h : Ready s) (id : ℕ) :
    ((s.containers id).usage = (s.containers id).quota ∧ containerAlloc s id = (s, 0)) ∨
    ((s.containers id).usage ≠ (s.containers id).quota ∧
      (∀ page, UserPage page → isFree s page = false) ∧
      containerAlloc s id = (setUsage s id ((s.containers id).usage + 1), 0)) ∨
    ((s.containers id).usage ≠ (s.containers id).quota ∧ ∃ page : ℕ,
      UserPage page ∧ isFree s page = true ∧
      (s.lastFreedPage ≠ -1 ∧ containerAlloc s id =
          ({ setUsage s id ((s.containers id).usage + 1) with
              lastAllocPage := page, lastFreedPage := -1 }, page) ∨
        s.lastFreedPage = -1 ∧ containerAlloc s id =
          (takePage (setUsage s id ((s.containers id).usage + 1)) page, page))) := by
  by_cases hq : (s.containers id).usage = (s.containers id).quota
  · exact .inl ⟨hq, by rw [containerAlloc, if_pos hq]⟩
  · rw [containerAlloc, if_neg hq]
    have h' : Ready (setUsage s id ((s.containers id).usage + 1)) := ⟨h.cursor, h.shortcut⟩
    rcases h'.alloc_cases with
      ⟨page, hu, hfree, hl, ha⟩ | ⟨page, hu, hfree, hl, ha⟩ | ⟨hnone, ha⟩
    · exact .inr (.inr ⟨hq, page, hu, hfree, .inl ⟨hl, ha⟩⟩)
    · exact .inr (.inr ⟨hq, page, hu, hfree, .inr ⟨hl, ha⟩⟩)
    · exact .inr (.inl ⟨hq, hnone, ha⟩)

section Allocated

variable {p : State} {id page : ℕ}

/-- The pages that are still free in the bitmap when this one has been handed out. -/
def leftOver (p : State) (page : ℕ) : Finset ℕ :=
  if p.lastFreedPage = -1 then (freePages p).erase page else freePages p

theorem erase_subset_leftOver (p : State) (page : ℕ) : (freePages p).erase page ⊆ leftOver p page := by
  rw [leftOver]
  split
  · exact Finset.Subset.rfl
  · exact Finset.erase_subset page (freePages p)

theorem containerAlloc_ready (h : Ready p) (id : ℕ) :
    ((p.containers id).usage = (p.containers id).quota ∧ containerAlloc p id = (p, 0)) ∨
    ((p.containers id).usage ≠ (p.containers id).quota ∧ freePages p = ∅ ∧
      containerAlloc p id = (setUsage p id ((p.containers id).usage + 1), 0)) ∨
    ((p.containers id).usage ≠ (p.containers id).quota ∧ ∃ p' page,
      containerAlloc p id = (p', page) ∧ UserPage page ∧ page ∈ freePages p ∧ Ready p' ∧
        freePages p' = leftOver p page ∧
        p'.containers = (setUsage p id ((p.containers id).usage + 1)).containers) := by
  have hpages : freePages (setUsage p id ((p.containers id).usage + 1)) = freePages p := rfl
  rcases h.containerAlloc_cases id with
    hfull | ⟨hq, hnone, ha⟩ | ⟨hq, page, hu, hfree, ⟨hl, ha⟩ | ⟨hl, ha⟩⟩
  · exact .inl hfull
  · exact .inr (.inl ⟨hq, freePages_eq_empty hnone, ha⟩)
  · refine .inr (.inr ⟨hq, _, page, ha, hu, mem_freePages.mpr ⟨hu, hfree⟩,
      ⟨.inr ⟨page, hu, rfl⟩, .inl rfl⟩, ?_, rfl⟩)
    rw [leftOver, if_neg hl]
    rfl
  · refine .inr (.inr ⟨hq, _, page, ha, hu, mem_freePages.mpr ⟨hu, hfree⟩,
      ⟨takePage_cursorOk _ hu, .inl hl⟩, ?_, rfl⟩)
    rw [leftOver, if_pos hl, freePages_takePage, hpages]

theorem ready_setUsage (h : Ready p) (id : ℕ) (u : ℤ) : Ready (setUsage p id u) :=
  ⟨h.cursor, h.shortcut⟩

theorem ready_containerAlloc (h : Ready p) (id : ℕ) : Ready (containerAlloc p id).1 := by
  rcases containerAlloc_ready h id with ⟨_, ha⟩ | ⟨_, _, ha⟩ | ⟨_, p', page, ha, _, _, hr, _⟩
  · rwa [ha]
  · rw [ha]
    exact ready_setUsage h id _
  · rwa [ha]

theorem ready_containerFree (h : Ready p) (hu : UserPage page)
    (hperm : (p.pPageInfo page).perm = .user) (id : ℕ) : Ready (containerFree p id page) := by
  have hlast : (physicalPageFree p page).lastFreedPage = page := by
    simp only [physicalPageFree, hu.int32]
  have hfree : isFree (physicalPageFree p page) page = true :=
    isFree_iff.mpr ⟨by simp [physicalPageFree], (physicalPageFree_perm p page page).trans hperm⟩
  have hr : Ready (physicalPageFree p page) := ⟨h.cursor, .inr ⟨page, hu, hlast, hfree⟩⟩
  rw [containerFree]
  split
  · dsimp only
    split
    · exact ready_setUsage hr id _
    · exact hr
  · exact h

theorem containerAlloc_perm (h : Ready p) (id page : ℕ) :
    ((containerAlloc p id).1.pPageInfo page).perm = (p.pPageInfo page).perm := by
  rcases h.containerAlloc_cases id with
    ⟨_, ha⟩ | ⟨_, _, ha⟩ | ⟨_, taken, _, _, ⟨_, ha⟩ | ⟨_, ha⟩⟩
  · rw [ha]
  · rw [ha]
    rfl
  · rw [ha]
    rfl
  · rw [ha]
    exact takePage_perm _ taken page

end Allocated

/-- A container gets a page when it is below its quota and some user page is free. -/
theorem containerAlloc_cases {s : State} (h : s.lastFreedPage = -1) (hc : CursorOk s) (id : ℕ) :
    (∃ page, UserPage page ∧ isFree s page = true ∧
      (s.containers id).usage ≠ (s.containers id).quota ∧
      containerAlloc s id =
        (takePage (setUsage s id ((s.containers id).usage + 1)) page, page)) ∨
    ((s.containers id).usage = (s.containers id).quota ∧ containerAlloc s id = (s, 0)) ∨
    ((∀ page, UserPage page → isFree s page = false) ∧
      containerAlloc s id = (setUsage s id ((s.containers id).usage + 1), 0)) := by
  have hready : Ready s := ⟨hc, .inl h⟩
  rcases hready.containerAlloc_cases id with
    hfull | ⟨_, hnone, ha⟩ | ⟨hq, page, hu, hfree, ⟨hl, _⟩ | ⟨_, ha⟩⟩
  · exact .inr (.inl hfull)
  · exact .inr (.inr ⟨hnone, ha⟩)
  · exact absurd h hl
  · exact .inl ⟨page, hu, hfree, hq, ha⟩

/-- The allocator has only handed out pages in between, and none through the shortcut. -/
structure Grown (s s' : State) : Prop where
  shortcut : s'.lastFreedPage = -1
  cursor : CursorOk s'
  allocated : ∀ p, (s.pPageInfo p).allocated = true → (s'.pPageInfo p).allocated = true
  perm : ∀ p, (s'.pPageInfo p).perm = (s.pPageInfo p).perm

theorem Grown.trans {s₀ s₁ s₂ : State} (h : Grown s₀ s₁) (h' : Grown s₁ s₂) : Grown s₀ s₂ where
  shortcut := h'.shortcut
  cursor := h'.cursor
  allocated p hp := h'.allocated p (h.allocated p hp)
  perm p := (h'.perm p).trans (h.perm p)

theorem grown_setUsage {s : State} (h : s.lastFreedPage = -1) (hc : CursorOk s) (id : ℕ) (u : ℤ) :
    Grown s (setUsage s id u) :=
  ⟨h, hc, fun _ hp ↦ hp, fun _ ↦ rfl⟩

theorem grown_takePage {s : State} (h : s.lastFreedPage = -1) {page : ℕ} (hu : UserPage page) :
    Grown s (takePage s page) where
  shortcut := h
  cursor := takePage_cursorOk s hu
  perm := takePage_perm s page
  allocated p hp := by
    by_cases he : p = page
    · rw [he, takePage_pPageInfo_self]
    · rwa [takePage_pPageInfo_of_ne s he]

end StormOS.PhysicalMemory
