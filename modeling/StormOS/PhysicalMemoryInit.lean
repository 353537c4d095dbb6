import StormOS.PhysicalMemory

namespace StormOS.PhysicalMemory

open Library.Loops Machine Function

section Initialisation

variable (s : State) (smap : List SMAP)

theorem initPage_loop (n : ℕ) :
    forUpTo (initPage smap) n (s.pPageInfo, 0) =
      (fun p ↦ if p < n then initialInfo smap p else s.pPageInfo p,
        (((Finset.range n).filter fun p ↦ (initialInfo smap p).perm = .user).card : ℤ)) := by
  induction n with
  | zero => simp
  | succ n ih =>
    rw [forUpTo_succ, ih, initPage, Finset.range_add_one, Finset.filter_insert]
    refine Prod.ext ?_ ?_
    · funext p
      by_cases hp : p = n
      · simp [hp]
      · have hn : p < n + 1 ↔ p < n := by omega
        simp [hp, hn]
    · by_cases hu : (initialInfo smap n).perm = .user
      · simp [hu]
      · simp [hu]

theorem physicalMemoryInit_page {page : ℕ} (h : page < numPhysicalPages) :
    (physicalMemoryInit s smap).pPageInfo page = initialInfo smap page := by
  simp only [physicalMemoryInit, containerInit, initPage_loop, if_pos h]

theorem physicalMemoryInit_quota :
    (physicalMemoryInit s smap).containers 0 =
      ⟨((Finset.range numPhysicalPages).filter fun p ↦ (initialInfo smap p).perm = .user).card,
        0, 0, 0, true⟩ := by
  simp only [physicalMemoryInit, containerInit, initPage_loop, update_self]

theorem physicalMemoryInit_containers {id : ℕ} (h : id ≠ 0) :
    (physicalMemoryInit s smap).containers id = s.containers id := by
  simp only [physicalMemoryInit, containerInit, update_of_ne h]

theorem initialInfo_user {smap : List SMAP} {page : ℕ} (h : (initialInfo smap page).perm = .user) :
    UserPage page ∧ (initialInfo smap page).allocated = false := by
  simp only [initialInfo] at h ⊢
  split at h
  · cases h
  · rename_i hr
    split at h
    · rename_i hp
      rw [if_neg hr, if_pos hp]
      exact ⟨hp, rfl⟩
    · cases h

/-- The root container is given a quota of every page that a scan could hand out. -/
theorem physicalMemoryInit_root :
    (physicalMemoryInit s smap).containers 0 =
      ⟨(freePages (physicalMemoryInit s smap)).card, 0, 0, 0, true⟩ := by
  have hset : (Finset.range numPhysicalPages).filter (fun p ↦ (initialInfo smap p).perm = .user) =
      freePages (physicalMemoryInit s smap) := by
    ext p
    rw [Finset.mem_filter, Finset.mem_range, mem_freePages, isFree_iff]
    constructor
    · intro ⟨hp, hu⟩
      rw [physicalMemoryInit_page s smap hp]
      exact ⟨(initialInfo_user hu).1, (initialInfo_user hu).2, hu⟩
    · intro ⟨hup, _, hu⟩
      have hb := hup.bounds
      have hp : p < numPhysicalPages := hb.2.trans (by decide)
      rw [physicalMemoryInit_page s smap hp] at hu
      exact ⟨hp, hu⟩
  rw [physicalMemoryInit_quota, hset]

end Initialisation

def pageMap (n : ℕ) : List SMAP := [⟨20, 0x40000000, UInt64.ofNat (n * 0x1000), 1⟩]

theorem initialInfo_pageMap {n page : ℕ} (hn : n ≤ 0xB0000) (h : UserPage page) :
    initialInfo (pageMap n) page = if page < 0x40000 + n then ⟨false, .user⟩ else ⟨true, .bios⟩ := by
  have hb := h.bounds
  have hs : u32 (page * 4096) = page * 4096 := u32_of_lt (by omega)
  have he : u32 (page * 4096 + 4096) = page * 4096 + 4096 := u32_of_lt (by omega)
  have hstart : u32 (0x40000000 : UInt64).toNat = 0x40000000 := by decide
  have hlen : u32 (UInt64.ofNat (n * 0x1000)).toNat = n * 4096 := by
    rw [UInt64.toNat_ofNat', Nat.mod_eq_of_lt (by omega), u32_of_lt (by omega)]
  have hstop : u32 (0x40000000 + n * 4096) = 0x40000000 + n * 4096 := u32_of_lt (by omega)
  have hrange : page ≥ memUserLoPI ∧ page < memUserHiPI := h
  simp only [initialInfo, pageSize, hs, he, hrange, pageMap, pageReserved, hstart, hlen, hstop]
  by_cases hp : page < 0x40000 + n
  · have hfit : page * 4096 ≥ 0x40000000 ∧ page * 4096 + 4096 ≤ 0x40000000 + n * 4096 := by omega
    simp [hp, hfit]
  · have hfit : ¬ page * 4096 + 4096 ≤ 0x40000000 + n * 4096 := by omega
    simp [hp, hfit]

theorem pageMap_free {n page : ℕ} (hn : n ≤ 0xB0000) (h : UserPage page) :
    isFree (physicalMemoryInit loaded (pageMap n)) page = true ↔ page < 0x40000 + n := by
  have hb := h.bounds
  rw [isFree_iff, physicalMemoryInit_page loaded (pageMap n) (hb.2.trans (by decide)),
    initialInfo_pageMap hn h]
  by_cases hp : page < 0x40000 + n
  · simp [hp]
  · simp [hp]

abbrev onePageMap : List SMAP := pageMap 1

theorem onePageMap_free (p : ℕ) (hp : UserPage p) :
    isFree (physicalMemoryInit loaded onePageMap) p = true ↔ p = 0x40000 := by
  have hb := hp.bounds
  rw [pageMap_free (by decide) hp]
  omega

theorem userPage_first : UserPage 0x40000 := ⟨by decide, by decide⟩

end StormOS.PhysicalMemory
