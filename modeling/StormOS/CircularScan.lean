import StormOS.PageCustody
import Mathlib.Data.Multiset.AddSub

namespace StormOS.CircularScan

open Library.Runs Machine PhysicalMemory PageCustody Function

/-- The allocator beside the pages that callers hold, one entry for every time a page was handed
out and not yet returned. -/
structure Pool where
  memory : State
  outstanding : Multiset ℕ

def perform (p : Pool) : Request → Pool
  | .alloc =>
    let r := physicalPageAlloc p.memory
    if r.2 = 0 then { p with memory := r.1 } else ⟨r.1, r.2 ::ₘ p.outstanding⟩
  | .free page => ⟨physicalPageFree p.memory page, p.outstanding.erase page⟩

def pool : System Pool Request where
  enabled p
    | .alloc => True
    | .free page => page ∈ p.outstanding
  step := perform

def start (smap : List SMAP) : Pool := ⟨physicalMemoryInit loaded smap, 0⟩

/-- The allocator's indices are in order, and callers hold user pages. -/
structure Remembered (p : Pool) : Prop extends Ready p.memory where
  user : ∀ page ∈ p.outstanding, UserPage page ∧ (p.memory.pPageInfo page).perm = .user

variable {p : Pool}

theorem Remembered.alloc (h : Remembered p) : Remembered (perform p .alloc) := by
  rcases h.toReady.alloc_cases with
    ⟨page, hu, hfree, _, ha⟩ | ⟨page, hu, hfree, hf, ha⟩ | ⟨_, ha⟩
  · have hb := hu.bounds
    have hne : page ≠ 0 := by omega
    simp only [perform, ha, hne, if_false]
    refine ⟨⟨.inr ⟨page, hu, rfl⟩, .inl rfl⟩, fun q hq ↦ ?_⟩
    rcases Multiset.mem_cons.mp hq with rfl | hq
    · exact ⟨hu, (isFree_iff.mp hfree).2⟩
    · exact h.user q hq
  · have hb := hu.bounds
    have hne : page ≠ 0 := by omega
    simp only [perform, ha, hne, if_false]
    refine ⟨⟨takePage_cursorOk p.memory hu, .inl hf⟩, fun q hq ↦ ?_⟩
    simp only [takePage_perm]
    rcases Multiset.mem_cons.mp hq with rfl | hq
    · exact ⟨hu, (isFree_iff.mp hfree).2⟩
    · exact h.user q hq
  · simpa only [perform, ha, if_true] using h

theorem Remembered.free (h : Remembered p) {page : ℕ} (hp : page ∈ p.outstanding) :
    Remembered (perform p (.free page)) := by
  obtain ⟨hu, hperm⟩ := h.user page hp
  have hkeep := physicalPageFree_perm p.memory page
  have hlast : (physicalPageFree p.memory page).lastFreedPage = page := by
    simp only [physicalPageFree, hu.int32]
  have hfree : isFree (physicalPageFree p.memory page) page = true :=
    isFree_iff.mpr ⟨by simp [physicalPageFree], (hkeep page).trans hperm⟩
  refine ⟨⟨h.cursor, .inr ⟨page, hu, hlast, hfree⟩⟩, fun q hq ↦ ?_⟩
  obtain ⟨hqu, hqp⟩ := h.user q (Multiset.mem_of_mem_erase hq)
  exact ⟨hqu, (hkeep q).trans hqp⟩

theorem Remembered.step (h : Remembered p) {r : Request} (he : pool.enabled p r) :
    Remembered (pool.step p r) := by
  cases r with
  | alloc => exact h.alloc
  | free page => exact h.free he

theorem start_remembered (smap : List SMAP) : Remembered (start smap) :=
  ⟨⟨.inl rfl, .inl rfl⟩, fun _ hp ↦ absurd hp (Multiset.notMem_zero _)⟩

/-- In every reachable state the allocator fails exactly when no user page is free, and it returns
a page that was free. -/
theorem scan_complete (smap : List SMAP) (rs : List Request)
    (hlegal : pool.Legal (start smap) rs) :
    let s := (pool.final (start smap) rs).memory
    ((physicalPageAlloc s).2 = 0 ↔ ∀ page, memUserLoPI ≤ page → page < memUserHiPI →
      (s.pPageInfo page).allocated = true ∨ (s.pPageInfo page).perm ≠ .user) ∧
    ((physicalPageAlloc s).2 ≠ 0 →
      (memUserLoPI ≤ (physicalPageAlloc s).2 ∧ (physicalPageAlloc s).2 < memUserHiPI) ∧
        (s.pPageInfo (physicalPageAlloc s).2).allocated = false ∧
        (s.pPageInfo (physicalPageAlloc s).2).perm = .user) := by
  have h : Remembered (pool.final (start smap) rs) :=
    hlegal.final (start_remembered smap) fun _ _ h he ↦ h.step he
  intro s
  have hfound (page : ℕ) (hu : UserPage page) (hfree : isFree s page = true) :
      page ≠ 0 ∧ ¬ ∀ page, memUserLoPI ≤ page → page < memUserHiPI →
        (s.pPageInfo page).allocated = true ∨ (s.pPageInfo page).perm ≠ .user := by
    have hb := hu.bounds
    obtain ⟨ha, hp⟩ := isFree_iff.mp hfree
    refine ⟨by omega, fun hall ↦ ?_⟩
    rcases hall page hu.1 hu.2 with hall | hall
    · rw [ha] at hall
      cases hall
    · exact hall hp
  rcases h.toReady.alloc_cases with
    ⟨page, hu, hfree, _, ha⟩ | ⟨page, hu, hfree, _, ha⟩ | ⟨hnone, ha⟩
  · rw [ha]
    exact ⟨iff_of_false (hfound page hu hfree).1 (hfound page hu hfree).2,
      fun _ ↦ ⟨hu, isFree_iff.mp hfree⟩⟩
  · rw [ha]
    exact ⟨iff_of_false (hfound page hu hfree).1 (hfound page hu hfree).2,
      fun _ ↦ ⟨hu, isFree_iff.mp hfree⟩⟩
  · rw [ha]
    refine ⟨iff_of_true rfl fun page hlo hhi ↦ ?_, fun hne ↦ absurd rfl hne⟩
    have hnot := hnone page ⟨hlo, hhi⟩
    rw [← Bool.not_eq_true, isFree_iff, not_and_or, Bool.not_eq_false] at hnot
    exact hnot

theorem scan_complete_onePageMap :
    let s := (pool.final (start onePageMap) [.alloc, .free 0x40000, .alloc]).memory
    ((physicalPageAlloc s).2 = 0 ↔ ∀ page, memUserLoPI ≤ page → page < memUserHiPI →
      (s.pPageInfo page).allocated = true ∨ (s.pPageInfo page).perm ≠ .user) ∧
    ((physicalPageAlloc s).2 ≠ 0 →
      (memUserLoPI ≤ (physicalPageAlloc s).2 ∧ (physicalPageAlloc s).2 < memUserHiPI) ∧
        (s.pPageInfo (physicalPageAlloc s).2).allocated = false ∧
        (s.pPageInfo (physicalPageAlloc s).2).perm = .user) := by
  have ha : physicalPageAlloc (start onePageMap).memory =
      (takePage (start onePageMap).memory 0x40000, 0x40000) :=
    physicalPageAlloc_unique rfl (.inl rfl) userPage_first
      ((onePageMap_free _ userPage_first).mpr rfl) (fun p hp ↦ (onePageMap_free p hp).mp)
  have hs : pool.step (start onePageMap) .alloc =
      ⟨takePage (start onePageMap).memory 0x40000, {0x40000}⟩ := by
    simp only [pool, perform, ha]
    rfl
  refine scan_complete onePageMap _ ⟨trivial, ?_, trivial, trivial⟩
  rw [hs]
  exact Multiset.mem_singleton_self _

end StormOS.CircularScan
