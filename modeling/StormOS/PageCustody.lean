import StormOS.PhysicalMemoryInit
import StormOS.Library.Runs

namespace StormOS.PageCustody

open Library.Runs Machine PhysicalMemory Function

inductive Request
  | alloc
  | free (page : ℕ)

/-- The allocator beside the pages its callers hold. `reissued` marks those of them that came
through the last-freed shortcut. -/
structure Custody where
  memory : State
  outstanding : Finset ℕ
  reissued : Finset ℕ

def serve (c : Custody) : Request → Custody
  | .alloc =>
    let r := physicalPageAlloc c.memory
    if r.2 = 0 then { c with memory := r.1 }
    else
      { memory := r.1
        outstanding := insert r.2 c.outstanding
        reissued := if c.memory.lastFreedPage ≠ -1 then insert r.2 c.reissued else c.reissued }
  | .free page =>
    { memory := physicalPageFree c.memory page
      outstanding := c.outstanding.erase page
      reissued := c.reissued.erase page }

/-- Callers free only pages that they hold. -/
def custody : System Custody Request where
  enabled c
    | .alloc => True
    | .free page => page ∈ c.outstanding
  step := serve

def start (smap : List SMAP) : Custody := ⟨physicalMemoryInit loaded smap, ∅, ∅⟩

/-- A page that the allocator hands out is held by nobody. -/
def HandsOutUnheld (c : Custody) : Request → Prop
  | .alloc => (physicalPageAlloc c.memory).2 ≠ 0 → (physicalPageAlloc c.memory).2 ∉ c.outstanding
  | .free _ => True

/-- Before a held page whose bit is clear, a scan comes to one that is free and not held. -/
def ScansToUnheld (c : Custody) : Request → Prop
  | .alloc => c.memory.lastFreedPage = -1 → ∀ p ∈ c.outstanding, isFree c.memory p = true →
      ∃ q ∉ c.outstanding, UserPage q ∧ isFree c.memory q = true ∧
        scanOrder c.memory q < scanOrder c.memory p
  | .free _ => True

/-- The allocator scans only while no page from the shortcut is held. -/
def ScansAfterReturn (c : Custody) : Request → Prop
  | .alloc => c.memory.lastFreedPage = -1 → c.reissued = ∅
  | .free _ => True

/-- Held pages are user pages, marked in the bitmap unless they came through the shortcut, and
the page that the shortcut would hand out is free and unheld. -/
structure Accounted (c : Custody) : Prop where
  cursor : CursorOk c.memory
  shortcut : c.memory.lastFreedPage = -1 ∨
    ∃ page : ℕ, UserPage page ∧ c.memory.lastFreedPage = page ∧ page ∉ c.outstanding ∧
      (c.memory.pPageInfo page).perm = .user
  user : ∀ page ∈ c.outstanding, UserPage page ∧ (c.memory.pPageInfo page).perm = .user
  marked : ∀ page ∈ c.outstanding, page ∉ c.reissued → (c.memory.pPageInfo page).allocated = true

variable {c : Custody}

theorem start_accounted (smap : List SMAP) : Accounted (start smap) where
  cursor := .inl rfl
  shortcut := .inl rfl
  user := by simp [start]
  marked := by simp [start]

theorem Accounted.shortcut_page (h : Accounted c) (hf : c.memory.lastFreedPage ≠ -1) :
    ∃ page : ℕ, UserPage page ∧ page ∉ c.outstanding ∧
      (c.memory.pPageInfo page).perm = .user ∧
      physicalPageAlloc c.memory =
        ({ c.memory with lastAllocPage := page, lastFreedPage := -1 }, page) := by
  obtain ⟨page, hu, hl, ho, hp⟩ := h.shortcut.resolve_left hf
  exact ⟨page, hu, ho, hp, physicalPageAlloc_shortcut hu hl⟩

theorem Accounted.handsOutUnheld_iff (h : Accounted c) (r : Request) :
    HandsOutUnheld c r ↔ ScansToUnheld c r := by
  cases r with
  | free page => exact Iff.rfl
  | alloc =>
    by_cases hf : c.memory.lastFreedPage = -1
    · rcases physicalPageAlloc_scan hf h.cursor with ⟨page, hu, hfree, hfirst, ha⟩ | ⟨hnone, ha⟩
      · have hb := hu.bounds
        simp only [HandsOutUnheld, ScansToUnheld, ha]
        constructor
        · intro hunheld _ p hp hpfree
          have hpage := hunheld (by omega)
          refine ⟨page, hpage, hu, hfree, lt_of_le_of_ne (hfirst p (h.user p hp).1 hpfree) ?_⟩
          intro he
          exact hpage (scanOrder_injective hu (h.user p hp).1 he ▸ hp)
        · intro hscan _ hheld
          obtain ⟨q, _, hqu, hqfree, hlt⟩ := hscan hf page hheld hfree
          exact absurd (hfirst q hqu hqfree) (not_le.mpr hlt)
      · simp only [HandsOutUnheld, ScansToUnheld, ha]
        refine iff_of_true (fun h0 ↦ absurd rfl h0) fun _ p hp hpfree ↦ ?_
        rw [hnone p (h.user p hp).1] at hpfree
        cases hpfree
    · obtain ⟨page, _, hunheld, _, ha⟩ := h.shortcut_page hf
      refine iff_of_true (fun _ ↦ ?_) fun hscan ↦ absurd hscan hf
      rwa [ha]

/-- Held pages with a clear bit are those that came through the shortcut. -/
theorem Accounted.scansToUnheld (h : Accounted c) {r : Request} (hs : ScansAfterReturn c r) :
    ScansToUnheld c r := by
  cases r with
  | free page => trivial
  | alloc =>
    intro hf p hp hfree
    have hm := h.marked p hp (by simp [hs hf])
    rw [(isFree_iff.mp hfree).1] at hm
    cases hm

theorem Accounted.alloc (h : Accounted c) : Accounted (serve c .alloc) := by
  by_cases hf : c.memory.lastFreedPage = -1
  · rcases physicalPageAlloc_scan hf h.cursor with ⟨page, hu, hfree, _, ha⟩ | ⟨_, ha⟩
    · have hb := hu.bounds
      have hne : page ≠ 0 := by omega
      simp only [serve, ha, hne, if_false, hf, ne_eq, not_true]
      constructor
      · exact takePage_cursorOk c.memory hu
      · exact .inl hf
      · intro p hp
        simp only [takePage_perm]
        rcases Finset.mem_insert.mp hp with rfl | hp
        · exact ⟨hu, (isFree_iff.mp hfree).2⟩
        · exact h.user p hp
      · intro p hp hr
        by_cases he : p = page
        · rw [he, takePage_pPageInfo_self]
        · rw [takePage_pPageInfo_of_ne _ he]
          exact h.marked p ((Finset.mem_insert.mp hp).resolve_left he) hr
    · simpa only [serve, ha, if_true] using h
  · obtain ⟨page, hu, _, hp, ha⟩ := h.shortcut_page hf
    have hb := hu.bounds
    have hne : page ≠ 0 := by omega
    simp only [serve, ha, hne, if_false, hf, ne_eq, not_false_eq_true, if_true]
    constructor
    · exact .inr ⟨page, hu, rfl⟩
    · exact .inl rfl
    · intro p hp'
      rcases Finset.mem_insert.mp hp' with rfl | hp'
      · exact ⟨hu, hp⟩
      · exact h.user p hp'
    · intro p hp' hr
      simp only [Finset.mem_insert, not_or] at hp' hr
      exact h.marked p (hp'.resolve_left hr.1) hr.2

theorem Accounted.free (h : Accounted c) {page : ℕ} (hp : page ∈ c.outstanding) :
    Accounted (serve c (.free page)) := by
  obtain ⟨hu, hperm⟩ := h.user page hp
  have hkeep := physicalPageFree_perm c.memory page
  constructor
  · exact h.cursor
  · refine .inr ⟨page, hu, ?_, ?_, ?_⟩
    · simp only [serve, physicalPageFree, hu.int32]
    · simp [serve]
    · exact (hkeep page).trans hperm
  · intro p hp'
    obtain ⟨hup, hpp⟩ := h.user p (Finset.mem_of_mem_erase hp')
    exact ⟨hup, (hkeep p).trans hpp⟩
  · intro p hp' hr
    have hne := Finset.ne_of_mem_erase hp'
    have hr' : p ∉ c.reissued := fun hr' ↦ hr (Finset.mem_erase.mpr ⟨hne, hr'⟩)
    have hm := h.marked p (Finset.mem_of_mem_erase hp') hr'
    simpa [serve, physicalPageFree, hne] using hm

theorem Accounted.step (h : Accounted c) {r : Request} (he : custody.enabled c r) :
    Accounted (custody.step c r) := by
  cases r with
  | alloc => exact h.alloc
  | free page => exact h.free he

/-- Between two returns of a page there is a free of it exactly in the runs in which every scan
comes to a free page that is not held before it comes to a held one that is not marked. -/
theorem alloc_unheld_iff (smap : List SMAP) (rs : List Request)
    (hlegal : custody.Legal (start smap) rs) :
    custody.Along HandsOutUnheld (start smap) rs ↔ custody.Along ScansToUnheld (start smap) rs :=
  hlegal.congr (start_accounted smap) (fun _ _ h he ↦ h.step he)
    fun _ r h _ ↦ h.handsOutUnheld_iff r

theorem along_scansToUnheld (smap : List SMAP) (rs : List Request)
    (hlegal : custody.Legal (start smap) rs)
    (hscan : custody.Along ScansAfterReturn (start smap) rs) :
    custody.Along ScansToUnheld (start smap) rs :=
  (hlegal.and hscan).along (start_accounted smap) (fun _ _ h hq ↦ h.step hq.1)
    (fun _ _ h hq ↦ h.scansToUnheld hq.2)

section OnePage

variable {s : State} {page : ℕ}

theorem physicalPageAlloc_unique (hf : s.lastFreedPage = -1) (hc : CursorOk s)
    (hu : UserPage page) (hfree : isFree s page = true)
    (honly : ∀ p, UserPage p → isFree s p = true → p = page) :
    physicalPageAlloc s = (takePage s page, page) := by
  rcases physicalPageAlloc_scan hf hc with ⟨p, hp, hpf, _, ha⟩ | ⟨hnone, _⟩
  · rw [ha, honly p hp hpf]
  · rw [hnone page hu] at hfree
    cases hfree

def reissue (s : State) (page : ℕ) : State :=
  { physicalPageFree (takePage s page) page with lastAllocPage := page, lastFreedPage := -1 }

theorem isFree_reissue (hfree : isFree s page = true) (p : ℕ) :
    isFree (reissue s page) p = isFree s p := by
  by_cases hp : p = page
  · subst hp
    rw [hfree, isFree_iff]
    simp [reissue, physicalPageFree, takePage, (isFree_iff.mp hfree).2]
  · simp [isFree, reissue, physicalPageFree, takePage, hp]

variable (hf : s.lastFreedPage = -1) (hc : CursorOk s) (hu : UserPage page)
  (hfree : isFree s page = true) (honly : ∀ p, UserPage p → isFree s p = true → p = page)

include hf hc hu hfree honly

theorem serve_alloc : serve ⟨s, ∅, ∅⟩ .alloc = ⟨takePage s page, {page}, ∅⟩ := by
  have hb := hu.bounds
  have hne : page ≠ 0 := by omega
  simp [serve, physicalPageAlloc_unique hf hc hu hfree honly, hne, hf]

omit hf hc hfree honly in
theorem serve_realloc :
    serve ⟨physicalPageFree (takePage s page) page, ∅, ∅⟩ .alloc =
      ⟨reissue s page, {page}, {page}⟩ := by
  have hb := hu.bounds
  have hne : page ≠ 0 := by omega
  have hl : (physicalPageFree (takePage s page) page).lastFreedPage = page := by
    simp only [physicalPageFree, hu.int32]
  have hl' : (physicalPageFree (takePage s page) page).lastFreedPage ≠ -1 := by omega
  have ha : physicalPageAlloc (physicalPageFree (takePage s page) page) =
      (reissue s page, page) := physicalPageAlloc_shortcut hu hl
  simp [serve, ha, hne, hl']

theorem along_reissue {Q : Custody → Request → Prop} {r : List Request} :
    custody.Along Q ⟨s, ∅, ∅⟩ (.alloc :: .free page :: .alloc :: r) ↔
      Q ⟨s, ∅, ∅⟩ .alloc ∧ Q ⟨takePage s page, {page}, ∅⟩ (.free page) ∧
        Q ⟨physicalPageFree (takePage s page) page, ∅, ∅⟩ .alloc ∧
        custody.Along Q ⟨reissue s page, {page}, {page}⟩ r := by
  have e₂ : serve ⟨takePage s page, {page}, ∅⟩ (.free page) =
      ⟨physicalPageFree (takePage s page) page, ∅, ∅⟩ := by simp [serve]
  simp only [System.along_cons, custody, serve_alloc hf hc hu hfree honly, e₂, serve_realloc hu]

/-- Freeing a page and taking it back leaves its bit clear, so that a scan finds it again. -/
theorem alloc_twice_of_unique :
    custody.Legal ⟨s, ∅, ∅⟩ [.alloc, .free page, .alloc, .alloc] ∧
      ¬ custody.Along HandsOutUnheld ⟨s, ∅, ∅⟩ [.alloc, .free page, .alloc, .alloc] := by
  have hb := hu.bounds
  have hne : page ≠ 0 := by omega
  have ha : physicalPageAlloc (reissue s page) = (takePage (reissue s page) page, page) := by
    refine physicalPageAlloc_unique rfl (.inr ⟨page, hu, rfl⟩) hu ?_ (fun p hp hpf ↦ ?_)
    · rw [isFree_reissue hfree, hfree]
    · exact honly p hp (by rwa [isFree_reissue hfree] at hpf)
  simp only [along_reissue hf hc hu hfree honly, System.along_cons, System.along_nil]
  refine ⟨by simp [custody], fun h ↦ ?_⟩
  have hlast := h.2.2.2.1
  simp only [HandsOutUnheld, ha] at hlast
  exact hlast hne (Finset.mem_singleton_self page)

end OnePage

/-- Allocating, freeing and allocating twice hands the only page out to two holders. -/
theorem alloc_held_twice :
    custody.Legal (start onePageMap) [.alloc, .free 0x40000, .alloc, .alloc] ∧
      ¬ custody.Along HandsOutUnheld (start onePageMap) [.alloc, .free 0x40000, .alloc, .alloc] :=
  alloc_twice_of_unique rfl (.inl rfl) userPage_first
    ((onePageMap_free _ userPage_first).mpr rfl) (fun p hp ↦ (onePageMap_free p hp).mp)

theorem alloc_unheld_onePageMap :
    custody.Along HandsOutUnheld (start onePageMap) [.alloc, .free 0x40000, .alloc] := by
  have hrun {Q : Custody → Request → Prop} := along_reissue (Q := Q) (r := [])
    (s := physicalMemoryInit loaded onePageMap) rfl (.inl rfl) userPage_first
    ((onePageMap_free _ userPage_first).mpr rfl) (fun p hp ↦ (onePageMap_free p hp).mp)
  refine (alloc_unheld_iff onePageMap _ (hrun.mpr ?_)).mpr (hrun.mpr ?_)
  · simp [custody]
  · exact ⟨fun _ _ hp ↦ absurd hp (Finset.notMem_empty _), trivial,
      fun _ _ hp ↦ absurd hp (Finset.notMem_empty _), trivial⟩

end StormOS.PageCustody
