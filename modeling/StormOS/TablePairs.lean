import StormOS.FailedAllocation
import Mathlib.Data.Multiset.AddSub

namespace StormOS.TablePairs

open Library.Bytes Library.Runs
open PhysicalMemory hiding State
open Machine VirtualMemory Isolation AddressSpaces FailedAllocation Function

/-- No account is overdrawn. -/
structure Balanced (containers : ℕ → Container) : Prop where
  usage_nonneg : ∀ i, 0 ≤ (containers i).usage
  usage_le : ∀ i, (containers i).usage ≤ (containers i).quota
  int : ∀ i, (containers i).quota < 2 ^ 31

/-- The accounts of the containers. -/
abbrev Accounts : Type := { containers : ℕ → Container // Balanced containers }

inductive Operation
  | allocTable (i va : ℕ)
  | freeTable (i va : ℕ)
  | alloc (i : ℕ)
  | free (i page : ℕ)

/-- The kernel beside the pages that containers were given and still hold. -/
structure Holdings where
  kernel : State
  held : Multiset (ℕ × ℕ)

def perform (t : Holdings) : Operation → Holdings
  | .allocTable i va => { t with kernel := (allocPageTable t.kernel i va).1 }
  | .freeTable i va => { t with kernel := freePageTable t.kernel i va }
  | .alloc i =>
    let r := containerAlloc t.kernel.physical i
    let kernel := { t.kernel with physical := r.1 }
    if r.2 = 0 then { t with kernel := kernel } else ⟨kernel, (i, r.2) ::ₘ t.held⟩
  | .free i page =>
    ⟨{ t.kernel with physical := containerFree t.kernel.physical i page }, t.held.erase (i, page)⟩

/-- Tables are removed where there are some, and pages are returned by those who hold them. -/
def holdings : System Holdings Operation where
  enabled t
    | .allocTable i va => i < maxProcs ∧ va < 2 ^ 32
    | .freeTable i va => UserTable i (vaPdeIndex va) ∧ t.kernel.pageDirEntries i (vaPdeIndex va) ≠ 0
    | .alloc i => i < maxProcs
    | .free i page => (i, page) ∈ t.held
  step := perform

/-- After `AllocPageTable` and `FreePageTable` the directory entry, the account of the process and
the bitmap are as before. -/
structure Restores (s : State) (i va : ℕ) : Prop where
  directory : (freePageTable (allocPageTable s i va).1 i va).pageDirEntries i (vaPdeIndex va) =
    s.pageDirEntries i (vaPdeIndex va)
  usage : ((freePageTable (allocPageTable s i va).1 i va).physical.containers i).usage =
    (s.physical.containers i).usage
  allocated : ∀ page,
    ((freePageTable (allocPageTable s i va).1 i va).physical.pPageInfo page).allocated =
      (s.physical.pPageInfo page).allocated

structure Sound (p : PhysicalMemory.State) : Prop extends Ready p where
  balanced : Balanced p.containers

/-- Pages that containers may hold. -/
def Holdable (p : PhysicalMemory.State) (page : ℕ) : Prop :=
  UserPage page ∧ (p.pPageInfo page).perm = .user

structure Keeps (t : Holdings) : Prop where
  sound : Sound t.kernel.physical
  tables : ∀ i j, UserTable i j → t.kernel.pageDirEntries i j ≠ 0 →
    Holdable t.kernel.physical (t.kernel.pageDirEntries i j / pageSize)
  held : ∀ x ∈ t.held, Holdable t.kernel.physical x.2

variable {t : Holdings} {s : State} {p : PhysicalMemory.State} {i j id page va : ℕ}

theorem containerAlloc_holdable (h : Ready p) (hne : (containerAlloc p id).2 ≠ 0) :
    Holdable p (containerAlloc p id).2 := by
  obtain ⟨hu, hmem, _⟩ := containerAlloc_got h rfl hne
  exact ⟨hu, (isFree_iff.mp (mem_freePages.mp hmem).2).2⟩

/-- The two ways in which a page is handed out. -/
theorem containerAlloc_paths (h : Ready p) (hne : (containerAlloc p id).2 ≠ 0) :
    (p.containers id).usage ≠ (p.containers id).quota ∧ ∃ page : ℕ,
      UserPage page ∧ isFree p page = true ∧
      (p.lastFreedPage ≠ -1 ∧ containerAlloc p id =
          ({ setUsage p id ((p.containers id).usage + 1) with
              lastAllocPage := page, lastFreedPage := -1 }, page) ∨
        p.lastFreedPage = -1 ∧ containerAlloc p id =
          (takePage (setUsage p id ((p.containers id).usage + 1)) page, page)) := by
  rcases h.containerAlloc_cases id with ⟨_, ha⟩ | ⟨_, _, ha⟩ | hpaths
  · rw [ha] at hne
    exact absurd rfl hne
  · rw [ha] at hne
    exact absurd rfl hne
  · exact hpaths

theorem containerFree_perm (p : PhysicalMemory.State) (id page q : ℕ) :
    ((containerFree p id page).pPageInfo q).perm = (p.pPageInfo q).perm := by
  rw [containerFree]
  split
  · dsimp only
    split
    · exact physicalPageFree_perm p page q
    · exact physicalPageFree_perm p page q
  · rfl

theorem Balanced.recharge {containers : ℕ → Container} (h : Balanced containers) {u : ℤ}
    (h0 : 0 ≤ u) (hq : u ≤ (containers id).quota) :
    Balanced (update containers id { containers id with usage := int32 u }) := by
  have hint : int32 u = u := int32_of_bounds h0 (hq.trans_lt (h.int id))
  rw [hint]
  constructor
  · apply (forall_update_iff containers fun _ c ↦ 0 ≤ c.usage).mpr
    exact ⟨h0, fun i _ ↦ h.usage_nonneg i⟩
  · apply (forall_update_iff containers fun _ c ↦ c.usage ≤ c.quota).mpr
    exact ⟨hq, fun i _ ↦ h.usage_le i⟩
  · apply (forall_update_iff containers fun _ c ↦ c.quota < 2 ^ 31).mpr
    exact ⟨h.int id, fun i _ ↦ h.int i⟩

theorem Balanced.charge {containers : ℕ → Container} (h : Balanced containers)
    (hne : (containers id).usage ≠ (containers id).quota) :
    0 < (containers id).usage + 1 ∧ (containers id).usage + 1 ≤ (containers id).quota := by
  have h0 := h.usage_nonneg id
  have hq := h.usage_le id
  omega

theorem Sound.alloc (h : Sound p) (id : ℕ) : Sound (containerAlloc p id).1 := by
  refine ⟨ready_containerAlloc h.toReady id, ?_⟩
  rcases containerAlloc_ready h.toReady id with
    ⟨_, ha⟩ | ⟨hq, _, ha⟩ | ⟨hq, p', taken, ha, _, _, _, _, hcont⟩
  · rw [ha]
    exact h.balanced
  · rw [ha]
    have hc := h.balanced.charge hq
    exact h.balanced.recharge hc.1.le hc.2
  · rw [ha]
    have hc := h.balanced.charge hq
    have hcharged := h.balanced.recharge hc.1.le hc.2
    exact hcont ▸ hcharged

theorem Sound.free (h : Sound p) (hp : Holdable p page) (id : ℕ) :
    Sound (containerFree p id page) := by
  refine ⟨ready_containerFree h.toReady hp.1 hp.2 id, ?_⟩
  rw [containerFree]
  split
  · dsimp only
    split
    · rename_i hpos
      have hq := h.balanced.usage_le id
      have hpos' : 0 < (p.containers id).usage := hpos
      exact h.balanced.recharge (u := (p.containers id).usage - 1) (by omega) (by omega)
    · exact h.balanced
  · exact h.balanced

/-- What `AllocPageTable` does: take a page, and enter it as a table where there is one. -/
theorem allocPageTable_cases (h : Ready s.physical) (i va : ℕ) :
    (∃ p, containerAlloc s.physical i = (p, 0) ∧
      allocPageTable s i va = ({ s with physical := p }, 0)) ∨
    (∃ p page, containerAlloc s.physical i = (p, page) ∧ Holdable s.physical page ∧ page ≠ 0 ∧
      allocPageTable s i va =
        (withTable { s with physical := p } i (vaPdeIndex va) page, page)) := by
  obtain ⟨p, page, ha⟩ : ∃ p page, containerAlloc s.physical i = (p, page) := ⟨_, _, rfl⟩
  by_cases hne : page = 0
  · subst hne
    refine .inl ⟨p, ha, ?_⟩
    simp only [allocPageTable, ha, ne_eq, not_true, if_false]
  · have hpage : Holdable s.physical page := by
      have hsome : Holdable s.physical (containerAlloc s.physical i).2 :=
        containerAlloc_holdable h (by rwa [ha])
      rwa [ha] at hsome
    refine .inr ⟨p, page, ha, hpage, hne, ?_⟩
    simp only [allocPageTable, ha, ne_eq, hne, not_false_eq_true, if_true,
      clearPageTable_setPageDirEntry hpage.1.2]

theorem freePageTable_eq (s : State) (i va : ℕ) :
    freePageTable s i va =
      { removePageDirEntry s i (vaPdeIndex va) with
        physical :=
          containerFree s.physical i (s.pageDirEntries i (vaPdeIndex va) / pageSize) } := rfl

/-- Only the tables in the directories and the permissions of the pages matter for `Keeps`. -/
theorem Keeps.of_kernel (h : Keeps t) (kernel : State) (hs : Sound kernel.physical)
    (hperm : ∀ q, (kernel.physical.pPageInfo q).perm = (t.kernel.physical.pPageInfo q).perm)
    (htable : ∀ i j, kernel.pageDirEntries i j = t.kernel.pageDirEntries i j ∨
      kernel.pageDirEntries i j = 0 ∨
      Holdable t.kernel.physical (kernel.pageDirEntries i j / pageSize))
    {held : Multiset (ℕ × ℕ)}
    (hheld : ∀ x ∈ held, x ∈ t.held ∨ Holdable t.kernel.physical x.2) : Keeps ⟨kernel, held⟩ := by
  have hmove {q : ℕ} (hq : Holdable t.kernel.physical q) : Holdable kernel.physical q :=
    ⟨hq.1, (hperm q).trans hq.2⟩
  refine ⟨hs, fun i j hu hne ↦ ?_, fun x hx ↦ ?_⟩
  · rcases htable i j with he | he | he
    · dsimp only at hne ⊢
      rw [he] at hne ⊢
      exact hmove (h.tables i j hu hne)
    · exact absurd he hne
    · exact hmove he
  · rcases hheld x hx with hx | hx
    · exact hmove (h.held x hx)
    · exact hmove hx

theorem Keeps.allocTable (h : Keeps t) (i va : ℕ) : Keeps (perform t (.allocTable i va)) := by
  have hsound := h.sound.alloc i
  have hperm := containerAlloc_perm h.sound.toReady i
  rw [perform]
  rcases allocPageTable_cases h.sound.toReady i va with
    ⟨p, ha, hs⟩ | ⟨p, page, ha, hpage, hne, hs⟩
  · rw [hs]
    rw [ha] at hsound hperm
    exact h.of_kernel { t.kernel with physical := p } hsound hperm (fun _ _ ↦ .inl rfl)
      fun _ hx ↦ .inl hx
  · rw [hs]
    rw [ha] at hsound hperm
    refine h.of_kernel (withTable { t.kernel with physical := p } i (vaPdeIndex va) page) hsound
      hperm (fun i' j' ↦ ?_) fun _ hx ↦ .inl hx
    rw [withTable_pde]
    split
    · have hindex : (page * 4096 + 7) / pageSize = page := by
        simp only [pageSize]
        omega
      rw [hindex]
      exact .inr (.inr hpage)
    · exact .inl rfl

theorem Keeps.freeTable (h : Keeps t) (hu : UserTable i (vaPdeIndex va))
    (hne : t.kernel.pageDirEntries i (vaPdeIndex va) ≠ 0) :
    Keeps (perform t (.freeTable i va)) := by
  have hpage := h.tables i _ hu hne
  rw [perform, freePageTable_eq]
  refine h.of_kernel _ (h.sound.free hpage i) (containerFree_perm _ i _) (fun i' j' ↦ ?_)
    fun _ hx ↦ .inl hx
  have hpde := setPde_pde t.kernel i (vaPdeIndex va) 0 i' j'
  dsimp only [removePageDirEntry]
  rw [hpde]
  split
  · exact .inr (.inl rfl)
  · exact .inl rfl

theorem Keeps.alloc (h : Keeps t) (i : ℕ) : Keeps (perform t (.alloc i)) := by
  have hkernel {held : Multiset (ℕ × ℕ)}
      (hheld : ∀ x ∈ held, x ∈ t.held ∨ Holdable t.kernel.physical x.2) :
      Keeps ⟨{ t.kernel with physical := (containerAlloc t.kernel.physical i).1 }, held⟩ :=
    h.of_kernel { t.kernel with physical := (containerAlloc t.kernel.physical i).1 }
      (h.sound.alloc i) (containerAlloc_perm h.sound.toReady i) (fun _ _ ↦ .inl rfl) hheld
  rw [perform]
  dsimp only
  split
  · exact hkernel fun _ hx ↦ .inl hx
  · rename_i hne
    apply hkernel
    intro x hx
    rcases Multiset.mem_cons.mp hx with rfl | hx
    · exact .inr (containerAlloc_holdable h.sound.toReady hne)
    · exact .inl hx

theorem Keeps.free (h : Keeps t) (hx : (i, page) ∈ t.held) : Keeps (perform t (.free i page)) := by
  have hpage : Holdable t.kernel.physical page := h.held _ hx
  exact h.of_kernel { t.kernel with physical := containerFree t.kernel.physical i page }
    (h.sound.free hpage i) (containerFree_perm _ i page) (fun _ _ ↦ .inl rfl)
    fun _ hx' ↦ .inl (Multiset.mem_of_mem_erase hx')

theorem Keeps.step (h : Keeps t) {o : Operation} (he : holdings.enabled t o) :
    Keeps (holdings.step t o) := by
  cases o with
  | allocTable i va => exact h.allocTable i va
  | freeTable i va => exact h.freeTable he.1 he.2
  | alloc i => exact h.alloc i
  | free i page => exact h.free he

section Pair

variable (hb : page < 0xF0000) (ha : containerAlloc s.physical i = (p, page)) (hne : page ≠ 0)

include hb ha hne

/-- The table that was entered last is the one that is freed. -/
theorem pair_eq (va : ℕ) :
    freePageTable (allocPageTable s i va).1 i va =
      { removePageDirEntry (withTable { s with physical := p } i (vaPdeIndex va) page) i
          (vaPdeIndex va) with
        physical := containerFree p i page } := by
  have hindex : (withTable { s with physical := p } i (vaPdeIndex va) page).pageDirEntries i
      (vaPdeIndex va) / pageSize = page := by
    rw [withTable_pde_self]
    simp only [pageSize]
    omega
  have hs : (allocPageTable s i va).1 =
      withTable { s with physical := p } i (vaPdeIndex va) page := by
    simp only [allocPageTable, ha, ne_eq, hne, not_false_eq_true, if_true,
      clearPageTable_setPageDirEntry hb]
  rw [hs, freePageTable_eq, hindex]
  rfl

theorem restores_iff_physical (hpde : s.pageDirEntries i (vaPdeIndex va) = 0) :
    Restores s i va ↔
      ((containerFree p i page).containers i).usage = (s.physical.containers i).usage ∧
        ∀ q, ((containerFree p i page).pPageInfo q).allocated =
          (s.physical.pPageInfo q).allocated := by
  have hpair := pair_eq hb ha hne va
  have hzero : (freePageTable (allocPageTable s i va).1 i va).pageDirEntries i (vaPdeIndex va) =
      0 := by
    rw [hpair, removePageDirEntry, setPde_pde, if_pos ⟨rfl, rfl⟩]
  constructor
  · intro h
    have husage := h.usage
    have hall := h.allocated
    rw [hpair] at husage hall
    exact ⟨husage, hall⟩
  · intro ⟨husage, hall⟩
    refine ⟨hzero.trans hpde.symm, ?_, ?_⟩
    · rw [hpair]
      exact husage
    · rw [hpair]
      exact hall

end Pair

/-- A page that the shortcut handed out is not marked, so it stays on the account. -/
theorem containerFree_unmarked (ha : (p.pPageInfo page).allocated = false) :
    containerFree p id page = p := by
  rw [containerFree, ha, if_neg Bool.false_ne_true]

theorem containerFree_marked (ha : (p.pPageInfo page).allocated = true)
    (hpos : 0 < (p.containers id).usage) :
    containerFree p id page =
      setUsage (physicalPageFree p page) id ((p.containers id).usage - 1) := by
  have hpos' : (physicalPageFree p page).containers id = p.containers id := rfl
  rw [containerFree, if_pos ha]
  dsimp only
  rw [hpos', if_pos hpos]

section Scanned

variable (hfree : isFree p page = true) (h0 : 0 ≤ (p.containers id).usage)
  (hint : (p.containers id).usage + 1 < 2 ^ 31)

include h0 hint

/-- A page that the scan found is given back with the charge for it. -/
theorem containerFree_scanned :
    containerFree (takePage (setUsage p id ((p.containers id).usage + 1)) page) id page =
      setUsage (physicalPageFree (takePage (setUsage p id ((p.containers id).usage + 1)) page)
        page) id (p.containers id).usage := by
  have hcharged : ((takePage (setUsage p id ((p.containers id).usage + 1)) page).containers
      id).usage = (p.containers id).usage + 1 := by
    rw [takePage_containers, setUsage_usage, int32_of_bounds (by omega) hint]
  have hmarked : ((takePage (setUsage p id ((p.containers id).usage + 1)) page).pPageInfo
      page).allocated = true := by
    rw [takePage_pPageInfo_self]
  rw [containerFree_marked hmarked (by omega), hcharged, add_sub_cancel_right]

theorem scanned_usage :
    ((containerFree (takePage (setUsage p id ((p.containers id).usage + 1)) page) id
      page).containers id).usage = (p.containers id).usage := by
  rw [containerFree_scanned h0 hint, setUsage_usage, int32_of_bounds h0 (by omega)]

theorem scanned_quota :
    ((containerFree (takePage (setUsage p id ((p.containers id).usage + 1)) page) id
      page).containers id).quota = (p.containers id).quota := by
  rw [containerFree_scanned h0 hint, setUsage_quota]
  exact setUsage_quota p id _

include hfree in
theorem scanned_allocated (q : ℕ) :
    ((containerFree (takePage (setUsage p id ((p.containers id).usage + 1)) page) id
      page).pPageInfo q).allocated = (p.pPageInfo q).allocated := by
  rw [containerFree_scanned h0 hint]
  by_cases hq : q = page
  · rw [hq, (isFree_iff.mp hfree).1]
    simp only [setUsage, physicalPageFree, update_self]
  · simp only [setUsage, physicalPageFree, takePage, update_of_ne hq]

end Scanned

theorem allocPageTable_result (s : State) (i va : ℕ) :
    (allocPageTable s i va).2 = (containerAlloc s.physical i).2 := by
  rw [allocPageTable]
  dsimp only
  split
  · rfl
  · rfl

theorem Sound.restores_iff (h : Sound s.physical) (hpde : s.pageDirEntries i (vaPdeIndex va) = 0)
    (hne : (allocPageTable s i va).2 ≠ 0) :
    Restores s i va ↔ s.physical.lastFreedPage = -1 := by
  rw [allocPageTable_result] at hne
  obtain ⟨hq, page, hu, hfree, ⟨hl, ha⟩ | ⟨hl, ha⟩⟩ := containerAlloc_paths h.toReady hne
  · have hunmarked (p : PhysicalMemory.State) (hp : p.pPageInfo = s.physical.pPageInfo) :
        containerFree p i page = p :=
      containerFree_unmarked (by rw [hp, (isFree_iff.mp hfree).1])
    rw [ha] at hne
    rw [restores_iff_physical hu.2 ha hne hpde]
    apply iff_of_false
    · intro ⟨husage, _⟩
      rw [hunmarked] at husage
      · dsimp only at husage
        rw [setUsage_usage] at husage
        exact int32_succ_ne _ husage
      · rfl
    · exact hl
  · have hc := h.balanced.charge hq
    have hint := h.balanced.int i
    rw [ha] at hne
    rw [restores_iff_physical hu.2 ha hne hpde]
    have h0 := h.balanced.usage_nonneg i
    exact iff_of_true
      ⟨scanned_usage h0 (by omega), scanned_allocated hfree h0 (by omega)⟩ hl

/-- The pair leaves the table's page behind as the page freed last, so the next pair takes it by
the shortcut and loses it. -/
theorem Sound.second_pair (h : Sound s.physical) (hpde : s.pageDirEntries i (vaPdeIndex va) = 0)
    (hne : (allocPageTable s i va).2 ≠ 0) (hl : s.physical.lastFreedPage = -1) :
    let s' := freePageTable (allocPageTable s i va).1 i va
    s'.pageDirEntries i (vaPdeIndex va) = 0 ∧ (allocPageTable s' i va).2 ≠ 0 ∧
      s'.physical.lastFreedPage ≠ -1 := by
  have hrestores := (h.restores_iff hpde hne).mpr hl
  rw [allocPageTable_result] at hne
  obtain ⟨hq, page, hu, hfree, ⟨hl', _⟩ | ⟨_, ha⟩⟩ := containerAlloc_paths h.toReady hne
  · exact absurd hl hl'
  · have hb := hu.bounds
    have hc := h.balanced.charge hq
    have hint := h.balanced.int i
    have h0 := h.balanced.usage_nonneg i
    rw [ha] at hne
    have hpair := pair_eq hu.2 ha hne va
    have hlast : (freePageTable (allocPageTable s i va).1 i va).physical.lastFreedPage = page := by
      rw [hpair, containerFree_scanned h0 (by omega)]
      simp only [setUsage, physicalPageFree, hu.int32]
    have hbelow : ((freePageTable (allocPageTable s i va).1 i va).physical.containers i).usage ≠
        ((freePageTable (allocPageTable s i va).1 i va).physical.containers i).quota := by
      rw [hpair, scanned_usage h0 (by omega), scanned_quota h0 (by omega)]
      exact hq
    refine ⟨hrestores.directory.trans hpde, ?_, by omega⟩
    rw [allocPageTable_result, containerAlloc, if_neg hbelow,
      physicalPageAlloc_shortcut hu (s := setUsage _ i _) hlast]
    exact hne

def start (L : Layout) (smap : List SMAP) (accounts : Accounts) (memory : Memory)
    (pageDirEntries : ℕ → ℕ → ℕ) : Holdings :=
  ⟨AddressSpaces.start L smap accounts.1 memory pageDirEntries, 0⟩

theorem start_keeps (L : Layout) (smap : List SMAP) (accounts : Accounts) (memory : Memory)
    (pageDirEntries : ℕ → ℕ → ℕ) : Keeps (start L smap accounts memory pageDirEntries) := by
  constructor
  · rw [start, start_physical]
    exact ⟨⟨(allocator_ready smap accounts.1).2, .inl (allocator_ready smap accounts.1).1⟩,
      accounts.2⟩
  · exact fun i j hu hne ↦ absurd (start_pde L _ _ _ _ hu) hne
  · exact fun x hx ↦ absurd hx (Multiset.notMem_zero x)

/-- In every reachable state `FreePageTable` undoes a successful `AllocPageTable` exactly if no
freed page waits to be handed out again. -/
theorem pair_restores_iff (L : Layout) (smap : List SMAP) (accounts : Accounts) (memory : Memory)
    (pageDirEntries : ℕ → ℕ → ℕ) (os : List Operation)
    (hlegal : holdings.Legal (start L smap accounts memory pageDirEntries) os) (i va : ℕ) :
    let s := (holdings.final (start L smap accounts memory pageDirEntries) os).kernel
    s.pageDirEntries i (vaPdeIndex va) = 0 → (allocPageTable s i va).2 ≠ 0 →
      (Restores s i va ↔ s.physical.lastFreedPage = -1) := by
  intro s hpde hne
  have h : Keeps (holdings.final (start L smap accounts memory pageDirEntries) os) :=
    hlegal.final (start_keeps L smap accounts memory pageDirEntries) fun _ _ h he ↦ h.step he
  exact h.sound.restores_iff hpde hne

theorem pair_legal (h : Keeps t) (hu : UserTable i (vaPdeIndex va)) (hva : va < 2 ^ 32)
    (hne : (allocPageTable t.kernel i va).2 ≠ 0) :
    holdings.Legal t [.allocTable i va, .freeTable i va] := by
  refine ⟨⟨hu.1.2, hva⟩, ⟨hu, ?_⟩, trivial⟩
  rcases allocPageTable_cases h.sound.toReady i va with ⟨_, _, hs⟩ | ⟨p, page, _, _, _, hs⟩
  · rw [hs] at hne
    exact absurd rfl hne
  · dsimp only [holdings, perform]
    rw [hs, withTable_pde_self]
    omega

theorem Keeps.second_pair_leaks (h : Keeps t) (hu : UserTable i (vaPdeIndex va))
    (hva : va < 2 ^ 32) (hpde : t.kernel.pageDirEntries i (vaPdeIndex va) = 0)
    (hne : (allocPageTable t.kernel i va).2 ≠ 0) (hl : t.kernel.physical.lastFreedPage = -1) :
    let t' := holdings.final t [.allocTable i va, .freeTable i va]
    holdings.Legal t [.allocTable i va, .freeTable i va] ∧
      t'.kernel.pageDirEntries i (vaPdeIndex va) = 0 ∧ (allocPageTable t'.kernel i va).2 ≠ 0 ∧
      ¬ Restores t'.kernel i va := by
  intro t'
  have hlegal := pair_legal h hu hva hne
  have ht' : Keeps t' := hlegal.final h fun _ _ h he ↦ h.step he
  obtain ⟨hpde', hne', hl'⟩ := h.sound.second_pair hpde hne hl
  have hsecond := ht'.sound.restores_iff hpde' hne'
  exact ⟨hlegal, hpde', hne', fun hr ↦ hl' (hsecond.mp hr)⟩

def twoEach : Accounts where
  val _ := ⟨(2 : ℕ), 0, 0, 0, true⟩
  property := ⟨fun _ ↦ by decide, fun _ ↦ by decide, fun _ ↦ by decide⟩

abbrev booted : Holdings := start lowLayout (pageMap 2) twoEach (fun _ ↦ 0) fun _ _ ↦ 0

theorem start_kernel (L : Layout) (smap : List SMAP) (accounts : Accounts) (memory : Memory)
    (pageDirEntries : ℕ → ℕ → ℕ) :
    (start L smap accounts memory pageDirEntries).kernel =
      AddressSpaces.start L smap accounts.1 memory pageDirEntries := rfl

theorem booted_kernel : booted.kernel = pagesFor 2 := by
  rw [booted, start_kernel, twoEach]

theorem booted_allocTable (i va : ℕ) : (allocPageTable booted.kernel i va).2 ≠ 0 := by
  have h := pagesFor_guarded 2
  have haffords : Affords (pagesFor 2).physical i 2 := start_affords _ _ _ (by decide)
  obtain ⟨_, page, ha, hne, _⟩ := containerAlloc_affords h.shortcut h.cursor
    (haffords.mono (by decide))
  rwa [booted_kernel, allocPageTable_result, ha]

theorem booted_pde : booted.kernel.pageDirEntries 1 (vaPdeIndex 0x40000000) = 0 := by
  rw [booted_kernel]
  exact start_pde _ _ _ _ _ userTable_first

theorem booted_shortcut : booted.kernel.physical.lastFreedPage = -1 := by
  rw [booted_kernel]
  exact (pagesFor_guarded 2).shortcut

theorem booted_keeps : Keeps booted := start_keeps _ _ _ _ _

/-- After a table was made and removed. -/
theorem pair_restores_iff_again :
    let t := holdings.final booted [.allocTable 1 0x40000000, .freeTable 1 0x40000000]
    Restores t.kernel 1 0x40000000 ↔ t.kernel.physical.lastFreedPage = -1 := by
  have hpair := booted_keeps.second_pair_leaks userTable_first (by decide) booted_pde
    (booted_allocTable 1 0x40000000) booted_shortcut
  unfold booted at hpair ⊢
  obtain ⟨hlegal, hpde, hne, -⟩ := hpair
  exact pair_restores_iff lowLayout (pageMap 2) twoEach _ _
    [.allocTable 1 0x40000000, .freeTable 1 0x40000000] hlegal 1 0x40000000 hpde hne

/-- The second time the same table is made and removed, its page stays on the account. -/
theorem second_pair_not_restored :
    let t := holdings.final booted [.allocTable 1 0x40000000, .freeTable 1 0x40000000]
    holdings.Legal booted [.allocTable 1 0x40000000, .freeTable 1 0x40000000] ∧
      t.kernel.pageDirEntries 1 (vaPdeIndex 0x40000000) = 0 ∧
      (allocPageTable t.kernel 1 0x40000000).2 ≠ 0 ∧ ¬ Restores t.kernel 1 0x40000000 :=
  booted_keeps.second_pair_leaks userTable_first (by decide) booted_pde
    (booted_allocTable 1 0x40000000) booted_shortcut

end StormOS.TablePairs
