import StormOS.PhysicalMemoryInit
import StormOS.Library.Runs
import Mathlib.Algebra.Order.BigOperators.Group.Finset
import Mathlib.Data.Multiset.Count

namespace StormOS.Quotas

open Library.Runs Machine PhysicalMemory Function

inductive Operation
  | split (id quota : ℕ)
  | alloc (id : ℕ)
  | free (id page : ℕ)

/-- The allocator beside the pages that each container was given and still holds. -/
structure Tenancy where
  memory : State
  held : Multiset (ℕ × ℕ)

def perform (t : Tenancy) : Operation → Tenancy
  | .split id quota => { t with memory := (containerSplit t.memory id quota).1 }
  | .alloc id =>
    let r := containerAlloc t.memory id
    if r.2 = 0 then { t with memory := r.1 } else ⟨r.1, (id, r.2) ::ₘ t.held⟩
  | .free id page => ⟨containerFree t.memory id page, t.held.erase (id, page)⟩

/-- A split hands on quota that its container has left, to a child slot that exists. -/
def tenancy : System Tenancy Operation where
  enabled t
    | .split id quota =>
      (t.memory.containers id).used = true ∧
        (quota : ℤ) ≤ (t.memory.containers id).quota - (t.memory.containers id).usage ∧
        (t.memory.containers id).numChildren < maxChildren ∧
        id * maxChildren + 1 + (t.memory.containers id).numChildren < maxProcs
    | .alloc id => (t.memory.containers id).used = true
    | .free id page => (id, page) ∈ t.held
  step := perform

def start (smap : List SMAP) : Tenancy := ⟨physicalMemoryInit loaded smap, 0⟩

/-- The pages a container may still ask for. -/
def headroom (c : Container) : ℤ := if c.used then c.quota - c.usage else 0

def totalHeadroom (s : State) : ℤ := ∑ id ∈ Finset.range maxProcs, headroom (s.containers id)

theorem totalHeadroom_update {s s' : State} {id : ℕ} {c : Container} (h : id < maxProcs)
    (hs : s'.containers = update s.containers id c) :
    totalHeadroom s' = totalHeadroom s + (headroom c - headroom (s.containers id)) := by
  have hid : id ∈ Finset.range maxProcs := Finset.mem_range.mpr h
  have hrest : ∑ i ∈ (Finset.range maxProcs).erase id, headroom (s'.containers i) =
      ∑ i ∈ (Finset.range maxProcs).erase id, headroom (s.containers i) :=
    Finset.sum_congr rfl fun i hi ↦ by rw [hs, update_of_ne (Finset.ne_of_mem_erase hi)]
  rw [totalHeadroom, totalHeadroom, ← Finset.add_sum_erase _ _ hid,
    ← Finset.add_sum_erase (Finset.range maxProcs) (fun i ↦ headroom (s.containers i)) hid, hrest,
    hs, update_self]
  omega

/-- The invariant of a tree of containers. `backed` is the conservation law: whatever the
containers may still ask for is there to be handed out. -/
structure Solvent (t : Tenancy) : Prop where
  ready : Ready t.memory
  range : ∀ id, (t.memory.containers id).used = true → id < maxProcs
  quota : ∀ id, (t.memory.containers id).used = true →
    (t.memory.containers id).usage ≤ (t.memory.containers id).quota ∧
      (t.memory.containers id).quota ≤ 2 ^ 20
  slot : ∀ id, (t.memory.containers id).used = true → id ≠ 0 →
    (((id - 1) % 8 : ℕ) : ℤ) < (t.memory.containers ((id - 1) / 8)).numChildren
  unused : ∀ id, (t.memory.containers id).used = false → (t.memory.containers id).numChildren = 0
  children : ∀ id, 0 ≤ (t.memory.containers id).numChildren ∧
    (t.memory.containers id).numChildren ≤ 8
  charged : ∀ id, (t.memory.containers id).used = true →
    (t.held.countP (fun x ↦ x.1 = id) : ℤ) ≤ (t.memory.containers id).usage
  holds : ∀ x ∈ t.held, (t.memory.containers x.1).used = true ∧ UserPage x.2 ∧
    (t.memory.pPageInfo x.2).perm = .user
  backed : totalHeadroom t.memory ≤ (freePages t.memory).card

variable {t : Tenancy} {id : ℕ}

theorem Solvent.usage_nonneg (h : Solvent t) (hu : (t.memory.containers id).used = true) :
    0 ≤ (t.memory.containers id).usage := by
  have hc := h.charged id hu
  omega

theorem Solvent.headroom_nonneg (h : Solvent t) (i : ℕ) : 0 ≤ headroom (t.memory.containers i) := by
  unfold headroom
  split
  · rename_i hu
    have hq := h.quota i hu
    omega
  · exact le_rfl

theorem Solvent.freePages_nonempty (h : Solvent t) (hu : (t.memory.containers id).used = true)
    (hq : (t.memory.containers id).usage ≠ (t.memory.containers id).quota) :
    (freePages t.memory).Nonempty := by
  have hone : headroom (t.memory.containers id) ≤ totalHeadroom t.memory :=
    Finset.single_le_sum (f := fun i ↦ headroom (t.memory.containers i))
      (fun i _ ↦ h.headroom_nonneg i) (Finset.mem_range.mpr (h.range id hu))
  have hb := h.backed
  have hle := (h.quota id hu).1
  rw [headroom, if_pos hu] at hone
  exact Finset.card_pos.mp (by omega)

theorem setUsage_containers (s : State) (id : ℕ) {u : ℤ} (h : 0 ≤ u) (h' : u ≤ 2 ^ 20) :
    (setUsage s id u).containers =
      update s.containers id { s.containers id with usage := u } := by
  rw [setUsage, int32_of_bounds h (by omega)]

/-- A new charge on a container, and one more or one less page in its hands. -/
theorem Solvent.recharge (h : Solvent t) (hu : (t.memory.containers id).used = true) {u : ℤ}
    {s : State} {held : Multiset (ℕ × ℕ)} (hready : Ready s)
    (hs : s.containers = update t.memory.containers id { t.memory.containers id with usage := u })
    (hq : u ≤ (t.memory.containers id).quota)
    (hid : (held.countP (fun x ↦ x.1 = id) : ℤ) ≤ u)
    (hrest : ∀ i, i ≠ id → held.countP (fun x ↦ x.1 = i) ≤ t.held.countP (fun x ↦ x.1 = i))
    (hholds : ∀ x ∈ held, (t.memory.containers x.1).used = true ∧ UserPage x.2 ∧
      (s.pPageInfo x.2).perm = .user)
    (hback : totalHeadroom t.memory + ((t.memory.containers id).usage - u) ≤ (freePages s).card) :
    Solvent ⟨s, held⟩ := by
  have hused (i : ℕ) : (s.containers i).used = (t.memory.containers i).used := by
    by_cases hi : i = id
    · rw [hs, hi, update_self]
    · rw [hs, update_of_ne hi]
  have hnum (i : ℕ) : (s.containers i).numChildren = (t.memory.containers i).numChildren := by
    by_cases hi : i = id
    · rw [hs, hi, update_self]
    · rw [hs, update_of_ne hi]
  constructor
  · exact hready
  · intro i hi
    exact h.range i (hused i ▸ hi)
  · intro i hi
    dsimp only
    by_cases he : i = id
    · rw [he, hs, update_self]
      exact ⟨hq, (h.quota id hu).2⟩
    · rw [hs, update_of_ne he]
      exact h.quota i (hused i ▸ hi)
  · intro i hi hne
    dsimp only
    rw [hnum]
    exact h.slot i (hused i ▸ hi) hne
  · intro i hi
    dsimp only
    rw [hnum]
    exact h.unused i (hused i ▸ hi)
  · intro i
    dsimp only
    rw [hnum]
    exact h.children i
  · intro i hi
    dsimp only
    by_cases he : i = id
    · rw [he, hs, update_self]
      exact hid
    · rw [hs, update_of_ne he]
      have hc := h.charged i (hused i ▸ hi)
      have hr := hrest i he
      omega
  · intro x hx
    dsimp only
    rw [hused]
    exact hholds x hx
  · have ht := totalHeadroom_update (h.range id hu) hs
    simp only [headroom, hu, if_true] at ht
    dsimp only
    omega

theorem Solvent.alloc_cases (h : Solvent t) (hu : (t.memory.containers id).used = true) :
    ((t.memory.containers id).usage = (t.memory.containers id).quota ∧
      containerAlloc t.memory id = (t.memory, 0)) ∨
    ((t.memory.containers id).usage ≠ (t.memory.containers id).quota ∧
      ∃ s' page, containerAlloc t.memory id = (s', page) ∧ page ∈ freePages t.memory ∧
        Ready s' ∧ freePages s' = leftOver t.memory page ∧
        s'.containers = update t.memory.containers id
          { t.memory.containers id with usage := (t.memory.containers id).usage + 1 }) := by
  rcases containerAlloc_ready h.ready id with
    hfull | ⟨hq, hnone, _⟩ | ⟨hq, s', page, ha, _, hmem, hready, hleft, hcont⟩
  · exact .inl hfull
  · exact absurd hnone (h.freePages_nonempty hu hq).ne_empty
  · have hn := h.usage_nonneg hu
    obtain ⟨hle, hcap⟩ := h.quota id hu
    have hset := setUsage_containers t.memory id (u := (t.memory.containers id).usage + 1)
      (by omega) (by omega)
    exact .inr ⟨hq, s', page, ha, hmem, hready, hleft, hcont.trans hset⟩

/-- The container is charged for a page that the bitmap has as a free user page, and no other free
page is lost. -/
structure GetsPage (s : State) (id : ℕ) : Prop where
  page : (containerAlloc s id).2 ∈ freePages s
  others : (freePages s).erase (containerAlloc s id).2 ⊆ freePages (containerAlloc s id).1
  charged : (containerAlloc s id).1.containers =
    update s.containers id { s.containers id with usage := (s.containers id).usage + 1 }

theorem Solvent.getsPage (h : Solvent t) (hu : (t.memory.containers id).used = true)
    (hq : (t.memory.containers id).usage ≠ (t.memory.containers id).quota) :
    GetsPage t.memory id := by
  rcases h.alloc_cases hu with ⟨hfull, _⟩ | ⟨_, s', page, ha, hmem, _, hleft, hs⟩
  · exact absurd hfull hq
  · constructor
    · rwa [ha]
    · rw [ha]
      dsimp only
      rw [hleft]
      exact erase_subset_leftOver t.memory page
    · rwa [ha]

theorem Solvent.alloc_eq_zero_iff (h : Solvent t) (hu : (t.memory.containers id).used = true) :
    (containerAlloc t.memory id).2 = 0 ↔
      (t.memory.containers id).usage = (t.memory.containers id).quota := by
  rcases h.alloc_cases hu with ⟨hq, ha⟩ | ⟨hq, s', page, ha, hmem, _⟩
  · simp [ha, hq]
  · have hb := (mem_freePages.mp hmem).1.bounds
    have hne : page ≠ 0 := by omega
    simp [ha, hne, hq]

theorem Solvent.alloc (h : Solvent t) (hu : (t.memory.containers id).used = true) :
    Solvent (perform t (.alloc id)) := by
  have hperms := containerAlloc_perm h.ready id
  rcases h.alloc_cases hu with ⟨hq, ha⟩ | ⟨hq, s', page, ha, hmem, hready, hleft, hs⟩
  · simpa only [perform, ha, if_true] using h
  · obtain ⟨hup, hfree⟩ := mem_freePages.mp hmem
    have hb := hup.bounds
    have hne : page ≠ 0 := by omega
    rw [ha] at hperms
    simp only [perform, ha, hne, if_false]
    have hle := (h.quota id hu).1
    have hback := h.backed
    have hcharged := h.charged id hu
    have hcard := Finset.card_le_card (erase_subset_leftOver t.memory page)
    rw [← hleft, Finset.card_erase_of_mem hmem] at hcard
    refine h.recharge hu hready hs (by omega) ?_ ?_ ?_ (by omega)
    · rw [Multiset.countP_cons, if_pos rfl]
      push_cast
      omega
    · intro i hi
      rw [Multiset.countP_cons, if_neg (fun he ↦ hi he.symm), Nat.add_zero]
    · intro x hx
      rcases Multiset.mem_cons.mp hx with rfl | hx
      · exact ⟨hu, hup, (hperms page).trans (isFree_iff.mp hfree).2⟩
      · obtain ⟨hxu, hxp, hxperm⟩ := h.holds x hx
        exact ⟨hxu, hxp, (hperms x.2).trans hxperm⟩

theorem countP_erase_held {held : Multiset (ℕ × ℕ)} {id page : ℕ} (hx : (id, page) ∈ held)
    (i : ℕ) : (held.erase (id, page)).countP (fun x ↦ x.1 = i) =
      held.countP (fun x ↦ x.1 = i) - if id = i then 1 else 0 := by
  conv_rhs => rw [← Multiset.cons_erase hx, Multiset.countP_cons]
  exact (Nat.add_sub_cancel _ _).symm

/-- A page that is marked in the bitmap is refunded. -/
theorem Solvent.containerFree_marked (h : Solvent t) {page : ℕ} (hx : (id, page) ∈ t.held)
    (ha : (t.memory.pPageInfo page).allocated = true) :
    containerFree t.memory id page =
        setUsage (physicalPageFree t.memory page) id ((t.memory.containers id).usage - 1) ∧
      (containerFree t.memory id page).containers = update t.memory.containers id
        { t.memory.containers id with usage := (t.memory.containers id).usage - 1 } := by
  have hu : (t.memory.containers id).used = true := (h.holds _ hx).1
  have hpos : 0 < t.held.countP (fun x ↦ x.1 = id) := Multiset.countP_pos.mpr ⟨_, hx, rfl⟩
  have hcharged := h.charged id hu
  have hq := h.quota id hu
  have hgt : (t.memory.containers id).usage > 0 := by omega
  have hcont : (physicalPageFree t.memory page).containers = t.memory.containers := rfl
  have hset := setUsage_containers (physicalPageFree t.memory page) id
    (u := (t.memory.containers id).usage - 1) (by omega) (by omega)
  have hf : containerFree t.memory id page =
      setUsage (physicalPageFree t.memory page) id ((t.memory.containers id).usage - 1) := by
    simp only [containerFree, ha, if_true, hcont, hgt]
  exact ⟨hf, by rw [hf, hset, hcont]⟩

theorem Solvent.free (h : Solvent t) {page : ℕ} (hx : (id, page) ∈ t.held) :
    Solvent (perform t (.free id page)) := by
  have hu : (t.memory.containers id).used = true := (h.holds _ hx).1
  have hup : UserPage page := (h.holds _ hx).2.1
  have hperm : (t.memory.pPageInfo page).perm = .user := (h.holds _ hx).2.2
  have hcount := countP_erase_held hx
  have hpos : 0 < t.held.countP (fun x ↦ x.1 = id) := Multiset.countP_pos.mpr ⟨_, hx, rfl⟩
  have hcharged := h.charged id hu
  have hid := hcount id
  rw [if_pos rfl] at hid
  have hmem (x : ℕ × ℕ) (hx' : x ∈ t.held.erase (id, page)) :
      (t.memory.containers x.1).used = true ∧ UserPage x.2 ∧
        (t.memory.pPageInfo x.2).perm = .user := h.holds x (Multiset.mem_of_mem_erase hx')
  have hq := h.quota id hu
  have hback := h.backed
  by_cases ha : (t.memory.pPageInfo page).allocated = true
  · have hready := ready_containerFree h.ready hup hperm id
    have hkeep := physicalPageFree_perm t.memory page
    have hnot : page ∉ freePages t.memory := by
      rw [mem_freePages, isFree_iff, ha]
      simp
    have hcard := Finset.card_insert_of_notMem hnot
    rw [← freePages_physicalPageFree hup hperm] at hcard
    obtain ⟨hf, hset⟩ := h.containerFree_marked hx ha
    rw [hf] at hset hready
    have hfree : freePages (setUsage (physicalPageFree t.memory page) id
        ((t.memory.containers id).usage - 1)) = freePages (physicalPageFree t.memory page) := rfl
    simp only [perform, hf]
    refine h.recharge hu hready hset (by omega) (by omega) ?_ ?_ ?_
    · intro i _
      rw [hcount]
      exact Nat.sub_le _ _
    · intro x hx'
      obtain ⟨hxu, hxp, hxperm⟩ := hmem x hx'
      exact ⟨hxu, hxp, (hkeep x.2).trans hxperm⟩
    · rw [hfree, hcard]
      push_cast
      omega
  · have hf : containerFree t.memory id page = t.memory := by rw [containerFree, if_neg ha]
    simp only [perform, hf]
    refine h.recharge hu h.ready ?_ hq.1 (by omega) ?_ hmem (by omega)
    · rw [update_eq_self]
    · intro i _
      rw [hcount]
      exact Nat.sub_le _ _

end StormOS.Quotas
