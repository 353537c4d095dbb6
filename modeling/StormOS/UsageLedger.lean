import StormOS.PageCustody
import StormOS.QuotaTree

namespace StormOS.UsageLedger

open Library.Runs Machine PhysicalMemory Quotas Function

/-- What a container has handed on to its children. -/
def delegated (s : State) (id : ℕ) : ℤ :=
  ∑ i ∈ (Finset.range maxProcs).filter (IsChild s id), (s.containers i).quota

/-- Usage counts the pages held and the quota handed on. -/
def UsageExact (t : Tenancy) : Prop :=
  ∀ id, (t.memory.containers id).used = true → (t.memory.containers id).usage =
    t.held.countP (fun x ↦ x.1 = id) + delegated t.memory id

/-- A page that is given back lowers the usage by one and can be handed out again. -/
def Refunds (t : Tenancy) : Operation → Prop
  | .free id page =>
    ((containerFree t.memory id page).containers id).usage =
        (t.memory.containers id).usage - 1 ∧
      isFree (containerFree t.memory id page) page = true
  | _ => True

/-- Pages are given back only while they are marked in the bitmap. -/
def FreesMarked (t : Tenancy) : Operation → Prop
  | .free _ page => (t.memory.pPageInfo page).allocated = true
  | _ => True

structure Ledger (t : Tenancy) : Prop where
  solvent : Solvent t
  exact : UsageExact t
  parents : ∀ i, (t.memory.containers i).used = true → i ≠ 0 →
    (t.memory.containers i).parent = ((i - 1) / 8 : ℕ)

variable {t : Tenancy} {s s' : State} {id : ℕ}

theorem delegated_congr (h : ∀ i, (s'.containers i).used = (s.containers i).used ∧
    (s'.containers i).parent = (s.containers i).parent ∧
    (s'.containers i).quota = (s.containers i).quota) (id : ℕ) :
    delegated s' id = delegated s id := by
  have hchild (i : ℕ) : IsChild s' id i ↔ IsChild s id i := by
    rw [IsChild, (h i).1, (h i).2.1]
  simp only [delegated, hchild, (h _).2.2]

theorem Ledger.recharge (h : Ledger t) {u : ℤ} {held : Multiset (ℕ × ℕ)}
    (hs : s.containers = update t.memory.containers id { t.memory.containers id with usage := u })
    (hsolvent : Solvent ⟨s, held⟩)
    (hid : (held.countP (fun x ↦ x.1 = id) : ℤ) - t.held.countP (fun x ↦ x.1 = id) =
      u - (t.memory.containers id).usage)
    (hrest : ∀ i, i ≠ id → held.countP (fun x ↦ x.1 = i) = t.held.countP (fun x ↦ x.1 = i)) :
    Ledger ⟨s, held⟩ := by
  have hfields (i : ℕ) : (s.containers i).used = (t.memory.containers i).used ∧
      (s.containers i).parent = (t.memory.containers i).parent ∧
      (s.containers i).quota = (t.memory.containers i).quota := by
    by_cases hi : i = id
    · rw [hs, hi, update_self]
      exact ⟨rfl, rfl, rfl⟩
    · rw [hs, update_of_ne hi]
      exact ⟨rfl, rfl, rfl⟩
  refine ⟨hsolvent, fun i hi ↦ ?_, fun i hi h0 ↦ ?_⟩
  · have hexact := h.exact i ((hfields i).1.symm.trans hi)
    dsimp only
    rw [delegated_congr hfields]
    by_cases he : i = id
    · rw [he] at hexact ⊢
      rw [hs, update_self]
      dsimp only
      omega
    · rw [hs, update_of_ne he, hrest i he]
      exact hexact
  · exact (hfields i).2.1.trans (h.parents i ((hfields i).1.symm.trans hi) h0)

theorem Ledger.alloc (h : Ledger t) (hu : (t.memory.containers id).used = true) :
    Ledger (perform t (.alloc id)) := by
  have hsolvent := h.solvent.alloc hu
  rcases h.solvent.alloc_cases hu with ⟨_, ha⟩ | ⟨_, s', page, ha, hmem, _, _, hs⟩
  · simpa only [perform, ha, if_true] using h
  · have hb := (mem_freePages.mp hmem).1.bounds
    have hne : page ≠ 0 := by omega
    simp only [perform, ha, hne, if_false] at hsolvent ⊢
    refine h.recharge hs hsolvent ?_ fun i hi ↦ ?_
    · rw [Multiset.countP_cons, if_pos rfl]
      push_cast
      omega
    · rw [Multiset.countP_cons, if_neg (fun he ↦ hi he.symm), Nat.add_zero]

theorem Ledger.free (h : Ledger t) {page : ℕ} (hx : (id, page) ∈ t.held)
    (ha : (t.memory.pPageInfo page).allocated = true) :
    Ledger (perform t (.free id page)) ∧ Refunds t (.free id page) := by
  obtain ⟨hf, hs⟩ := h.solvent.containerFree_marked hx ha
  have hpos : 0 < t.held.countP (fun x ↦ x.1 = id) := Multiset.countP_pos.mpr ⟨_, hx, rfl⟩
  have hcount := countP_erase_held hx
  refine ⟨h.recharge hs (h.solvent.free hx) ?_ fun i hi ↦ ?_, ?_, ?_⟩
  · rw [hcount, if_pos rfl]
    omega
  · rw [hcount, if_neg (Ne.symm hi), Nat.sub_zero]
  · rw [hs, update_self]
  · have hperm : (t.memory.pPageInfo page).perm = .user := (h.solvent.holds _ hx).2.2
    rw [hf]
    refine isFree_iff.mpr ⟨?_, (physicalPageFree_perm t.memory page page).trans hperm⟩
    simp [setUsage, physicalPageFree]

/-- Without its mark, a page that is given back stays on the account. -/
theorem Ledger.not_exact_free (h : Ledger t) {page : ℕ} (hx : (id, page) ∈ t.held)
    (ha : (t.memory.pPageInfo page).allocated = false) :
    ¬ UsageExact (perform t (.free id page)) := by
  have hu : (t.memory.containers id).used = true := (h.solvent.holds _ hx).1
  have hf : containerFree t.memory id page = t.memory := by
    rw [containerFree, ha, if_neg Bool.false_ne_true]
  have hpos : 0 < t.held.countP (fun x ↦ x.1 = id) := Multiset.countP_pos.mpr ⟨_, hx, rfl⟩
  have hexact := h.exact id hu
  intro hnext
  have hid := hnext id (by simpa only [perform, hf] using hu)
  simp only [perform, hf, countP_erase_held hx, if_true] at hid
  omega

section Split

variable {quota child : ℕ} {c : Container}
  (hs : s'.containers = update (update s.containers child ⟨quota, 0, id, 0, true⟩) id c)
  (hne : id ≠ child) (hfresh : (s.containers child).used = false)
  (hused : c.used = (s.containers id).used) (hparent : c.parent = (s.containers id).parent)
  (hquota : c.quota = (s.containers id).quota)

include hs hused hparent hquota

theorem fields_of_split {i : ℕ} (hi : i ≠ child) :
    (s'.containers i).used = (s.containers i).used ∧
      (s'.containers i).parent = (s.containers i).parent ∧
      (s'.containers i).quota = (s.containers i).quota := by
  by_cases he : i = id
  · rw [hs, he, update_self]
    exact ⟨hused, hparent, hquota⟩
  · rw [hs, update_of_ne he, update_of_ne hi]
    exact ⟨rfl, rfl, rfl⟩

include hne hfresh

/-- A new child changes what its parent has handed on, and nobody else. -/
theorem delegated_split (hlt : child < maxProcs) (h0 : child ≠ 0) (j : ℕ) :
    delegated s' j = delegated s j + if j = id then (quota : ℤ) else 0 := by
  have hc : s'.containers child = ⟨quota, 0, id, 0, true⟩ := by
    rw [hs, update_of_ne hne.symm, update_self]
  have hfields {i : ℕ} (hi : i ≠ child) := fields_of_split hs hused hparent hquota hi
  have hchild {i : ℕ} (hi : i ≠ child) : IsChild s' j i ↔ IsChild s j i := by
    rw [IsChild, (hfields hi).1, (hfields hi).2.1]
  have hnot : ¬ IsChild s j child := fun h ↦ absurd h.1 (by rw [hfresh]; decide)
  have hmem : child ∉ (Finset.range maxProcs).filter (IsChild s j) := fun hm ↦
    hnot (Finset.mem_filter.mp hm).2
  have hsum : ∑ i ∈ (Finset.range maxProcs).filter (IsChild s j), (s'.containers i).quota =
      delegated s j :=
    Finset.sum_congr rfl fun i hi ↦ (hfields (ne_of_mem_of_not_mem hi hmem)).2.2
  by_cases hj : j = id
  · have hset : (Finset.range maxProcs).filter (IsChild s' j) =
        insert child ((Finset.range maxProcs).filter (IsChild s j)) := by
      ext i
      rw [Finset.mem_insert, Finset.mem_filter, Finset.mem_filter, Finset.mem_range]
      by_cases hi : i = child
      · simp [hi, IsChild, hc, hlt, h0, hj]
      · simp only [hi, hchild hi, false_or]
    rw [delegated, hset, Finset.sum_insert hmem, hsum, hc, if_pos hj, add_comm]
  · have hset : (Finset.range maxProcs).filter (IsChild s' j) =
        (Finset.range maxProcs).filter (IsChild s j) := by
      apply Finset.filter_congr
      intro i _
      by_cases hi : i = child
      · have hj' : (id : ℤ) ≠ j := fun he ↦ hj (by omega)
        rw [hi]
        refine iff_of_false (fun h ↦ ?_) hnot
        rw [IsChild, hc] at h
        exact hj' h.2.2
      · exact hchild hi
    rw [delegated, hset, hsum, if_neg hj, add_zero]

end Split

theorem Ledger.delegated_unused (h : Ledger t) (hu : (t.memory.containers id).used = false) :
    delegated t.memory id = 0 := by
  rw [delegated, Finset.filter_false_of_mem, Finset.sum_empty]
  intro i _ ⟨hi, h0, hp⟩
  have hparent := h.parents i hi h0
  have hslot := h.solvent.slot i hi h0
  have hid : (i - 1) / 8 = id := by omega
  rw [hid, h.solvent.unused id hu] at hslot
  omega

theorem Ledger.split (h : Ledger t) {quota : ℕ} (he : tenancy.enabled t (.split id quota)) :
    Ledger (perform t (.split id quota)) := by
  obtain ⟨k, child, hk, hk8, hchild, hc64, hne, hfresh, hs⟩ := h.solvent.split_cases he
  have hu : (t.memory.containers id).used = true := he.1
  have hnone := h.solvent.held_unused hfresh
  have hc : (containerSplit t.memory id quota).1.containers child = ⟨quota, 0, id, 0, true⟩ := by
    rw [hs, update_of_ne hne.symm, update_self]
  have hfields {i : ℕ} (hi : i ≠ child) := fields_of_split hs rfl rfl rfl hi
  have hdelegated := delegated_split hs hne hfresh rfl rfl rfl hc64 (by omega)
  refine ⟨h.solvent.split he, fun i hi ↦ ?_, fun i hi h0 ↦ ?_⟩
  · simp only [perform] at hi ⊢
    rw [hdelegated]
    by_cases hic : i = child
    · have hnew := h.delegated_unused hfresh
      rw [hic, hc, hnone, hnew, if_neg hne.symm]
      rfl
    · have hexact := h.exact i ((hfields hic).1.symm.trans hi)
      by_cases hid : i = id
      · rw [hid] at hexact ⊢
        rw [hs, update_self, if_pos rfl]
        dsimp only
        omega
      · rw [hs, update_of_ne hid, update_of_ne hic, if_neg hid, add_zero]
        exact hexact
  · simp only [perform] at hi ⊢
    by_cases hic : i = child
    · rw [hic, hc]
      dsimp only
      omega
    · rw [(hfields hic).2.1]
      exact h.parents i ((hfields hic).1.symm.trans hi) h0

theorem start_ledger (smap : List SMAP) : Ledger (start smap) := by
  have hused (i : ℕ) (hi : ((start smap).memory.containers i).used = true) : i = 0 :=
    eq_zero_of_start_used smap hi
  refine ⟨start_solvent smap, fun i hi ↦ ?_, fun i hi h0 ↦ absurd (hused i hi) h0⟩
  have hnone : delegated (start smap).memory i = 0 := by
    rw [delegated, Finset.filter_false_of_mem, Finset.sum_empty]
    exact fun j _ hj ↦ hj.2.1 (hused j hj.1)
  rw [hnone, hused i hi, start_root]
  rfl

/-- Along the steps of the condition the ledger is kept, and such steps are refunded. -/
theorem Ledger.step (h : Ledger t) {op : Operation} (he : tenancy.enabled t op)
    (hmarked : FreesMarked t op) : Ledger (tenancy.step t op) ∧ Refunds t op := by
  cases op with
  | split id quota => exact ⟨h.split he, trivial⟩
  | alloc id => exact ⟨h.alloc he, trivial⟩
  | free id page => exact h.free he hmarked

theorem Ledger.freesMarked (h : Ledger t) {op : Operation} (he : tenancy.enabled t op)
    (hexact : UsageExact (tenancy.step t op)) : FreesMarked t op := by
  cases op with
  | split id quota => trivial
  | alloc id => trivial
  | free id page =>
    by_contra ha
    exact h.not_exact_free he ((Bool.not_eq_true _).mp ha) hexact

/-- The accounts are right, and every page given back is refunded, exactly in the runs in which
pages are given back only while their bit is set. -/
theorem usage_exact_iff (smap : List SMAP) (ops : List Operation)
    (hlegal : tenancy.Legal (start smap) ops) :
    (tenancy.Throughout UsageExact (start smap) ops ∧ tenancy.Along Refunds (start smap) ops) ↔
      tenancy.Along FreesMarked (start smap) ops := by
  constructor
  · intro ⟨hexact, _⟩
    exact (hlegal.and hexact.along_step).along (start_ledger smap)
      (fun _ _ h hq ↦ (h.step hq.1 (h.freesMarked hq.1 hq.2)).1)
      (fun _ _ h hq ↦ h.freesMarked hq.1 hq.2)
  · intro hmarked
    have hboth := hlegal.and hmarked
    have hstep (t : Tenancy) (op : Operation) (h : Ledger t)
        (hq : tenancy.enabled t op ∧ FreesMarked t op) := h.step hq.1 hq.2
    refine ⟨?_, hboth.along (start_ledger smap) (fun t op h hq ↦ (hstep t op h hq).1)
      fun t op h hq ↦ (hstep t op h hq).2⟩
    exact (hboth.throughout (start_ledger smap) fun t op h hq ↦ (hstep t op h hq).1).mono
      fun _ h ↦ h.exact

section OnePage

variable {s : State} {page : ℕ} (hroot : s.containers 0 = ⟨1, 0, 0, 0, true⟩) (hu : UserPage page)

def holding (s : State) (page : ℕ) : Tenancy := ⟨takePage (setUsage s 0 1) page, {(0, page)}⟩

def returned (s : State) (page : ℕ) : Tenancy :=
  ⟨setUsage (physicalPageFree (takePage (setUsage s 0 1) page) page) 0 0, 0⟩

def holdingAgain (s : State) (page : ℕ) : Tenancy :=
  ⟨{ setUsage (returned s page).memory 0 1 with lastAllocPage := page, lastFreedPage := -1 },
    {(0, page)}⟩

theorem holding_marked : FreesMarked (holding s page) (.free 0 page) := by
  rw [FreesMarked, holding, takePage_pPageInfo_self]

theorem holdingAgain_unmarked :
    ((holdingAgain s page).memory.pPageInfo page).allocated = false := by
  simp [holdingAgain, returned, setUsage, physicalPageFree]

include hroot

theorem step_free : tenancy.step (holding s page) (.free 0 page) = returned s page := by
  have hm : ((takePage (setUsage s 0 1) page).pPageInfo page).allocated = true := holding_marked
  have hone : int32 1 = 1 := by decide
  have hf : containerFree (takePage (setUsage s 0 1) page) 0 page = (returned s page).memory := by
    rw [containerFree, if_pos hm]
    simp [returned, physicalPageFree, setUsage, hroot, hone]
  simp only [tenancy, perform, holding, hf]
  simp [returned]

include hu

theorem step_realloc : tenancy.step (returned s page) (.alloc 0) = holdingAgain s page := by
  have hb := hu.bounds
  have hne : page ≠ 0 := by omega
  have hzero : int32 0 = 0 := by decide
  have hc : (returned s page).memory.containers 0 = ⟨1, 0, 0, 0, true⟩ := by
    simp [returned, setUsage, physicalPageFree, hroot, hzero]
  have hl : (setUsage (returned s page).memory 0 1).lastFreedPage = page := by
    simp only [returned, setUsage, physicalPageFree, hu.int32]
  have ha : containerAlloc (returned s page).memory 0 = ((holdingAgain s page).memory, page) := by
    have hcharge : ((returned s page).memory.containers 0).usage + 1 = 1 := by rw [hc, zero_add]
    rw [containerAlloc, hcharge, hc, if_neg (by simp), physicalPageAlloc_shortcut hu hl]
    rfl
  have hheld : (returned s page).held = 0 := rfl
  simp only [tenancy, perform, ha, hne, if_false, hheld]
  rfl

variable (hf : s.lastFreedPage = -1) (hc : CursorOk s) (hfree : isFree s page = true)
  (honly : ∀ p, UserPage p → isFree s p = true → p = page)

include hf hc hfree honly

theorem step_alloc : tenancy.step ⟨s, 0⟩ (.alloc 0) = holding s page := by
  have hb := hu.bounds
  have hne : page ≠ 0 := by omega
  have ha : containerAlloc s 0 = (takePage (setUsage s 0 1) page, page) := by
    have hcharge : (s.containers 0).usage + 1 = 1 := by rw [hroot, zero_add]
    rw [containerAlloc, hcharge, hroot, if_neg (by simp)]
    exact PageCustody.physicalPageAlloc_unique (s := setUsage s 0 1) hf hc hu hfree honly
  simp [tenancy, perform, ha, hne, holding]

theorem cycle_legal : tenancy.Legal ⟨s, 0⟩ [.alloc 0, .free 0 page, .alloc 0, .free 0 page] := by
  simp only [System.along_cons, System.along_nil, step_alloc hroot hu hf hc hfree honly,
    step_free hroot, step_realloc hroot hu, and_true]
  refine ⟨?_, Multiset.mem_singleton_self _, ?_, Multiset.mem_singleton_self _⟩
  · simp [tenancy, hroot]
  · simp [tenancy, returned, setUsage, physicalPageFree, hroot]

theorem cycle_not_exact (hledger : Ledger ⟨s, 0⟩) :
    ¬ tenancy.Throughout UsageExact ⟨s, 0⟩ [.alloc 0, .free 0 page, .alloc 0, .free 0 page] := by
  intro hexact
  obtain ⟨he₁, he₂, he₃, he₄, _⟩ := cycle_legal hroot hu hf hc hfree honly
  have hstep := step_alloc hroot hu hf hc hfree honly
  have h₁ := (hledger.step he₁ trivial).1
  rw [hstep] at h₁ he₂ he₃ he₄
  have h₂ := (h₁.step he₂ holding_marked).1
  have h₃ := (h₂.step he₃ trivial).1
  rw [step_free hroot, step_realloc hroot hu] at h₃ he₄
  have hlast := hexact.along_step.2.2.2.1
  rw [hstep, step_free hroot, step_realloc hroot hu] at hlast
  exact h₃.not_exact_free he₄ holdingAgain_unmarked hlast

end OnePage

theorem onePageMap_root : (start onePageMap).memory.containers 0 = ⟨1, 0, 0, 0, true⟩ := by
  have hset : freePages (start onePageMap).memory = {0x40000} := by
    ext p
    rw [mem_freePages, Finset.mem_singleton]
    constructor
    · intro ⟨hp, hfree⟩
      exact (onePageMap_free p hp).mp hfree
    · intro hp
      rw [hp]
      exact ⟨userPage_first, (onePageMap_free _ userPage_first).mpr rfl⟩
  rw [start_root, hset, Finset.card_singleton, Nat.cast_one]

/-- Freeing a page that came back through the shortcut leaves its charge behind. -/
theorem free_keeps_charge :
    tenancy.Legal (start onePageMap) [.alloc 0, .free 0 0x40000, .alloc 0, .free 0 0x40000] ∧
      ¬ tenancy.Throughout UsageExact (start onePageMap)
        [.alloc 0, .free 0 0x40000, .alloc 0, .free 0 0x40000] :=
  ⟨cycle_legal onePageMap_root userPage_first rfl (.inl rfl)
      ((onePageMap_free _ userPage_first).mpr rfl) (fun p hp ↦ (onePageMap_free p hp).mp),
    cycle_not_exact onePageMap_root userPage_first rfl (.inl rfl)
      ((onePageMap_free _ userPage_first).mpr rfl) (fun p hp ↦ (onePageMap_free p hp).mp)
      (start_ledger onePageMap)⟩

theorem usage_exact_onePageMap :
    tenancy.Throughout UsageExact (start onePageMap) [.alloc 0, .free 0 0x40000] ∧
      tenancy.Along Refunds (start onePageMap) [.alloc 0, .free 0 0x40000] := by
  have hlegal : tenancy.Legal (start onePageMap)
      ([.alloc 0, .free 0 0x40000] ++ [.alloc 0, .free 0 0x40000]) :=
    cycle_legal onePageMap_root userPage_first rfl (.inl rfl)
      ((onePageMap_free _ userPage_first).mpr rfl) (fun p hp ↦ (onePageMap_free p hp).mp)
  apply (usage_exact_iff onePageMap _ (System.along_append.mp hlegal).1).mpr
  refine ⟨trivial, ?_, trivial⟩
  have hstep := step_alloc onePageMap_root userPage_first rfl (.inl rfl)
    ((onePageMap_free _ userPage_first).mpr rfl) (fun p hp ↦ (onePageMap_free p hp).mp)
  exact hstep ▸ holding_marked

end StormOS.UsageLedger
