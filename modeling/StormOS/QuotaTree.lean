import StormOS.Quotas

namespace StormOS.Quotas

open Library.Runs Machine PhysicalMemory Function

variable {t : Tenancy} {id : ℕ}

theorem containerSplit_containers (s : State) {id : ℕ} (quota : ℕ) {k : ℕ} (hid : id < 64)
    (hk : (s.containers id).numChildren = k) (hk' : k < 8)
    (hu : 0 ≤ (s.containers id).usage) (hq : (s.containers id).usage + quota ≤ 2 ^ 20) :
    (containerSplit s id quota).1.containers =
      update (update s.containers (id * 8 + 1 + k) ⟨quota, 0, id, 0, true⟩) id
        { s.containers id with
          usage := (s.containers id).usage + quota
          numChildren := (k + 1 : ℤ) } := by
  rw [containerSplit_eq s quota hid hk (by omega), int32_of_bounds (by omega) (by omega),
    int32_of_bounds (by omega) (by omega)]

theorem Solvent.split_cases (h : Solvent t) {quota : ℕ}
    (he : tenancy.enabled t (.split id quota)) :
    ∃ k child : ℕ, (t.memory.containers id).numChildren = k ∧ k < 8 ∧ child = id * 8 + 1 + k ∧
      child < 64 ∧ id ≠ child ∧ (t.memory.containers child).used = false ∧
      (containerSplit t.memory id quota).1.containers =
        update (update t.memory.containers child ⟨quota, 0, id, 0, true⟩) id
          { t.memory.containers id with
            usage := (t.memory.containers id).usage + quota
            numChildren := (k + 1 : ℤ) } := by
  obtain ⟨hu, hquota, hnum, hchild⟩ := he
  have hlt := h.range id hu
  obtain ⟨k, hk⟩ : ∃ k : ℕ, (t.memory.containers id).numChildren = k :=
    ⟨_, (Int.toNat_of_nonneg (h.children id).1).symm⟩
  have hn := h.usage_nonneg hu
  have hcap := h.quota id hu
  rw [hk] at hnum hchild
  simp only [maxProcs, maxChildren] at hlt hnum hchild
  refine ⟨k, id * 8 + 1 + k, hk, by omega, rfl, by omega, by omega, ?_,
    containerSplit_containers t.memory quota hlt hk (by omega) hn (by omega)⟩
  by_contra hcu
  have hs := h.slot (id * 8 + 1 + k) (by simpa using hcu) (by omega)
  have hdiv : (id * 8 + 1 + k - 1) / 8 = id := by omega
  rw [hdiv, hk] at hs
  omega

theorem slots_of_split {s s' : State} {child : ℕ} {c c' : Container}
    (hs : s'.containers = update (update s.containers child c) id c') (i : ℕ) :
    (i = id ∧ s'.containers i = c') ∨ (i = child ∧ i ≠ id ∧ s'.containers i = c) ∨
      (i ≠ id ∧ i ≠ child ∧ s'.containers i = s.containers i) := by
  by_cases hi : i = id
  · exact .inl ⟨hi, by rw [hs, hi, update_self]⟩
  · by_cases hc : i = child
    · exact .inr (.inl ⟨hc, hi, by rw [hs, update_of_ne hi, hc, update_self]⟩)
    · exact .inr (.inr ⟨hi, hc, by rw [hs, update_of_ne hi, update_of_ne hc]⟩)

/-- The child may ask for what its parent no longer may. -/
theorem totalHeadroom_split {s s' : State} {child quota : ℕ} {n : ℤ} (hid : id < maxProcs)
    (hchild : child < maxProcs) (hne : id ≠ child) (hu : (s.containers id).used = true)
    (hfresh : (s.containers child).used = false)
    (hs : s'.containers = update (update s.containers child ⟨quota, 0, id, 0, true⟩) id
      { s.containers id with usage := (s.containers id).usage + quota, numChildren := n }) :
    totalHeadroom s' = totalHeadroom s := by
  let mid : State :=
    { s with containers := update s.containers child ⟨quota, 0, id, 0, true⟩ }
  have hopened := totalHeadroom_update hchild
    (show mid.containers = update s.containers child _ from rfl)
  have hcharged := totalHeadroom_update (s := mid) hid hs
  have hold : mid.containers id = s.containers id := update_of_ne hne _ _
  rw [hold] at hcharged
  simp only [headroom, hu, hfresh, if_true, Bool.false_eq_true, if_false] at hopened hcharged
  omega

theorem Solvent.held_unused (h : Solvent t) (hu : (t.memory.containers id).used = false) :
    t.held.countP (fun x ↦ x.1 = id) = 0 := by
  apply Multiset.countP_eq_zero.mpr
  intro x hx hxid
  have hxu := (h.holds x hx).1
  rw [hxid, hu] at hxu
  cases hxu

/-- What holds of every slot after a split: it holds of the parent and of the child as they are
written, and of the others as before. -/
theorem forall_slots {s s' : State} {child : ℕ} {c c' : Container} {P : ℕ → Container → Prop}
    (hs : s'.containers = update (update s.containers child c) id c') (hparent : P id c')
    (hchild : P child c) (hrest : ∀ i, P i (s.containers i)) (i : ℕ) : P i (s'.containers i) := by
  have hopened := (forall_update_iff s.containers P).mpr ⟨hchild, fun i _ ↦ hrest i⟩
  rw [hs]
  exact (forall_update_iff _ P).mpr ⟨hparent, fun i _ ↦ hopened i⟩ i

theorem Solvent.split (h : Solvent t) {quota : ℕ}
    (he : tenancy.enabled t (.split id quota)) : Solvent (perform t (.split id quota)) := by
  obtain ⟨k, child, hk, hk8, hchild, hc64, hne, hfresh, hs⟩ := h.split_cases he
  obtain ⟨hu, hquota, _, _⟩ := he
  have hn := h.usage_nonneg hu
  have hcap := h.quota id hu
  have hback := h.backed
  have hnumChildren := forall_slots (P := fun i c ↦ (t.memory.containers i).numChildren ≤
    c.numChildren) hs (by dsimp only; omega) (h.unused child hfresh).le fun i ↦ le_rfl
  have htotal : totalHeadroom (containerSplit t.memory id quota).1 = totalHeadroom t.memory :=
    totalHeadroom_split (h.range id hu) hc64 hne hu hfresh hs
  have hfree : freePages (containerSplit t.memory id quota).1 = freePages t.memory := rfl
  constructor
  · exact ⟨h.ready.cursor, h.ready.shortcut⟩
  · exact forall_slots (P := fun i c ↦ c.used = true → i < maxProcs) hs (fun _ ↦ h.range id hu)
      (fun _ ↦ hc64) h.range
  · apply forall_slots (P := fun _ c ↦ c.used = true → c.usage ≤ c.quota ∧ c.quota ≤ 2 ^ 20) hs
    · intro _
      dsimp only
      omega
    · intro _
      dsimp only
      omega
    · exact h.quota
  · intro i hi hi0
    have hslot : (((i - 1) % 8 : ℕ) : ℤ) < (t.memory.containers ((i - 1) / 8)).numChildren →
        (((i - 1) % 8 : ℕ) : ℤ) <
          ((containerSplit t.memory id quota).1.containers ((i - 1) / 8)).numChildren :=
      fun hlt ↦ hlt.trans_le (hnumChildren _)
    rcases slots_of_split hs i with ⟨rfl, _⟩ | ⟨rfl, _, _⟩ | ⟨_, _, hc⟩
    · exact hslot (h.slot i hu hi0)
    · have hdiv : (i - 1) / 8 = id := by omega
      have hmod : (i - 1) % 8 = k := by omega
      dsimp only [perform]
      rw [hdiv, hmod, hs, update_self]
      dsimp only
      omega
    · dsimp only [perform] at hi
      rw [hc] at hi
      exact hslot (h.slot i hi hi0)
  · apply forall_slots (P := fun _ c ↦ c.used = false → c.numChildren = 0) hs
    · intro hunused
      exact absurd hu (by rw [hunused]; decide)
    · exact fun _ ↦ rfl
    · exact h.unused
  · apply forall_slots (P := fun _ c ↦ 0 ≤ c.numChildren ∧ c.numChildren ≤ 8) hs
    · dsimp only
      omega
    · dsimp only
      omega
    · exact h.children
  · apply forall_slots (P := fun i c ↦ c.used = true →
      (t.held.countP (fun x ↦ x.1 = i) : ℤ) ≤ c.usage) hs
    · intro _
      have hch := h.charged id hu
      dsimp only
      omega
    · intro _
      rw [h.held_unused hfresh]
      exact le_rfl
    · exact h.charged
  · intro x hx
    obtain ⟨hxu, hxp⟩ := h.holds x hx
    have hkept := forall_slots (P := fun i c ↦ (t.memory.containers i).used = true →
      c.used = true) hs (fun hi ↦ hi) (fun _ ↦ rfl) fun _ hi ↦ hi
    exact ⟨hkept x.1 hxu, hxp⟩
  · simp only [perform]
    rw [htotal, hfree]
    exact hback

section Start

variable (smap : List SMAP)

theorem start_root : (start smap).memory.containers 0 =
    ⟨(freePages (start smap).memory).card, 0, 0, 0, true⟩ :=
  physicalMemoryInit_root loaded smap

theorem start_containers {i : ℕ} (hi : i ≠ 0) :
    (start smap).memory.containers i = ⟨0, 0, 0, 0, false⟩ :=
  physicalMemoryInit_containers loaded smap hi

theorem eq_zero_of_start_used {i : ℕ} (hi : ((start smap).memory.containers i).used = true) :
    i = 0 := by
  by_contra h0
  rw [start_containers smap h0] at hi
  cases hi

theorem start_solvent : Solvent (start smap) := by
  have hroot := start_root smap
  have hrest {i : ℕ} (hi : i ≠ 0) := start_containers smap hi
  have hused (i : ℕ) (hi : ((start smap).memory.containers i).used = true) : i = 0 :=
    eq_zero_of_start_used smap hi
  have hcard : (freePages (start smap).memory).card ≤ 2 ^ 20 :=
    (Finset.card_filter_le _ _).trans (by rw [Nat.card_Ico]; decide)
  constructor
  · exact ⟨.inl rfl, .inl rfl⟩
  · intro i hi
    rw [hused i hi]
    decide
  · intro i hi
    rw [hused i hi, hroot]
    dsimp only
    omega
  · intro i hi h0
    exact absurd (hused i hi) h0
  · intro i hi
    by_cases h0 : i = 0
    · rw [h0, hroot]
    · rw [hrest h0]
  · intro i
    by_cases h0 : i = 0
    · rw [h0, hroot]
      simp
    · rw [hrest h0]
      decide
  · intro i hi
    rw [hused i hi, hroot]
    exact le_rfl
  · intro x hx
    exact absurd hx (Multiset.notMem_zero x)
  · have hsum : totalHeadroom (start smap).memory =
        headroom ((start smap).memory.containers 0) :=
      Finset.sum_eq_single_of_mem 0 (by decide) fun i _ hi ↦ by rw [hrest hi]; rfl
    rw [hsum, hroot, headroom, if_pos rfl]
    exact (sub_zero _).le

end Start

theorem Solvent.step (h : Solvent t) {op : Operation} (he : tenancy.enabled t op) :
    Solvent (tenancy.step t op) := by
  cases op with
  | split id quota => exact h.split he
  | alloc id => exact h.alloc he
  | free id page => exact h.free he

/-- A quota is a guarantee: in every reachable state `ContainerAlloc` fails at the quota only, and
below it always gets a page, however the memory has been divided over the tree of containers. -/
theorem quota_guarantee (smap : List SMAP) (ops : List Operation)
    (hlegal : tenancy.Legal (start smap) ops) (id : ℕ)
    (hu : ((tenancy.final (start smap) ops).memory.containers id).used = true) :
    let s := (tenancy.final (start smap) ops).memory
    (0 ≤ (s.containers id).usage ∧ (s.containers id).usage ≤ (s.containers id).quota) ∧
      ((containerAlloc s id).2 = 0 ↔ (s.containers id).usage = (s.containers id).quota) ∧
      ((s.containers id).usage ≠ (s.containers id).quota → GetsPage s id) := by
  have h : Solvent (tenancy.final (start smap) ops) :=
    hlegal.final (start_solvent smap) fun _ _ h he ↦ h.step he
  exact ⟨⟨h.usage_nonneg hu, (h.quota id hu).1⟩, h.alloc_eq_zero_iff hu, h.getsPage hu⟩

theorem quota_guarantee_onePageMap :
    GetsPage (tenancy.final (start onePageMap) [.split 0 1]).memory 1 := by
  have hroot := start_root onePageMap
  have hpos : 1 ≤ (freePages (start onePageMap).memory).card :=
    Finset.card_pos.mpr ⟨0x40000, mem_freePages.mpr
      ⟨userPage_first, (onePageMap_free _ userPage_first).mpr rfl⟩⟩
  have he : tenancy.enabled (start onePageMap) (.split 0 1) := by
    refine ⟨by rw [hroot], ?_, by rw [hroot]; decide, by rw [hroot]; decide⟩
    rw [hroot]
    dsimp only
    omega
  have hc := containerSplit_containers (start onePageMap).memory 1 (show 0 < 64 by omega)
    (show ((start onePageMap).memory.containers 0).numChildren = (0 : ℕ) by rw [hroot]; rfl)
    (by omega) (by rw [hroot])
    (by rw [hroot]; decide)
  have hchild : (tenancy.final (start onePageMap) [.split 0 1]).memory.containers 1 =
      ⟨1, 0, 0, 0, true⟩ := by
    have hs : (tenancy.final (start onePageMap) [.split 0 1]).memory.containers = _ := hc
    rw [hs, update_of_ne (by decide), update_self]
    rfl
  refine (quota_guarantee onePageMap [.split 0 1] ⟨he, trivial⟩ 1 ?_).2.2 ?_
  · rw [hchild]
  · rw [hchild]
    decide

end StormOS.Quotas
