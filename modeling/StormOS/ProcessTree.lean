import StormOS.Scheduler

namespace StormOS.ProcessTree

open Library.Runs Machine PhysicalMemory Threads ThreadQueue Function

/-- The tree of containers, and the threads that run in them. -/
structure Forest where
  memory : PhysicalMemory.State
  threads : Threads.State

structure Spawn where
  parent : ℕ
  quota : ℕ
  entry : UInt32

def spawn (f : Forest) (a : Spawn) : PhysicalMemory.State × Threads.State × ℕ :=
  threadSpawn f.memory f.threads a.parent a.quota a.entry

def spawning : System Forest Spawn where
  enabled f a := a.parent < maxProcs ∧ (f.memory.containers a.parent).used = true
  step f a := ⟨(spawn f a).1, (spawn f a).2.1⟩

def start (smap : List SMAP) (s : Threads.State) : Forest :=
  ⟨physicalMemoryInit PhysicalMemory.loaded smap, threadInit s⟩

/-- The id of the new process is in range and was not in use, and nothing of the processes in use
is overwritten. -/
def FreshId (f : Forest) (a : Spawn) : Prop :=
  (spawn f a).2.2 < maxProcs ∧ (f.memory.containers (spawn f a).2.2).used = false ∧
    ∀ i < maxProcs, (f.memory.containers i).used = true →
      (spawn f a).2.1.kernelContexts i = f.threads.kernelContexts i ∧
        stateOf (spawn f a).2.1 i = stateOf f.threads i ∧
        (i ≠ a.parent → (spawn f a).1.containers i = f.memory.containers i)

/-- The parents of the containers in use make a tree, and every container counts its children. -/
def CountsChildren (f : Forest) : Prop :=
  ∀ id < maxProcs, (f.memory.containers id).used = true →
    (id ≠ 0 → ∃ p < maxProcs, (f.memory.containers p).used = true ∧
      (f.memory.containers id).parent = p) ∧
    (f.memory.containers id).numChildren =
      ((Finset.range maxProcs).filter (IsChild f.memory id)).card

/-- The number of the next child of the parent names a slot of the table, and is not among the
numbers of the children of another container. -/
def SlotOpen (f : Forest) (a : Spawn) : Prop :=
  a.parent * maxChildren + (f.memory.containers a.parent).numChildren + 1 < maxProcs ∧
    ∀ p < maxProcs, p ≠ a.parent → (f.memory.containers p).used = true →
      a.parent * maxChildren + (f.memory.containers a.parent).numChildren < p * maxChildren ∨
        p * maxChildren + (f.memory.containers p).numChildren ≤
          a.parent * maxChildren + (f.memory.containers a.parent).numChildren

/-- The ids in use are those of the root and of the children that the containers count. -/
structure Numbered (m : PhysicalMemory.State) : Prop where
  range : ∀ id, (m.containers id).used = true → id < maxProcs
  nonneg : ∀ id, (m.containers id).used = true → 0 ≤ (m.containers id).numChildren
  child : ∀ id, (m.containers id).used = true → id ≠ 0 → ∃ p k : ℕ,
    (m.containers p).used = true ∧ (m.containers id).parent = p ∧
      id = p * 8 + 1 + k ∧ k < (m.containers p).numChildren
  filled : ∀ p k : ℕ, (m.containers p).used = true → k < (m.containers p).numChildren →
    (m.containers (p * 8 + 1 + k)).used = true ∧ (m.containers (p * 8 + 1 + k)).parent = p

variable {m : PhysicalMemory.State} {f : Forest} {a : Spawn}

theorem Numbered.numChildren_lt (h : Numbered m) {id : ℕ} (hu : (m.containers id).used = true) :
    ∃ k : ℕ, (m.containers id).numChildren = k ∧ k < 64 := by
  obtain ⟨k, hk⟩ : ∃ k : ℕ, (m.containers id).numChildren = k :=
    ⟨_, (Int.toNat_of_nonneg (h.nonneg id hu)).symm⟩
  refine ⟨k, hk, ?_⟩
  cases k with
  | zero => omega
  | succ k =>
    have hlast := h.range _ (h.filled id k hu (by omega)).1
    simp only [maxProcs] at hlast
    omega

theorem Numbered.countsChildren (h : Numbered f.memory) : CountsChildren f := by
  intro id _ hu
  constructor
  · intro h0
    obtain ⟨p, k, hp, hparent, _, _⟩ := h.child id hu h0
    exact ⟨p, h.range p hp, hp, hparent⟩
  · obtain ⟨n, hn, _⟩ := h.numChildren_lt hu
    have hset : (Finset.range maxProcs).filter (IsChild f.memory id) =
        (Finset.range n).image (fun k ↦ id * 8 + 1 + k) := by
      ext i
      rw [Finset.mem_filter, Finset.mem_range, Finset.mem_image]
      constructor
      · intro ⟨_, hi, h0, hparent⟩
        obtain ⟨p, k, _, hp, hik, hk⟩ := h.child i hi h0
        have hpid : p = id := by
          have hcast := hp.symm.trans hparent
          omega
        rw [hpid] at hik hk
        exact ⟨k, Finset.mem_range.mpr (by omega), hik.symm⟩
      · intro ⟨k, hk, hi⟩
        have hk' := Finset.mem_range.mp hk
        obtain ⟨hused, hparent⟩ := h.filled id k hu (by omega)
        rw [hi] at hused hparent
        exact ⟨h.range i hused, hused, by omega, hparent⟩
    rw [hset, Finset.card_image_of_injective _ (fun _ _ he ↦ by simpa using he),
      Finset.card_range, hn]

theorem Numbered.spawn_eq (h : Numbered f.memory) (he : spawning.enabled f a) :
    ∃ (k child : ℕ) (c : Container), (f.memory.containers a.parent).numChildren = k ∧ k < 64 ∧
      child = a.parent * 8 + 1 + k ∧ (spawn f a).2.2 = child ∧
      c.used = true ∧ c.parent = (f.memory.containers a.parent).parent ∧ c.numChildren = k + 1 ∧
      (spawn f a).1.containers = update
        (update f.memory.containers child ⟨int32 a.quota, 0, a.parent, 0, true⟩) a.parent c := by
  obtain ⟨hlt, hu⟩ := he
  obtain ⟨k, hk, hk64⟩ := h.numChildren_lt hu
  have hsplit := containerSplit_eq f.memory a.quota hlt hk hk64
  have hmem : (spawn f a).1 = (containerSplit f.memory a.parent a.quota).1 := rfl
  have hid : (spawn f a).2.2 = (containerSplit f.memory a.parent a.quota).2 := rfl
  rw [hsplit] at hmem hid
  exact ⟨k, _, { f.memory.containers a.parent with
    usage := int32 ((f.memory.containers a.parent).usage + a.quota)
    numChildren := (k + 1 : ℤ) }, hk, hk64, rfl, hid, hu, rfl, rfl, by rw [hmem]⟩

/-- A slot is in use exactly when it is the slot of a child that some container counts. -/
theorem Numbered.slotOpen_iff (h : Numbered f.memory) (he : spawning.enabled f a) :
    SlotOpen f a ↔ (spawn f a).2.2 < maxProcs ∧
      (f.memory.containers (spawn f a).2.2).used = false := by
  obtain ⟨k, child, _, hk, hk64, hchild, hid, _, _, _, _⟩ := h.spawn_eq he
  obtain ⟨hlt, hu⟩ := he
  rw [SlotOpen, hk, hid]
  simp only [maxProcs, maxChildren] at hlt ⊢
  constructor
  · intro ⟨hroom, hfree⟩
    refine ⟨by omega, ?_⟩
    by_contra hused
    obtain ⟨p, j, hp, _, hj, hjk⟩ := h.child child (by simpa using hused) (by omega)
    by_cases hpa : p = a.parent
    · rw [hpa, hk] at hjk
      rw [hpa] at hj
      omega
    · have hout := hfree p (h.range p hp) hpa hp
      omega
  · intro ⟨hroom, hfree⟩
    refine ⟨by omega, fun p _ hpa hp ↦ ?_⟩
    by_contra hin
    obtain ⟨j, hj⟩ : ∃ j, child = p * 8 + 1 + j := ⟨a.parent * 8 + k - p * 8, by omega⟩
    have hused := (h.filled p j hp (by omega)).1
    rw [← hj, hfree] at hused
    cases hused

theorem Numbered.step (h : Numbered f.memory) (he : spawning.enabled f a) (ho : SlotOpen f a) :
    Numbered (spawn f a).1 := by
  obtain ⟨hroom, hfree⟩ := (h.slotOpen_iff he).mp ho
  obtain ⟨k, child, c, hk, hk64, hchild, hid, hcu, hcp, hcn, hs⟩ := h.spawn_eq he
  obtain ⟨hlt, hu⟩ := he
  rw [hid] at hroom hfree
  have hne : child ≠ a.parent := by omega
  have hnew : (spawn f a).1.containers child = ⟨int32 a.quota, 0, a.parent, 0, true⟩ := by
    rw [hs, update_of_ne hne, update_self]
  have hparent : (spawn f a).1.containers a.parent = c := by rw [hs, update_self]
  -- a slot other than the child's changes only if it is the parent's, and there only its count
  have hold (i : ℕ) (hi : i ≠ child) :
      ((spawn f a).1.containers i).used = (f.memory.containers i).used ∧
        ((spawn f a).1.containers i).parent = (f.memory.containers i).parent ∧
        ((spawn f a).1.containers i).numChildren =
          (f.memory.containers i).numChildren + if i = a.parent then 1 else 0 := by
    by_cases hia : i = a.parent
    · rw [hia, hparent, if_pos rfl, hk]
      exact ⟨hcu.trans hu.symm, hcp, hcn⟩
    · rw [hs, update_of_ne hia, update_of_ne hi, if_neg hia, add_zero]
      exact ⟨rfl, rfl, rfl⟩
  have hused (i : ℕ) (hi : (f.memory.containers i).used = true) : i ≠ child := by
    intro hic
    rw [hic, hfree] at hi
    cases hi
  constructor
  · intro i hi
    by_cases hic : i = child
    · exact hic ▸ hroom
    · exact h.range i ((hold i hic).1.symm.trans hi)
  · intro i hi
    by_cases hic : i = child
    · rw [hic, hnew]
    · have hn := h.nonneg i ((hold i hic).1.symm.trans hi)
      rw [(hold i hic).2.2]
      split
      · omega
      · omega
  · intro i hi h0
    by_cases hic : i = child
    · refine ⟨a.parent, k, (hold _ hne.symm).1.trans hu, ?_, hic.trans hchild, ?_⟩
      · rw [hic, hnew]
      · rw [hparent, hcn]
        omega
    · obtain ⟨p, j, hp, hip, hij, hj⟩ := h.child i ((hold i hic).1.symm.trans hi) h0
      have hpc := hold p (hused p hp)
      refine ⟨p, j, hpc.1.trans hp, (hold i hic).2.1.trans hip, hij, ?_⟩
      rw [hpc.2.2]
      split
      · omega
      · omega
  · intro p j hp hj
    by_cases hpc : p = child
    · rw [hpc, hnew] at hj
      dsimp only at hj
      omega
    · rw [(hold p hpc).2.2] at hj
      have hp' := (hold p hpc).1.symm.trans hp
      by_cases hjc : p = a.parent ∧ j = k
      · rw [hjc.1, hjc.2, ← hchild, hnew]
        exact ⟨rfl, rfl⟩
      · have hj' : (j : ℤ) < (f.memory.containers p).numChildren := by
          by_cases hpa : p = a.parent
          · rw [if_pos hpa] at hj
            rw [hpa, hk] at hj ⊢
            have hjk : j ≠ k := fun hjk ↦ hjc ⟨hpa, hjk⟩
            omega
          · rwa [if_neg hpa, add_zero] at hj
        obtain ⟨hi, hip⟩ := h.filled p j hp' hj'
        have hkept := hold _ (hused _ hi)
        exact ⟨hkept.1.trans hi, hkept.2.1.trans hip⟩

theorem Numbered.freshId_iff (h : Numbered f.memory) (he : spawning.enabled f a) :
    FreshId f a ↔ SlotOpen f a := by
  rw [h.slotOpen_iff he, FreshId, ← and_assoc]
  refine and_iff_left_of_imp fun ⟨hroom, hfree⟩ i hi hu ↦ ?_
  obtain ⟨_, child, c, _, _, _, hid, _, _, _, hs⟩ := h.spawn_eq he
  have hic : i ≠ child := by
    intro hic
    rw [hid, ← hic, hu] at hfree
    cases hfree
  have hthreads : (spawn f a).2.1 = _ := Scheduler.threadSpawn_threads hid
  rw [hthreads]
  refine ⟨?_, ?_, fun hia ↦ ?_⟩
  · rw [(tqEnqueue_relinked _ maxProcs child).kernel]
    exact update_of_ne hic _ _
  · rw [(tqEnqueue_relinked _ maxProcs child).states, stateOf_setState, update_of_ne hic]
    rfl
  · rw [hs, update_of_ne hia, update_of_ne hic]

theorem start_numbered (smap : List SMAP) (s : Threads.State) :
    Numbered (start smap s).memory := by
  have hroot : (start smap s).memory.containers 0 =
      ⟨(freePages (start smap s).memory).card, 0, 0, 0, true⟩ :=
    physicalMemoryInit_root PhysicalMemory.loaded smap
  have hused (i : ℕ) (hi : ((start smap s).memory.containers i).used = true) : i = 0 := by
    by_contra h0
    have hrest : (start smap s).memory.containers i = ⟨0, 0, 0, 0, false⟩ :=
      physicalMemoryInit_containers PhysicalMemory.loaded smap h0
    rw [hrest] at hi
    cases hi
  constructor
  · intro i hi
    rw [hused i hi]
    decide
  · intro i hi
    rw [hused i hi, hroot]
  · intro i hi h0
    exact absurd (hused i hi) h0
  · intro p k hp hk
    rw [hused p hp, hroot] at hk
    dsimp only at hk
    omega

/-- Every spawn gets a fresh id in range, and the tree is kept, exactly in the runs in which the
number of the next child is always that of an open slot. -/
theorem spawn_fresh_iff (smap : List SMAP) (s : Threads.State) (run : List Spawn)
    (hlegal : spawning.Legal (start smap s) run) :
    (spawning.Along FreshId (start smap s) run ∧
        spawning.Throughout CountsChildren (start smap s) run) ↔
      spawning.Along SlotOpen (start smap s) run := by
  have hstart := start_numbered smap s
  have hstep (f : Forest) (a : Spawn) (h : Numbered f.memory)
      (hq : spawning.enabled f a ∧ SlotOpen f a) : Numbered (spawning.step f a).memory :=
    h.step hq.1 hq.2
  constructor
  · intro ⟨hfresh, _⟩
    exact (hlegal.and hfresh).along (P := fun f ↦ Numbered f.memory) hstart
      (fun f a h hq ↦ hstep f a h ⟨hq.1, (h.freshId_iff hq.1).mp hq.2⟩)
      (fun f a h hq ↦ (h.freshId_iff hq.1).mp hq.2)
  · intro hopen
    have hboth := hlegal.and hopen
    refine ⟨hboth.along (P := fun f ↦ Numbered f.memory) hstart hstep
      (fun f a h hq ↦ (h.freshId_iff hq.1).mpr hq.2), ?_⟩
    exact (hboth.throughout (P := fun f ↦ Numbered f.memory) hstart hstep).mono
      fun f h ↦ h.countsChildren

instance (f : Forest) (a : Spawn) : Decidable (spawning.enabled f a) :=
  inferInstanceAs (Decidable (_ ∧ _))

instance (f : Forest) (a : Spawn) : Decidable (SlotOpen f a) :=
  inferInstanceAs (Decidable (_ ∧ _))

abbrev threeGenerations : List Spawn := [⟨0, 0, 0⟩, ⟨1, 0, 0⟩, ⟨9, 0, 0⟩]

/-- The third generation has no slot in the table. -/
theorem third_generation_out_of_range :
    spawning.Legal (start onePageMap (Threads.loaded 0)) threeGenerations ∧
      ¬ spawning.Along FreshId (start onePageMap (Threads.loaded 0)) threeGenerations := by
  refine ⟨by decide +kernel, fun hfresh ↦ ?_⟩
  have hlast := hfresh.2.2.1.1
  revert hlast
  decide +kernel

theorem spawn_fresh_twoGenerations :
    spawning.Along FreshId (start onePageMap (Threads.loaded 0)) [⟨0, 0, 0⟩, ⟨1, 0, 0⟩] ∧
      spawning.Throughout CountsChildren (start onePageMap (Threads.loaded 0))
        [⟨0, 0, 0⟩, ⟨1, 0, 0⟩] :=
  (spawn_fresh_iff onePageMap (Threads.loaded 0) [⟨0, 0, 0⟩, ⟨1, 0, 0⟩]
    (by decide +kernel)).mpr (by decide +kernel)

end StormOS.ProcessTree
