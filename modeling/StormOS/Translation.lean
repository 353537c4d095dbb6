import StormOS.PageAllocation

namespace StormOS.Isolation

open Library.Bytes
open PhysicalMemory hiding State
open Machine VirtualMemory Function

variable {L : Layout} {s s' : State} {i i' j f va va' page perm : ℕ}

theorem page_index_eq (va : ℕ) : vaPdeIndex va * 1024 + vaPteIndex va = va / 4096 := by
  rw [vaPdeIndex_eq, vaPteIndex_eq]
  omega

theorem vaPteIndex_lt (va : ℕ) : vaPteIndex va < 1024 := Nat.mod_lt _ (by decide)

theorem vaPdeIndex_lt (h : va < 2 ^ 32) : vaPdeIndex va < 1024 := by
  rw [vaPdeIndex_eq]
  omega

theorem userTable_iff (hi : 1 ≤ i ∧ i < 64) :
    UserTable i (vaPdeIndex va) ↔ 0x40000000 ≤ va ∧ va < 0xF0000000 := by
  have hb : UserTable i (vaPdeIndex va) ↔
      (1 ≤ i ∧ i < 64) ∧ 256 ≤ vaPdeIndex va ∧ vaPdeIndex va < 960 := Iff.rfl
  rw [hb, vaPdeIndex_eq]
  omega

theorem UserTable.not_kernelTable (h : UserTable i j) : ¬ KernelTable i j := by
  have hb := h.bounds
  have hk : KernelTable i j ↔ i = 0 ∨ j < 256 ∨ 960 ≤ j := Iff.rfl
  rw [hk]
  omega

theorem names_page_of_present (hu : UserTable i (vaPdeIndex va))
    (hp : Present (getPageTableEntryByVA s i va)) :
    Names s (.page i (vaPdeIndex va) (vaPteIndex va))
      (getPageTableEntryByVA s i va / 4096) := by
  obtain ⟨f, hf, ha⟩ := physicalAddr_of_present hu hp
  have hmask : getPageTableEntryByVA s i va &&& 0xfffff000 = f * 4096 := by
    rw [physicalAddr] at ha
    simp only [pageSize] at ha
    omega
  have hlt : getPageTableEntryByVA s i va < 2 ^ 32 := by
    rw [getPageTableEntryByVA]
    split
    · decide
    · exact load32_lt _ _
  rw [land_frameMask hlt] at hmask
  have he : getPageTableEntryByVA s i va / 4096 = f := by omega
  rwa [he]

/-- Two states translate an address alike when they agree on the directory entry and on the word
of the table entry. -/
theorem translation_congr (hpde : s'.pageDirEntries i (vaPdeIndex va) =
      s.pageDirEntries i (vaPdeIndex va))
    (hword : s.pageDirEntries i (vaPdeIndex va) ≠ 0 →
      load32 s'.memory (entryAddr s i (vaPdeIndex va) (vaPteIndex va)) =
        load32 s.memory (entryAddr s i (vaPdeIndex va) (vaPteIndex va))) :
    getPageTableEntryByVA s' i va = getPageTableEntryByVA s i va := by
  have haddr : entryAddr s' i (vaPdeIndex va) (vaPteIndex va) =
      entryAddr s i (vaPdeIndex va) (vaPteIndex va) := by
    rw [entryAddr, entryAddr, hpde]
  rw [getPageTableEntryByVA, getPageTableEntryByVA, hpde]
  by_cases h0 : s.pageDirEntries i (vaPdeIndex va) = 0
  · rw [if_pos h0, if_pos h0]
  · rw [if_neg h0, if_neg h0, getPageTableEntry, getPageTableEntry, haddr, hword h0]

/-- Where the word of an entry in use lies: in a table of the process, or in the identity map. -/
theorem entryAddr_cases (h : Isolated L s) (hi : i < 64) (hva : va < 2 ^ 32)
    (hp : s.pageDirEntries i (vaPdeIndex va) ≠ 0) :
    (∃ f, Names s (.table i (vaPdeIndex va)) f ∧
      entryAddr s i (vaPdeIndex va) (vaPteIndex va) = f * 4096 + vaPteIndex va * 4) ∨
    (KernelTable i (vaPdeIndex va) ∧ entryAddr s i (vaPdeIndex va) (vaPteIndex va) =
      L.pageDirIdentity + vaPdeIndex va * 4096 + vaPteIndex va * 4) := by
  have hk := vaPteIndex_lt va
  rcases userTable_or_kernelTable hi (vaPdeIndex va) with hu | hker
  · exact .inl ⟨_, names_table hu hp, h.entryAddr (names_table hu hp) hk⟩
  · exact .inr ⟨hker, entryAddr_kernel h hi (vaPdeIndex_lt hva) hk hker⟩

theorem translation_write (h : Isolated L s) {m : Memory} (hm : TablesAgree L s m) (hi : i < 64)
    (hva : va < 2 ^ 32) :
    getPageTableEntryByVA { s with memory := m } i va = getPageTableEntryByVA s i va := by
  refine translation_congr rfl fun hp ↦ ?_
  have hk := vaPteIndex_lt va
  have hj := vaPdeIndex_lt hva
  rcases entryAddr_cases h hi hva hp with ⟨f, hf, ha⟩ | ⟨_, ha⟩
  · rw [ha]
    exact (hm.2 _ _ _ hf).load32 (by omega) (by omega)
  · rw [ha]
    exact hm.1.load32 (by omega) (by omega)

theorem Prepared.translation (h : Isolated L s) (hu : UserTable i j) (hs : Prepared s i j s')
    (hi : i' < 64) (hva : va' < 2 ^ 32) :
    getPageTableEntryByVA s' i' va' = getPageTableEntryByVA s i' va' := by
  cases hs with
  | found hp ht => rfl
  | @made p f hp ht hf =>
    have hb := hf.user.bounds
    have hk := vaPteIndex_lt va'
    by_cases he : i' = i ∧ vaPdeIndex va' = j
    · obtain ⟨rfl, rfl⟩ := he
      have hpde : (withTable { s with physical := p } i' (vaPdeIndex va') f).pageDirEntries i'
          (vaPdeIndex va') ≠ 0 := by
        rw [withTable_pde_self]
        omega
      have hzero : getPageTableEntryByVA s i' va' = 0 := if_pos ht
      rw [hzero, getPageTableEntryByVA, if_neg hpde, withTable_entry _ _ _ hf.user.2 hk]
    · refine translation_congr ?_ fun hp' ↦ ?_
      · rw [withTable_pde, if_neg he]
      · have hL := L.kernel
        have hj := vaPdeIndex_lt hva
        have houtside : entryAddr s i' (vaPdeIndex va') (vaPteIndex va') + 4 ≤ f * 4096 ∨
            f * 4096 + 4096 ≤ entryAddr s i' (vaPdeIndex va') (vaPteIndex va') := by
          rcases entryAddr_cases h hi hva hp' with ⟨g, hg, ha⟩ | ⟨_, ha⟩
          · have hne : g ≠ f := by
              rintro rfl
              exact hf.fresh (.table i' (vaPdeIndex va')) hg
            omega
          · omega
        exact load32_withTable houtside

theorem translation_set (h : Isolated L s) (hf : Names s (.table i (vaPdeIndex va)) f)
    (hpage : page < 0xF0000) (hperm : perm < 4096) (hi : i' < 64) (hva : va' < 2 ^ 32) :
    getPageTableEntryByVA
        (setPageTableEntry s i (vaPdeIndex va) (vaPteIndex va) page perm) i' va' =
      if i' = i ∧ va' / 4096 = va / 4096 then page * 4096 + perm
      else getPageTableEntryByVA s i' va' := by
  have hk := vaPteIndex_lt va
  have hk' := vaPteIndex_lt va'
  have hpage_eq := page_index_eq va
  have hpage_eq' := page_index_eq va'
  have hpde : (setPageTableEntry s i (vaPdeIndex va) (vaPteIndex va) page perm).pageDirEntries =
      s.pageDirEntries := rfl
  by_cases h0 : s.pageDirEntries i' (vaPdeIndex va') = 0
  · have hne : ¬ (i' = i ∧ va' / 4096 = va / 4096) := by
      rintro ⟨rfl, he⟩
      have hj : vaPdeIndex va' = vaPdeIndex va := by omega
      exact hf.2.1 (hj ▸ h0)
    rw [if_neg hne, getPageTableEntryByVA, getPageTableEntryByVA, hpde, if_pos h0, if_pos h0]
  · rcases userTable_or_kernelTable hi (vaPdeIndex va') with hu | hker
    · rw [getPageTableEntryByVA, getPageTableEntryByVA, hpde, if_neg h0, if_neg h0,
        h.getPageTableEntry_set hf hk hpage hperm (names_table hu h0) hk']
      exact if_congr (by omega) rfl rfl
    · have hne : ¬ (i' = i ∧ va' / 4096 = va / 4096) := by
        rintro ⟨rfl, he⟩
        have hj : vaPdeIndex va' = vaPdeIndex va := by omega
        exact hf.1.not_kernelTable (hj ▸ hker)
      rw [if_neg hne]
      refine translation_congr rfl fun _ ↦ ?_
      have hfb := (h.owned _ _ hf).1.bounds
      have hL := L.kernel
      have hj := vaPdeIndex_lt hva
      rw [entryAddr_kernel h hi hj hk' hker, setPageTableEntry, h.entryAddr hf hk]
      exact load32_store32_of_disjoint (by omega)

/-- The second state maps one more page of process `i`, or maps it anew, and keeps the other
translations, kernel memory and the contents of the pages mapped so far. -/
structure MapsPage (s s' : State) (i va perm page : ℕ) : Prop where
  user : UserPage page
  fresh : ∀ σ, ¬ Names s σ page
  translation : ∀ i' < 64, ∀ va' < 2 ^ 32, getPageTableEntryByVA s' i' va' =
    if i' = i ∧ va' / 4096 = va / 4096 then page * 4096 + perm else getPageTableEntryByVA s i' va'
  kernel : AgreeOn s.memory s'.memory 0 0x40000000
  data : ∀ i' j' k' g, Names s (.page i' j' k') g →
    AgreeOn s.memory s'.memory (g * 4096) (g * 4096 + 4096)
  directories : ∀ i', i' ≠ i → s'.pageDirEntries i' = s.pageDirEntries i'

theorem Prepared.memory (hs : Prepared s i j s') :
    AgreeOn s.memory s'.memory 0 0x40000000 ∧
      (∀ σ g, Names s σ g → AgreeOn s.memory s'.memory (g * 4096) (g * 4096 + 4096)) ∧
      ∀ i', i' ≠ i → s'.pageDirEntries i' = s.pageDirEntries i' := by
  cases hs with
  | found hp ht => exact ⟨AgreeOn.refl _ _ _, fun _ _ _ ↦ AgreeOn.refl _ _ _, fun _ _ ↦ rfl⟩
  | @made p f hp ht hf =>
    have hb := hf.user.bounds
    refine ⟨fun x _ hx ↦ if_neg (by omega), fun σ g hg x hx hx' ↦ if_neg ?_, fun i' hi' ↦ ?_⟩
    · have hne : g ≠ f := by
        rintro rfl
        exact hf.fresh σ hg
      omega
    · exact update_of_ne hi' _ _

/-- The table in which the entry will be stored is no page mapped so far. -/
theorem Prepared.table_ne (h : Isolated L s) (hs : Prepared s i j s')
    (hf : Names s' (.table i j) f) {j' k' g : ℕ} (hg : Names s (.page i' j' k') g) : f ≠ g := by
  rintro rfl
  cases hs with
  | found hp ht =>
    have he := h.exclusive _ _ _ (show Names s (.table i j) f from hf) hg
    cases he
  | @made p f' hp ht hf' =>
    obtain ⟨_, _, hff⟩ := hf
    rw [withTable_pde_self] at hff
    have he : f = f' := by
      simp only [pageSize] at hff
      omega
    exact hf'.fresh (.page i' j' k') (he ▸ hg)

/-- Storing the entry of the new page in a prepared state completes the mapping. -/
theorem Prepared.mapsPage (h : Isolated L s) (hu : UserTable i (vaPdeIndex va))
    (hperm : perm < 4096) (hfree : isFree s.physical page = true)
    (hs : Prepared s i (vaPdeIndex va) s') (hpage : Unnamed s' page) :
    Isolated L (setPageTableEntry s' i (vaPdeIndex va) (vaPteIndex va) page perm) ∧
      MapsPage s (setPageTableEntry s' i (vaPdeIndex va) (vaPteIndex va) page perm) i va perm
        page := by
  obtain ⟨hiso, f, hf⟩ := hs.isolated h hu
  obtain ⟨hkernel, hdata, hdirs⟩ := hs.memory
  have hset := hiso.entryAddr hf (vaPteIndex_lt va)
  have hk := vaPteIndex_lt va
  have hmem {x : ℕ} (hx : x < f * 4096 ∨ f * 4096 + 4096 ≤ x) :
      (setPageTableEntry s' i (vaPdeIndex va) (vaPteIndex va) page perm).memory x =
        s'.memory x := by
    rw [setPageTableEntry, hset]
    rcases hx with hx | hx
    · exact store32_of_outside (by omega)
    · exact store32_of_outside (by omega)
  have hfb := (hiso.owned _ _ hf).1.bounds
  refine ⟨hiso.setPage hf hk hpage hperm, hpage.user, ?_, ?_, ?_, ?_, hdirs⟩
  · intro σ hσ
    have ho := (h.owned σ page hσ).2.1
    rw [(isFree_iff.mp hfree).1] at ho
    cases ho
  · intro i' hi va' hva
    rw [translation_set hiso hf hpage.user.bounds.2 hperm hi hva, hs.translation h hu hi hva]
  · exact hkernel.trans fun x _ hx ↦ hmem (by omega)
  · intro i' j' k' g hg
    refine (hdata _ g hg).trans fun x hx hx' ↦ hmem ?_
    have hne := hs.table_ne h hf hg
    omega

/-- All that `AllocPage` can do at a user address, as its callers see it. -/
theorem Isolated.allocPage_spec (h : Isolated L s) (hu : UserTable i (vaPdeIndex va))
    (hperm : perm < 4096) :
    (∃ p, Grown s.physical p ∧ allocPage s i va perm = ({ s with physical := p }, 0, 1)) ∨
    (∃ s' page result, allocPage s i va perm = (s', result, 0) ∧ Isolated L s' ∧
      MapsPage s s' i va perm page) := by
  rcases h.allocPage_cases i va perm with hfail | ⟨s', page, result, hfree, hs, hpage, ha⟩
  · exact .inl hfail
  · exact .inr ⟨_, page, result, ha, hs.mapsPage h hu hperm hfree hpage⟩

theorem Isolated.alloc (h : Isolated L s) (hu : UserTable i (vaPdeIndex va))
    (hperm : perm < 4096) : Isolated L (VirtualMemory.allocPage s i va perm).1 := by
  rcases h.allocPage_spec hu hperm with ⟨p, hp, ha⟩ | ⟨s', page, result, ha, hs, _⟩
  · rw [ha]
    exact h.grow hp
  · rwa [ha]

def place (s : State) (exe : ℕ) (bytes : List UInt8) : State :=
  { s with memory := fun x ↦
      if exe ≤ x ∧ x < exe + bytes.length then bytes.getD (x - exe) 0 else s.memory x }

@[simp] theorem place_physical (s : State) (exe : ℕ) (bytes : List UInt8) :
    (place s exe bytes).physical = s.physical := rfl

@[simp] theorem place_pageDirEntries (s : State) (exe : ℕ) (bytes : List UInt8) :
    (place s exe bytes).pageDirEntries = s.pageDirEntries := rfl

theorem place_byte {exe k : ℕ} {bytes : List UInt8} (h : k < bytes.length) :
    (place s exe bytes).memory (exe + k) = bytes[k] := by
  have hin : exe ≤ exe + k ∧ exe + k < exe + bytes.length := by omega
  rw [place]
  dsimp only
  rw [if_pos hin, Nat.add_sub_cancel_left, List.getD_eq_getElem _ _ h]

theorem place_isolated (h : Isolated L s) {exe : ℕ} {bytes : List UInt8}
    (hend : exe + bytes.length ≤ 0x40000000)
    (hout : exe + bytes.length ≤ L.pageDirIdentity ∨ L.pageDirIdentity + 4096 * 1024 ≤ exe) :
    Isolated L (place s exe bytes) := by
  refine h.write ⟨fun x hx hx' ↦ if_neg (by omega), fun i j f hf x hx hx' ↦ if_neg ?_⟩
  have hb := (h.owned _ _ hf).1.bounds
  omega

end StormOS.Isolation
