import StormOS.UserSide

namespace StormOS.Mmu

open Library.Bytes
open PhysicalMemory hiding State
open Machine VirtualMemory Isolation

/-- What an instruction does at an address, and at which privilege. -/
structure Access where
  user : Bool
  write : Bool

/-- `EnablePaging` sets `CR0_WP`, so that read-only pages bind the kernel too. -/
def Permits (a : Access) (entry : ℕ) : Prop :=
  entry &&& pteP ≠ 0 ∧ (a.user = true → entry &&& pteU ≠ 0) ∧ (a.write = true → entry &&& pteW ≠ 0)

instance (a : Access) (entry : ℕ) : Decidable (Permits a entry) := inferInstanceAs (Decidable (_ ∧ _))

/-- The physical address that the processor reaches with page directory `dir` in `CR3`, or `none`
when it raises a page fault. -/
def mmu (s : State) (dir va : ℕ) (a : Access) : Option ℕ :=
  let pde := s.pageDirEntries dir (va / 2 ^ 22)
  if Permits a pde then
    let pte := load32 s.memory ((pde &&& 0xfffff000) + va / 2 ^ 12 % 2 ^ 10 * 4)
    if Permits a pte then some ((pte &&& 0xfffff000) + va % 2 ^ 12) else none
  else none

variable {L : Layout} {s : State} {a : Access} {i i' j k va va' pa entry perm : ℕ}

theorem permits_present (h : Permits a entry) : Present entry := h.1

theorem land_two_pow (entry n : ℕ) : entry &&& 2 ^ n ≠ 0 ↔ entry / 2 ^ n % 2 = 1 := by
  rw [Nat.and_two_pow, Nat.testBit_eq_decide_div_mod_eq]
  have hpos : 2 ^ n ≠ 0 := (Nat.two_pow_pos n).ne'
  by_cases h : entry / 2 ^ n % 2 = 1
  · simp [h]
  · simp [h]

theorem permits_iff : Permits a entry ↔ entry % 2 = 1 ∧ (a.user = true → entry / 4 % 2 = 1) ∧
    (a.write = true → entry / 2 % 2 = 1) := by
  have hp : Present entry ↔ entry % 2 = 1 := present_iff
  have hu : entry &&& pteU ≠ 0 ↔ entry / 4 % 2 = 1 := land_two_pow entry 2
  have hw : entry &&& pteW ≠ 0 ↔ entry / 2 % 2 = 1 := land_two_pow entry 1
  rw [Permits, hu, hw]
  exact and_congr_left' hp

theorem entryAddr_lt (s : State) (i j : ℕ) (hk : k < 1024) :
    (s.pageDirEntries i j &&& 0xfffff000) + k * 4 < 2 ^ 32 := by
  have hmask : s.pageDirEntries i j &&& 0xfffff000 ≤ 0xfffff000 := Nat.and_le_right
  omega

/-- The walk of the processor finds the entry that `GetPageTableEntryByVA` returns. -/
theorem mmu_eq_some_iff : mmu s i va a = some pa ↔
    Permits a (s.pageDirEntries i (vaPdeIndex va)) ∧ Permits a (getPageTableEntryByVA s i va) ∧
      physicalAddr s i va = pa := by
  have hk : vaPteIndex va < 1024 := Nat.mod_lt _ (by decide)
  have hpde : va / 2 ^ 22 = vaPdeIndex va := rfl
  have hpte : va / 2 ^ 12 % 2 ^ 10 = vaPteIndex va := rfl
  simp only [mmu, hpde, hpte]
  by_cases hp : Permits a (s.pageDirEntries i (vaPdeIndex va))
  · have h0 : s.pageDirEntries i (vaPdeIndex va) ≠ 0 := by
      intro h0
      rw [h0] at hp
      exact hp.1 rfl
    have hentry : getPageTableEntryByVA s i va = load32 s.memory
        ((s.pageDirEntries i (vaPdeIndex va) &&& 0xfffff000) + vaPteIndex va * 4) := by
      rw [getPageTableEntryByVA, if_neg h0, getPageTableEntry, entryAddr,
        u32_of_lt (entryAddr_lt s i _ hk)]
    rw [if_pos hp, ← hentry]
    split
    · rename_i hperm
      rw [Option.some_inj]
      exact ⟨fun h ↦ ⟨hp, hperm, h⟩, fun h ↦ h.2.2⟩
    · rename_i hperm
      constructor
      · intro h
        cases h
      · intro h
        exact absurd h.2.1 hperm
  · rw [if_neg hp]
    constructor
    · intro h
      cases h
    · intro h
      exact absurd h.1 hp

theorem permits_directory (h : entry % 4096 = ptePWU) (a : Access) : Permits a entry := by
  have hp : ptePWU = 7 := by decide
  rw [permits_iff]
  exact ⟨by omega, fun _ ↦ by omega, fun _ ↦ by omega⟩

/-- The kernel's own half: on the shared identity map, and closed to user code. -/
theorem mmu_kernel (h : Isolated L s) (hi : i < 64) (hva : va < 2 ^ 32)
    (hker : KernelTable i (vaPdeIndex va)) (write : Bool) :
    mmu s i va ⟨false, write⟩ = some va ∧ mmu s i va ⟨true, write⟩ = none := by
  have hj : vaPdeIndex va < 1024 := vaPdeIndex_lt hva
  have hpde := pde_kernel h hi hj hker
  have hpte := translation_kernel h hi hva hker
  have hperm := identityPerm_cases (vaPdeIndex va)
  have hL := L.aligned
  have hdir : s.pageDirEntries i (vaPdeIndex va) % 4096 = ptePWU := by
    have hp : ptePWU = 7 := by decide
    omega
  constructor
  · refine mmu_eq_some_iff.mpr ⟨permits_directory hdir _, ?_, ?_⟩
    · rw [permits_iff, hpte]
      exact ⟨by omega, nofun, fun _ ↦ by omega⟩
    · rw [physicalAddr, hpte, land_frameMask (by omega)]
      simp only [pageSize]
      omega
  · refine Option.eq_none_iff_forall_not_mem.mpr fun pa hpa ↦ ?_
    have hu := (permits_iff.mp (mmu_eq_some_iff.mp hpa).2.1).2.1 rfl
    rw [hpte] at hu
    omega

/-- The isolation invariant with the bits that the processor checks: the page tables and the pages
of a process are open to its user code. -/
structure Shielded (L : Layout) (s : State) : Prop extends Guarded L s where
  leaves : ∀ i va, UserTable i (vaPdeIndex va) → Present (getPageTableEntryByVA s i va) →
    getPageTableEntryByVA s i va &&& pteU ≠ 0

theorem Shielded.alloc (h : Shielded L s) (hu : UserTable i (vaPdeIndex va)) (hperm : perm < 4096)
    (huser : perm &&& pteU ≠ 0) : Shielded L (allocPage s i va perm).1 := by
  refine ⟨h.toGuarded.alloc hu hperm, fun i' va' hu' hp ↦ ?_⟩
  rcases h.allocPage_spec hu hperm with ⟨p, _, ha⟩ | ⟨s', page, result, ha, _, hmaps⟩
  · rw [ha] at hp ⊢
    exact h.leaves i' va' hu' hp
  · rw [ha] at hp ⊢
    rw [hmaps.translation i' hu'.lt.1 va' hu'.lt.2] at hp ⊢
    split at hp
    · rename_i hsame
      rw [if_pos hsame]
      have hbit : perm / 4 % 2 = 1 := (land_two_pow perm 2).mp huser
      apply (land_two_pow _ 2).mpr
      omega
    · rename_i hother
      rw [if_neg hother]
      exact h.leaves i' va' hu' hp

theorem Shielded.write (h : Shielded L s) {m : Memory} (hm : TablesAgree L s m) :
    Shielded L { s with memory := m } := by
  refine ⟨⟨h.toIsolated.write hm, h.tables⟩, fun i va hu hp ↦ ?_⟩
  rw [translation_write h.toIsolated hm hu.lt.1 hu.lt.2] at hp ⊢
  exact h.leaves i va hu hp

theorem start_shielded (L : Layout) (smap : List SMAP) (containers : ℕ → Container)
    (memory : Memory) (pageDirEntries : ℕ → ℕ → ℕ) :
    Shielded L (AddressSpaces.start L smap containers memory pageDirEntries) := by
  refine ⟨⟨AddressSpaces.start_isolated L smap containers memory pageDirEntries, ?_⟩, ?_⟩
  · intro i j hu hp
    exact absurd (AddressSpaces.start_pde L smap containers memory pageDirEntries hu) hp
  · intro i va hu hp
    rw [getPageTableEntryByVA,
      if_pos (AddressSpaces.start_pde L smap containers memory pageDirEntries hu)] at hp
    exact absurd rfl hp

theorem mmu_of_leaf (h : Shielded L s) (hu : UserTable i (vaPdeIndex va))
    (hp : Permits a (getPageTableEntryByVA s i va)) : mmu s i va a = some (physicalAddr s i va) := by
  have h0 : s.pageDirEntries i (vaPdeIndex va) ≠ 0 := fun h0 ↦
    not_present_of_no_table h0 (permits_present hp)
  exact mmu_eq_some_iff.mpr ⟨permits_directory (h.tables i _ hu h0) a, hp, rfl⟩

/-- User code reaches what its own process has mapped, and all of it. -/
theorem mmu_user (h : Shielded L s) (hu : UserTable i (vaPdeIndex va)) :
    mmu s i va ⟨true, false⟩ = some (physicalAddr s i va) ↔
      Present (getPageTableEntryByVA s i va) := by
  constructor
  · intro hpa
    exact permits_present (mmu_eq_some_iff.mp hpa).2.1
  · intro hp
    exact mmu_of_leaf h hu ⟨hp, fun _ ↦ h.leaves i va hu hp, nofun⟩

theorem userTable_of_mmu (h : Isolated L s) (hi : i < 64) (hva : va < 2 ^ 32)
    (hpa : mmu s i va a = some pa) (huser : a.user = true) : UserTable i (vaPdeIndex va) := by
  rcases userTable_or_kernelTable hi (vaPdeIndex va) with hu | hker
  · exact hu
  · obtain ⟨user, write⟩ := a
    obtain rfl : user = true := huser
    rw [(mmu_kernel h hi hva hker write).2] at hpa
    cases hpa

/-- What a user access reaches is the frame that the process itself has mapped there. -/
theorem mmu_frame (h : Isolated L s) (hi : i < 64) (hva : va < 2 ^ 32)
    (hpa : mmu s i va a = some pa) (huser : a.user = true) :
    ∃ f, Names s (.page i (vaPdeIndex va) (vaPteIndex va)) f ∧ pa = f * 4096 + va % 4096 := by
  have hu := userTable_of_mmu h hi hva hpa huser
  obtain ⟨_, hperm, rfl⟩ := mmu_eq_some_iff.mp hpa
  exact physicalAddr_of_present hu (permits_present hperm)

/-- What the memory management unit guarantees the kernel and the processes. -/
structure Confined (s : State) : Prop where
  identity : ∀ va < 2 ^ 32, ∀ write, mmu s 0 va ⟨false, write⟩ = some va
  kernel : ∀ i < maxProcs, ∀ va < 2 ^ 32, va < memUserLo ∨ memUserHi ≤ va → ∀ write,
    mmu s i va ⟨false, write⟩ = some va ∧ mmu s i va ⟨true, write⟩ = none
  reached : ∀ i < maxProcs, ∀ va < 2 ^ 32, ∀ write pa, mmu s i va ⟨true, write⟩ = some pa →
    UserPage (pa / pageSize) ∧ (s.physical.pPageInfo (pa / pageSize)).allocated = true ∧
      ∀ i' j f, Names s (.table i' j) f → pa / pageSize ≠ f
  exclusive : ∀ i < maxProcs, ∀ i' < maxProcs, ∀ va < 2 ^ 32, ∀ va' < 2 ^ 32, ∀ write write' pa,
    mmu s i va ⟨true, write⟩ = some pa → mmu s i' va' ⟨true, write'⟩ = some pa → i = i' ∧ va = va'

theorem kernelTable_of_outside (hva : va < memUserLo ∨ memUserHi ≤ va) :
    KernelTable i (vaPdeIndex va) := by
  simp only [KernelTable, vaPdeIndex_eq, memUserLo, memUserHi, memUserLoPDir, memUserHiPDir,
    memUserLoPI, memUserHiPI, pageSize, numTables] at hva ⊢
  omega

theorem isolated_confined (h : Isolated L s) : Confined s where
  identity va hva write := (mmu_kernel h (by decide) hva (.inl rfl) write).1
  kernel i hi va hva hout write := mmu_kernel h hi hva (kernelTable_of_outside hout) write
  reached i hi va hva write pa hpa := by
    obtain ⟨f, hf, rfl⟩ := mmu_frame h hi hva hpa rfl
    have hdiv : (f * 4096 + va % 4096) / pageSize = f := by
      simp only [pageSize]
      omega
    rw [hdiv]
    obtain ⟨huser, halloc, _⟩ := h.owned _ _ hf
    refine ⟨huser, halloc, ?_⟩
    rintro i' j g hg rfl
    cases h.exclusive _ _ _ hf hg
  exclusive i hi i' hi' va hva va' hva' write write' pa hpa hpa' := by
    obtain ⟨f, hf, rfl⟩ := mmu_frame h hi hva hpa rfl
    obtain ⟨f', hf', he⟩ := mmu_frame h hi' hva' hpa' rfl
    obtain rfl : f = f' := by omega
    have hslot := h.exclusive _ _ _ hf hf'
    simp only [Slot.page.injEq] at hslot
    obtain ⟨rfl, hj, hk⟩ := hslot
    have hpage := page_index_eq va
    rw [hj, hk, page_index_eq va'] at hpage
    exact ⟨rfl, by omega⟩

end StormOS.Mmu
