import StormOS.Library.Ownership
import StormOS.VirtualMemory

namespace StormOS.Isolation

open Library.Bytes Library.Ownership
open PhysicalMemory hiding State
open Machine VirtualMemory Function

/-- Places that hold the number of a frame: an entry of a page directory, or of a page table. -/
inductive Slot
  | table (i j : ℕ)
  | page (i j k : ℕ)

def UserTable (i j : ℕ) : Prop := (1 ≤ i ∧ i < maxProcs) ∧ memUserLoPDir ≤ j ∧ j < memUserHiPDir

def Present (pte : ℕ) : Prop := pte &&& pteP ≠ 0

def Names (s : State) : Slot → ℕ → Prop
  | .table i j, f => UserTable i j ∧ s.pageDirEntries i j ≠ 0 ∧ f = s.pageDirEntries i j / pageSize
  | .page i j k, f =>
    UserTable i j ∧ k < numTables ∧ s.pageDirEntries i j ≠ 0 ∧
      Present (getPageTableEntry s i j k) ∧ f = getPageTableEntry s i j k / pageSize

/-- The isolation invariant. User slots name allocated user frames and share none of them, the
kernel half is the shared identity map, and the identity map is intact. -/
structure Isolated (L : Layout) (s : State) : Prop where
  shortcut : s.physical.lastFreedPage = -1
  cursor : CursorOk s.physical
  kernelHalf : ∀ i < maxProcs, ∀ j < numTables,
    (i = 0 ∨ j < memUserLoPDir ∨ memUserHiPDir ≤ j) →
      s.pageDirEntries i j = L.pageDirIdentity + j * pageSize + ptePWU
  identity : ∀ j < numTables, ∀ k < numTables,
    load32 s.memory (L.pageDirIdentity + j * pageSize + k * 4) =
      (j * numTables + k) * pageSize + identityPerm j
  owned : ∀ σ f, Names s σ f →
    UserPage f ∧ (s.physical.pPageInfo f).allocated = true ∧
      (s.physical.pPageInfo f).perm = .user
  exclusive : Exclusive (Names s)

variable {L : Layout} {s : State} {i j k f : ℕ}

theorem present_iff {pte : ℕ} : Present pte ↔ pte % 2 = 1 := by
  rw [Present, pteP, Nat.and_one_is_mod]
  omega

theorem not_present_of_no_table {va : ℕ} (h : s.pageDirEntries i (vaPdeIndex va) = 0) :
    ¬ Present (getPageTableEntryByVA s i va) := by
  rw [getPageTableEntryByVA, if_pos h]
  exact fun hp ↦ hp rfl

theorem UserTable.bounds (h : UserTable i j) : (1 ≤ i ∧ i < 64) ∧ 256 ≤ j ∧ j < 960 := h

theorem userTable_first : UserTable 1 (vaPdeIndex 0x40000000) := by
  simp only [UserTable]
  decide

theorem userTable_second : UserTable 2 (vaPdeIndex 0x40000000) := by
  simp only [UserTable]
  decide

/-- A page table in use is a user frame, and its entries are the words of that frame. -/
theorem Isolated.entryAddr (h : Isolated L s) (hf : Names s (.table i j) f) (hk : k < 1024) :
    entryAddr s i j k = f * 4096 + k * 4 := by
  have hb := (h.owned _ _ hf).1.bounds
  obtain ⟨_, _, hf⟩ := hf
  simp only [pageSize] at hf
  rw [VirtualMemory.entryAddr, land_frameMask (by omega), u32_of_lt (by omega)]
  omega

theorem names_table (h : UserTable i j) (hp : s.pageDirEntries i j ≠ 0) :
    Names s (.table i j) (s.pageDirEntries i j / pageSize) :=
  ⟨h, hp, rfl⟩

/-- Everything the invariant says about memory is read from the page tables. -/
def TablesAgree (L : Layout) (s : State) (m : Memory) : Prop :=
  AgreeOn s.memory m L.pageDirIdentity (L.pageDirIdentity + 4096 * 1024) ∧
    ∀ i j f, Names s (.table i j) f → AgreeOn s.memory m (f * 4096) (f * 4096 + 4096)

theorem Isolated.getPageTableEntry_congr (h : Isolated L s) {m : Memory} (hm : TablesAgree L s m)
    (hf : Names s (.table i j) f) (hk : k < 1024) :
    getPageTableEntry { s with memory := m } i j k = getPageTableEntry s i j k := by
  have ha := h.entryAddr hf hk
  have ha' : VirtualMemory.entryAddr { s with memory := m } i j k = f * 4096 + k * 4 := ha
  rw [getPageTableEntry, getPageTableEntry, ha, ha']
  exact (hm.2 i j f hf).load32 (by omega) (by omega)

theorem Isolated.names_congr (h : Isolated L s) {m : Memory} (hm : TablesAgree L s m) (σ : Slot) :
    Names { s with memory := m } σ f ↔ Names s σ f := by
  cases σ with
  | table i j => exact Iff.rfl
  | page i j k =>
    constructor
    · intro ⟨hu, hk, hp, hpr, hf⟩
      rw [h.getPageTableEntry_congr hm (names_table hu hp) hk] at hpr hf
      exact ⟨hu, hk, hp, hpr, hf⟩
    · intro ⟨hu, hk, hp, hpr, hf⟩
      rw [← h.getPageTableEntry_congr hm (names_table hu hp) hk] at hpr hf
      exact ⟨hu, hk, hp, hpr, hf⟩

theorem Isolated.write (h : Isolated L s) {m : Memory} (hm : TablesAgree L s m) :
    Isolated L { s with memory := m } where
  shortcut := h.shortcut
  cursor := h.cursor
  kernelHalf := h.kernelHalf
  identity j hj k hk := by
    have hL := L.kernel
    rw [← h.identity j hj k hk]
    simp only [numTables] at hj hk
    exact hm.1.load32 (by omega) (by simp only [pageSize]; omega)
  owned σ f hf := h.owned σ f ((h.names_congr hm σ).mp hf)
  exclusive := h.exclusive.mono fun σ _ hf ↦ (h.names_congr hm σ).mp hf

theorem Isolated.grow (h : Isolated L s) {p : PhysicalMemory.State} (hp : Grown s.physical p) :
    Isolated L { s with physical := p } where
  shortcut := hp.shortcut
  cursor := hp.cursor
  kernelHalf := h.kernelHalf
  identity := h.identity
  owned σ f hf := by
    obtain ⟨hu, ha, hperm⟩ := h.owned σ f hf
    exact ⟨hu, hp.allocated f ha, (hp.perm f).trans hperm⟩
  exclusive := h.exclusive

theorem identityPerm_cases (j : ℕ) : identityPerm j = 3 ∨ identityPerm j = 0x103 := by
  rw [identityPerm]
  split
  · exact .inl rfl
  · exact .inr rfl

def physicalAddr (s : State) (i va : ℕ) : ℕ :=
  (getPageTableEntryByVA s i va &&& 0xfffff000) + va % pageSize

/-- The directory entries that are not a user entry of a process. -/
def KernelTable (i j : ℕ) : Prop := i = 0 ∨ j < memUserLoPDir ∨ memUserHiPDir ≤ j

theorem userTable_or_kernelTable (hi : i < 64) (j : ℕ) : UserTable i j ∨ KernelTable i j := by
  by_cases h : KernelTable i j
  · exact .inr h
  · simp only [KernelTable, not_or, not_lt, not_le] at h
    exact .inl ⟨⟨by omega, hi⟩, h.2⟩

theorem vaPdeIndex_eq (va : ℕ) : vaPdeIndex va = va / 4194304 := rfl

theorem vaPteIndex_eq (va : ℕ) : vaPteIndex va = va / 4096 % 1024 := rfl

theorem pde_kernel (h : Isolated L s) (hi : i < 64) (hj : j < 1024) (hker : KernelTable i j) :
    s.pageDirEntries i j = L.pageDirIdentity + j * 4096 + 7 := by
  have hp : ptePWU = 7 := by decide
  have hpde := h.kernelHalf i hi j hj hker
  rwa [hp] at hpde

theorem entryAddr_kernel (h : Isolated L s) (hi : i < 64) (hj : j < 1024) (hk : k < 1024)
    (hker : KernelTable i j) :
    VirtualMemory.entryAddr s i j k = L.pageDirIdentity + j * 4096 + k * 4 := by
  have hL := L.kernel
  have haligned := L.aligned
  rw [VirtualMemory.entryAddr, pde_kernel h hi hj hker, land_frameMask (by omega),
    u32_of_lt (by omega)]
  omega

theorem translation_kernel (h : Isolated L s) {va : ℕ} (hi : i < 64) (hva : va < 2 ^ 32)
    (hker : KernelTable i (vaPdeIndex va)) :
    getPageTableEntryByVA s i va = va / 4096 * 4096 + identityPerm (vaPdeIndex va) := by
  have hj : vaPdeIndex va < 1024 := by
    rw [vaPdeIndex_eq]
    omega
  have hk : vaPteIndex va < 1024 := Nat.mod_lt _ (by decide)
  have hpde := pde_kernel h hi hj hker
  have hentry := h.identity _ hj _ hk
  simp only [pageSize, numTables] at hentry
  have hpage : vaPdeIndex va * 1024 + vaPteIndex va = va / 4096 := by
    rw [vaPdeIndex_eq, vaPteIndex_eq]
    omega
  rw [getPageTableEntryByVA, if_neg (by omega), getPageTableEntry,
    entryAddr_kernel h hi hj hk hker, hentry, hpage]

theorem present_of_kernel (h : Isolated L s) {va : ℕ} (hi : i < 64) (hva : va < 2 ^ 32)
    (hker : KernelTable i (vaPdeIndex va)) : Present (getPageTableEntryByVA s i va) := by
  have hperm := identityPerm_cases (vaPdeIndex va)
  rw [translation_kernel h hi hva hker, present_iff]
  omega

theorem userTable_of_not_present (h : Isolated L s) {va : ℕ} (hi : 1 ≤ i ∧ i < maxProcs)
    (hva : va < 2 ^ 32) (hnp : ¬ Present (getPageTableEntryByVA s i va)) :
    UserTable i (vaPdeIndex va) := by
  exact (userTable_or_kernelTable hi.2 _).resolve_right fun hker ↦
    hnp (present_of_kernel h hi.2 hva hker)

theorem physicalAddr_of_present {va : ℕ} (hu : UserTable i (vaPdeIndex va))
    (hp : Present (getPageTableEntryByVA s i va)) :
    ∃ f, Names s (.page i (vaPdeIndex va) (vaPteIndex va)) f ∧
      physicalAddr s i va = f * 4096 + va % 4096 := by
  have hpde : s.pageDirEntries i (vaPdeIndex va) ≠ 0 := fun h0 ↦ not_present_of_no_table h0 hp
  have hk : vaPteIndex va < numTables := Nat.mod_lt _ (by decide)
  rw [getPageTableEntryByVA, if_neg hpde] at hp
  refine ⟨_, ⟨hu, hk, hpde, hp, rfl⟩, ?_⟩
  rw [physicalAddr, getPageTableEntryByVA, if_neg hpde, getPageTableEntry,
    land_frameMask (load32_lt _ _)]

theorem tablesAgree_of_page (h : Isolated L s) {f : ℕ} (hf : Names s (.page i j k) f)
    {m : Memory} (hm : ∀ x, x < f * 4096 ∨ f * 4096 + 4096 ≤ x → m x = s.memory x) :
    TablesAgree L s m := by
  have hb := (h.owned _ _ hf).1.bounds
  have hL := L.kernel
  refine ⟨fun x _ hx ↦ hm x (by omega), fun i' j' f' hf' x hx hx' ↦ hm x ?_⟩
  have hne : f' ≠ f := by
    rintro rfl
    have he := h.exclusive _ _ _ hf hf'
    cases he
  omega

end StormOS.Isolation
