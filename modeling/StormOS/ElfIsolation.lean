import StormOS.ElfReturns

namespace StormOS.Elf

open Library.Bytes
open PhysicalMemory hiding State
open AddressSpaces Machine VirtualMemory UserCopy Isolation Function

variable {L : Layout} {s s₁ s' : State} {pid va page perm ph zva fa : ℕ}

/-- The program headers lie in kernel memory, and not inside the identity map itself. -/
def HeadersInKernel (L : Layout) (m : Memory) (exe : ℕ) : Prop :=
  ∀ x, programHeaders m exe ≤ x → x < programHeadersEnd m exe →
    x < 0x40000000 ∧ (x < L.pageDirIdentity ∨ L.pageDirIdentity + 4096 * 1024 ≤ x)

/-- Nothing but the user half of process `pid` has changed. -/
structure TouchesOnly (L : Layout) (pid : ℕ) (s s' : State) : Prop where
  directories : ∀ i < maxProcs, i ≠ pid → s'.pageDirEntries i = s.pageDirEntries i
  translations : ∀ i < maxProcs, i ≠ pid → ∀ va < 2 ^ 32,
    getPageTableEntryByVA s' i va = getPageTableEntryByVA s i va
  identity : ∀ j < numTables, ∀ k < numTables,
    load32 s'.memory (L.pageDirIdentity + j * pageSize + k * 4) =
      load32 s.memory (L.pageDirIdentity + j * pageSize + k * 4)
  userPages : ∀ va < 2 ^ 32, UserAccessible (getPageTableEntryByVA s' pid va) →
    ¬ UserAccessible (getPageTableEntryByVA s pid va) → memUserLo ≤ va ∧ va < memUserHi

section Load

variable {exe : ℕ} {pages : List PageLoad}

/-- The loader runs the rounds that its headers called for at the start. -/
theorem elfLoad_eq_loadAll (h : Isolated L s) (hpid : pid < 64)
    (hph : HeadersInKernel L s.memory exe) (hacc : Accepted s.memory exe) :
    elfLoad s exe pid = loadAll pid s (imagePages s.memory exe) := by
  refine elfLoad_eq (P := fun s' ↦ Contained L pid s' ∧ KernelAgree L s.memory s'.memory) ?_ ?_
    ⟨Isolated.contained h hpid, fun _ _ _ ↦ rfl⟩ hacc
  · intro s' hs' x hx hx'
    obtain ⟨hlt, hout⟩ := hph x hx hx'
    exact hs'.2 x hlt hout
  · intro p hp s₁ s₂ ⟨hs₁, hagree⟩ hrun
    obtain ⟨haligned, hva, hperm⟩ := mem_imagePages hp
    have hspread := (hs₁.loadPage hpid hva haligned hperm hrun).1
    exact ⟨hspread.contained, hagree.trans hspread.kernel⟩

theorem loadAll_redirected (h : Contained L pid s) (hpid : pid < 64)
    (hpages : ∀ p ∈ pages, p.va % 4096 = 0 ∧ p.va < 2 ^ 32 ∧ (p.perm = 5 ∨ p.perm = 7))
    (hload : loadAll pid s pages = some s') :
    (∀ j < 1024, ∀ k < 1024, Redirected L s.memory j k → Redirected L s'.memory j k) ∧
      ∀ p ∈ pages, KernelTable pid (vaPdeIndex p.va) →
        Redirected L s'.memory (vaPdeIndex p.va) (vaPteIndex p.va) := by
  induction pages generalizing s with
  | nil =>
    rw [loadAll_nil, Option.some.injEq] at hload
    exact ⟨fun _ _ _ _ hr ↦ hload ▸ hr, by simp⟩
  | cons p pages ih =>
    rw [loadAll_cons, Option.bind_eq_some_iff] at hload
    obtain ⟨s₁, hp, hload⟩ := hload
    obtain ⟨haligned, hva, hperm⟩ := hpages p (by simp)
    have hspread := (h.loadPage hpid hva haligned hperm hp).1
    obtain ⟨hkeep, hrest⟩ := ih hspread.contained
      (fun q hq ↦ hpages q (List.mem_cons_of_mem p hq)) hload
    refine ⟨fun j hj k hk hr ↦ hkeep j hj k hk (hspread.redirected j hj k hk hr), ?_⟩
    intro q hq hker
    rcases List.mem_cons.mp hq with rfl | hq
    · exact hkeep _ (vaPdeIndex_lt hva) _ (vaPteIndex_lt _) (hspread.here hker)
    · exact hrest q hq hker

structure Keeps (L : Layout) (pid : ℕ) (s s' : State) : Prop where
  isolated : Isolated L s'
  directories : ∀ i, i ≠ pid → s'.pageDirEntries i = s.pageDirEntries i
  translations : ∀ i < 64, i ≠ pid → ∀ va < 2 ^ 32,
    getPageTableEntryByVA s' i va = getPageTableEntryByVA s i va
  kernel : AgreeOn s.memory s'.memory 0 0x40000000

theorem loadAll_keeps (h : Isolated L s) (hpid : 1 ≤ pid ∧ pid < 64)
    (hpages : ∀ p ∈ pages, p.va % 4096 = 0 ∧ p.va < 2 ^ 32 ∧ (p.perm = 5 ∨ p.perm = 7))
    (hrange : ∀ p ∈ pages, 0x40000000 ≤ p.va ∧ p.va < 0xF0000000)
    (hload : loadAll pid s pages = some s') : Keeps L pid s s' := by
  refine loadAll_invariant (P := Keeps L pid s)
    ⟨h, fun _ _ ↦ rfl, fun _ _ _ _ _ ↦ rfl, AgreeOn.refl _ _ _⟩ ?_ hload
  intro p hp s₁ s₂ hs₁ hrun
  obtain ⟨haligned, _, hperm⟩ := hpages p hp
  obtain ⟨hs₂, page, hmap, _⟩ :=
    loadPage_isolated hs₁.isolated hpid haligned (hrange p hp) hperm hrun
  refine ⟨hs₂, fun i hi ↦ (hmap.directories i hi).trans (hs₁.directories i hi), ?_,
    hs₁.kernel.trans hmap.kernel⟩
  intro i hi hne va hva
  rw [hmap.translation i hi va hva, if_neg (fun he ↦ hne he.1), hs₁.translations i hi hne va hva]

theorem not_userAccessible_kernel (h : Isolated L s) (hpid : pid < 64) (hva : va < 2 ^ 32)
    (hker : KernelTable pid (vaPdeIndex va)) :
    ¬ UserAccessible (getPageTableEntryByVA s pid va) := by
  rw [translation_kernel h hpid hva hker]
  intro hacc
  apply hacc.2
  have hbit (x : ℕ) (hx : x % 8 < 4) : x &&& pteU = 0 := by
    have hp : pteU = 2 ^ 2 := by decide
    rw [hp, Nat.and_two_pow, Nat.testBit_eq_decide_div_mod_eq]
    have hx' : x / 4 % 2 = 0 := by omega
    simp [hx']
  apply hbit _
  rcases identityPerm_cases (vaPdeIndex va) with hp | hp
  · rw [hp]
    omega
  · rw [hp]
    omega

/-- A segment with a page outside the user half leaves its mark on the identity map. -/
theorem not_touchesOnly {p : PageLoad} (h : Isolated L s) (hpid : 1 ≤ pid ∧ pid < 64)
    (hph : HeadersInKernel L s.memory exe) (hload : elfLoad s exe pid = some s')
    (hp : p ∈ imagePages s.memory exe) (hrange : ¬ (memUserLo ≤ p.va ∧ p.va < memUserHi)) :
    ¬ TouchesOnly L pid s s' := by
  rw [elfLoad_eq_loadAll h hpid.2 hph (accepted_of_elfLoad hload)] at hload
  obtain ⟨_, hva, _⟩ := mem_imagePages hp
  have hker : KernelTable pid (vaPdeIndex p.va) :=
    (userTable_or_kernelTable hpid.2 _).resolve_left fun hu ↦ hrange ((userTable_iff hpid).mp hu)
  have hr := (loadAll_redirected (Isolated.contained h hpid.2) hpid.2
    (fun p hp ↦ mem_imagePages hp) hload).2 p hp hker
  have hj := vaPdeIndex_lt hva
  have hk := vaPteIndex_lt p.va
  have hword := h.identity _ hj _ hk
  have hperm := identityPerm_cases (vaPdeIndex p.va)
  have hindex := page_index_eq p.va
  intro htouch
  have hsame := htouch.identity _ hj _ hk
  rw [hword] at hsame
  simp only [pageSize, numTables] at hsame
  rw [Redirected, hsame, hindex] at hr
  have hb := hr.bounds
  simp only [memUserLo, memUserHi] at hrange
  omega

/-- A load touches nothing but the user half of its process exactly when every page that its
segments cover is a user page. -/
theorem elfLoad_touchesOnly_iff (h : Isolated L s) (hpid : 1 ≤ pid ∧ pid < maxProcs)
    (hph : HeadersInKernel L s.memory exe) (hload : elfLoad s exe pid = some s') :
    TouchesOnly L pid s s' ↔
      ∀ p ∈ imagePages s.memory exe, memUserLo ≤ p.va ∧ p.va < memUserHi := by
  constructor
  · intro htouch p hp
    by_contra hrange
    exact not_touchesOnly h hpid hph hload hp hrange htouch
  · intro hrange
    rw [elfLoad_eq_loadAll h hpid.2 hph (accepted_of_elfLoad hload)] at hload
    have hkeep := loadAll_keeps h hpid (fun p hp ↦ mem_imagePages hp) hrange hload
    refine ⟨fun i _ hi ↦ hkeep.directories i hi, hkeep.translations, fun j hj k hk ↦ ?_,
      fun va hva hacc _ ↦ ?_⟩
    · rw [h.identity j hj k hk, hkeep.isolated.identity j hj k hk]
    · rcases userTable_or_kernelTable hpid.2 (vaPdeIndex va) with hu | hker
      · exact (userTable_iff hpid).mp hu
      · exact absurd hacc (not_userAccessible_kernel hkeep.isolated hpid.2 hva hker)

theorem elfLoad_returns (h : Isolated L s) (hpid : pid < 64) (hph : HeadersInKernel L s.memory exe)
    (hacc : Accepted s.memory exe)
    (hafford : Affords s.physical pid (demand s pid (imagePages s.memory exe))) :
    ∃ s', elfLoad s exe pid = some s' := by
  rw [elfLoad_eq_loadAll h hpid hph hacc]
  exact loadAll_returns (Isolated.contained h hpid) hpid (fun p hp ↦ mem_imagePages hp) hafford

end Load

/-- A file whose headers are mapped below the user half, as linkers do by default. -/
def lowFile : List UInt8 := elfFile 0x08048000 [loadHeader 0 0x08048000 0x34 0x34 5]

theorem lowFile_isolated : Isolated lowLayout (bootedWith lowFile) :=
  bootedWith_isolated (by decide +kernel)

theorem lowFile_headers : HeadersInKernel lowLayout (bootedWith lowFile).memory 0x10000000 := by
  have hstart : programHeaders (bootedWith lowFile).memory 0x10000000 = 0x10000034 := by
    decide +kernel
  have hend : programHeadersEnd (bootedWith lowFile).memory 0x10000000 = 0x10000054 := by
    decide +kernel
  have hl : lowLayout.pageDirIdentity = 0x200000 := rfl
  intro x hx hx'
  omega

theorem lowFile_pages : imagePages (bootedWith lowFile).memory 0x10000000 =
    [⟨0x10000034, 5, 0x08048034, 0x08048000, 0x10000000⟩] := by decide +kernel

theorem lowFile_returns : ∃ s', elfLoad (bootedWith lowFile) 0x10000000 1 = some s' := by
  apply elfLoad_returns lowFile_isolated (by decide) lowFile_headers (by decide +kernel)
  refine bootedWith_affords lowFile 1 ((demand_le _ _ _).trans ?_)
  rw [lowFile_pages]
  decide

theorem elfLoad_touchesOnly_iff_lowFile : ∃ s', elfLoad (bootedWith lowFile) 0x10000000 1 = some s' ∧
    (TouchesOnly lowLayout 1 (bootedWith lowFile) s' ↔
      ∀ p ∈ imagePages (bootedWith lowFile).memory 0x10000000,
        memUserLo ≤ p.va ∧ p.va < memUserHi) := by
  obtain ⟨s', hs'⟩ := lowFile_returns
  exact ⟨s', hs', elfLoad_touchesOnly_iff lowFile_isolated (by decide) lowFile_headers hs'⟩

theorem elfLoad_low_damages : ¬ ∀ (L : Layout) (s s' : State) (exe pid : ℕ), Isolated L s →
    (1 ≤ pid ∧ pid < maxProcs) → (∀ j, UserTable pid j → s.pageDirEntries pid j = 0) →
    HeadersInKernel L s.memory exe → elfLoad s exe pid = some s' → TouchesOnly L pid s s' := by
  intro h
  obtain ⟨s', hs'⟩ := lowFile_returns
  refine not_touchesOnly lowFile_isolated (by decide) lowFile_headers hs'
    (by rw [lowFile_pages]; exact List.mem_singleton_self _) (by decide)
    (h _ _ _ _ _ lowFile_isolated (by decide) (fun j hj ↦ bootedWith_pde lowFile hj)
      lowFile_headers hs')

end StormOS.Elf
