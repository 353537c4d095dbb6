import StormOS.ElfRound

namespace StormOS.Elf

open Library.Bytes
open PhysicalMemory hiding State
open Machine VirtualMemory UserCopy Isolation Function

variable {L : Layout} {s s₁ s' : State} {pid va page perm ph zva fa : ℕ}

def KernelAgree (L : Layout) (m m' : Memory) : Prop :=
  ∀ x < 0x40000000, (x < L.pageDirIdentity ∨ L.pageDirIdentity + 4096 * 1024 ≤ x) → m' x = m x

theorem KernelAgree.trans {m₀ m₁ m₂ : Memory} (h : KernelAgree L m₀ m₁)
    (h' : KernelAgree L m₁ m₂) : KernelAgree L m₀ m₂ :=
  fun x hx hout ↦ (h' x hx hout).trans (h x hx hout)

/-- An entry of the identity map that leads to a page of some process. -/
def Redirected (L : Layout) (m : Memory) (j k : ℕ) : Prop :=
  UserPage (load32 m (L.pageDirIdentity + j * 4096 + k * 4) / 4096)

/-- What holds even while a load damages the identity map. -/
structure Contained (L : Layout) (pid : ℕ) (s : State) : Prop where
  shortcut : s.physical.lastFreedPage = -1
  cursor : CursorOk s.physical
  kernelHalf : ∀ j < 1024, KernelTable pid j →
    s.pageDirEntries pid j = L.pageDirIdentity + j * 4096 + 7
  tables : ∀ j, UserTable pid j → s.pageDirEntries pid j ≠ 0 →
    UserPage (s.pageDirEntries pid j / 4096) ∧
      (s.physical.pPageInfo (s.pageDirEntries pid j / 4096)).allocated = true

theorem Isolated.contained (h : Isolated L s) (hpid : pid < 64) : Contained L pid s where
  shortcut := h.shortcut
  cursor := h.cursor
  kernelHalf j hj hker := pde_kernel h hpid hj hker
  tables j hu hp := by
    obtain ⟨hup, ha, _⟩ := h.owned _ _ (names_table hu hp)
    exact ⟨hup, ha⟩

/-- How a round at any address changes the kernel's memory. -/
structure Spreads (L : Layout) (pid va : ℕ) (s s' : State) : Prop where
  contained : Contained L pid s'
  kernel : KernelAgree L s.memory s'.memory
  redirected : ∀ j < 1024, ∀ k < 1024,
    Redirected L s.memory j k → Redirected L s'.memory j k
  here : KernelTable pid (vaPdeIndex va) →
    Redirected L s'.memory (vaPdeIndex va) (vaPteIndex va)

theorem Contained.entryAddr_user (h : Contained L pid s) {j k : ℕ} (hu : UserTable pid j)
    (hp : s.pageDirEntries pid j ≠ 0) (hk : k < 1024) :
    entryAddr s pid j k = s.pageDirEntries pid j / 4096 * 4096 + k * 4 := by
  have hb := (h.tables j hu hp).1.bounds
  rw [entryAddr, land_frameMask (by omega), u32_of_lt (by omega)]

theorem Contained.entryAddr_kernel (h : Contained L pid s) {j k : ℕ} (hj : j < 1024)
    (hk : k < 1024) (hker : KernelTable pid j) :
    entryAddr s pid j k = L.pageDirIdentity + j * 4096 + k * 4 := by
  have hL := L.kernel
  have haligned := L.aligned
  rw [entryAddr, h.kernelHalf j hj hker, land_frameMask (by omega), u32_of_lt (by omega)]
  omega

theorem Contained.setEntry (h : Contained L pid s) (hpid : pid < 64) (hva : va < 2 ^ 32)
    (hpage : UserPage page) (hperm : perm < 4096)
    (hp : s.pageDirEntries pid (vaPdeIndex va) ≠ 0)
    (hne : UserTable pid (vaPdeIndex va) → s.pageDirEntries pid (vaPdeIndex va) / 4096 ≠ page) :
    Spreads L pid va s (setPageTableEntry s pid (vaPdeIndex va) (vaPteIndex va) page perm) ∧
      getPageTableEntryByVA (setPageTableEntry s pid (vaPdeIndex va) (vaPteIndex va) page perm)
        pid va = page * 4096 + perm ∧
      (entryAddr s pid (vaPdeIndex va) (vaPteIndex va) + 4 ≤ page * 4096 ∨
        page * 4096 + 4096 ≤ entryAddr s pid (vaPdeIndex va) (vaPteIndex va)) := by
  have hb := hpage.bounds
  have hL := L.kernel
  have hk := vaPteIndex_lt va
  have hj := vaPdeIndex_lt hva
  have hv : u32 (page * pageSize + perm) = page * 4096 + perm :=
    u32_of_lt (by simp only [pageSize]; omega)
  have hmem : (setPageTableEntry s pid (vaPdeIndex va) (vaPteIndex va) page perm).memory =
      store32 s.memory (entryAddr s pid (vaPdeIndex va) (vaPteIndex va)) (page * 4096 + perm) := by
    rw [setPageTableEntry, hv]
  have hpte : getPageTableEntryByVA
      (setPageTableEntry s pid (vaPdeIndex va) (vaPteIndex va) page perm) pid va =
        page * 4096 + perm := by
    have hp' : (setPageTableEntry s pid (vaPdeIndex va) (vaPteIndex va) page perm).pageDirEntries
        pid (vaPdeIndex va) ≠ 0 := hp
    rw [getPageTableEntryByVA, if_neg hp', getPageTableEntry, hmem]
    exact load32_store32_self _ _ (by omega)
  have hcont : Contained L pid
      (setPageTableEntry s pid (vaPdeIndex va) (vaPteIndex va) page perm) :=
    ⟨h.shortcut, h.cursor, h.kernelHalf, h.tables⟩
  rcases userTable_or_kernelTable hpid (vaPdeIndex va) with hu | hker
  · have ha := h.entryAddr_user hu hp hk
    have htb := (h.tables _ hu hp).1.bounds
    have hpn := hne hu
    refine ⟨⟨hcont, fun x hx _ ↦ ?_, fun j' hj' k' hk' hr ↦ ?_, fun hker ↦ ?_⟩, hpte, ?_⟩
    · rw [hmem, ha]
      exact store32_of_outside (.inl (by omega))
    · rw [Redirected, hmem, ha, load32_store32_of_disjoint (.inl (by omega))]
      exact hr
    · exact absurd hker hu.not_kernelTable
    · rw [ha]
      omega
  · have ha := h.entryAddr_kernel hj hk hker
    have hself : Redirected L
        (setPageTableEntry s pid (vaPdeIndex va) (vaPteIndex va) page perm).memory
        (vaPdeIndex va) (vaPteIndex va) := by
      have hdiv : (page * 4096 + perm) / 4096 = page := by omega
      rw [Redirected, hmem, ha, load32_store32_self _ _ (by omega), hdiv]
      exact hpage
    refine ⟨⟨hcont, fun x hx hout ↦ ?_, fun j' hj' k' hk' hr ↦ ?_, fun _ ↦ hself⟩, hpte, ?_⟩
    · rw [hmem, ha]
      apply store32_of_outside
      rcases hout with hout | hout
      · exact .inl (by omega)
      · exact .inr (by omega)
    · by_cases he : j' = vaPdeIndex va ∧ k' = vaPteIndex va
      · rw [he.1, he.2]
        exact hself
      · rw [Redirected, hmem, ha, load32_store32_of_disjoint (by omega)]
        exact hr
    · rw [ha]
      omega

theorem Contained.withTable (h : Contained L pid s) {j f : ℕ} (hf : UserPage f)
    (ha : (s.physical.pPageInfo f).allocated = true) (hu : UserTable pid j) :
    Contained L pid (withTable s pid j f) ∧
      ∀ x < 0x40000000, (withTable s pid j f).memory x = s.memory x := by
  have hb := hf.bounds
  refine ⟨⟨h.shortcut, h.cursor, fun j' hj' hker ↦ ?_, fun j' hu' hp ↦ ?_⟩,
    fun x hx ↦ if_neg (by omega)⟩
  · have hne : ¬ (pid = pid ∧ j' = j) := by
      rintro ⟨_, rfl⟩
      exact hu.not_kernelTable hker
    rw [withTable_pde, if_neg hne]
    exact h.kernelHalf j' hj' hker
  · rw [withTable_pde] at hp ⊢
    by_cases he : pid = pid ∧ j' = j
    · have hdiv : (f * 4096 + 7) / 4096 = f := by omega
      rw [if_pos he, hdiv]
      exact ⟨hf, ha⟩
    · rw [if_neg he] at hp ⊢
      exact h.tables j' hu' hp

theorem Contained.grow (h : Contained L pid s) {p : PhysicalMemory.State}
    (hp : Grown s.physical p) : Contained L pid { s with physical := p } where
  shortcut := hp.shortcut
  cursor := hp.cursor
  kernelHalf := h.kernelHalf
  tables j hu hpde := by
    obtain ⟨hup, ha⟩ := h.tables j hu hpde
    exact ⟨hup, hp.allocated _ ha⟩

theorem containerAlloc_page {p p' : PhysicalMemory.State} {id : ℕ} (h : p.lastFreedPage = -1)
    (hc : CursorOk p) (ha : containerAlloc p id = (p', page)) (hne : page ≠ 0) :
    Grown p p' ∧ UserPage page ∧ (p.pPageInfo page).allocated = false ∧
      (p'.pPageInfo page).allocated = true := by
  rcases containerAlloc_cases h hc id with ⟨page', hu, hfree, _, ha'⟩ | ⟨_, ha'⟩ | ⟨_, ha'⟩
  · rw [ha'] at ha
    obtain ⟨rfl, rfl⟩ := Prod.mk.inj ha
    have hcharge := grown_setUsage h hc id ((p.containers id).usage + 1)
    refine ⟨hcharge.trans (grown_takePage hcharge.shortcut hu), hu, (isFree_iff.mp hfree).1, ?_⟩
    rw [takePage_pPageInfo_self]
  · rw [ha'] at ha
    exact absurd (Prod.mk.inj ha).2.symm hne
  · rw [ha'] at ha
    exact absurd (Prod.mk.inj ha).2.symm hne

theorem Contained.allocPage (h : Contained L pid s) (hpid : pid < 64) (hva : va < 2 ^ 32)
    (hperm : perm < 4096) {result : ℕ} (ha : allocPage s pid va perm = (s₁, result, 0)) :
    ∃ page, UserPage page ∧ Spreads L pid va s s₁ ∧
      getPageTableEntryByVA s₁ pid va = page * 4096 + perm ∧
      (entryAddr s₁ pid (vaPdeIndex va) (vaPteIndex va) + 4 ≤ page * 4096 ∨
        page * 4096 + 4096 ≤ entryAddr s₁ pid (vaPdeIndex va) (vaPteIndex va)) := by
  obtain ⟨p, page, hc⟩ : ∃ p page, containerAlloc s.physical pid = (p, page) := ⟨_, _, rfl⟩
  by_cases hpage : page = 0
  · simp [VirtualMemory.allocPage, hc, hpage] at ha
  · obtain ⟨hp, hu, hfree, hmarked⟩ := containerAlloc_page h.shortcut h.cursor hc hpage
    have hcont := h.grow hp
    by_cases ht : s.pageDirEntries pid (vaPdeIndex va) = 0
    · obtain ⟨p', table, hc'⟩ : ∃ p' table, containerAlloc p pid = (p', table) := ⟨_, _, rfl⟩
      by_cases htable : table = 0
      · simp [VirtualMemory.allocPage, hc, hpage, mapPage, ht, allocPageTable, hc', htable] at ha
      · obtain ⟨hp', hut, hfreet, hmarkedt⟩ :=
          containerAlloc_page hcont.shortcut hcont.cursor hc' htable
        have hutable : UserTable pid (vaPdeIndex va) :=
          (userTable_or_kernelTable hpid _).resolve_right fun hker ↦ by
            have hk := h.kernelHalf _ (vaPdeIndex_lt hva) hker
            omega
        obtain ⟨hwith, hsame⟩ := (hcont.grow hp').withTable hut hmarkedt hutable
        simp only [VirtualMemory.allocPage, hc, hpage, if_false, mapPage, ht, ne_eq, not_true,
          allocPageTable, hc', htable, not_false_eq_true, if_true,
          clearPageTable_setPageDirEntry hut.bounds.2, Prod.mk.injEq, and_true] at ha
        obtain ⟨rfl, _⟩ := ha
        have hpde : (Isolation.withTable { s with physical := p' } pid (vaPdeIndex va)
            table).pageDirEntries pid (vaPdeIndex va) = table * 4096 + 7 := by
          rw [withTable_pde_self]
        have hne : page ≠ table := by
          rintro rfl
          rw [hmarked] at hfreet
          cases hfreet
        obtain ⟨hspread, hpte, hsep⟩ := hwith.setEntry hpid hva hu hperm
          (by rw [hpde]; omega) (fun _ ↦ by rw [hpde]; omega)
        have hL := L.kernel
        refine ⟨page, hu, ⟨hspread.contained, fun x hx hout ↦ ?_, fun j hj k hk hr ↦ ?_,
          hspread.here⟩, hpte, hsep⟩
        · exact (hspread.kernel x hx hout).trans (hsame x hx)
        · apply hspread.redirected j hj k hk
          rwa [Redirected, load32_congr (m := s.memory) fun x _ hx ↦ hsame x (by omega)]
    · simp only [VirtualMemory.allocPage, hc, hpage, if_false, mapPage, ht, ne_eq, not_true,
        not_false_eq_true, if_true, Prod.mk.injEq, and_true] at ha
      obtain ⟨rfl, _⟩ := ha
      obtain ⟨hspread, hpte, hsep⟩ := hcont.setEntry hpid hva hu hperm ht
        (fun hut he ↦ by
          have hall := (h.tables _ hut ht).2
          dsimp only at he
          rw [he, hfree] at hall
          cases hall)
      exact ⟨page, hu, ⟨hspread.contained, hspread.kernel, hspread.redirected, hspread.here⟩, hpte,
        hsep⟩

/-- A round at any address keeps the load contained, and redirects a kernel address for good. -/
theorem Contained.loadPage (h : Contained L pid s) (hpid : pid < 64) (hva : va < 2 ^ 32)
    (haligned : va % 4096 = 0) (hperm : perm = 5 ∨ perm = 7)
    (hload : loadPage s pid ph perm zva va fa = some s') :
    Spreads L pid va s s' ∧ ∃ s₁ result m,
      VirtualMemory.allocPage s pid va perm = (s₁, result, 0) ∧ s' = { s₁ with memory := m } := by
  obtain ⟨hperm', hodd⟩ := perm_bounds hperm
  obtain ⟨s₁, result, err, ha⟩ : ∃ s₁ result err, VirtualMemory.allocPage s pid va perm =
    (s₁, result, err) := ⟨_, _, _, rfl⟩
  by_cases herr : err = 0
  · subst herr
    obtain ⟨page, hu, hspread, hpte, hsep⟩ := h.allocPage hpid hva hperm' ha
    have hb := hu.bounds
    obtain ⟨m, rfl, hout⟩ := loadPage_outside hb.2 hperm' hodd haligned ha hpte hsep hload
    have hL := L.kernel
    have hword (j k : ℕ) (hj : j < 1024) (hk : k < 1024) :
        load32 m (L.pageDirIdentity + j * 4096 + k * 4) =
          load32 s₁.memory (L.pageDirIdentity + j * 4096 + k * 4) :=
      load32_congr fun x _ hx ↦ hout x (.inl (by omega))
    have hc := hspread.contained
    refine ⟨⟨⟨hc.shortcut, hc.cursor, hc.kernelHalf, hc.tables⟩, fun x hx hx' ↦ ?_,
      fun j hj k hk hr ↦ ?_, fun hker ↦ ?_⟩, s₁, result, m, ha, rfl⟩
    · exact (hout x (.inl (by omega))).trans (hspread.kernel x hx hx')
    · rw [Redirected, hword j k hj hk]
      exact hspread.redirected j hj k hk hr
    · rw [Redirected, hword _ _ (vaPdeIndex_lt hva) (vaPteIndex_lt va)]
      exact hspread.here hker
  · simp only [Elf.loadPage, ha, ne_eq, herr, not_false_eq_true, if_true] at hload
    cases hload

end StormOS.Elf
