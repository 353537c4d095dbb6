import StormOS.Isolation

namespace StormOS.Isolation

open Library.Bytes Library.Loops Library.Ownership
open PhysicalMemory hiding State
open Machine VirtualMemory Function

variable {L : Layout} {s : State} {i j k f : ℕ}

/-- A frame that the allocator counts as a process's, though no slot names it. -/
structure Unnamed (s : State) (f : ℕ) : Prop where
  user : UserPage f
  allocated : (s.physical.pPageInfo f).allocated = true
  perm : (s.physical.pPageInfo f).perm = .user
  fresh : ∀ σ, ¬ Names s σ f

theorem Isolated.getPageTableEntry_set (h : Isolated L s) (hf : Names s (.table i j) f)
    (hk : k < 1024) {page perm : ℕ} (hpage : page < 0xF0000) (hperm : perm < 4096)
    {i' j' k' f' : ℕ} (hf' : Names s (.table i' j') f') (hk' : k' < 1024) :
    getPageTableEntry (setPageTableEntry s i j k page perm) i' j' k' =
      if i' = i ∧ j' = j ∧ k' = k then page * 4096 + perm else getPageTableEntry s i' j' k' := by
  have hv : u32 (page * pageSize + perm) = page * 4096 + perm :=
    u32_of_lt (by simp only [pageSize]; omega)
  have ha := h.entryAddr hf hk
  have ha' := h.entryAddr hf' hk'
  have hset : VirtualMemory.entryAddr (setPageTableEntry s i j k page perm) i' j' k' =
      VirtualMemory.entryAddr s i' j' k' := rfl
  rw [getPageTableEntry, getPageTableEntry, hset, ha', setPageTableEntry, ha, hv]
  by_cases he : i' = i ∧ j' = j ∧ k' = k
  · obtain ⟨rfl, rfl, rfl⟩ := he
    have hff : f' = f := by rw [hf'.2.2, hf.2.2]
    rw [if_pos ⟨rfl, rfl, rfl⟩, hff]
    exact load32_store32_self _ _ (by omega)
  · rw [if_neg he]
    apply load32_store32_of_disjoint
    by_cases hff : f' = f
    · subst hff
      have hσ := h.exclusive _ _ _ hf hf'
      have hkk : k' ≠ k := fun hkk ↦ he (by simp_all)
      omega
    · omega

theorem Isolated.setPage (h : Isolated L s) (hf : Names s (.table i j) f) (hk : k < 1024)
    {page perm : ℕ} (hpage : Unnamed s page) (hperm : perm < 4096) :
    Isolated L (setPageTableEntry s i j k page perm) := by
  have hb := hpage.user.bounds
  have hfb := (h.owned _ _ hf).1.bounds
  have ha := h.entryAddr hf hk
  have hnames (σ : Slot) (g : ℕ) (hg : Names (setPageTableEntry s i j k page perm) σ g) :
      Names s σ g ∨ σ = .page i j k ∧ g = page := by
    cases σ with
    | table i' j' => exact .inl hg
    | page i' j' k' =>
      obtain ⟨hu, hk', hp, hpr, hgf⟩ := hg
      rw [h.getPageTableEntry_set hf hk hb.2 hperm (names_table hu hp) hk'] at hpr hgf
      by_cases he : i' = i ∧ j' = j ∧ k' = k
      · obtain ⟨rfl, rfl, rfl⟩ := he
        rw [if_pos ⟨rfl, rfl, rfl⟩] at hgf
        refine .inr ⟨rfl, hgf.trans ?_⟩
        simp only [pageSize]
        omega
      · rw [if_neg he] at hpr hgf
        exact .inl ⟨hu, hk', hp, hpr, hgf⟩
  constructor
  · exact h.shortcut
  · exact h.cursor
  · exact h.kernelHalf
  · intro j' hj' k' hk'
    have hL := L.kernel
    rw [← h.identity j' hj' k' hk']
    simp only [numTables] at hj' hk'
    rw [setPageTableEntry, ha]
    exact load32_store32_of_disjoint (by simp only [pageSize]; omega)
  · intro σ g hg
    rcases hnames σ g hg with hg | ⟨_, rfl⟩
    · exact h.owned σ g hg
    · exact ⟨hpage.user, hpage.allocated, hpage.perm⟩
  · exact h.exclusive.install hpage.fresh hnames

section ClearPageTable

variable {base : ℕ} (hb : s.pageDirEntries i j &&& 0xfffff000 = base) (hlt : base + 4096 ≤ 2 ^ 32)

include hb hlt

theorem clearPageTable_loop {n : ℕ} (hn : n ≤ 1024) :
    forUpTo (fun k s ↦ removePageTableEntry s i j k) n s =
      { s with memory := fun x ↦ if base ≤ x ∧ x < base + 4 * n then 0 else s.memory x } := by
  induction n with
  | zero =>
    have hm (x : ℕ) : ¬ (base ≤ x ∧ x < base + 4 * 0) := by omega
    simp only [forUpTo_zero, hm, if_false]
  | succ n ih =>
    have ha : u32 (base + n * 4) = base + n * 4 := u32_of_lt (by omega)
    rw [forUpTo_succ, ih (by omega), removePageTableEntry]
    simp only [VirtualMemory.entryAddr, hb, ha]
    congr 1
    funext x
    rw [store32]
    by_cases hx : base + n * 4 ≤ x ∧ x < base + n * 4 + 4
    · rw [if_pos hx, if_pos (by omega), Nat.zero_div]
      rfl
    · rw [if_neg hx]
      exact if_congr (by omega) rfl rfl

theorem clearPageTable_eq :
    clearPageTable s i j =
      { s with memory := fun x ↦ if base ≤ x ∧ x < base + 4096 then 0 else s.memory x } :=
  clearPageTable_loop hb hlt le_rfl

end ClearPageTable

def withTable (s : State) (i j f : ℕ) : State :=
  { s with
    pageDirEntries := update s.pageDirEntries i (update (s.pageDirEntries i) j (f * 4096 + 7))
    memory := fun x ↦ if f * 4096 ≤ x ∧ x < f * 4096 + 4096 then 0 else s.memory x }

theorem withTable_pde (s : State) (i j f i' j' : ℕ) :
    (withTable s i j f).pageDirEntries i' j' =
      if i' = i ∧ j' = j then f * 4096 + 7 else s.pageDirEntries i' j' := by
  by_cases hi : i' = i
  · by_cases hj : j' = j
    · simp [withTable, hi, hj]
    · simp [withTable, hi, hj]
  · simp [withTable, hi]

theorem withTable_pde_self (s : State) (i j f : ℕ) :
    (withTable s i j f).pageDirEntries i j = f * 4096 + 7 := by
  rw [withTable_pde, if_pos ⟨rfl, rfl⟩]

theorem withTable_entry (s : State) (i j : ℕ) (hf : f < 0xF0000) (hk : k < 1024) :
    getPageTableEntry (withTable s i j f) i j k = 0 := by
  have haddr : VirtualMemory.entryAddr (withTable s i j f) i j k = f * 4096 + k * 4 := by
    rw [VirtualMemory.entryAddr, withTable_pde_self, land_frameMask (by omega),
      u32_of_lt (by omega)]
    omega
  rw [getPageTableEntry, haddr]
  exact load32_congr (m := fun _ ↦ 0) fun x hx hx' ↦ if_pos (by omega)

theorem load32_withTable {a : ℕ} (ha : a + 4 ≤ f * 4096 ∨ f * 4096 + 4096 ≤ a) :
    load32 (withTable s i j f).memory a = load32 s.memory a :=
  load32_congr fun x hx hx' ↦ if_neg (by omega)

theorem clearPageTable_setPageDirEntry (hf : f < 0xF0000) :
    clearPageTable (setPageDirEntry s i j f) i j = withTable s i j f := by
  have hv : u32 (f * pageSize + ptePWU) = f * 4096 + 7 := by
    have hperm : ptePWU = 7 := by decide
    rw [hperm, u32_of_lt (by simp only [pageSize]; omega)]
  have hpde : (setPageDirEntry s i j f).pageDirEntries i j = f * 4096 + 7 := by
    simp [setPageDirEntry, setPde, hv]
  have hbase : (setPageDirEntry s i j f).pageDirEntries i j &&& 0xfffff000 = f * 4096 := by
    rw [hpde, land_frameMask (by omega)]
    omega
  rw [clearPageTable_eq hbase (by omega), withTable, setPageDirEntry, setPde, hv]

theorem Isolated.names_withTable (h : Isolated L s) (hf : Unnamed s f) {σ : Slot} {g : ℕ}
    (hg : Names (withTable s i j f) σ g) : Names s σ g ∨ σ = .table i j ∧ g = f := by
  have hb := hf.user.bounds
  cases σ with
  | table i' j' =>
    obtain ⟨hu, hp, hg⟩ := hg
    rw [withTable_pde] at hp hg
    by_cases he : i' = i ∧ j' = j
    · obtain ⟨rfl, rfl⟩ := he
      rw [if_pos ⟨rfl, rfl⟩] at hg
      refine .inr ⟨rfl, hg.trans ?_⟩
      simp only [pageSize]
      omega
    · rw [if_neg he] at hp hg
      exact .inl ⟨hu, hp, hg⟩
  | page i' j' k' =>
    obtain ⟨hu, hk, hp, hpr, hg⟩ := hg
    by_cases he : i' = i ∧ j' = j
    · -- the new table is empty
      obtain ⟨rfl, rfl⟩ := he
      rw [withTable_entry s i' j' hf.user.2 hk] at hpr
      exact absurd rfl hpr
    · rw [withTable_pde, if_neg he] at hp
      have hold := names_table hu hp
      have hne : s.pageDirEntries i' j' / pageSize ≠ f := fun hff ↦ hf.fresh _ (hff ▸ hold)
      have ha := h.entryAddr hold hk
      have ha' : VirtualMemory.entryAddr (withTable s i j f) i' j' k' =
          s.pageDirEntries i' j' / pageSize * 4096 + k' * 4 := by
        rw [← ha, VirtualMemory.entryAddr, VirtualMemory.entryAddr, withTable_pde, if_neg he]
      have hpte : getPageTableEntry (withTable s i j f) i' j' k' =
          getPageTableEntry s i' j' k' := by
        simp only [numTables] at hk
        rw [getPageTableEntry, getPageTableEntry, ha, ha', load32_withTable (by omega)]
      rw [hpte] at hpr hg
      exact .inl ⟨hu, hk, hp, hpr, hg⟩

theorem Isolated.setTable (h : Isolated L s) (hu : UserTable i j) (hf : Unnamed s f) :
    Isolated L (withTable s i j f) where
  shortcut := h.shortcut
  cursor := h.cursor
  kernelHalf i' hi' j' hj' hker := by
    have hne : ¬ (i' = i ∧ j' = j) := by
      rintro ⟨rfl, rfl⟩
      have hub := hu.bounds
      have hker' : i' = 0 ∨ j' < 256 ∨ 960 ≤ j' := hker
      omega
    rw [withTable_pde, if_neg hne]
    exact h.kernelHalf i' hi' j' hj' hker
  identity j' hj' k' hk' := by
    have hL := L.kernel
    have hb := hf.user.bounds
    rw [← h.identity j' hj' k' hk']
    simp only [numTables] at hj' hk'
    exact load32_withTable (by simp only [pageSize]; omega)
  owned σ g hg := by
    rcases h.names_withTable hf hg with hg | ⟨_, rfl⟩
    · exact h.owned σ g hg
    · exact ⟨hf.user, hf.allocated, hf.perm⟩
  exclusive := h.exclusive.install hf.fresh fun _ _ hg ↦ h.names_withTable hf hg

theorem Isolated.unnamed (h : Isolated L s) {id page : ℕ} {u : ℤ} (hu : UserPage page)
    (hfree : isFree s.physical page = true) :
    Unnamed { s with physical := takePage (setUsage s.physical id u) page } page where
  user := hu
  allocated := by
    dsimp only
    rw [takePage_pPageInfo_self]
  perm := by
    dsimp only
    rw [takePage_perm]
    exact (isFree_iff.mp hfree).2
  fresh σ hσ := by
    have ho := (h.owned σ page hσ).2.1
    rw [(isFree_iff.mp hfree).1] at ho
    cases ho

theorem Isolated.containerAlloc_cases (h : Isolated L s) (id : ℕ) :
    (∃ p, Grown s.physical p ∧ containerAlloc s.physical id = (p, 0)) ∨
    (∃ p page, Grown s.physical p ∧ isFree s.physical page = true ∧ page ≠ 0 ∧
      Unnamed { s with physical := p } page ∧ containerAlloc s.physical id = (p, page)) := by
  have hcharge := grown_setUsage h.shortcut h.cursor id ((s.physical.containers id).usage + 1)
  rcases PhysicalMemory.containerAlloc_cases h.shortcut h.cursor id with
    ⟨page, hu, hfree, _, ha⟩ | ⟨_, ha⟩ | ⟨_, ha⟩
  · have hb := hu.bounds
    exact .inr ⟨_, page, hcharge.trans (grown_takePage hcharge.shortcut hu), hfree, by omega,
      h.unnamed hu hfree, ha⟩
  · exact .inl ⟨_, ⟨h.shortcut, h.cursor, fun _ hp ↦ hp, fun _ ↦ rfl⟩, ha⟩
  · exact .inl ⟨_, hcharge, ha⟩

/-- The state in which `AllocPage` stores the entry of the new page: pages were taken from the
allocator, and if the directory had no table there, one of them is now a zeroed table. -/
inductive Prepared (s : State) (i j : ℕ) : State → Prop
  | found {p : PhysicalMemory.State} (hp : Grown s.physical p) (ht : s.pageDirEntries i j ≠ 0) :
    Prepared s i j { s with physical := p }
  | made {p : PhysicalMemory.State} {f : ℕ} (hp : Grown s.physical p)
    (ht : s.pageDirEntries i j = 0) (hf : Unnamed { s with physical := p } f) :
    Prepared s i j (withTable { s with physical := p } i j f)

theorem Prepared.of_grown {p : PhysicalMemory.State} {s' : State} (hp : Grown s.physical p)
    (hs : Prepared { s with physical := p } i j s') : Prepared s i j s' := by
  cases hs with
  | found hp' ht => exact .found (hp.trans hp') ht
  | made hp' ht hf => exact .made (hp.trans hp') ht hf

theorem Prepared.isolated (h : Isolated L s) (hu : UserTable i j) {s' : State}
    (hs : Prepared s i j s') : Isolated L s' ∧ ∃ f, Names s' (.table i j) f := by
  cases hs with
  | found hp ht => exact ⟨h.grow hp, _, names_table hu ht⟩
  | made hp ht hf =>
    refine ⟨(h.grow hp).setTable hu hf, _, names_table hu ?_⟩
    rw [withTable_pde_self]
    omega

/-- All that `MapPage` can do with an unnamed page. -/
theorem Isolated.mapPage_cases (h : Isolated L s) {page : ℕ} (hpage : Unnamed s page)
    (i va perm : ℕ) :
    (∃ p, Grown s.physical p ∧ mapPage s i va page perm = ({ s with physical := p }, 0, 1)) ∨
    (∃ s' result, Prepared s i (vaPdeIndex va) s' ∧ Unnamed s' page ∧
      mapPage s i va page perm =
        (setPageTableEntry s' i (vaPdeIndex va) (vaPteIndex va) page perm, result, 0)) := by
  by_cases ht : s.pageDirEntries i (vaPdeIndex va) = 0
  · simp only [mapPage, ht, ne_eq, not_true, if_false, allocPageTable]
    rcases h.containerAlloc_cases i with ⟨p, hp, ha⟩ | ⟨p, table, hp, hfree, hne, htable, ha⟩
    · exact .inl ⟨p, hp, by simp only [ha, not_true, if_false, if_true]⟩
    · have hnt : page ≠ table := by
        rintro rfl
        have hall := hpage.allocated
        rw [(isFree_iff.mp hfree).1] at hall
        cases hall
      refine .inr ⟨withTable { s with physical := p } i (vaPdeIndex va) table, table,
        .made hp ht htable, ⟨hpage.user, hp.allocated page hpage.allocated,
          (hp.perm page).trans hpage.perm, fun σ hσ ↦ ?_⟩, ?_⟩
      · rcases (h.grow hp).names_withTable htable hσ with hσ | hσ
        · exact hpage.fresh σ hσ
        · exact hnt hσ.2
      · simp only [ha, hne, not_false_eq_true, if_true, if_false,
          clearPageTable_setPageDirEntry htable.user.2]
  · refine .inr ⟨s, s.pageDirEntries i (vaPdeIndex va) / pageSize, ?_, hpage, ?_⟩
    · exact .found ⟨h.shortcut, h.cursor, fun _ hp ↦ hp, fun _ ↦ rfl⟩ ht
    · simp only [mapPage, ht, ne_eq, not_false_eq_true, if_true]

/-- All that `AllocPage` can do: fail and at most lose a page, or store an unnamed page with the
given permissions. -/
theorem Isolated.allocPage_cases (h : Isolated L s) (i va perm : ℕ) :
    (∃ p, Grown s.physical p ∧ allocPage s i va perm = ({ s with physical := p }, 0, 1)) ∨
    (∃ s' page result, isFree s.physical page = true ∧ Prepared s i (vaPdeIndex va) s' ∧
      Unnamed s' page ∧ allocPage s i va perm =
        (setPageTableEntry s' i (vaPdeIndex va) (vaPteIndex va) page perm, result, 0)) := by
  rcases h.containerAlloc_cases i with ⟨p, hp, ha⟩ | ⟨p, page, hp, hfree, hne, hpage, ha⟩
  · exact .inl ⟨p, hp, by simp only [allocPage, ha, if_true]⟩
  · rcases (h.grow hp).mapPage_cases hpage i va perm with
      ⟨p', hp', hm⟩ | ⟨s', result, hs, hpage', hm⟩
    · refine .inl ⟨p', hp.trans hp', ?_⟩
      simp only [allocPage, ha, hne, if_false, hm, ne_eq, one_ne_zero, not_false_eq_true, if_true]
    · refine .inr ⟨s', page, result, hfree, hs.of_grown hp, hpage', ?_⟩
      simp only [allocPage, ha, hne, if_false, hm, ne_eq, not_true]

end StormOS.Isolation
