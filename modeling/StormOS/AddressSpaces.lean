import StormOS.Library.Runs
import StormOS.PhysicalMemoryInit
import StormOS.Affords

namespace StormOS.AddressSpaces

open Library.Bytes Library.Loops Library.Ownership Library.Runs
open PhysicalMemory hiding State
open Machine VirtualMemory Isolation Function

inductive Action
  | allocPage (i : ℕ) (va : UInt32) (writable : Bool)
  | write (i : ℕ) (va : UInt32) (value : UInt8)

def userPerm (writable : Bool) : ℕ :=
  if writable then pteU ||| pteP ||| pteW else pteU ||| pteP

def perform (s : State) : Action → State
  | .allocPage i va writable => (allocPage s i va.toNat (userPerm writable)).1
  | .write i va value => { s with memory := store8 s.memory (physicalAddr s i va.toNat) value }

/-- Pages are allocated where a process has none, and a process writes where it has one. -/
def machine : System State Action where
  enabled s
    | .allocPage i va _ =>
      (1 ≤ i ∧ i < maxProcs) ∧ ¬ Present (getPageTableEntryByVA s i va.toNat)
    | .write i va _ =>
      UserTable i (vaPdeIndex va.toNat) ∧ Present (getPageTableEntryByVA s i va.toNat)
  step := perform

/-- The allocator as initialised, whatever the quotas. -/
def allocator (smap : List SMAP) (containers : ℕ → Container) : PhysicalMemory.State :=
  { physicalMemoryInit loaded smap with containers := containers }

def start (L : Layout) (smap : List SMAP) (containers : ℕ → Container) (memory : Memory)
    (pageDirEntries : ℕ → ℕ → ℕ) : State :=
  virtualMemoryInit L ⟨allocator smap containers, memory, pageDirEntries⟩

section Initialisation

variable (L : Layout)

def identityAddr (j k : ℕ) : ℕ := L.pageDirIdentity + j * pageSize + k * 4

def identityEntry (j k : ℕ) : ℕ := (j * numTables + k) * pageSize + identityPerm j

theorem load32_store32_identity {m : Memory} {i j i' j' : ℕ} (hi : i < 1024) (hj : j < 1024)
    (hj' : j' < 1024) :
    load32 (store32 m (u32 (identityAddr L i j)) (u32 (identityEntry i j))) (identityAddr L i' j') =
      if i' = i ∧ j' = j then identityEntry i j else load32 m (identityAddr L i' j') := by
  have hL := L.kernel
  have hp := identityPerm_cases i
  have ha : u32 (identityAddr L i j) = identityAddr L i j :=
    u32_of_lt (by simp only [identityAddr, pageSize]; omega)
  have hv : identityEntry i j < 2 ^ 32 := by
    simp only [identityEntry, pageSize, numTables]
    omega
  rw [ha, u32_of_lt hv]
  by_cases he : i' = i ∧ j' = j
  · obtain ⟨rfl, rfl⟩ := he
    rw [if_pos ⟨rfl, rfl⟩, load32_store32_self _ _ hv]
  · rw [if_neg he]
    apply load32_store32_of_disjoint
    simp only [identityAddr, pageSize]
    omega

theorem initIdentity_load {m : Memory} {j k : ℕ} (hj : j < 1024) (hk : k < 1024) :
    load32 (initIdentity L m) (identityAddr L j k) = identityEntry j k := by
  have houter := forUpTo_invariant
    (f := fun i m ↦ forUpTo (fun j m ↦
      store32 m (u32 (identityAddr L i j)) (u32 (identityEntry i j))) numTables m) (s := m)
    (I := fun n (m : Memory) ↦ ∀ i' < n, ∀ j' < 1024,
      load32 m (identityAddr L i' j') = identityEntry i' j') 1024 (by simp) ?_
  · exact houter j hj k hk
  · intro i m hi hm
    have hinner := forUpTo_invariant
      (f := fun j m ↦ store32 m (u32 (identityAddr L i j)) (u32 (identityEntry i j))) (s := m)
      (I := fun n (m : Memory) ↦ ∀ i' < i + 1, ∀ j' < 1024, (i' < i ∨ j' < n) →
        load32 m (identityAddr L i' j') = identityEntry i' j') 1024 ?_ ?_
    · exact fun i' hi' j' hj' ↦ hinner i' hi' j' hj' (.inr hj')
    · exact fun i' _ j' hj' hlt ↦ hm i' (by omega) j' hj'
    · intro n m hn hm i' hi' j' hj' hlt
      rw [load32_store32_identity L hi hn hj']
      by_cases he : i' = i ∧ j' = n
      · rw [if_pos he, he.1, he.2]
      · rw [if_neg he]
        exact hm i' hi' j' hj' (by omega)

theorem initIdentity_of_outside {m : Memory} {x : ℕ}
    (hx : x < L.pageDirIdentity ∨ L.pageDirIdentity + 4096 * 1024 ≤ x) :
    initIdentity L m x = m x := by
  have hL := L.kernel
  refine forUpTo_invariant (I := fun _ (m' : Memory) ↦ m' x = m x) 1024 rfl fun i m' hi hm' ↦ ?_
  refine forUpTo_invariant (I := fun _ (m' : Memory) ↦ m' x = m x) 1024 hm' fun j m' hj hm' ↦ ?_
  have ha : u32 (identityAddr L i j) = identityAddr L i j :=
    u32_of_lt (by simp only [identityAddr, pageSize]; omega)
  refine (store32_of_outside ?_).trans hm'
  change x < u32 (identityAddr L i j) ∨ u32 (identityAddr L i j) + 4 ≤ x
  rw [ha]
  simp only [identityAddr, pageSize]
  omega

def initialPde (i j : ℕ) : ℕ :=
  if j ≥ memUserLoPDir ∧ j < memUserHiPDir ∧ i ≠ 0 then 0
  else L.pageDirIdentity + j * pageSize + ptePWU

theorem setPde_pde (s : State) (i j pde i' j' : ℕ) :
    (setPde s i j pde).pageDirEntries i' j' =
      if i' = i ∧ j' = j then pde else s.pageDirEntries i' j' := by
  by_cases hi : i' = i
  · by_cases hj : j' = j
    · simp [setPde, hi, hj]
    · simp [setPde, hi, hj]
  · simp [setPde, hi]

theorem initDirectories_spec (s : State) :
    (initDirectories L s).physical = s.physical ∧ (initDirectories L s).memory = s.memory ∧
      ∀ i < 64, ∀ j < 1024, (initDirectories L s).pageDirEntries i j = initialPde L i j := by
  have hL := L.kernel
  have hround (i j : ℕ) (hj : j < 1024) (t : State) :
      (if j ≥ memUserLoPDir ∧ j < memUserHiPDir ∧ i ≠ 0 then removePageDirEntry t i j
        else setPageDirEntryIdentity L t i j) = setPde t i j (initialPde L i j) := by
    have hv : u32 (L.pageDirIdentity + j * pageSize + ptePWU) =
        L.pageDirIdentity + j * pageSize + ptePWU := by
      have hp : ptePWU = 7 := by decide
      exact u32_of_lt (by rw [hp]; simp only [pageSize]; omega)
    rw [initialPde]
    split
    · rfl
    · rw [setPageDirEntryIdentity, hv]
  refine forUpTo_invariant (I := fun n (t : State) ↦ t.physical = s.physical ∧
    t.memory = s.memory ∧ ∀ i < n, ∀ j < 1024, t.pageDirEntries i j = initialPde L i j) 64
    (by simp) ?_
  intro i t hi ⟨hp, hm, ht⟩
  have hinner := forUpTo_invariant (f := fun j s ↦
      if j ≥ memUserLoPDir ∧ j < memUserHiPDir ∧ i ≠ 0 then removePageDirEntry s i j
      else setPageDirEntryIdentity L s i j) (s := t)
    (I := fun n (t : State) ↦ t.physical = s.physical ∧ t.memory = s.memory ∧
      ∀ i' < i + 1, ∀ j < 1024, (i' < i ∨ j < n) → t.pageDirEntries i' j = initialPde L i' j)
    1024 ?_ ?_
  · exact ⟨hinner.1, hinner.2.1, fun i' hi' j hj ↦ hinner.2.2 i' hi' j hj (.inr hj)⟩
  · exact ⟨hp, hm, fun i' _ j hj hlt ↦ ht i' (by omega) j hj⟩
  · intro n t' hn ⟨hp', hm', ht'⟩
    rw [hround i n hn]
    refine ⟨hp', hm', fun i' hi' j hj hlt ↦ ?_⟩
    rw [setPde_pde]
    by_cases he : i' = i ∧ j = n
    · rw [if_pos he, he.1, he.2]
    · rw [if_neg he]
      exact ht' i' hi' j hj (by omega)

theorem allocator_ready (smap : List SMAP) (containers : ℕ → Container) :
    (allocator smap containers).lastFreedPage = -1 ∧ CursorOk (allocator smap containers) := by
  have hl : (physicalMemoryInit loaded smap).lastAllocPage = -1 := rfl
  exact ⟨rfl, .inl hl⟩

theorem start_physical (smap : List SMAP) (containers : ℕ → Container) (memory : Memory)
    (pageDirEntries : ℕ → ℕ → ℕ) :
    (start L smap containers memory pageDirEntries).physical = allocator smap containers :=
  (initDirectories_spec L ⟨_, initIdentity L memory, pageDirEntries⟩).1

theorem start_memory (smap : List SMAP) (containers : ℕ → Container) (memory : Memory)
    (pageDirEntries : ℕ → ℕ → ℕ) :
    (start L smap containers memory pageDirEntries).memory = initIdentity L memory := by
  have hstart : start L smap containers memory pageDirEntries = initDirectories L
    ⟨allocator smap containers, initIdentity L memory, pageDirEntries⟩ := rfl
  rw [hstart, (initDirectories_spec L _).2.1]

theorem start_pde (smap : List SMAP) (containers : ℕ → Container) (memory : Memory)
    (pageDirEntries : ℕ → ℕ → ℕ) {i j : ℕ} (h : UserTable i j) :
    (start L smap containers memory pageDirEntries).pageDirEntries i j = 0 := by
  have hb := h.bounds
  have hdirs := (initDirectories_spec L
    ⟨allocator smap containers, initIdentity L memory, pageDirEntries⟩).2.2
  have hstart : start L smap containers memory pageDirEntries = initDirectories L
    ⟨allocator smap containers, initIdentity L memory, pageDirEntries⟩ := rfl
  rw [hstart, hdirs i (by omega) j (by omega), initialPde, if_pos ⟨h.2.1, h.2.2, by omega⟩]

theorem start_isolated (smap : List SMAP) (containers : ℕ → Container) (memory : Memory)
    (pageDirEntries : ℕ → ℕ → ℕ) : Isolated L (start L smap containers memory pageDirEntries) := by
  obtain ⟨hphys, hmem, hdirs⟩ := initDirectories_spec L
    ⟨allocator smap containers, initIdentity L memory, pageDirEntries⟩
  have hstart : start L smap containers memory pageDirEntries = initDirectories L
    ⟨allocator smap containers, initIdentity L memory, pageDirEntries⟩ := rfl
  have hnames (σ : Slot) (f : ℕ) :
      ¬ Names (start L smap containers memory pageDirEntries) σ f := by
    cases σ with
    | table i j => exact fun hσ ↦ hσ.2.1 (start_pde L _ _ _ _ hσ.1)
    | page i j k => exact fun hσ ↦ hσ.2.2.1 (start_pde L _ _ _ _ hσ.1)
  constructor
  · rw [hstart, hphys]
    exact (allocator_ready smap containers).1
  · rw [hstart, hphys]
    exact (allocator_ready smap containers).2
  · intro i hi j hj hker
    rw [hstart, hdirs i hi j hj, initialPde, if_neg]
    rintro ⟨hlo, hhi, h0⟩
    rcases hker with hker | hker | hker
    · exact h0 hker
    · exact absurd hker (not_lt.mpr hlo)
    · exact absurd hhi (not_lt.mpr hker)
  · intro j hj k hk
    rw [hstart, hmem]
    simpa only [identityAddr, identityEntry] using initIdentity_load L (m := memory) hj hk
  · exact fun σ f hσ ↦ absurd hσ (hnames σ f)
  · exact fun σ _ f hσ _ ↦ absurd hσ (hnames σ f)

end Initialisation

variable {L : Layout} {s : State} {i j k : ℕ}

theorem isolated_step (h : Isolated L s) {a : Action} (he : machine.enabled s a) :
    Isolated L (machine.step s a) := by
  cases a with
  | allocPage i va writable =>
    have hva : va.toNat < 2 ^ 32 := va.toNat_lt
    apply h.alloc (userTable_of_not_present h he.1 hva he.2)
    rw [userPerm]
    split
    · decide
    · decide
  | write i va value =>
    obtain ⟨f, hf, ha⟩ := physicalAddr_of_present he.1 he.2
    refine h.write (tablesAgree_of_page h hf fun x hx ↦ ?_)
    rw [ha]
    exact store8_of_ne (by omega)

/-- Address spaces stay isolated in every run of page allocations and user writes. -/
theorem isolated_of_legal (L : Layout) (smap : List SMAP) (containers : ℕ → Container)
    (memory : Memory) (pageDirEntries : ℕ → ℕ → ℕ) (as : List Action)
    (hlegal : machine.Legal (start L smap containers memory pageDirEntries) as) :
    Isolated L (machine.final (start L smap containers memory pageDirEntries) as) :=
  hlegal.final (start_isolated L smap containers memory pageDirEntries) fun _ _ h he ↦
    isolated_step h he

def lowLayout : Layout := ⟨0x200000, by decide, by decide⟩

/-- A process that can afford it maps a page and writes to it, and the others keep theirs. -/
theorem legal_of_affords (h : Isolated L s) (va : UInt32)
    (hu : UserTable i (vaPdeIndex va.toNat))
    (hnp : ¬ Present (getPageTableEntryByVA s i va.toNat))
    (hafford : Affords s.physical i (cost s i va.toNat)) (value : UInt8) :
    let t := machine.final s [.allocPage i va true, .write i va value]
    machine.Legal s [.allocPage i va true, .write i va value] ∧ Isolated L t ∧
      (∀ i' m, Affords s.physical i' (m + cost s i va.toNat) → Affords t.physical i' m) ∧
      ∀ i', i' ≠ i → t.pageDirEntries i' = s.pageDirEntries i' := by
  obtain ⟨s', page, result, ha, hs', hmaps, hcosts⟩ := h.maps_afforded hu
    (by decide : userPerm true < 4096) hafford
  have hstep : machine.step s (.allocPage i va true) = s' := congrArg Prod.fst ha
  have hpresent : Present (getPageTableEntryByVA s' i va.toNat) := by
    have hseven : userPerm true = 7 := by decide
    rw [hmaps.translation i (by have := hu.bounds; omega) va.toNat va.toNat_lt, if_pos ⟨rfl, rfl⟩,
      hseven, present_iff]
    omega
  have hlegal : machine.Legal s [.allocPage i va true, .write i va value] := by
    refine ⟨⟨hu.1, hnp⟩, ?_, trivial⟩
    rw [hstep]
    exact ⟨hu, hpresent⟩
  have hfinal : machine.final s [.allocPage i va true, .write i va value] =
      { s' with memory := store8 s'.memory (physicalAddr s' i va.toNat) value } := by
    rw [System.final_cons, hstep]
    rfl
  refine ⟨hlegal, hlegal.final h fun _ _ h he ↦ isolated_step h he, ?_⟩
  rw [hfinal]
  exact ⟨hcosts, hmaps.directories⟩

theorem start_affords {n : ℕ} (L : Layout) (memory : Memory) (pageDirEntries : ℕ → ℕ → ℕ)
    (hn : n ≤ 0xB0000) :
    Affords (start L (pageMap n) (fun _ ↦ ⟨n, 0, 0, 0, true⟩) memory pageDirEntries).physical i
      n := by
  have hfree : Finset.Ico 0x40000 (0x40000 + n) ⊆
      freePages (allocator (pageMap n) fun _ ↦ ⟨n, 0, 0, 0, true⟩) := by
    intro page hpage
    obtain ⟨hlo, hhi⟩ := Finset.mem_Ico.mp hpage
    have hu : UserPage page := by
      simp only [UserPage, memUserLoPI, memUserHiPI, memUserLo, memUserHi, pageSize]
      omega
    exact mem_freePages.mpr ⟨hu, (pageMap_free hn hu).mpr hhi⟩
  have hcard := Finset.card_le_card hfree
  rw [Nat.card_Ico] at hcard
  rw [start_physical]
  exact ⟨le_rfl, (zero_add _).le, by simp only [allocator]; omega, by omega⟩

/-- Two processes map a page each at one address, and write to it. -/
theorem isolated_two_processes :
    Isolated lowLayout (machine.final
      (start lowLayout (pageMap 4) (fun _ ↦ ⟨(4 : ℕ), 0, 0, 0, true⟩) (fun _ ↦ 0) (fun _ _ ↦ 0))
      [.allocPage 1 0x40000000 true, .write 1 0x40000000 65, .allocPage 2 0x40000000 true,
        .write 2 0x40000000 66]) := by
  have h := start_isolated lowLayout (pageMap 4) (fun _ ↦ ⟨(4 : ℕ), 0, 0, 0, true⟩) (fun _ ↦ 0)
    fun _ _ ↦ 0
  have hpde (i : ℕ) (hu : UserTable i (vaPdeIndex (0x40000000 : UInt32).toNat)) := start_pde
    lowLayout (pageMap 4) (fun _ ↦ ⟨(4 : ℕ), 0, 0, 0, true⟩) (fun _ ↦ 0) (fun _ _ ↦ 0) hu
  have hafford (i : ℕ) := start_affords (n := 4) (i := i) lowLayout (fun _ ↦ 0) (fun _ _ ↦ 0)
    (by decide)
  obtain ⟨hfirst, ht, hcosts, hdirs⟩ := legal_of_affords h 0x40000000 userTable_first
    (not_present_of_no_table (hpde 1 userTable_first))
    ((hafford 1).mono ((cost_le _ _ _).trans (by decide))) 65
  have hpde₂ := (congrFun (hdirs 2 (by decide)) _).trans (hpde 2 userTable_second)
  have hsecond := legal_of_affords ht 0x40000000 userTable_second (not_present_of_no_table hpde₂)
    (hcosts 2 _ ((hafford 2).mono (Nat.add_le_add (cost_le _ _ _) (cost_le _ _ _)))) 66
  exact isolated_of_legal _ _ _ _ _ [.allocPage 1 0x40000000 true, .write 1 0x40000000 65,
    .allocPage 2 0x40000000 true, .write 2 0x40000000 66]
    (System.along_append.mpr ⟨hfirst, hsecond.1⟩)

end StormOS.AddressSpaces
