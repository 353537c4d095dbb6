import StormOS.PhysicalMemoryInit

namespace StormOS.MemoryMap

open Machine PhysicalMemory Function

/-- The last page of the 32-bit address space, where the end of the page wraps to zero. -/
abbrev lastPage : ℕ := numPhysicalPages - 1

def descriptors (smap : List SMAP) : List SMAP :=
  smap.takeWhile fun p ↦ p.baseAddr ≠ 0 ∨ p.length ≠ 0 ∨ p.type ≠ 0

def InRange (p : SMAP) (page : ℕ) : Prop :=
  p.type = 1 ∧ p.baseAddr.toNat ≤ page * pageSize ∧
    (page + 1) * pageSize ≤ p.baseAddr.toNat + p.length.toNat

def Usable (smap : List SMAP) (page : ℕ) : Prop := ∃ p ∈ descriptors smap, InRange p page

/-- The test of the initialisation loop, in the 32 bits in which it is made. -/
def Admits (p : SMAP) (page : ℕ) : Prop :=
  u32 (page * pageSize) ≥ u32 p.baseAddr.toNat ∧
    u32 (u32 (page * pageSize) + pageSize) ≤
      u32 (u32 p.baseAddr.toNat + u32 p.length.toNat) ∧ p.type = 1

/-- What the memory map says of a page, and a quota of every page that processes may be given. -/
def Classified (s : State) (smap : List SMAP) (page : ℕ) : Prop :=
  (Usable smap page → s.pPageInfo page =
    ⟨false, if page ≥ memUserLoPI ∧ page < memUserHiPI then .user else .kernel⟩) ∧
  (¬ Usable smap page → s.pPageInfo page = ⟨true, .bios⟩) ∧
  (s.containers 0).quota =
    ((Finset.range numPhysicalPages).filter fun p ↦ (s.pPageInfo p).perm = .user).card

/-- A descriptor that the loop takes to hold a page which it does not hold: one of memory above
4 GB, which appears at the address below, and for the last page every one that starts below it. -/
def Overclaims (p : SMAP) (page : ℕ) : Prop :=
  p.type = 1 ∧ u32 p.baseAddr.toNat ≤ page * pageSize ∧
    if page = lastPage then
      2 ^ 32 ≤ p.baseAddr.toNat ∨ p.baseAddr.toNat + p.length.toNat < 2 ^ 32
    else
      2 ^ 32 ≤ p.baseAddr.toNat ∧
        (page + 1) * pageSize ≤ u32 p.baseAddr.toNat + u32 p.length.toNat ∧
        u32 p.baseAddr.toNat + u32 p.length.toNat < 2 ^ 32

/-- A descriptor that holds a page and of which the loop does not see it: its end, with the
length cut to 32 bits, wraps at 4 GB or falls short of the page. -/
def Overlooks (p : SMAP) (page : ℕ) : Prop :=
  InRange p page ∧ page ≠ lastPage ∧
    (2 ^ 32 ≤ p.baseAddr.toNat + u32 p.length.toNat ∨
      p.baseAddr.toNat + u32 p.length.toNat < (page + 1) * pageSize)

/-- Whatever the loop misreads about the page, another descriptor makes up for. -/
def ReadRight (smap : List SMAP) (page : ℕ) : Prop :=
  (∀ p ∈ descriptors smap, Overclaims p page → Usable smap page) ∧
  ∀ p ∈ descriptors smap, Overlooks p page →
    ∃ q ∈ descriptors smap, InRange q page ∧ ¬ Overlooks q page ∨ Overclaims q page

variable {smap : List SMAP} {page : ℕ}

theorem pageReserved_eq_false {pgStart pgEnd : ℕ} :
    pageReserved pgStart pgEnd smap = false ↔ ∃ p ∈ descriptors smap,
      pgStart ≥ u32 p.baseAddr.toNat ∧
        pgEnd ≤ u32 (u32 p.baseAddr.toNat + u32 p.length.toNat) ∧ p.type = 1 := by
  induction smap with
  | nil => simp [pageReserved, descriptors]
  | cons p ps ih =>
    rw [pageReserved]
    by_cases hz : p.baseAddr ≠ 0 ∨ p.length ≠ 0 ∨ p.type ≠ 0
    · have hd : descriptors (p :: ps) = p :: descriptors ps := by
        rw [descriptors, List.takeWhile_cons_of_pos (by simpa using hz)]
        rfl
      rw [if_pos hz, hd, List.exists_mem_cons_iff, ← ih]
      dsimp only
      split
      · rename_i ht
        simp [ht]
      · rename_i ht
        simp only [ht, false_or]
    · have hd : descriptors (p :: ps) = [] := by
        rw [descriptors, List.takeWhile_cons_of_neg (by simpa using hz)]
      simp [hd, if_neg hz]

/-- The test in 32 bits against the range in whole numbers. -/
theorem admits_iff (p : SMAP) (h : page < numPhysicalPages) :
    Admits p page ↔ InRange p page ∧ ¬ Overlooks p page ∨ Overclaims p page := by
  have hb := u32_lt p.baseAddr.toNat
  have hl := u32_lt p.length.toNat
  have hbase : u32 p.baseAddr.toNat ≤ p.baseAddr.toNat := Nat.mod_le _ _
  have hlen : u32 p.length.toNat ≤ p.length.toNat := Nat.mod_le _ _
  have hlow : p.baseAddr.toNat < 2 ^ 32 → u32 p.baseAddr.toNat = p.baseAddr.toNat := u32_of_lt
  have hpage : page < 1048576 := h
  have hstart : u32 (page * 4096) = page * 4096 := u32_of_lt (by omega)
  by_cases ht : p.type = 1
  · by_cases hlast : page = lastPage
    · have hend : u32 (page * 4096 + 4096) = 0 := by
        rw [hlast]
        decide
      have hlast' : page = 1048575 := hlast
      simp only [Admits, InRange, Overlooks, Overclaims, pageSize, hstart, hend, ht, if_pos hlast,
        not_not.mpr hlast, false_and, and_false, not_false_eq_true, and_true, true_and]
      omega
    · have hlast' : page ≠ 1048575 := hlast
      have hend : u32 (page * 4096 + 4096) = page * 4096 + 4096 := u32_of_lt (by omega)
      simp only [Admits, InRange, Overlooks, Overclaims, pageSize, hstart, hend, ht, hlast,
        if_false, ne_eq, not_false_eq_true, true_and, and_true]
      generalize u32 p.baseAddr.toNat = a at *
      generalize u32 p.length.toNat = l at *
      simp only [u32]
      omega
  · simp [Admits, InRange, Overclaims, ht]

theorem admitted_iff (h : page < numPhysicalPages) :
    ((∃ p ∈ descriptors smap, Admits p page) ↔ Usable smap page) ↔ ReadRight smap page := by
  constructor
  · intro hiff
    refine ⟨fun p hp hover ↦ hiff.mp ⟨p, hp, (admits_iff p h).mpr (.inr hover)⟩,
      fun p hp hover ↦ ?_⟩
    obtain ⟨q, hq, ha⟩ := hiff.mpr ⟨p, hp, hover.1⟩
    exact ⟨q, hq, (admits_iff q h).mp ha⟩
  · intro ⟨hclaims, hlooks⟩
    constructor
    · intro ⟨p, hp, ha⟩
      rcases (admits_iff p h).mp ha with ⟨hin, _⟩ | hover
      · exact ⟨p, hp, hin⟩
      · exact hclaims p hp hover
    · intro ⟨p, hp, hin⟩
      by_cases hover : Overlooks p page
      · obtain ⟨q, hq, ha⟩ := hlooks p hp hover
        exact ⟨q, hq, (admits_iff q h).mpr ha⟩
      · exact ⟨p, hp, (admits_iff p h).mpr (.inl ⟨hin, hover⟩)⟩

theorem initialInfo_of_admits (h : ∃ p ∈ descriptors smap, Admits p page) :
    initialInfo smap page =
      ⟨false, if page ≥ memUserLoPI ∧ page < memUserHiPI then .user else .kernel⟩ := by
  have hr := pageReserved_eq_false.mpr h
  simp only [initialInfo, hr, Bool.false_eq_true, if_false]
  split
  · rfl
  · rfl

theorem initialInfo_of_not_admits (h : ¬ ∃ p ∈ descriptors smap, Admits p page) :
    initialInfo smap page = ⟨true, .bios⟩ := by
  have hr := mt pageReserved_eq_false.mp h
  simp only [initialInfo, (Bool.not_eq_false _).mp hr, if_true]

theorem physicalMemoryInit_rootQuota (s : State) (smap : List SMAP) :
    ((physicalMemoryInit s smap).containers 0).quota = ((Finset.range numPhysicalPages).filter
      fun p ↦ ((physicalMemoryInit s smap).pPageInfo p).perm = .user).card := by
  rw [physicalMemoryInit_quota]
  refine congrArg Nat.cast (congrArg Finset.card (Finset.filter_congr fun p hp ↦ ?_))
  rw [physicalMemoryInit_page s smap (Finset.mem_range.mp hp)]

theorem classified_iff_admitted (s : State) (smap : List SMAP) (h : page < numPhysicalPages) :
    Classified (physicalMemoryInit s smap) smap page ↔
      ((∃ p ∈ descriptors smap, Admits p page) ↔ Usable smap page) := by
  simp only [Classified, physicalMemoryInit_page s smap h, physicalMemoryInit_rootQuota, and_true]
  by_cases ha : ∃ p ∈ descriptors smap, Admits p page
  · rw [initialInfo_of_admits ha]
    by_cases hu : Usable smap page
    · simp [ha, hu]
    · simp [ha, hu]
  · rw [initialInfo_of_not_admits ha]
    by_cases hu : Usable smap page
    · simp [ha, hu]
    · simp [ha, hu]

/-- Initialisation classifies a page as the memory map has it exactly when what it misreads of
the map in 32 bits does not matter for the page. -/
theorem classified_iff (s : State) (smap : List SMAP) (page : ℕ) (h : page < numPhysicalPages) :
    Classified (physicalMemoryInit s smap) smap page ↔ ReadRight smap page :=
  (classified_iff_admitted s smap h).trans (admitted_iff h)

section BelowFourGigabytes

variable (hlow : ∀ p ∈ descriptors smap, p.type = 1 →
  p.baseAddr.toNat + p.length.toNat < 2 ^ 32)

include hlow

/-- Where all usable memory ends below 4 GB, the loop reads the map right but for one page. -/
theorem readRight_of_low (hne : page ≠ lastPage) : ReadRight smap page := by
  refine ⟨fun p hp hover ↦ ?_, fun p hp hover ↦ ?_⟩
  · obtain ⟨ht, _, hover⟩ := hover
    rw [if_neg hne] at hover
    have hl := hlow p hp ht
    omega
  · obtain ⟨⟨ht, _, hin⟩, _, hover⟩ := hover
    have hl := hlow p hp ht
    have hlen : u32 p.length.toNat = p.length.toNat := u32_of_lt (by omega)
    omega

theorem not_readRight_last {p : SMAP} (hp : p ∈ descriptors smap) (ht : p.type = 1)
    (hbase : p.baseAddr.toNat ≤ lastPage * pageSize) : ¬ ReadRight smap lastPage := by
  intro h
  have hl := hlow p hp ht
  have hover : Overclaims p lastPage := by
    refine ⟨ht, (Nat.mod_le _ _).trans hbase, ?_⟩
    rw [if_pos rfl]
    exact .inr hl
  obtain ⟨q, hq, hqt, _, hin⟩ := h.1 p hp hover
  have hql := hlow q hq hqt
  simp only [lastPage, numPhysicalPages, pageSize] at hin
  omega

end BelowFourGigabytes

/-- The memory of an old machine: 639 KB from address zero, and nothing else. -/
def conventionalMap : List SMAP := [⟨20, 0, 0x9FC00, 1⟩, ⟨20, 0x9FC00, 0x400, 2⟩]

theorem conventionalMap_low : ∀ p ∈ descriptors conventionalMap, p.type = 1 →
    p.baseAddr.toNat + p.length.toNat < 2 ^ 32 := by
  decide

/-- The page that ends at 4 GB is taken for memory of the kernel. -/
theorem last_page_misclassified :
    ¬ Classified (physicalMemoryInit loaded conventionalMap) conventionalMap 0xFFFFF := by
  have hwrong := not_readRight_last conventionalMap_low (p := ⟨20, 0, 0x9FC00, 1⟩) (.head _) rfl
    (by decide)
  rwa [classified_iff_admitted loaded conventionalMap (by decide), admitted_iff (by decide)]

theorem classified_iff_conventionalMap :
    Classified (physicalMemoryInit loaded conventionalMap) conventionalMap 0x9E ↔
      ReadRight conventionalMap 0x9E :=
  classified_iff loaded conventionalMap 0x9E (by decide)

end StormOS.MemoryMap
