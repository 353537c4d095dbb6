import StormOS.ElfPages
import StormOS.Translation

namespace StormOS.Elf

open Library.Bytes
open PhysicalMemory hiding State
open Machine VirtualMemory UserCopy Isolation Function

def UserAccessible (pte : ℕ) : Prop := pte &&& pteP ≠ 0 ∧ pte &&& pteU ≠ 0

def SameOutside (m m' : Memory) (page : ℕ) : Prop :=
  ∀ x, x < page * 4096 ∨ page * 4096 + 4096 ≤ x → m' x = m x

variable {L : Layout} {s s₁ s' : State} {pid va page perm len kva ph zva fa : ℕ}

theorem SameOutside.trans {m₀ m₁ m₂ : Memory} (h : SameOutside m₀ m₁ page)
    (h' : SameOutside m₁ m₂ page) : SameOutside m₀ m₂ page :=
  fun x hx ↦ (h' x hx).trans (h x hx)

section Frame

variable (hpage : page < 0xF0000) (hperm : perm < 4096) (hodd : perm % 2 = 1)
  (hva : va % 4096 = 0)

include hpage hperm hodd hva

theorem ptMemSet_page (hpte : getPageTableEntryByVA s pid va = page * 4096 + perm) (c : UInt8) :
    (ptMemSet s pid va c pageSize).state =
      { s with memory := memSet s.memory (page * 4096) c 4096 } := by
  rw [ptMemSet, walk_page hpage hperm hodd hpte hva (by decide) le_rfl]

theorem ptCopyOut_page (hpte : getPageTableEntryByVA s pid va = page * 4096 + perm)
    (hlen : 0 < len) (hle : len ≤ 4096) (hrange : memUserLo ≤ va ∧ u32 (va + len) ≤ memUserHi)
    (hkva : u32 (kva + len) ≤ memUserHi) :
    (ptCopyOut s kva pid va len).state =
      { s with memory := memCopy s.memory (page * 4096) (u32 kva) len } := by
  rw [ptCopyOut, if_neg (not_not.mpr hrange), if_neg (not_lt.mpr hkva),
    walk_page hpage hperm hodd hpte hva hlen hle, Nat.add_zero]

theorem ptCopyOut_outside (kva : ℕ) (hpte : getPageTableEntryByVA s pid va = page * 4096 + perm)
    (hle : len ≤ 4096) :
    ∃ m, (ptCopyOut s kva pid va len).state = { s with memory := m } ∧
      SameOutside s.memory m page := by
  have hrefl : ∃ m, s = { s with memory := m } ∧ SameOutside s.memory m page :=
    ⟨s.memory, rfl, fun _ _ ↦ rfl⟩
  by_cases hrange : memUserLo ≤ va ∧ u32 (va + len) ≤ memUserHi
  · by_cases hkva : u32 (kva + len) ≤ memUserHi
    · by_cases hlen : len = 0
      · rw [ptCopyOut, if_neg (not_not.mpr hrange), if_neg (not_lt.mpr hkva), hlen, walk_zero]
        exact hrefl
      · refine ⟨_, ptCopyOut_page hpage hperm hodd hva hpte (Nat.pos_of_ne_zero hlen) hle hrange
          hkva, fun x hx ↦ ?_⟩
        apply memCopy_of_outside (by omega)
        rcases hx with hx | hx
        · exact .inl hx
        · exact .inr (by omega)
    · rw [ptCopyOut, if_neg (not_not.mpr hrange), if_pos (not_le.mp hkva)]
      exact hrefl
  · rw [ptCopyOut, if_pos hrange]
    exact hrefl

theorem loadPage_outside {result : ℕ}
    (ha : allocPage s pid va perm = (s₁, result, 0))
    (hpte : getPageTableEntryByVA s₁ pid va = page * 4096 + perm)
    (hsep : entryAddr s₁ pid (vaPdeIndex va) (vaPteIndex va) + 4 ≤ page * 4096 ∨
      page * 4096 + 4096 ≤ entryAddr s₁ pid (vaPdeIndex va) (vaPteIndex va))
    (hload : loadPage s pid ph perm zva va fa = some s') :
    ∃ m, s' = { s₁ with memory := m } ∧ SameOutside s₁.memory m page := by
  have hset : SameOutside s₁.memory (memSet s₁.memory (page * 4096) 0 4096) page := by
    intro x hx
    rw [memSet_apply (by omega), if_neg]
    rcases hx with hx | hx
    · omega
    · omega
  simp only [loadPage, ha, ne_eq, not_true, if_false] at hload
  split at hload
  · obtain ⟨m, hm, hout⟩ := ptCopyOut_outside hpage hperm hodd hva fa hpte
      (le_refl pageSize)
    rw [Option.some.injEq] at hload
    exact ⟨m, hload ▸ hm, hout⟩
  · rename_i hfull
    split at hload
    · rename_i hpart
      have hlen : zva - va ≤ 4096 := by
        rw [roundDown_page] at hfull
        omega
      have hpte' : getPageTableEntryByVA
          { s₁ with memory := memSet s₁.memory (page * 4096) 0 4096 } pid va =
            page * 4096 + perm := by
        rw [← hpte]
        refine translation_congr rfl fun _ ↦ load32_congr fun x hx hx' ↦ hset x ?_
        rcases hsep with hsep | hsep
        · exact .inl (by omega)
        · exact .inr (by omega)
      obtain ⟨m, hm, hout⟩ := ptCopyOut_outside hpage hperm hodd hva fa hpte' hlen
      rw [ptMemSet_page hpage hperm hodd hva hpte, Option.some.injEq] at hload
      exact ⟨m, hload ▸ hm, hset.trans hout⟩
    · rw [ptMemSet_page hpage hperm hodd hva hpte, Option.some.injEq] at hload
      exact ⟨_, hload.symm, hset⟩

end Frame

theorem perm_bounds (h : perm = 5 ∨ perm = 7) : perm < 4096 ∧ perm % 2 = 1 := by omega

/-- The frame of a page that has just been mapped, and where the entry for it is not. -/
theorem MapsPage.separate (h : Isolated L s₁) (hu : UserTable pid (vaPdeIndex va))
    (hodd : perm % 2 = 1) (hperm : perm < 4096)
    (hpte : getPageTableEntryByVA s₁ pid va = page * 4096 + perm) :
    Names s₁ (.page pid (vaPdeIndex va) (vaPteIndex va)) page ∧
      (entryAddr s₁ pid (vaPdeIndex va) (vaPteIndex va) + 4 ≤ page * 4096 ∨
        page * 4096 + 4096 ≤ entryAddr s₁ pid (vaPdeIndex va) (vaPteIndex va)) := by
  have hpresent : Present (getPageTableEntryByVA s₁ pid va) := by
    rw [hpte, present_iff]
    omega
  have hnames := names_page_of_present hu hpresent
  have hframe : getPageTableEntryByVA s₁ pid va / 4096 = page := by omega
  rw [hframe] at hnames
  have hk := vaPteIndex_lt va
  have htable := names_table hu hnames.2.2.1
  have hne : s₁.pageDirEntries pid (vaPdeIndex va) / pageSize ≠ page := by
    intro he
    rw [he] at htable
    have hslot := h.exclusive _ _ _ htable hnames
    cases hslot
  refine ⟨hnames, ?_⟩
  rw [h.entryAddr htable hk]
  omega

theorem loadPage_isolated (h : Isolated L s) (hpid : 1 ≤ pid ∧ pid < 64) (hva : va % 4096 = 0)
    (hrange : 0x40000000 ≤ va ∧ va < 0xF0000000) (hperm : perm = 5 ∨ perm = 7)
    (hload : loadPage s pid ph perm zva va fa = some s') :
    Isolated L s' ∧ ∃ page, MapsPage s s' pid va perm page ∧
      ∃ s₁ result m, allocPage s pid va perm = (s₁, result, 0) ∧ s' = { s₁ with memory := m } ∧
        Isolated L s₁ ∧ MapsPage s s₁ pid va perm page := by
  obtain ⟨hperm', hodd⟩ := perm_bounds hperm
  have hu := (userTable_iff hpid).mpr hrange
  have hlt : va < 2 ^ 32 := by omega
  rcases h.allocPage_spec hu hperm' with ⟨p, _, ha⟩ | ⟨s₁, page, result, ha, hs₁, hmap⟩
  · simp only [loadPage, ha, ne_eq, one_ne_zero, not_false_eq_true, if_true] at hload
    cases hload
  · have hpte := hmap.translation pid hpid.2 va hlt
    rw [if_pos ⟨rfl, rfl⟩] at hpte
    have hb := hmap.user.bounds
    obtain ⟨hnames, hsep⟩ := MapsPage.separate hs₁ hu hodd hperm' hpte
    obtain ⟨m, rfl, hout⟩ := loadPage_outside hb.2 hperm' hodd hva ha hpte hsep hload
    have htables := tablesAgree_of_page hs₁ hnames hout
    refine ⟨hs₁.write htables, page, ⟨hmap.user, hmap.fresh, ?_, ?_, ?_, hmap.directories⟩,
      s₁, result, m, ha, rfl, hs₁, hmap⟩
    · intro i' hi va' hva'
      rw [translation_write hs₁ htables hi hva', hmap.translation i' hi va' hva']
    · exact hmap.kernel.trans fun x _ hx ↦ hout x (.inl (by omega))
    · intro i' j' k' g hg
      refine (hmap.data i' j' k' g hg).trans fun x hx hx' ↦ hout x ?_
      have hne : g ≠ page := by
        rintro rfl
        exact hmap.fresh _ hg
      omega

end StormOS.Elf
