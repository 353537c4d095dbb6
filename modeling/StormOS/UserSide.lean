import StormOS.SingleMapping
import StormOS.CopyIn

namespace StormOS.Isolation

open Library.Bytes Library.Loops
open PhysicalMemory hiding State
open Machine VirtualMemory Function

/-- The states agree in everything but bytes outside `A`. -/
structure AlikeOn (A : Set ℕ) (s t : State) : Prop where
  physical : t.physical = s.physical
  directories : t.pageDirEntries = s.pageDirEntries
  memory : ∀ x ∈ A, t.memory x = s.memory x

section Alike

variable {A : Set ℕ} {s t : State} {i j k va page perm : ℕ}

theorem AlikeOn.store (h : AlikeOn A s t) (a v : ℕ) :
    AlikeOn A { s with memory := store32 s.memory a v }
      { t with memory := store32 t.memory a v } := by
  refine ⟨h.physical, h.directories, fun x hx ↦ ?_⟩
  simp only [store32]
  split
  · rfl
  · exact h.memory x hx

theorem AlikeOn.entryAddr (h : AlikeOn A s t) (i j k : ℕ) :
    entryAddr t i j k = entryAddr s i j k := by
  rw [VirtualMemory.entryAddr, VirtualMemory.entryAddr, h.directories]

theorem AlikeOn.setPageTableEntry (h : AlikeOn A s t) (i j k page perm : ℕ) :
    AlikeOn A (setPageTableEntry s i j k page perm) (setPageTableEntry t i j k page perm) := by
  rw [VirtualMemory.setPageTableEntry, VirtualMemory.setPageTableEntry, h.entryAddr]
  exact h.store _ _

theorem AlikeOn.setPageDirEntry (h : AlikeOn A s t) (i j page : ℕ) :
    AlikeOn A (setPageDirEntry s i j page) (setPageDirEntry t i j page) := by
  refine ⟨h.physical, ?_, h.memory⟩
  simp only [VirtualMemory.setPageDirEntry, setPde, h.directories]

theorem AlikeOn.clearPageTable (h : AlikeOn A s t) (i j : ℕ) :
    AlikeOn A (clearPageTable s i j) (clearPageTable t i j) := by
  have hloop (n : ℕ) : AlikeOn A (forUpTo (fun k s ↦ removePageTableEntry s i j k) n s)
      (forUpTo (fun k s ↦ removePageTableEntry s i j k) n t) := by
    induction n with
    | zero => exact h
    | succ n ih =>
      rw [forUpTo_succ, forUpTo_succ, removePageTableEntry, removePageTableEntry, ih.entryAddr]
      exact ih.store _ _
  exact hloop 1024

theorem AlikeOn.setPhysical (h : AlikeOn A s t) (p : PhysicalMemory.State) :
    AlikeOn A { s with physical := p } { t with physical := p } :=
  ⟨rfl, h.directories, h.memory⟩

theorem AlikeOn.mapPage (h : AlikeOn A s t) (i va page perm : ℕ) :
    AlikeOn A (mapPage s i va page perm).1 (mapPage t i va page perm).1 ∧
      (mapPage t i va page perm).2 = (mapPage s i va page perm).2 := by
  by_cases ht : s.pageDirEntries i (vaPdeIndex va) = 0
  · obtain ⟨p, ha⟩ : ∃ p, containerAlloc s.physical i = p := ⟨_, rfl⟩
    have ht' : t.pageDirEntries i (vaPdeIndex va) = 0 := by rwa [h.directories]
    have ha' : containerAlloc t.physical i = p := by rwa [h.physical]
    have hp := h.setPhysical p.1
    by_cases htable : p.2 = 0
    · simp only [VirtualMemory.mapPage, ht, ht', ne_eq, not_true, if_false, allocPageTable, ha, ha',
        htable, if_true, and_true]
      exact hp
    · simp only [VirtualMemory.mapPage, ht, ht', ne_eq, not_true, if_false, allocPageTable, ha, ha',
        htable, not_false_eq_true, if_true, and_true]
      exact ((hp.setPageDirEntry i _ _).clearPageTable i _).setPageTableEntry i _ _ _ _
  · simp only [VirtualMemory.mapPage, ht, ne_eq, not_false_eq_true, if_true, h.directories,
      and_true]
    exact h.setPageTableEntry i _ _ _ _

/-- `AllocPage` looks at no byte of memory, and what it does to one byte depends on no other. -/
theorem AlikeOn.allocPage (h : AlikeOn A s t) (i va perm : ℕ) :
    AlikeOn A (allocPage s i va perm).1 (allocPage t i va perm).1 ∧
      (allocPage t i va perm).2 = (allocPage s i va perm).2 := by
  obtain ⟨p, ha⟩ : ∃ p, containerAlloc s.physical i = p := ⟨_, rfl⟩
  have ha' : containerAlloc t.physical i = p := by rwa [h.physical]
  have hp := h.setPhysical p.1
  by_cases hpage : p.2 = 0
  · simp only [VirtualMemory.allocPage, ha, ha', hpage, if_true, and_true]
    exact hp
  · obtain ⟨hm, hr⟩ := hp.mapPage i va p.2 perm
    simp only [VirtualMemory.allocPage, ha, ha', hpage, if_false, hr]
    split
    · exact ⟨hm, rfl⟩
    · exact ⟨hm, rfl⟩

end Alike

/-- Byte `x` lies in a page that the memory map leaves to processes. -/
def OnUserPage (s : State) (x : ℕ) : Prop := (s.physical.pPageInfo (x / 4096)).perm = .user

/-- What is left of the isolation invariant whatever is written to kernel memory. -/
def UserSide (L : Layout) (s : State) : Prop :=
  ∃ m, Isolated L { s with memory := m } ∧ ∀ x, OnUserPage s x → m x = s.memory x

/-- The later state maps what the earlier one did, and to the same frames. -/
structure Kept (s t : State) : Prop where
  perm : ∀ p, (t.physical.pPageInfo p).perm = (s.physical.pPageInfo p).perm
  translation : ∀ i va, UserTable i (vaPdeIndex va) → Present (getPageTableEntryByVA s i va) →
    getPageTableEntryByVA t i va = getPageTableEntryByVA s i va

variable {L : Layout} {s t u : State} {m : Memory} {i i' f va va' perm : ℕ}

theorem Kept.refl (s : State) : Kept s s := ⟨fun _ ↦ rfl, fun _ _ _ _ ↦ rfl⟩

theorem Kept.present (h : Kept s t) (hu : UserTable i (vaPdeIndex va))
    (hp : Present (getPageTableEntryByVA s i va)) : Present (getPageTableEntryByVA t i va) := by
  rwa [h.translation i va hu hp]

theorem Kept.physicalAddr (h : Kept s t) (hu : UserTable i (vaPdeIndex va))
    (hp : Present (getPageTableEntryByVA s i va)) :
    physicalAddr t i va = physicalAddr s i va := by
  rw [Isolation.physicalAddr, Isolation.physicalAddr, h.translation i va hu hp]

theorem Kept.trans (h : Kept s t) (h' : Kept t u) : Kept s u :=
  ⟨fun p ↦ (h'.perm p).trans (h.perm p), fun i va hu hp ↦
    (h'.translation i va hu (h.present hu hp)).trans (h.translation i va hu hp)⟩

theorem Kept.onUserPage (h : Kept s t) {x : ℕ} : OnUserPage t x ↔ OnUserPage s x := by
  rw [OnUserPage, OnUserPage, h.perm]

theorem UserTable.lt (h : UserTable i (vaPdeIndex va)) : i < 64 ∧ va < 2 ^ 32 := by
  have hb := h.bounds
  rw [vaPdeIndex_eq] at hb
  omega

theorem Isolated.userSide (h : Isolated L s) : UserSide L s := ⟨s.memory, h, fun _ _ ↦ rfl⟩

/-- User addresses are translated by tables in user pages. -/
theorem translation_userSide (h : Isolated L { s with memory := m })
    (hm : ∀ x, OnUserPage s x → m x = s.memory x) (hu : UserTable i (vaPdeIndex va)) :
    getPageTableEntryByVA { s with memory := m } i va = getPageTableEntryByVA s i va := by
  refine translation_congr rfl fun hp ↦ load32_congr fun x hx hx' ↦ hm x ?_
  have hf := names_table (s := { s with memory := m }) hu hp
  have ha : entryAddr s i (vaPdeIndex va) (vaPteIndex va) = _ := h.entryAddr hf (vaPteIndex_lt va)
  have hk := vaPteIndex_lt va
  have hpage : x / 4096 = s.pageDirEntries i (vaPdeIndex va) / pageSize := by
    rw [ha] at hx hx'
    dsimp only at hx hx'
    omega
  rw [OnUserPage, hpage]
  exact (h.owned _ _ hf).2.2

theorem physicalAddr_userSide (h : Isolated L { s with memory := m })
    (hm : ∀ x, OnUserPage s x → m x = s.memory x) (hu : UserTable i (vaPdeIndex va)) :
    physicalAddr { s with memory := m } i va = physicalAddr s i va := by
  rw [physicalAddr, physicalAddr, translation_userSide h hm hu]

theorem UserSide.translation_kernelWrite (h : UserSide L s)
    (hm : ∀ x, OnUserPage s x → m x = s.memory x) (hu : UserTable i (vaPdeIndex va)) :
    getPageTableEntryByVA { s with memory := m } i va = getPageTableEntryByVA s i va := by
  obtain ⟨m₀, hiso, hm₀⟩ := h
  have hm₁ (x : ℕ) (hx : OnUserPage s x) : m₀ x = m x := (hm₀ x hx).trans (hm x hx).symm
  rw [← translation_userSide hiso hm₀ hu]
  exact (translation_userSide (s := { s with memory := m }) hiso hm₁ hu).symm

theorem UserSide.frame (h : UserSide L s) (hu : UserTable i (vaPdeIndex va))
    (hp : Present (getPageTableEntryByVA s i va)) :
    ∃ f, UserPage f ∧ (s.physical.pPageInfo f).perm = .user ∧
      physicalAddr s i va = f * 4096 + va % 4096 := by
  obtain ⟨m, hiso, hm⟩ := h
  rw [← translation_userSide hiso hm hu] at hp
  obtain ⟨f, hf, ha⟩ := physicalAddr_of_present hu hp
  rw [physicalAddr_userSide hiso hm hu] at ha
  exact ⟨f, (hiso.owned _ _ hf).1, (hiso.owned _ _ hf).2.2, ha⟩

theorem UserSide.exclusive (h : UserSide L s) (hu : UserTable i (vaPdeIndex va))
    (hp : Present (getPageTableEntryByVA s i va)) (hu' : UserTable i' (vaPdeIndex va'))
    (hp' : Present (getPageTableEntryByVA s i' va'))
    (hf : physicalAddr s i va / 4096 = physicalAddr s i' va' / 4096) :
    i = i' ∧ va / 4096 = va' / 4096 := by
  obtain ⟨m, hiso, hm⟩ := h
  rw [← translation_userSide hiso hm hu] at hp
  rw [← translation_userSide hiso hm hu'] at hp'
  rw [← physicalAddr_userSide hiso hm hu, ← physicalAddr_userSide hiso hm hu'] at hf
  obtain ⟨f, hn, ha⟩ := physicalAddr_of_present hu hp
  obtain ⟨f', hn', ha'⟩ := physicalAddr_of_present hu' hp'
  have hff : f = f' := by omega
  subst hff
  have hσ := hiso.exclusive _ _ _ hn hn'
  injection hσ with hi hj hk
  rw [← page_index_eq va, ← page_index_eq va', hj, hk]
  exact ⟨hi, rfl⟩

/-- Writes to one page that is mapped, and to kernel memory. -/
theorem UserSide.write (h : UserSide L s) (hu : UserTable i (vaPdeIndex va))
    (hp : Present (getPageTableEntryByVA s i va))
    (hm : ∀ x, OnUserPage s x → x / 4096 ≠ physicalAddr s i va / 4096 → m x = s.memory x) :
    UserSide L { s with memory := m } ∧ Kept s { s with memory := m } ∧
      ∀ i' va', UserTable i' (vaPdeIndex va') →
        getPageTableEntryByVA { s with memory := m } i' va' = getPageTableEntryByVA s i' va' := by
  obtain ⟨m₀, hiso, hm₀⟩ := h
  rw [← translation_userSide hiso hm₀ hu] at hp
  obtain ⟨f, hf, ha⟩ := physicalAddr_of_present hu hp
  rw [physicalAddr_userSide hiso hm₀ hu] at ha
  have htables : TablesAgree L { s with memory := m₀ }
      (fun x ↦ if x / 4096 = f then m x else m₀ x) :=
    tablesAgree_of_page hiso hf fun x hx ↦ if_neg (by omega)
  have hiso' := hiso.write htables
  have hm' (x : ℕ) (hx : OnUserPage s x) : (if x / 4096 = f then m x else m₀ x) = m x := by
    split
    · rfl
    · rw [hm₀ x hx, hm x hx (by omega)]
  have htrans (i' va' : ℕ) (hu' : UserTable i' (vaPdeIndex va')) :
      getPageTableEntryByVA { s with memory := m } i' va' = getPageTableEntryByVA s i' va' := by
    have hshadow := translation_userSide (s := { s with memory := m }) hiso' hm' hu'
    rw [← hshadow, ← translation_userSide hiso hm₀ hu']
    exact translation_write hiso htables hu'.lt.1 hu'.lt.2
  exact ⟨⟨_, hiso', hm'⟩, ⟨fun _ ↦ rfl, fun i' va' hu' _ ↦ htrans i' va' hu'⟩, htrans⟩

/-- The later state also maps the page of `va`, and for the rest processes see no difference. -/
structure Gains (s t : State) (i va : ℕ) : Prop extends Kept s t where
  mapped : Present (getPageTableEntryByVA t i va)
  others : ∀ i' va', UserTable i' (vaPdeIndex va') → ¬ (i' = i ∧ va' / 4096 = va / 4096) →
    getPageTableEntryByVA t i' va' = getPageTableEntryByVA s i' va'
  data : ∀ i' va', UserTable i' (vaPdeIndex va') → Present (getPageTableEntryByVA s i' va') →
    t.memory (physicalAddr s i' va') = s.memory (physicalAddr s i' va')

theorem Gains.present_iff (h : Gains s t i va) (hu : UserTable i (vaPdeIndex va')) :
    Present (getPageTableEntryByVA t i va') ↔
      va' / 4096 = va / 4096 ∨ Present (getPageTableEntryByVA s i va') := by
  by_cases he : va' / 4096 = va / 4096
  · rw [UserCopy.translation_page he]
    exact iff_of_true h.mapped (.inl he)
  · rw [h.others i va' hu fun hand ↦ he hand.2, or_iff_right he]

/-- An allocation that succeeds, in a state whose kernel memory is unknown. -/
theorem UserSide.alloc (h : UserSide L s) (hu : UserTable i (vaPdeIndex va))
    (hnp : ¬ Present (getPageTableEntryByVA s i va)) (hperm : perm < 4096) (hodd : perm % 2 = 1)
    (herr : (allocPage s i va perm).2.2 = 0) :
    UserSide L (allocPage s i va perm).1 ∧ Gains s (allocPage s i va perm).1 i va := by
  obtain ⟨m, hiso, hm⟩ := h
  obtain ⟨halike, hr⟩ := AlikeOn.allocPage (A := {x | OnUserPage s x}) (s := s)
    (t := { s with memory := m }) ⟨rfl, rfl, hm⟩ i va perm
  rw [← hr] at herr
  obtain ⟨hiso', page, hmaps, hspends⟩ := hiso.allocPage_spends hu hperm herr
  obtain ⟨s', hs'⟩ : ∃ s', (allocPage s i va perm).1 = s' := ⟨_, rfl⟩
  obtain ⟨t', ht'⟩ : ∃ t', (allocPage { s with memory := m } i va perm).1 = t' := ⟨_, rfl⟩
  rw [hs', ht'] at halike
  rw [ht'] at hiso' hmaps hspends
  rw [hs']
  have heq : { s' with memory := t'.memory } = t' := by
    rw [← halike.physical, ← halike.directories]
  have hkeep (p : ℕ) : (s'.physical.pPageInfo p).perm = (s.physical.pPageInfo p).perm := by
    rw [← halike.physical]
    exact hspends.perm p
  have hm' (x : ℕ) (hx : OnUserPage s' x) : t'.memory x = s'.memory x := by
    rw [OnUserPage, hkeep] at hx
    exact halike.memory x hx
  have hside : Isolated L { s' with memory := t'.memory } := by rwa [heq]
  have htrans (i' va' : ℕ) (hu' : UserTable i' (vaPdeIndex va')) :
      getPageTableEntryByVA s' i' va' =
        if i' = i ∧ va' / 4096 = va / 4096 then page * 4096 + perm
        else getPageTableEntryByVA s i' va' := by
    rw [← translation_userSide hside hm' hu', heq, hmaps.translation i' hu'.lt.1 va' hu'.lt.2,
      translation_userSide hiso hm hu']
  refine ⟨⟨_, hside, hm'⟩, ⟨hkeep, fun i' va' hu' hp ↦ ?_⟩, ?_, fun i' va' hu' hne ↦ ?_,
    fun i' va' hu' hp ↦ ?_⟩
  · rw [htrans i' va' hu', if_neg]
    rintro ⟨rfl, he⟩
    rw [UserCopy.translation_page he] at hp
    exact hnp hp
  · rw [htrans i va hu, if_pos ⟨rfl, rfl⟩, Isolation.present_iff]
    omega
  · rw [htrans i' va' hu', if_neg hne]
  · obtain ⟨f, _, hf, ha⟩ := UserSide.frame ⟨m, hiso, hm⟩ hu' hp
    have hon : OnUserPage s (physicalAddr s i' va') := by
      have hpage : physicalAddr s i' va' / 4096 = f := by omega
      rwa [OnUserPage, hpage]
    have hon' : OnUserPage s' (physicalAddr s i' va') := by rwa [OnUserPage, hkeep]
    rw [← hm' _ hon', ← hm _ hon]
    rw [← translation_userSide hiso hm hu'] at hp
    obtain ⟨g, hg, hga⟩ := physicalAddr_of_present hu' hp
    rw [physicalAddr_userSide hiso hm hu'] at hga
    exact hmaps.data _ _ _ g hg _ (by omega) (by omega)

end StormOS.Isolation
