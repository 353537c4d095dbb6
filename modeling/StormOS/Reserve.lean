import StormOS.UserSide

namespace StormOS.UserCopy

open PhysicalMemory hiding State
open Machine VirtualMemory Isolation

/-- Pages for the unmapped part of a range, taken one after the other before anything is moved. -/
def reserve (s : State) (pid va len : ℕ) : Option State :=
  if len = 0 then some s
  else if getPageTableEntryByVA s pid va &&& pteP = 0 then
    let r := allocPage s pid va (pteP ||| pteU ||| pteW)
    if r.2.2 = 0 then reserve r.1 pid (u32 (va + chunk va len)) (len - chunk va len) else none
  else reserve s pid (u32 (va + chunk va len)) (len - chunk va len)
termination_by len
decreasing_by
  · exact Nat.sub_lt (Nat.pos_of_ne_zero ‹_›) (chunk_pos _ ‹_›)
  · exact Nat.sub_lt (Nat.pos_of_ne_zero ‹_›) (chunk_pos _ ‹_›)

/-- Every unmapped page of the range can be allocated. -/
def CanReserve (s : State) (pid va len : ℕ) : Prop := (reserve s pid va len).isSome = true

instance (s : State) (pid va len : ℕ) : Decidable (CanReserve s pid va len) :=
  inferInstanceAs (Decidable (_ = _))

def Gets (s : State) (pid va : ℕ) : Prop :=
  Present (getPageTableEntryByVA s pid va) ∨
    (allocPage s pid va (pteP ||| pteU ||| pteW)).2.2 = 0

variable {L : Layout} {s t : State} {pid va len : ℕ}

theorem canReserve_zero : CanReserve s pid va 0 := by
  rw [CanReserve, reserve, if_pos rfl]
  rfl

theorem canReserve_step (h : len ≠ 0) :
    CanReserve s pid va len ↔ Gets s pid va ∧
      CanReserve (translate s pid va).1 pid (u32 (va + chunk va len)) (len - chunk va len) := by
  rw [CanReserve, reserve, if_neg h]
  by_cases hp : Present (getPageTableEntryByVA s pid va)
  · have hne : ¬ getPageTableEntryByVA s pid va &&& pteP = 0 := hp
    simp only [translate, hne, if_false]
    exact (and_iff_right (.inl hp)).symm
  · have heq : getPageTableEntryByVA s pid va &&& pteP = 0 := not_not.mp hp
    simp only [translate, heq, if_true, Gets, hp, false_or]
    split
    · rename_i herr
      exact (and_iff_right herr).symm
    · rename_i herr
      exact iff_of_false Bool.false_ne_true fun hand ↦ herr hand.1

theorem chunk_congr {a b : ℕ} (h : a % 4096 = b % 4096) (len : ℕ) : chunk a len = chunk b len := by
  simp only [chunk, pageSize, h]

theorem translate_of_present (h : Present (getPageTableEntryByVA s pid va)) :
    translate s pid va = (s, u32 (physicalAddr s pid va)) := by
  have hne : ¬ getPageTableEntryByVA s pid va &&& pteP = 0 := h
  simp only [translate, hne, if_false]
  rfl

theorem translate_of_not_present (h : ¬ Present (getPageTableEntryByVA s pid va)) :
    translate s pid va = ((allocPage s pid va (pteP ||| pteU ||| pteW)).1,
      u32 (physicalAddr (allocPage s pid va (pteP ||| pteU ||| pteW)).1 pid va)) := by
  have heq : getPageTableEntryByVA s pid va &&& pteP = 0 := not_not.mp h
  simp only [translate, heq, if_true]
  rfl

theorem physicalAddr_lt (h : UserSide L s) (hu : UserTable pid (vaPdeIndex va))
    (hp : Present (getPageTableEntryByVA s pid va)) : physicalAddr s pid va < 2 ^ 32 := by
  obtain ⟨f, hf, _, ha⟩ := h.frame hu hp
  have hb := hf.bounds
  omega

/-- What a translation leaves when it finds or makes a mapping. -/
theorem translate_gains (h : UserSide L s) (hu : UserTable pid (vaPdeIndex va))
    (hg : Gets s pid va) :
    UserSide L (translate s pid va).1 ∧ Gains s (translate s pid va).1 pid va ∧
      (translate s pid va).2 = physicalAddr (translate s pid va).1 pid va := by
  by_cases hp : Present (getPageTableEntryByVA s pid va)
  · rw [translate_of_present hp]
    exact ⟨h, ⟨Kept.refl s, hp, fun _ _ _ _ ↦ rfl, fun _ _ _ _ ↦ rfl⟩,
      u32_of_lt (physicalAddr_lt h hu hp)⟩
  · obtain ⟨hside, hgain⟩ := h.alloc hu hp (by decide) (by decide) (hg.resolve_left hp)
    rw [translate_of_not_present hp]
    exact ⟨hside, hgain, u32_of_lt (physicalAddr_lt hside hu hgain.mapped)⟩

/-- For the allocation of pages, the states are the same to process `pid`. -/
structure Alike (pid : ℕ) (s t : State) : Prop where
  physical : t.physical = s.physical
  directories : t.pageDirEntries = s.pageDirEntries
  present : ∀ va, UserTable pid (vaPdeIndex va) →
    (Present (getPageTableEntryByVA t pid va) ↔ Present (getPageTableEntryByVA s pid va))

theorem Alike.onNothing (h : Alike pid s t) : AlikeOn ∅ s t :=
  ⟨h.physical, h.directories, fun _ hx ↦ absurd hx (Set.notMem_empty _)⟩

theorem Alike.gets (h : Alike pid s t) (hu : UserTable pid (vaPdeIndex va)) :
    Gets t pid va ↔ Gets s pid va := by
  rw [Gets, Gets, h.present va hu, (h.onNothing.allocPage pid va _).2]

theorem Alike.translate (h : Alike pid s t) (hs : UserSide L s) (ht : UserSide L t)
    (hu : UserTable pid (vaPdeIndex va)) (hg : Gets s pid va) :
    Alike pid (translate s pid va).1 (translate t pid va).1 := by
  obtain ⟨_, hgs, _⟩ := translate_gains hs hu hg
  obtain ⟨_, hgt, _⟩ := translate_gains ht hu ((h.gets hu).mpr hg)
  have hpresent (va' : ℕ) (hu' : UserTable pid (vaPdeIndex va')) :
      Present (getPageTableEntryByVA (UserCopy.translate t pid va).1 pid va') ↔
        Present (getPageTableEntryByVA (UserCopy.translate s pid va).1 pid va') := by
    rw [hgs.present_iff hu', hgt.present_iff hu', h.present va' hu']
  have hp := h.present va hu
  by_cases hps : Present (getPageTableEntryByVA s pid va)
  · refine ⟨?_, ?_, hpresent⟩
    · rw [translate_of_present hps, translate_of_present (hp.mpr hps)]
      exact h.physical
    · rw [translate_of_present hps, translate_of_present (hp.mpr hps)]
      exact h.directories
  · have halloc := (h.onNothing.allocPage pid va (pteP ||| pteU ||| pteW)).1
    refine ⟨?_, ?_, hpresent⟩
    · rw [translate_of_not_present hps, translate_of_not_present fun hpt ↦ hps (hp.mp hpt)]
      exact halloc.physical
    · rw [translate_of_not_present hps, translate_of_not_present fun hpt ↦ hps (hp.mp hpt)]
      exact halloc.directories

theorem canReserve_congr (h : Alike pid s t) (hs : UserSide L s) (ht : UserSide L t)
    (hpid : 1 ≤ pid ∧ pid < maxProcs) (hlo : memUserLo ≤ va) (hhi : va + len ≤ memUserHi)
    (hres : CanReserve s pid va len) : CanReserve t pid va len := by
  induction len using Nat.strong_induction_on generalizing s t va with
  | _ len ih =>
    by_cases h0 : len = 0
    · subst h0
      exact canReserve_zero
    · have hpos := chunk_pos va h0
      have hle := chunk_le va len
      simp only [memUserLo, memUserHi] at hlo hhi
      have hu : UserTable pid (vaPdeIndex va) := (userTable_iff hpid).mpr (by omega)
      have hnext : u32 (va + chunk va len) = va + chunk va len := u32_of_lt (by omega)
      rw [canReserve_step h0] at hres ⊢
      obtain ⟨hg, hres⟩ := hres
      have hg' := (h.gets hu).mpr hg
      rw [hnext] at hres ⊢
      exact ⟨hg', ih _ (by omega) (h.translate hs ht hu hg) (translate_gains hs hu hg).1
        (translate_gains ht hu hg').1 (by simp only [memUserLo]; omega)
        (by simp only [memUserHi]; omega) hres⟩

theorem translate_of_affords {m : ℕ} (h : Isolated L s) (hu : UserTable pid (vaPdeIndex va))
    (hafford : Affords s.physical pid (m + 2)) :
    Gets s pid va ∧ Isolated L (translate s pid va).1 ∧
      Affords (translate s pid va).1.physical pid m := by
  by_cases hp : Present (getPageTableEntryByVA s pid va)
  · rw [translate_of_present hp]
    exact ⟨.inl hp, h, hafford.mono (Nat.le_add_right m 2)⟩
  · have hcost := cost_le s pid va
    obtain ⟨s', page, result, ha, hs', -, hcosts⟩ := h.maps_afforded hu
      (by decide : pteP ||| pteU ||| pteW < 4096) (hafford.mono (by omega))
    rw [translate_of_not_present hp, Gets, ha]
    exact ⟨.inr rfl, hs', hcosts pid m (hafford.mono (by omega))⟩

/-- Two free pages and two of the quota for each page that the range touches are enough. -/
theorem canReserve_of_affords {n : ℕ} (h : Isolated L s) (hpid : 1 ≤ pid ∧ pid < maxProcs)
    (hlo : memUserLo ≤ va) (hhi : va + len ≤ memUserHi) (hn : va % 4096 + len ≤ n * 4096)
    (hafford : Affords s.physical pid (n * 2)) : CanReserve s pid va len := by
  induction n generalizing s va len with
  | zero =>
    obtain rfl : len = 0 := by omega
    exact canReserve_zero
  | succ n ih =>
    by_cases h0 : len = 0
    · rw [h0]
      exact canReserve_zero
    · simp only [memUserLo, memUserHi] at hlo hhi
      have hle := chunk_le va len
      have hu : UserTable pid (vaPdeIndex va) := (userTable_iff hpid).mpr (by omega)
      have hnext : u32 (va + chunk va len) = va + chunk va len := u32_of_lt (by omega)
      obtain ⟨hg, hs, hleft⟩ := translate_of_affords h hu (m := n * 2)
        (hafford.mono (by omega))
      rw [canReserve_step h0, hnext]
      refine ⟨hg, ?_⟩
      -- Either the range ends on this page, or the next page starts where the chunk ends.
      by_cases hlast : len - chunk va len = 0
      · rw [hlast]
        exact canReserve_zero
      · have hchunk : chunk va len = 4096 - va % 4096 := by
          simp only [chunk, pageSize] at hlast ⊢
          split at hlast
          · omega
          · exact if_neg ‹_›
        exact ih hs (by simp only [memUserLo]; omega) (by simp only [memUserHi]; omega) (by omega)
          hleft

end StormOS.UserCopy
