import StormOS.ElfRound

namespace StormOS.Elf

open Library.Bytes Library.Loops
open PhysicalMemory hiding State
open Machine VirtualMemory UserCopy Isolation Function

/-- User code of process `pid` finds byte `b` at `x`. -/
def HoldsByte (s : State) (pid x : ℕ) (b : UInt8) : Prop :=
  UserAccessible (getPageTableEntryByVA s pid x) ∧ s.memory (physicalAddr s pid x) = b

/-- What a round leaves at an address of its page, in terms of the image. -/
def roundByte (m : Memory) (p : PageLoad) (x : ℕ) : UInt8 :=
  if x < p.zva ∧ pFilesz m p.ph ≠ 0 then m (u32 (p.fa + (x - p.va))) else 0

/-- The bytes that a round copies and the header that it reads lie in kernel memory. -/
structure SourceOk (m : Memory) (p : PageLoad) : Prop where
  header : p.ph + 32 ≤ 0x40000000
  file : p.va < p.zva → pFilesz m p.ph ≠ 0 → p.fa + min 4096 (p.zva - p.va) ≤ 0x40000000
  full : p.va < roundDown p.zva pageSize → pFilesz m p.ph ≠ 0

variable {L : Layout} {m : Memory} {s s₁ s' : State} {pid page x : ℕ} {p : PageLoad}
  {pages : List PageLoad}

theorem userAccessible_iff {pte : ℕ} (h : pte % 8 = 5 ∨ pte % 8 = 7) : UserAccessible pte := by
  have hu : pteU = 2 ^ 2 := by decide
  refine ⟨?_, ?_⟩
  · rw [pteP, Nat.and_one_is_mod]
    omega
  · rw [hu, Nat.and_two_pow, Nat.testBit_eq_decide_div_mod_eq]
    have hbit : pte / 4 % 2 = 1 := by omega
    simp [hbit]

theorem physicalAddr_eq {perm : ℕ} (hpage : page < 0xF0000) (hperm : perm < 4096)
    (hpte : getPageTableEntryByVA s pid x = page * 4096 + perm) :
    physicalAddr s pid x = page * 4096 + x % 4096 := by
  have hdiv : (page * 4096 + perm) / 4096 = page := by omega
  rw [physicalAddr, hpte, land_frameMask (by omega), hdiv]

/-- The contents of the page after the copy and the fill of a round. -/
theorem loadPage_bytes {result : ℕ} (hpage : UserPage page) (hperm : p.perm < 4096)
    (hodd : p.perm % 2 = 1) (hva : p.va % 4096 = 0)
    (hrange : 0x40000000 ≤ p.va ∧ p.va < 0xF0000000)
    (ha : allocPage s pid p.va p.perm = (s₁, result, 0))
    (hpte : getPageTableEntryByVA s₁ pid p.va = page * 4096 + p.perm)
    (hsep : entryAddr s₁ pid (vaPdeIndex p.va) (vaPteIndex p.va) + 4 ≤ page * 4096 ∨
      page * 4096 + 4096 ≤ entryAddr s₁ pid (vaPdeIndex p.va) (vaPteIndex p.va))
    (hm : AgreeOn m s₁.memory 0 0x40000000) (hsrc : SourceOk m p)
    (hload : p.run pid s = some s') (hx : p.va ≤ x ∧ x < p.va + 4096) :
    s'.memory (page * 4096 + x % 4096) = roundByte m p x := by
  have hb := hpage.bounds
  have hoff : x % 4096 = x - p.va := by omega
  have hfilesz : pFilesz s₁.memory p.ph = pFilesz m p.ph :=
    hm.load32 (by omega) (by have h := hsrc.header; omega)
  have hrd := roundDown_page p.zva
  have hfullrange : memUserLo ≤ p.va ∧ u32 (p.va + 4096) ≤ memUserHi := by
    have hu : u32 (p.va + 4096) = p.va + 4096 := u32_of_lt (by omega)
    rw [hu]
    simp only [memUserLo, memUserHi]
    omega
  have hset (y : ℕ) : memSet s₁.memory (page * 4096) 0 4096 y =
      if page * 4096 ≤ y ∧ y < page * 4096 + 4096 then 0 else s₁.memory y :=
    memSet_apply (by omega) 0 y
  rw [PageLoad.run] at hload
  simp only [loadPage, ha, ne_eq, not_true, if_false] at hload
  by_cases hfull : p.va < roundDown p.zva pageSize
  · have hne := hsrc.full hfull
    have hfile := hsrc.file (by omega) hne
    have hu : u32 p.fa = p.fa := u32_of_lt (by omega)
    have hkva : u32 (p.fa + 4096) ≤ memUserHi := by
      rw [u32_of_lt (by omega)]
      simp only [memUserHi]
      omega
    rw [if_pos hfull, ptCopyOut_page hb.2 hperm hodd hva hpte (by decide) le_rfl hfullrange hkva,
      Option.some.injEq] at hload
    have hsource : p.fa + (x - p.va) = p.fa + (page * 4096 + x % 4096 - page * 4096) := by omega
    rw [← hload]
    dsimp only [pageSize]
    rw [hu, memCopy_apply (by omega) (by omega) (.inr (by omega)), if_pos (by omega), roundByte,
      if_pos ⟨by omega, hne⟩, u32_of_lt (by omega), hm _ (by omega) (by omega), hsource]
  · rw [if_neg hfull, hfilesz] at hload
    by_cases hpart : p.va < p.zva ∧ pFilesz m p.ph ≠ 0
    · have hfile := hsrc.file hpart.1 hpart.2
      have hu : u32 p.fa = p.fa := u32_of_lt (by omega)
      have hlen : p.zva - p.va ≤ 4096 := by omega
      have hkva : u32 (p.fa + (p.zva - p.va)) ≤ memUserHi := by
        rw [u32_of_lt (by omega)]
        simp only [memUserHi]
        omega
      have hpartrange : memUserLo ≤ p.va ∧ u32 (p.va + (p.zva - p.va)) ≤ memUserHi := by
        rw [u32_of_lt (by omega)]
        simp only [memUserLo, memUserHi]
        omega
      have hpte' : getPageTableEntryByVA
          { s₁ with memory := memSet s₁.memory (page * 4096) 0 4096 } pid p.va =
            page * 4096 + p.perm := by
        rw [← hpte]
        refine translation_congr rfl fun _ ↦ load32_congr fun y hy hy' ↦ ?_
        dsimp only
        rw [hset, if_neg (by omega)]
      rw [if_pos hpart, ptMemSet_page hb.2 hperm hodd hva hpte,
        ptCopyOut_page hb.2 hperm hodd hva hpte' (by omega) hlen hpartrange hkva,
        Option.some.injEq] at hload
      have hsource : p.fa + (x - p.va) = p.fa + (page * 4096 + x % 4096 - page * 4096) := by omega
      rw [← hload]
      dsimp only
      rw [hu, memCopy_apply (by omega) (by omega) (.inr (by omega))]
      by_cases hxz : x < p.zva
      · rw [if_pos (by omega), roundByte, if_pos ⟨hxz, hpart.2⟩, u32_of_lt (by omega),
          hset, if_neg (by omega), hm _ (by omega) (by omega), hsource]
      · rw [if_neg (by omega), roundByte, if_neg (fun h ↦ hxz h.1), hset, if_pos (by omega)]
    · rw [if_neg hpart, ptMemSet_page hb.2 hperm hodd hva hpte, Option.some.injEq] at hload
      rw [← hload]
      dsimp only
      rw [hset, if_pos (by omega), roundByte, if_neg]
      rintro ⟨hxz, hne⟩
      exact hpart ⟨by omega, hne⟩

def PageLoad.Covers (p : PageLoad) (x : ℕ) : Prop := p.va ≤ x ∧ x < p.va + 4096

instance (p : PageLoad) (x : ℕ) : Decidable (p.Covers x) := inferInstanceAs (Decidable (_ ∧ _))

def afterRound (m : Memory) (x : ℕ) (b : Option UInt8) (p : PageLoad) : Option UInt8 :=
  if p.Covers x then some (roundByte m p x) else b

/-- User code finds the byte at `x` that is known, if any. -/
def Holds (s : State) (pid x : ℕ) (b : Option UInt8) : Prop := ∀ v, b = some v → HoldsByte s pid x v

theorem holds_step {b : Option UInt8} (h : Isolated L s) (hpid : 1 ≤ pid ∧ pid < 64)
    (hm : AgreeOn m s.memory 0 0x40000000) (hsrc : SourceOk m p) (hva : p.va % 4096 = 0)
    (hrange : 0x40000000 ≤ p.va ∧ p.va < 0xF0000000) (hperm : p.perm = 5 ∨ p.perm = 7)
    (hload : p.run pid s = some s') (hx : 0x40000000 ≤ x ∧ x < 0xF0000000)
    (hb : Holds s pid x b) : Holds s' pid x (afterRound m x b p) := by
  obtain ⟨hs', page, hmap, s₁, result, m', ha, hs'eq, hs₁, hmap₁⟩ :=
    loadPage_isolated h hpid hva hrange hperm hload
  obtain ⟨hperm', hodd⟩ := perm_bounds hperm
  have hlt : x < 2 ^ 32 := by omega
  have hpage := hmap.user.bounds
  have hpte := hmap.translation pid hpid.2 x hlt
  intro v hv
  rw [afterRound] at hv
  by_cases hcov : p.Covers x
  · rw [if_pos hcov, Option.some.injEq] at hv
    have hsame : x / 4096 = p.va / 4096 := by
      obtain ⟨hlo, hhi⟩ := hcov
      omega
    have hpte₁ := hmap₁.translation pid hpid.2 p.va (by omega)
    rw [if_pos ⟨rfl, hsame⟩] at hpte
    rw [if_pos ⟨rfl, rfl⟩] at hpte₁
    have hu := (userTable_iff hpid).mpr hrange
    have hsep := (MapsPage.separate hs₁ hu hodd hperm' hpte₁).2
    refine ⟨userAccessible_iff (by omega), ?_⟩
    rw [physicalAddr_eq hpage.2 hperm' hpte, ← hv]
    exact loadPage_bytes hmap.user hperm' hodd hva hrange ha hpte₁ hsep (hm.trans hmap₁.kernel)
      hsrc hload hcov
  · rw [if_neg hcov] at hv
    have hne : ¬ (pid = pid ∧ x / 4096 = p.va / 4096) := by
      rintro ⟨_, he⟩
      exact hcov ⟨by omega, by omega⟩
    obtain ⟨hacc, hbyte⟩ := hb v hv
    rw [if_neg hne] at hpte
    obtain ⟨f, hf, haddr⟩ := physicalAddr_of_present ((userTable_iff hpid).mpr hx) hacc.1
    have haddr' : physicalAddr s' pid x = physicalAddr s pid x := by
      rw [physicalAddr, physicalAddr, hpte]
    refine ⟨hpte ▸ hacc, ?_⟩
    rw [haddr', ← hbyte, haddr]
    exact hmap.data _ _ _ _ hf _ (by omega) (by omega)

/-- The bytes of the last round on the page of `x` are what user code finds after the load. -/
theorem holds_loadAll {b : Option UInt8} (h : Isolated L s) (hpid : 1 ≤ pid ∧ pid < 64)
    (hm : AgreeOn m s.memory 0 0x40000000) (hsrc : ∀ p ∈ pages, SourceOk m p)
    (hpages : ∀ p ∈ pages, p.va % 4096 = 0 ∧ p.va < 2 ^ 32 ∧ (p.perm = 5 ∨ p.perm = 7))
    (hrange : ∀ p ∈ pages, 0x40000000 ≤ p.va ∧ p.va < 0xF0000000)
    (hload : loadAll pid s pages = some s') (hx : 0x40000000 ≤ x ∧ x < 0xF0000000)
    (hb : Holds s pid x b) : Holds s' pid x (pages.foldl (afterRound m x) b) := by
  induction pages generalizing s b with
  | nil =>
    rw [loadAll_nil, Option.some.injEq] at hload
    exact hload ▸ hb
  | cons p pages ih =>
    rw [loadAll_cons, Option.bind_eq_some_iff] at hload
    obtain ⟨s₁, hp, hload⟩ := hload
    obtain ⟨haligned, _, hperm⟩ := hpages p (by simp)
    obtain ⟨hiso, _, hmap, _⟩ := loadPage_isolated h hpid haligned (hrange p (by simp)) hperm hp
    have htail (q : PageLoad) (hq : q ∈ pages) : q ∈ p :: pages := List.mem_cons_of_mem p hq
    exact ih hiso (hm.trans hmap.kernel) (fun q hq ↦ hsrc q (htail q hq))
      (fun q hq ↦ hpages q (htail q hq)) (fun q hq ↦ hrange q (htail q hq)) hload
      (holds_step h hpid hm (hsrc p (by simp)) haligned (hrange p (by simp)) hperm hp hx hb)

end StormOS.Elf
