import StormOS.ElfContained
import StormOS.AddressSpaces

namespace StormOS.Elf

open PhysicalMemory hiding State
open Library.Bytes AddressSpaces Machine VirtualMemory Isolation Function

variable {L : Layout} {s s' : State} {p : PhysicalMemory.State} {id pid n va perm : ℕ}

theorem loadPage_returns {s₁ : State} {result : ℕ} (ph zva fa : ℕ)
    (ha : allocPage s pid va perm = (s₁, result, 0)) :
    ∃ s', loadPage s pid ph perm zva va fa = some s' := by
  simp only [loadPage, ha, ne_eq, not_true, if_false]
  split
  · exact ⟨_, rfl⟩
  · split
    · exact ⟨_, rfl⟩
    · exact ⟨_, rfl⟩

/-- The pages that a list of rounds takes: one for each round, and one for each table that the
process does not have yet. -/
def demand (s : State) (pid : ℕ) (pages : List PageLoad) : ℕ :=
  pages.length + ((pages.map fun p ↦ vaPdeIndex p.va).toFinset.filter
    fun j ↦ s.pageDirEntries pid j = 0).card

theorem cost_le_demand (s : State) (pid : ℕ) (p : PageLoad) (pages : List PageLoad) :
    cost s pid p.va ≤ demand s pid (p :: pages) := by
  rw [demand, cost, List.length_cons]
  by_cases ht : s.pageDirEntries pid (vaPdeIndex p.va) = 0
  · rw [if_pos ht]
    have hmem : vaPdeIndex p.va ∈ ((p :: pages).map fun p ↦ vaPdeIndex p.va).toFinset.filter
        fun j ↦ s.pageDirEntries pid j = 0 := by simp [ht]
    have hpos := Finset.card_pos.mpr ⟨_, hmem⟩
    omega
  · rw [if_neg ht]
    omega

theorem demand_step {s₁ : State} {p : PageLoad} (pages : List PageLoad)
    (h : ∀ j, s₁.pageDirEntries pid j = 0 ↔ s.pageDirEntries pid j = 0 ∧ j ≠ vaPdeIndex p.va) :
    demand s₁ pid pages + cost s pid p.va ≤ demand s pid (p :: pages) := by
  have hsub : (pages.map fun p ↦ vaPdeIndex p.va).toFinset.filter
        (fun j ↦ s₁.pageDirEntries pid j = 0) ⊆
      (((p :: pages).map fun p ↦ vaPdeIndex p.va).toFinset.filter
        fun j ↦ s.pageDirEntries pid j = 0).erase (vaPdeIndex p.va) := by
    intro j hj
    simp only [Finset.mem_filter, List.mem_toFinset, h] at hj
    simp only [Finset.mem_erase, Finset.mem_filter, List.mem_toFinset, List.map_cons,
      List.mem_cons]
    exact ⟨hj.2.2, .inr hj.1, hj.2.1⟩
  have hcard := Finset.card_le_card hsub
  rw [demand, demand, cost, List.length_cons]
  by_cases ht : s.pageDirEntries pid (vaPdeIndex p.va) = 0
  · rw [if_pos ht]
    have hmem : vaPdeIndex p.va ∈ ((p :: pages).map fun p ↦ vaPdeIndex p.va).toFinset.filter
        fun j ↦ s.pageDirEntries pid j = 0 := by simp [ht]
    have hpos := Finset.card_pos.mpr ⟨_, hmem⟩
    rw [Finset.card_erase_of_mem hmem] at hcard
    omega
  · rw [if_neg ht]
    have herase := Finset.card_erase_le (s := ((p :: pages).map fun p ↦
      vaPdeIndex p.va).toFinset.filter fun j ↦ s.pageDirEntries pid j = 0) (a := vaPdeIndex p.va)
    omega

theorem loadAll_returns {pages : List PageLoad} (h : Contained L pid s) (hpid : pid < 64)
    (hpages : ∀ p ∈ pages, p.va % 4096 = 0 ∧ p.va < 2 ^ 32 ∧ (p.perm = 5 ∨ p.perm = 7))
    (hafford : Affords s.physical pid (demand s pid pages)) :
    ∃ s', loadAll pid s pages = some s' := by
  induction pages generalizing s with
  | nil => exact ⟨s, rfl⟩
  | cons p pages ih =>
    obtain ⟨haligned, hva, hperm⟩ := hpages p (by simp)
    obtain ⟨s₁, result, ha, hcosts, hdirs⟩ := allocPage_affords p.perm h.shortcut h.cursor
      (hafford.mono (cost_le_demand s pid p pages))
    obtain ⟨s₂, hs₂⟩ := loadPage_returns p.ph p.zva p.fa ha
    obtain ⟨hspread, s₁', result', m, ha', rfl⟩ := h.loadPage hpid hva haligned hperm hs₂
    rw [ha] at ha'
    obtain ⟨rfl, _⟩ := Prod.mk.inj ha'
    have hstep := demand_step pages hdirs
    obtain ⟨s', hs'⟩ := ih hspread.contained (fun q hq ↦ hpages q (List.mem_cons_of_mem p hq))
      (hcosts pid _ (hafford.mono hstep))
    refine ⟨s', ?_⟩
    rw [loadAll_cons, PageLoad.run, hs₂]
    exact hs'

theorem demand_le (s : State) (pid : ℕ) (pages : List PageLoad) :
    demand s pid pages ≤ 2 * pages.length := by
  have hfilter := Finset.card_filter_le (pages.map fun p ↦ vaPdeIndex p.va).toFinset
    fun j ↦ s.pageDirEntries pid j = 0
  have hset := List.toFinset_card_le (pages.map fun p ↦ vaPdeIndex p.va)
  rw [List.length_map] at hset
  rw [demand]
  omega

def word (n : ℕ) : List UInt8 :=
  [UInt8.ofNat n, UInt8.ofNat (n / 256), UInt8.ofNat (n / 65536), UInt8.ofNat (n / 16777216)]

def loadHeader (offset va filesz memsz flags : ℕ) : List UInt8 :=
  [elfProgLoad, offset, va, va, filesz, memsz, flags, pageSize].flatMap word

def elfFile (entry : ℕ) (headers : List (List UInt8)) : List UInt8 :=
  word elfMagic ++ List.replicate 20 0 ++ word entry ++ word 52 ++
    word (52 + headers.length * proghdrSize) ++ List.replicate 8 0 ++ word headers.length ++
    [0, 0, 1, 0] ++ headers.flatten ++ List.replicate 44 0 ++ word elfShtStrtab ++
    List.replicate 32 0

def bootedWith (file : List UInt8) : State :=
  place (start lowLayout (pageMap 4) (fun _ ↦ ⟨(4 : ℕ), 0, 0, 0, true⟩) (fun _ ↦ 0) fun _ _ ↦ 0)
    0x10000000 file

theorem bootedWith_isolated {file : List UInt8} (h : file.length ≤ 4096) :
    Isolated lowLayout (bootedWith file) := by
  have hl : lowLayout.pageDirIdentity + 4096 * 1024 ≤ 0x10000000 := by decide
  exact place_isolated (start_isolated ..) (by omega) (.inr hl)

theorem bootedWith_affords (file : List UInt8) (id : ℕ) {n : ℕ} (hn : n ≤ 4) :
    Affords (bootedWith file).physical id n := by
  rw [bootedWith, place_physical]
  exact (start_affords (n := 4) lowLayout (fun _ ↦ 0) (fun _ _ ↦ 0) (by decide)).mono hn

theorem bootedWith_pde (file : List UInt8) {i j : ℕ} (h : UserTable i j) :
    (bootedWith file).pageDirEntries i j = 0 := by
  rw [bootedWith, place_pageDirEntries]
  exact start_pde _ _ _ _ _ h

end StormOS.Elf
