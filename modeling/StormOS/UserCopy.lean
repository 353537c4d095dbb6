import StormOS.VirtualMemory

namespace StormOS.UserCopy

open Library.Bytes Machine VirtualMemory

/-- The physical address of `va`, with a page allocated for it when there is none. -/
def translate (s : State) (pmap_id va : ℕ) : State × ℕ :=
  let pa := getPageTableEntryByVA s pmap_id va
  if pa &&& pteP = 0 then
    let s := (allocPage s pmap_id va (pteP ||| pteU ||| pteW)).1
    (s, u32 ((getPageTableEntryByVA s pmap_id va &&& 0xfffff000) + va % pageSize))
  else (s, u32 ((pa &&& 0xfffff000) + va % pageSize))

def chunk (pa len : ℕ) : ℕ :=
  if len < pageSize - pa % pageSize then len else pageSize - pa % pageSize

theorem chunk_pos (pa : ℕ) {len : ℕ} (h : len ≠ 0) : 0 < chunk pa len := by
  simp only [chunk, pageSize]
  split
  · omega
  · omega

theorem chunk_le (pa len : ℕ) : chunk pa len ≤ len := by
  rw [chunk]
  split
  · exact le_rfl
  · omega

theorem chunk_page (va len : ℕ) : va % 4096 + chunk va len ≤ 4096 := by
  simp only [chunk, pageSize]
  split
  · omega
  · omega

/-- The state after a transfer and the value returned. `visited` records, for the proofs, the
virtual address of every byte transferred. -/
structure Transfer where
  state : State
  copied : ℕ
  visited : List ℕ

/-- The loop that the three transfers share: `access` moves the bytes of one chunk, at a physical
address and after so many bytes moved. -/
def walk (access : Memory → ℕ → ℕ → ℕ → Memory) (s : State) (pmap_id va len copied : ℕ) :
    Transfer :=
  if len = 0 then ⟨s, copied, []⟩
  else
    let r := translate s pmap_id va
    let size := chunk r.2 len
    let s := { r.1 with memory := access r.1.memory r.2 copied size }
    let t := walk access s pmap_id (u32 (va + size)) (len - size) (copied + size)
    { t with visited := List.range' va size ++ t.visited }
termination_by len
decreasing_by exact Nat.sub_lt (Nat.pos_of_ne_zero ‹_›) (chunk_pos _ ‹_›)

def ptCopyIn (s : State) (pmap_id uva kva len : ℕ) : Transfer :=
  if ¬ (memUserLo ≤ uva ∧ u32 (uva + len) ≤ memUserHi) then ⟨s, 0, []⟩
  else if u32 (kva + len) > memUserHi then ⟨s, 0, []⟩
  else walk (fun m pa copied size ↦ memCopy m (u32 (kva + copied)) pa size) s pmap_id uva len 0

def ptCopyOut (s : State) (kva pmap_id uva len : ℕ) : Transfer :=
  if ¬ (memUserLo ≤ uva ∧ u32 (uva + len) ≤ memUserHi) then ⟨s, 0, []⟩
  else if u32 (kva + len) > memUserHi then ⟨s, 0, []⟩
  else walk (fun m pa copied size ↦ memCopy m pa (u32 (kva + copied)) size) s pmap_id uva len 0

def ptMemSet (s : State) (pmap_id va : ℕ) (c : UInt8) (len : ℕ) : Transfer :=
  walk (fun m pa _ size ↦ memSet m pa c size) s pmap_id va len 0

variable {access : Memory → ℕ → ℕ → ℕ → Memory} {s : State} {pid va len copied : ℕ}

theorem walk_zero : walk access s pid va 0 copied = ⟨s, copied, []⟩ := by
  rw [walk, if_pos rfl]

theorem walk_step (h : len ≠ 0) :
    walk access s pid va len copied =
      let r := translate s pid va
      let size := chunk r.2 len
      let t := walk access { r.1 with memory := access r.1.memory r.2 copied size } pid
        (u32 (va + size)) (len - size) (copied + size)
      { t with visited := List.range' va size ++ t.visited } := by
  rw [walk, if_neg h]

theorem translate_offset (s : State) (pid va : ℕ) : (translate s pid va).2 % 4096 = va % 4096 := by
  have hmask (x : ℕ) : (x &&& 0xfffff000) % 4096 = 0 := by
    have hp : 4096 = 2 ^ 12 := by decide
    rw [hp, Nat.and_mod_two_pow]
    simp
  have ha (x : ℕ) : u32 ((x &&& 0xfffff000) + va % pageSize) % 4096 = va % 4096 := by
    have hx := hmask x
    simp only [u32, pageSize]
    omega
  rw [translate]
  dsimp only
  split
  · exact ha _
  · exact ha _

theorem walk_copied : (walk access s pid va len copied).copied = copied + len := by
  induction len using Nat.strong_induction_on generalizing s va copied with
  | _ len ih =>
    by_cases h : len = 0
    · rw [h, walk_zero]
      rfl
    · have hle := chunk_le (translate s pid va).2 len
      have hpos := chunk_pos (translate s pid va).2 h
      rw [walk_step h]
      dsimp only
      rw [ih _ (by omega)]
      omega

/-- A transfer visits the addresses that follow `va`, around the end of the address space. -/
theorem walk_visited (hva : va < 2 ^ 32) :
    (walk access s pid va len copied).visited = (List.range len).map fun k ↦ u32 (va + k) := by
  induction len using Nat.strong_induction_on generalizing s va copied with
  | _ len ih =>
    by_cases h : len = 0
    · rw [h, walk_zero]
      rfl
    · obtain ⟨pa, hpa⟩ : ∃ pa, (translate s pid va).2 = pa := ⟨_, rfl⟩
      have hoff : pa % 4096 = va % 4096 := hpa ▸ translate_offset s pid va
      have hle := chunk_le pa len
      have hpos := chunk_pos pa h
      have hend : chunk pa len ≤ 4096 - va % 4096 := by
        rw [← hoff, chunk]
        split
        · exact Nat.le_of_lt ‹_›
        · exact le_rfl
      rw [walk_step h]
      dsimp only
      rw [hpa, ih _ (by omega) (u32_lt _)]
      have hsplit : len = chunk pa len + (len - chunk pa len) := by omega
      conv_rhs => rw [hsplit, List.range_add, List.map_append, List.map_map]
      congr 1
      · rw [List.range'_eq_map_range]
        apply List.map_congr_left
        intro k hk
        have hk' := List.mem_range.mp hk
        exact (u32_of_lt (by omega)).symm
      · apply List.map_congr_left
        intro k _
        simp only [u32, Function.comp]
        omega

section OnePage

variable {page perm : ℕ} (hpage : page < 0xF0000) (hperm : perm < 4096) (hodd : perm % 2 = 1)
  (hpte : getPageTableEntryByVA s pid va = page * 4096 + perm)

include hpage hperm hodd hpte

theorem translate_mapped : translate s pid va = (s, page * 4096 + va % 4096) := by
  have hp : (page * 4096 + perm) &&& pteP ≠ 0 := by
    rw [pteP, Nat.and_one_is_mod]
    omega
  have hframe : (page * 4096 + perm) / 4096 = page := by omega
  rw [translate]
  dsimp only
  rw [hpte, if_neg hp, land_frameMask (by omega), hframe,
    u32_of_lt (by simp only [pageSize]; omega)]

/-- A transfer within a mapped page is one access. -/
theorem walk_page (hva : va % 4096 = 0) (hlen : 0 < len) (hle : len ≤ 4096) :
    walk access s pid va len copied =
      ⟨{ s with memory := access s.memory (page * 4096) copied len }, copied + len,
        List.range' va len⟩ := by
  have htr := translate_mapped hpage hperm hodd hpte
  rw [hva, Nat.add_zero] at htr
  have hsize : chunk (page * 4096) len = len := by
    rw [chunk]
    split
    · rfl
    · simp only [pageSize] at *
      omega
  rw [walk_step hlen.ne', htr]
  dsimp only
  rw [hsize, Nat.sub_self, walk_zero, List.append_nil]

end OnePage

end StormOS.UserCopy
