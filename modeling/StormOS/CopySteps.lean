import StormOS.Reserve

namespace StormOS.UserCopy

open Library.Bytes
open PhysicalMemory hiding State
open Machine VirtualMemory Isolation

def inAccess (kva : ℕ) : Memory → ℕ → ℕ → ℕ → Memory :=
  fun m pa copied size ↦ memCopy m (u32 (kva + copied)) pa size

def outAccess (kva : ℕ) : Memory → ℕ → ℕ → ℕ → Memory :=
  fun m pa copied size ↦ memCopy m pa (u32 (kva + copied)) size

def setAccess (c : UInt8) : Memory → ℕ → ℕ → ℕ → Memory :=
  fun m pa _ size ↦ memSet m pa c size

def advance (access : Memory → ℕ → ℕ → ℕ → Memory) (s : State) (pmap_id va len copied : ℕ) :
    State :=
  let r := translate s pmap_id va
  { r.1 with memory := access r.1.memory r.2 copied (chunk r.2 len) }

/-- A buffer below the upper end of user memory, apart from the pages of processes. -/
structure KernelRegion (s : State) (kva len : ℕ) : Prop where
  below : kva + len ≤ memUserHi
  apart : ∀ x, kva ≤ x → x < kva + len → ¬ OnUserPage s x

/-- Of the pages of processes, an access writes at most the chunk it is given. -/
def Tame (access : Memory → ℕ → ℕ → ℕ → Memory) (s : State) (total : ℕ) : Prop :=
  ∀ m pa copied size x, pa + size ≤ 2 ^ 32 → copied + size ≤ total → OnUserPage s x →
    (x < pa ∨ pa + size ≤ x) → access m pa copied size x = m x

variable {L : Layout} {access : Memory → ℕ → ℕ → ℕ → Memory} {s t : State} {c : UInt8}
  {pid va kva len copied total : ℕ}

theorem Tame.kept (h : Tame access s total) (hk : Kept s t) : Tame access t total :=
  fun m pa copied size x hpa hc hx hout ↦ h m pa copied size x hpa hc (hk.onUserPage.mp hx) hout

theorem outAccess_tame (kva : ℕ) (s : State) (len : ℕ) : Tame (outAccess kva) s len :=
  fun _ _ _ _ _ hpa _ _ hout ↦ memCopy_of_outside hpa hout

theorem setAccess_tame (c : UInt8) (s : State) (len : ℕ) : Tame (setAccess c) s len := by
  intro m pa copied size x hpa _ _ hout
  rw [setAccess, memSet_apply hpa, if_neg (by omega)]

structure Advanced (L : Layout) (s s' : State) (pid va n pa : ℕ) : Prop extends Kept s s' where
  side : UserSide L s'
  mapped : ∀ k < n, Present (getPageTableEntryByVA s' pid (va + k))
  place : ∀ k < n, physicalAddr s' pid (va + k) = pa + k
  bound : pa + n ≤ 2 ^ 32

theorem advance_spec (hacc : Tame access s total) (h : UserSide L s)
    (hpid : 1 ≤ pid ∧ pid < maxProcs) (hlo : memUserLo ≤ va) (hhi : va + len ≤ memUserHi)
    (htotal : copied + len ≤ total) (h0 : len ≠ 0) (hres : CanReserve s pid va len) :
    chunk (translate s pid va).2 len = chunk va len ∧
    Advanced L s (advance access s pid va len copied) pid va (chunk va len)
      (translate s pid va).2 ∧
    CanReserve (advance access s pid va len copied) pid (va + chunk va len)
      (len - chunk va len) := by
  have hle := chunk_le va len
  have hpage := chunk_page va len
  have hsize : chunk (translate s pid va).2 len = chunk va len :=
    chunk_congr (translate_offset s pid va) len
  have hu : UserTable pid (vaPdeIndex va) := by
    simp only [memUserLo, memUserHi] at hlo hhi
    exact (userTable_iff hpid).mpr (by omega)
  obtain ⟨hg, hres⟩ := (canReserve_step h0).mp hres
  obtain ⟨hside, hgain, hpa⟩ := translate_gains h hu hg
  obtain ⟨f, hf, _, ha⟩ := hside.frame hu hgain.mapped
  have hb := hf.bounds
  have hadvance : advance access s pid va len copied = { (translate s pid va).1 with
      memory := access (translate s pid va).1.memory (translate s pid va).2 copied
        (chunk va len) } := by
    rw [advance, hsize]
  obtain ⟨hside', hkept, htrans⟩ := hside.write hu hgain.mapped
    (m := access (translate s pid va).1.memory (translate s pid va).2 copied (chunk va len))
    fun x hx hne ↦ hacc _ _ _ _ _ (by omega) (by omega) (hgain.onUserPage.mp hx) (by omega)
  have hmapped (k : ℕ) (hk : k < chunk va len) :
      getPageTableEntryByVA (advance access s pid va len copied) pid (va + k) =
        getPageTableEntryByVA (translate s pid va).1 pid va := by
    have hsame : (va + k) / 4096 = va / 4096 := by omega
    rw [hadvance, translation_page hsame, htrans pid va hu]
  refine ⟨hsize, ⟨hadvance ▸ hgain.toKept.trans hkept, hadvance ▸ hside', fun k hk ↦ ?_,
    fun k hk ↦ ?_, by omega⟩, ?_⟩
  · rw [hmapped k hk]
    exact hgain.mapped
  · rw [physicalAddr, hmapped k hk, hpa, physicalAddr]
    simp only [pageSize]
    omega
  · have hnext : u32 (va + chunk va len) = va + chunk va len := by
      simp only [memUserHi] at hhi
      exact u32_of_lt (by omega)
    have halike : Alike pid (translate s pid va).1 (advance access s pid va len copied) := by
      rw [hadvance]
      exact ⟨rfl, rfl, fun va' hu' ↦ by rw [htrans pid va' hu']⟩
    rw [hnext] at hres
    exact canReserve_congr halike hside (hadvance ▸ hside') hpid (by omega) (by omega) hres

theorem walk_advance (h0 : len ≠ 0) (hn : chunk (translate s pid va).2 len = chunk va len)
    (hnext : va + chunk va len < 2 ^ 32) :
    walk access s pid va len copied =
      let t := walk access (advance access s pid va len copied) pid (va + chunk va len)
        (len - chunk va len) (copied + chunk va len)
      { t with visited := List.range' va (chunk va len) ++ t.visited } := by
  rw [walk_step h0, advance]
  simp only [hn, u32_of_lt hnext]

theorem va_accepted (hlo : memUserLo ≤ va) (hhi : va + len ≤ memUserHi) :
    ¬ ¬ (memUserLo ≤ va ∧ u32 (va + len) ≤ memUserHi) := by
  simp only [memUserHi] at hhi ⊢
  rw [u32_of_lt (by omega)]
  exact not_not.mpr ⟨hlo, hhi⟩

theorem kva_accepted (hk : kva + len ≤ memUserHi) : ¬ u32 (kva + len) > memUserHi := by
  simp only [memUserHi] at hk ⊢
  rw [u32_of_lt (by omega)]
  omega

theorem ptCopyIn_eq (hlo : memUserLo ≤ va) (hhi : va + len ≤ memUserHi)
    (hk : kva + len ≤ memUserHi) :
    ptCopyIn s pid va kva len = walk (inAccess kva) s pid va len 0 := by
  rw [ptCopyIn, if_neg (va_accepted hlo hhi), if_neg (kva_accepted hk)]
  rfl

theorem ptCopyOut_eq (hlo : memUserLo ≤ va) (hhi : va + len ≤ memUserHi)
    (hk : kva + len ≤ memUserHi) :
    ptCopyOut s kva pid va len = walk (outAccess kva) s pid va len 0 := by
  rw [ptCopyOut, if_neg (va_accepted hlo hhi), if_neg (kva_accepted hk)]
  rfl

theorem pagesFor_region (n : ℕ) (h : kva + len ≤ memUserLo) :
    KernelRegion (pagesFor n) kva len := by
  simp only [memUserLo] at h
  refine ⟨by simp only [memUserHi]; omega, fun x hx hx' hu ↦ ?_⟩
  have hpage : (physicalMemoryInit loaded (pageMap n)).pPageInfo (x / 4096) =
      initialInfo (pageMap n) (x / 4096) :=
    physicalMemoryInit_page loaded _ (by simp only [numPhysicalPages]; omega)
  rw [OnUserPage, pagesFor_physical, AddressSpaces.allocator, hpage] at hu
  have hb := (initialInfo_user hu).1.bounds
  omega

end StormOS.UserCopy
