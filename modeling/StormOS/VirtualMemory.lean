import StormOS.PhysicalMemory

namespace StormOS.VirtualMemory

open Library.Bytes Library.Loops Machine PhysicalMemory Function

abbrev numTables : ℕ := 1024

abbrev pteP : ℕ := 0x001
abbrev pteW : ℕ := 0x002
abbrev pteU : ℕ := 0x004
abbrev pteG : ℕ := 0x100
abbrev ptePWU : ℕ := pteP ||| pteW ||| pteU

abbrev memUserLoPDir : ℕ := memUserLoPI / numTables
abbrev memUserHiPDir : ℕ := memUserHiPI / numTables

def vaPdeIndex (va : ℕ) : ℕ := va / (pageSize * numTables)

def vaPteIndex (va : ℕ) : ℕ := va / pageSize % numTables

/-- Where the linker put the shared identity tables. -/
structure Layout where
  pageDirIdentity : ℕ
  aligned : pageDirIdentity % 4096 = 0
  kernel : pageDirIdentity + 4096 * 1024 ≤ 0x40000000

/-- The globals of the virtual memory module, the allocator, and physical memory. The kernel runs
on page directory 0, which maps all memory onto itself, so its own accesses are physical. -/
structure State where
  physical : PhysicalMemory.State
  memory : Memory
  pageDirEntries : ℕ → ℕ → ℕ

def setPde (s : State) (procIndex pdeIndex pde : ℕ) : State :=
  { s with
    pageDirEntries :=
      update s.pageDirEntries procIndex (update (s.pageDirEntries procIndex) pdeIndex pde) }

def setPageDirEntry (s : State) (procIndex pdeIndex page : ℕ) : State :=
  setPde s procIndex pdeIndex (u32 (page * pageSize + ptePWU))

def setPageDirEntryIdentity (L : Layout) (s : State) (procIndex pdeIndex : ℕ) : State :=
  setPde s procIndex pdeIndex (u32 (L.pageDirIdentity + pdeIndex * pageSize + ptePWU))

def removePageDirEntry (s : State) (procIndex pdeIndex : ℕ) : State :=
  setPde s procIndex pdeIndex 0

/-- The address of an entry of the page table that a page-directory entry names. -/
def entryAddr (s : State) (procIndex pdeIndex pteIndex : ℕ) : ℕ :=
  u32 ((s.pageDirEntries procIndex pdeIndex &&& 0xfffff000) + pteIndex * 4)

def getPageTableEntry (s : State) (procIndex pdeIndex pteIndex : ℕ) : ℕ :=
  load32 s.memory (entryAddr s procIndex pdeIndex pteIndex)

def setPageTableEntry (s : State) (procIndex pdeIndex pteIndex page perm : ℕ) : State :=
  { s with
    memory := store32 s.memory (entryAddr s procIndex pdeIndex pteIndex)
      (u32 (page * pageSize + perm)) }

def removePageTableEntry (s : State) (procIndex pdeIndex pteIndex : ℕ) : State :=
  { s with memory := store32 s.memory (entryAddr s procIndex pdeIndex pteIndex) 0 }

def clearPageTable (s : State) (procIndex pdeIndex : ℕ) : State :=
  forUpTo (fun i s ↦ removePageTableEntry s procIndex pdeIndex i) 1024 s

def allocPageTable (s : State) (procIndex va : ℕ) : State × ℕ :=
  let (physical, page) := containerAlloc s.physical procIndex
  let s := { s with physical := physical }
  if page ≠ 0 then
    let pdeIndex := vaPdeIndex va
    (clearPageTable (setPageDirEntry s procIndex pdeIndex page) procIndex pdeIndex, page)
  else (s, page)

def freePageTable (s : State) (procIndex va : ℕ) : State :=
  let pdeIndex := vaPdeIndex va
  let pde := s.pageDirEntries procIndex pdeIndex
  let s := removePageDirEntry s procIndex pdeIndex
  { s with physical := containerFree s.physical procIndex (pde / pageSize) }

/-- The last component is what the code leaves in `*err`. -/
def mapPage (s : State) (procIndex va page perm : ℕ) : State × ℕ × ℕ :=
  let pdeIndex := vaPdeIndex va
  let pde := s.pageDirEntries procIndex pdeIndex
  if pde ≠ 0 then
    (setPageTableEntry s procIndex pdeIndex (vaPteIndex va) page perm, pde / pageSize, 0)
  else
    let (s, result) := allocPageTable s procIndex va
    if result = 0 then (s, 0, 1)
    else (setPageTableEntry s procIndex pdeIndex (vaPteIndex va) page perm, result, 0)

/-- The permissions that `VirtualMemoryInit` gives to table `i` of the identity map. -/
def identityPerm (i : ℕ) : ℕ :=
  if i ≥ memUserLoPDir ∧ i < memUserHiPDir then pteP ||| pteW else pteP ||| pteW ||| pteG

def initIdentity (L : Layout) (m : Memory) : Memory :=
  forUpTo (fun i m ↦ forUpTo (fun j m ↦
    store32 m (u32 (L.pageDirIdentity + i * pageSize + j * 4))
      (u32 ((i * numTables + j) * pageSize + identityPerm i))) numTables m) numTables m

def initDirectories (L : Layout) (s : State) : State :=
  forUpTo (fun i s ↦ forUpTo (fun j s ↦
    if j ≥ memUserLoPDir ∧ j < memUserHiPDir ∧ i ≠ 0 then removePageDirEntry s i j
    else setPageDirEntryIdentity L s i j) numTables s) maxProcs s

def virtualMemoryInit (L : Layout) (s : State) : State :=
  initDirectories L { s with memory := initIdentity L s.memory }

def getPageTableEntryByVA (s : State) (procIndex va : ℕ) : ℕ :=
  let pdeIndex := vaPdeIndex va
  if s.pageDirEntries procIndex pdeIndex = 0 then 0
  else getPageTableEntry s procIndex pdeIndex (vaPteIndex va)

def allocPage (s : State) (procIndex va perm : ℕ) : State × ℕ × ℕ :=
  let (physical, page) := containerAlloc s.physical procIndex
  let s := { s with physical := physical }
  if page = 0 then (s, 0, 1)
  else
    let (s, result, mapPageErr) := mapPage s procIndex va page perm
    if mapPageErr ≠ 0 then (s, 0, 1) else (s, result, 0)

end StormOS.VirtualMemory
