import StormOS.UserCopy

namespace StormOS.Elf

open Library.Bytes Machine VirtualMemory UserCopy

abbrev elfMagic : ℕ := 0x464C457F
abbrev elfShnUndef : ℕ := 0
abbrev elfShtStrtab : ℕ := 3
abbrev elfProgLoad : ℕ := 1
abbrev elfProgFlagWrite : ℕ := 2

section Headers

variable (m : Memory) (eh ph sh : ℕ)

def eMagic : ℕ := load32 m eh

def eEntry : ℕ := load32 m (eh + 24)

def ePhoff : ℕ := load32 m (eh + 28)

def eShoff : ℕ := load32 m (eh + 32)

def ePhnum : ℕ := load16 m (eh + 44)

def eShstrndx : ℕ := load16 m (eh + 50)

def shType : ℕ := load32 m (sh + 4)

def pType : ℕ := load32 m ph

def pOffset : ℕ := load32 m (ph + 4)

def pVa : ℕ := load32 m (ph + 8)

def pFilesz : ℕ := load32 m (ph + 16)

def pMemsz : ℕ := load32 m (ph + 20)

def pFlags : ℕ := load32 m (ph + 24)

end Headers

abbrev proghdrSize : ℕ := 32
abbrev sechdrSize : ℕ := 40

/-- One round of the page loop of a segment. A kernel panic ends in an endless loop, so it is
`none` here and below. -/
def loadPage (s : State) (pid ph perm zva va fa : ℕ) : Option State :=
  let (s, _, err) := allocPage s pid va perm
  if err ≠ 0 then none
  else if va < roundDown zva pageSize then some (ptCopyOut s fa pid va pageSize).state
  else if va < zva ∧ pFilesz s.memory ph ≠ 0 then
    let s := (ptMemSet s pid va 0 pageSize).state
    some (ptCopyOut s fa pid va (zva - va)).state
  else some (ptMemSet s pid va 0 pageSize).state

/-- Both ends of the loop are multiples of the page size, so that the increment of `va` never
wraps. -/
def loadPages (s : State) (pid ph perm zva eva va fa : ℕ) : Option State :=
  if va < eva then
    (loadPage s pid ph perm zva va fa).bind fun s ↦
      loadPages s pid ph perm zva eva (va + pageSize) (u32 (fa + pageSize))
  else some s
termination_by eva - va
decreasing_by simp only [pageSize]; omega

def segmentPerm (flags : ℕ) : ℕ :=
  if flags &&& elfProgFlagWrite ≠ 0 then pteU ||| pteP ||| pteW else pteU ||| pteP

def loadSegment (s : State) (exe pid ph : ℕ) : Option State :=
  if pType s.memory ph ≠ elfProgLoad then some s
  else
    let fa := u32 (exe + roundDown (pOffset s.memory ph) pageSize)
    let va := roundDown (pVa s.memory ph) pageSize
    let zva := u32 (pVa s.memory ph + pFilesz s.memory ph)
    let eva := roundUp (u32 (pVa s.memory ph + pMemsz s.memory ph)) pageSize
    loadPages s pid ph (segmentPerm (pFlags s.memory ph)) zva eva va fa

/-- The header table ends a multiple of the header size after `ph`, so that `ph++` never wraps. -/
def loadSegments (s : State) (exe pid ph eph : ℕ) : Option State :=
  if ph < eph then
    (loadSegment s exe pid ph).bind fun s ↦ loadSegments s exe pid (ph + proghdrSize) eph
  else some s
termination_by eph - ph
decreasing_by simp only [proghdrSize]; omega

def programHeaders (m : Memory) (exe : ℕ) : ℕ := u32 (exe + ePhoff m exe)

def programHeadersEnd (m : Memory) (exe : ℕ) : ℕ :=
  u32 (programHeaders m exe + ePhnum m exe * proghdrSize)

def elfLoad (s : State) (exe pid : ℕ) : Option State :=
  if eMagic s.memory exe ≠ elfMagic then none
  else if eShstrndx s.memory exe = elfShnUndef then none
  else
    let sh := u32 (exe + eShoff s.memory exe)
    if shType s.memory (u32 (sh + eShstrndx s.memory exe * sechdrSize)) ≠ elfShtStrtab then none
    else
      loadSegments s exe pid (programHeaders s.memory exe) (programHeadersEnd s.memory exe)

def elfEntry (m : Memory) (exe : ℕ) : Option ℕ :=
  if eMagic m exe ≠ elfMagic then none else some (eEntry m exe)

end StormOS.Elf
