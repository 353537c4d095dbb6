import StormOS.CopySteps

namespace StormOS.UserCopy

open Library.Bytes
open PhysicalMemory hiding State
open Machine VirtualMemory Isolation AddressSpaces

/-- The loop of the transfers once more. It records for every byte the virtual address, and the
physical address at which the user side of the copy looks for it. -/
def touched (access : Memory → ℕ → ℕ → ℕ → Memory) (s : State) (pmap_id va len copied : ℕ) :
    List (ℕ × ℕ) :=
  if len = 0 then []
  else
    let pa := (translate s pmap_id va).2
    let size := chunk pa len
    (List.range size).map (fun k ↦ (va + k, u32 (pa + k))) ++
      touched access (advance access s pmap_id va len copied) pmap_id (u32 (va + size)) (len - size)
        (copied + size)
termination_by len
decreasing_by exact Nat.sub_lt (Nat.pos_of_ne_zero ‹_›) (chunk_pos _ ‹_›)

variable {L : Layout} {access : Memory → ℕ → ℕ → ℕ → Memory} {s : State}
  {pid va kva len copied total : ℕ}

end StormOS.UserCopy
