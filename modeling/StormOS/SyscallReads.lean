import StormOS.Syscall
import StormOS.AddressSpaces

namespace StormOS.Syscall

open Library.Bytes Library.Loops
open PhysicalMemory hiding State
open Machine VirtualMemory UserCopy Printf Interrupt Isolation AddressSpaces

def UserReads (reads : List ℕ) : Prop := ∀ va ∈ reads, memUserLo ≤ va ∧ va < memUserHi

variable {b : Buffers} {s : State} {k : Kernel} {tf : TrapFrame} {stack : ℕ → Args} {keys : List ℤ}
  {pid color uva kva len remain curPos bufVA : ℕ} {reads : List ℕ}

theorem userReads_nil : UserReads [] := by simp [UserReads]

theorem userReads_append {reads' : List ℕ} :
    UserReads (reads ++ reads') ↔ UserReads reads ∧ UserReads reads' := List.forall_mem_append

theorem ptCopyIn_rejected (h : ¬ (memUserLo ≤ uva ∧ u32 (uva + len) ≤ memUserHi)) :
    ptCopyIn s pid uva kva len = ⟨s, 0, []⟩ := by
  rw [ptCopyIn, if_pos h]

theorem ptCopyIn_accepted (h : memUserLo ≤ uva ∧ u32 (uva + len) ≤ memUserHi)
    (hk : u32 (kva + len) ≤ memUserHi) (huva : uva < 2 ^ 32) :
    (ptCopyIn s pid uva kva len).visited = (List.range len).map (fun i ↦ u32 (uva + i)) ∧
      (ptCopyIn s pid uva kva len).copied = len := by
  rw [ptCopyIn, if_neg (not_not.mpr h), if_neg (not_lt.mpr hk), walk_visited huva, walk_copied]
  exact ⟨rfl, zero_add len⟩

/-- A copy of at most a gigabyte reads outside the user half exactly when it starts above its
lower end and runs over the end of the address space. -/
theorem ptCopyIn_userReads (s : State) (pid : ℕ) (hk : u32 (kva + len) ≤ memUserHi)
    (huva : uva < 2 ^ 32) (hlen : len ≤ 0x40000000) :
    UserReads (ptCopyIn s pid uva kva len).visited ↔ ¬ (memUserLo ≤ uva ∧ 2 ^ 32 ≤ uva + len) := by
  by_cases h : memUserLo ≤ uva ∧ u32 (uva + len) ≤ memUserHi
  · have hlo := h.1
    have hhi := h.2
    rw [(ptCopyIn_accepted h hk huva).1]
    simp only [UserReads, List.mem_map, List.mem_range, memUserLo, memUserHi, u32] at *
    constructor
    · rintro hreads ⟨_, hwrap⟩
      have hlast := hreads (2 ^ 32 - 1) ⟨2 ^ 32 - 1 - uva, by omega, by omega⟩
      omega
    · rintro hwrap va ⟨i, hi, rfl⟩
      omega
  · rw [ptCopyIn_rejected h]
    simp only [memUserLo, memUserHi, u32] at h ⊢
    exact ⟨fun _ ↦ by omega, fun _ ↦ userReads_nil⟩

theorem ofProc_bound (b : Buffers) (hpid : pid < maxProcs) (hlen : len ≤ 4096) :
    u32 (b.ofProc pid + len) ≤ memUserHi := by
  have hb := b.kernel
  simp only [maxProcs, pageSize, memUserLo, memUserHi, Buffers.ofProc, u32] at *
  omega

theorem putStrLoop_zero : putStrLoop b pid color k stack 0 curPos = ⟨[], some (k, eSucc)⟩ := by
  rw [putStrLoop, if_pos rfl]

/-- What one round of the loop reads, and that the next round starts where it ends. -/
theorem putStrLoop_reads (b : Buffers) (pid color : ℕ) (k : Kernel) (stack : ℕ → Args) (curPos : ℕ)
    (hremain : remain ≠ 0) :
    (putStrLoop b pid color k stack remain curPos).reads =
        (ptCopyIn k.vm pid curPos (b.ofProc pid) (nBytes remain)).visited ∨
      (ptCopyIn k.vm pid curPos (b.ofProc pid) (nBytes remain)).copied = nBytes remain ∧
        ∃ k' stack', (putStrLoop b pid color k stack remain curPos).reads =
          (ptCopyIn k.vm pid curPos (b.ofProc pid) (nBytes remain)).visited ++
            (putStrLoop b pid color k' stack' (remain - nBytes remain)
              (u32 (curPos + nBytes remain))).reads := by
  rw [putStrLoop, if_neg hremain]
  dsimp only
  split
  · exact .inl rfl
  · rename_i hcopied
    split
    · exact .inl rfl
    · exact .inr ⟨not_not.mp hcopied, _, _, rfl⟩

/-- From a position in the user half, the copies stop at its upper end. -/
theorem putStrLoop_userReads (hpid : pid < maxProcs)
    (hpos : memUserLo ≤ curPos ∧ curPos ≤ memUserHi) :
    UserReads (putStrLoop b pid color k stack remain curPos).reads := by
  induction remain using Nat.strong_induction_on generalizing k stack curPos with
  | _ remain ih =>
    by_cases h0 : remain = 0
    · rw [h0, putStrLoop_zero]
      exact userReads_nil
    · have hn := nBytes_eq remain
      have hk : u32 (b.ofProc pid + nBytes remain) ≤ memUserHi := ofProc_bound b hpid (by omega)
      have hcur : curPos < 2 ^ 32 := hpos.2.trans_lt (by decide)
      have hsum : curPos + nBytes remain < 2 ^ 32 := by
        have hle := hpos.2
        simp only [memUserHi] at hle
        omega
      have hfirst := (ptCopyIn_userReads k.vm pid hk hcur (by omega)).mpr
        fun h ↦ by omega
      rcases putStrLoop_reads b pid color k stack curPos h0 with hreads | ⟨hcopied, k', stack', hreads⟩
      · rwa [hreads]
      · rw [hreads, userReads_append]
        refine ⟨hfirst, ih _ (by omega) ?_⟩
        have hacc : memUserLo ≤ curPos ∧ u32 (curPos + nBytes remain) ≤ memUserHi := by
          by_contra hrej
          rw [ptCopyIn_rejected hrej] at hcopied
          dsimp only at hcopied
          omega
        rw [u32_of_lt hsum] at hacc ⊢
        exact ⟨hpos.1.trans (Nat.le_add_right _ _), hacc.2⟩

/-- From a position above the user half, all hangs on the first copy. -/
theorem putStrLoop_userReads_above (hpid : pid < maxProcs)
    (hpos : memUserHi ≤ curPos ∧ curPos < 2 ^ 32) (hremain : remain ≠ 0) :
    UserReads (putStrLoop b pid color k stack remain curPos).reads ↔
      curPos + nBytes remain < 2 ^ 32 := by
  have hn := nBytes_eq remain
  have hk : u32 (b.ofProc pid + nBytes remain) ≤ memUserHi := ofProc_bound b hpid (by omega)
  have hfirst := ptCopyIn_userReads k.vm pid hk hpos.2 (by omega)
  have hpos' := hpos.1
  simp only [memUserHi] at hpos'
  constructor
  · intro hreads
    have hread : UserReads
        (ptCopyIn k.vm pid curPos (b.ofProc pid) (nBytes remain)).visited := by
      rcases putStrLoop_reads b pid color k stack curPos hremain with he | ⟨_, _, _, he⟩
      · rwa [he] at hreads
      · rw [he, userReads_append] at hreads
        exact hreads.1
    have hwrap := hfirst.mp hread
    simp only [memUserLo] at hwrap
    omega
  · intro hsum
    have hrej : ¬ (memUserLo ≤ curPos ∧ u32 (curPos + nBytes remain) ≤ memUserHi) := by
      rw [u32_of_lt hsum]
      simp only [memUserHi]
      omega
    rcases putStrLoop_reads b pid color k stack curPos hremain with he | ⟨hcopied, _⟩
    · rw [he, ptCopyIn_rejected hrej]
      exact userReads_nil
    · rw [ptCopyIn_rejected hrej] at hcopied
      dsimp only at hcopied
      omega

/-- A string that starts on the last 4095 bytes of the address space and ends, beyond its end, at
an address that passes for one below `MEM_USERHI`. -/
def StringWraps (strVA len : ℕ) : Prop :=
  2 ^ 32 - 4095 ≤ strVA ∧ 2 ^ 32 ≤ strVA + len ∧ strVA + len - 2 ^ 32 ≤ memUserHi

theorem sysPutStr_userReads (hpid : pid < maxProcs) :
    UserReads (sysPutStr b pid k tf stack).reads ↔
      ¬ StringWraps tf.regs.ebx.toNat tf.regs.ecx.toNat := by
  obtain ⟨strVA, hstr⟩ : ∃ strVA, tf.regs.ebx.toNat = strVA := ⟨_, rfl⟩
  obtain ⟨len, hlen⟩ : ∃ len, tf.regs.ecx.toNat = len := ⟨_, rfl⟩
  have hstr' : strVA < 2 ^ 32 := hstr ▸ tf.regs.ebx.toNat_lt
  have hlen' : len < 2 ^ 32 := hlen ▸ tf.regs.ecx.toNat_lt
  rw [sysPutStr, hstr, hlen]
  dsimp only
  by_cases hacc : memUserLo ≤ strVA ∧ u32 (strVA + len) ≤ memUserHi
  · rw [if_neg (not_not.mpr hacc)]
    dsimp only
    simp only [memUserLo, memUserHi, u32] at hacc
    by_cases hpos : strVA ≤ memUserHi
    · have hreads : UserReads (putStrLoop b pid tf.regs.edx.toNat k stack len strVA).reads :=
        putStrLoop_userReads hpid ⟨hacc.1, hpos⟩
      simp only [StringWraps, memUserHi] at hpos ⊢
      exact iff_of_true hreads (by omega)
    · simp only [memUserHi] at hpos
      have hn := nBytes_eq len
      rw [putStrLoop_userReads_above hpid ⟨by simp only [memUserHi]; omega, hstr'⟩ (by omega)]
      simp only [StringWraps, memUserHi]
      omega
  · rw [if_pos hacc]
    simp only [StringWraps, memUserLo, memUserHi, u32] at hacc ⊢
    exact iff_of_true userReads_nil (by omega)

/-- A plane is read outside the user half when it runs over the end of the address space. -/
def PlaneOk (bufVA p : ℕ) : Prop :=
  ¬ (memUserLo ≤ u32 (bufVA + p * vgaWidth * vgaHeight) ∧
    2 ^ 32 ≤ u32 (bufVA + p * vgaWidth * vgaHeight) + vgaWidth * vgaHeight)

theorem displayUserBuffer_userReads :
    UserReads (displayUserBuffer s pid bufVA).2 ↔ ∀ p < 4, PlaneOk bufVA p := by
  rw [displayUserBuffer]
  refine forUpTo_invariant
    (I := fun n (r : State × List ℕ) ↦ UserReads r.2 ↔ ∀ p < n, PlaneOk bufVA p) vgaPlanes ?_ ?_
  · simp [userReads_nil]
  · intro n r _ hr
    dsimp only
    rw [userReads_append, hr, Nat.forall_lt_succ_right]
    exact and_congr_right' (ptCopyIn_userReads _ _ (by decide) (u32_lt _) (by decide))

/-- A frame that is too close to the end of the address space to fit below it. -/
def BufferWraps (bufVA : ℕ) : Prop := 2 ^ 32 - vgaWidth * vgaHeight * vgaPlanes ≤ bufVA

theorem planesOk_iff (hbuf : bufVA < 2 ^ 32) (hlo : memUserLo ≤ bufVA) :
    (∀ p < 4, PlaneOk bufVA p) ↔ ¬ BufferWraps bufVA := by
  have hsize : vgaWidth * vgaHeight = 38400 := rfl
  have hplane (p : ℕ) : p * vgaWidth * vgaHeight = p * 38400 := by rw [Nat.mul_assoc, hsize]
  simp only [PlaneOk, BufferWraps, hplane, hsize, memUserLo, vgaPlanes] at *
  constructor
  · intro hok hwrap
    have hlast := hok ((2 ^ 32 - 1 - bufVA) / 38400) (by omega)
    rw [u32_of_lt (by omega)] at hlast
    omega
  · intro hwrap p hp
    rw [u32_of_lt (by omega)]
    omega

theorem sysDisplayBuffer_userReads :
    UserReads (sysDisplayBuffer pid k tf).reads ↔ ¬ BufferWraps tf.regs.ebx.toNat := by
  obtain ⟨bufVA, hbuf⟩ : ∃ bufVA, tf.regs.ebx.toNat = bufVA := ⟨_, rfl⟩
  have hbuf' : bufVA < 2 ^ 32 := hbuf ▸ tf.regs.ebx.toNat_lt
  rw [sysDisplayBuffer, hbuf]
  dsimp only
  by_cases hacc : memUserLo ≤ bufVA ∧
      u32 (bufVA + vgaWidth * vgaHeight * vgaPlanes) ≤ memUserHi
  · rw [if_neg (not_not.mpr hacc)]
    dsimp only
    rw [displayUserBuffer_userReads, planesOk_iff hbuf' hacc.1]
  · rw [if_pos hacc]
    simp only [BufferWraps, memUserLo, memUserHi, vgaWidth, vgaHeight, vgaPlanes, u32] at hacc ⊢
    exact iff_of_true userReads_nil (by omega)

/-- A system call reads user memory only, except when its string or its frame runs over the end of
the address space. -/
theorem syscallDispatch_userReads (hpid : pid < maxProcs) :
    UserReads (syscallDispatch b pid k tf stack keys).reads ↔
      ¬ (tf.regs.eax.toNat = sysPutStrNumber ∧
          StringWraps tf.regs.ebx.toNat tf.regs.ecx.toNat) ∧
        ¬ (tf.regs.eax.toNat = sysDispBufNumber ∧ BufferWraps tf.regs.ebx.toNat) := by
  rw [syscallDispatch]
  split
  · rename_i h
    rw [sysPutStr_userReads hpid, h]
    simp
  · rename_i h₀
    split
    · rename_i h
      refine iff_of_true userReads_nil ?_
      rw [h]
      simp
    · split
      · rename_i h
        rw [sysDisplayBuffer_userReads, h]
        simp
      · rename_i h₂
        exact iff_of_true userReads_nil ⟨fun h ↦ h₀ h.1, fun h ↦ h₂ h.1⟩

def callFrame (eax ebx ecx edx : UInt32) : TrapFrame :=
  { (default : TrapFrame) with
    regs := { (default : PushedRegisters) with eax := eax, ebx := ebx, ecx := ecx, edx := edx } }

def lowBuffers : Buffers := ⟨0x700000, by decide⟩

def bootedMachine : State :=
  start lowLayout (pageMap 4) (fun _ ↦ ⟨(4 : ℕ), 0, 0, 0, true⟩) (fun _ ↦ 0) fun _ _ ↦ 0

def bootedKernel : Kernel := ⟨bootedMachine, ⟨fun _ ↦ 0, 0, 0⟩, []⟩

theorem syscallDispatch_userReads_booted :
    UserReads (syscallDispatch lowBuffers 1 bootedKernel (callFrame 2 0x40000000 0 0)
      (fun _ _ ↦ 0) []).reads := by
  refine (syscallDispatch_userReads (by decide)).mpr ⟨fun h ↦ absurd h.1 (by decide), fun h ↦ ?_⟩
  exact absurd h.2 (by rw [BufferWraps]; decide)

theorem sysPutStr_reads_kernel : ¬ ∀ (L : Layout) (b : Buffers) (k : Kernel) (pid : ℕ)
    (tf : TrapFrame) (stack : ℕ → Args) (keys : List ℤ), Isolated L k.vm →
    (1 ≤ pid ∧ pid < maxProcs) → UserReads (syscallDispatch b pid k tf stack keys).reads := by
  intro h
  have hreads := h lowLayout lowBuffers bootedKernel 1 (callFrame 0 0xFFFFF001 0xFFF 0)
    (fun _ _ ↦ 0) [] (start_isolated ..) (by decide)
  have hcall : (callFrame 0 0xFFFFF001 0xFFF 0).regs.eax.toNat = sysPutStrNumber := rfl
  rw [syscallDispatch, if_pos hcall, sysPutStr_userReads (by decide)] at hreads
  apply hreads
  rw [StringWraps]
  decide

end StormOS.Syscall
