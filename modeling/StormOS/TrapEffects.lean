import StormOS.Mmu
import StormOS.Trap
import StormOS.SyscallReads
import StormOS.CopySteps

namespace StormOS.Trap

open Library.Bytes Library.Loops
open PhysicalMemory hiding State
open Machine VirtualMemory UserCopy Printf Interrupt Syscall Isolation Mmu

/-- What a load of user code finds. -/
def view (s : State) (i va : ℕ) : Option UInt8 := (mmu s i va ⟨true, false⟩).map s.memory

/-- The processes keep what they have mapped, byte for byte, and only process `pid` gains pages. -/
structure Grows (s t : State) (pid : ℕ) : Prop where
  kept : ∀ i va, UserTable i (vaPdeIndex va) → ∀ v, view s i va = some v → view t i va = some v
  others : ∀ i va, UserTable i (vaPdeIndex va) → i ≠ pid → view t i va = view s i va

/-- The linker puts the buffers of the system calls, and the machine its video memory, beside the
identity tables. -/
structure Linked (L : Layout) (b : Buffers) : Prop where
  video : KernelBuffer L vgaAddress (vgaWidth * vgaHeight)
  buffers : KernelBuffer L b.sysBuf (maxProcs * pageSize)

/-- The bytes of its own memory that the kernel writes in a system call. -/
def Writes (b : Buffers) (x : ℕ) : Prop :=
  (vgaAddress ≤ x ∧ x < vgaAddress + vgaWidth * vgaHeight) ∨
    (b.sysBuf ≤ x ∧ x < b.sysBuf + maxProcs * pageSize)

structure OwnBuffer (L : Layout) (b : Buffers) (kva len : ℕ) : Prop
    extends KernelBuffer L kva len where
  own : ∀ x, kva ≤ x → x < kva + len → Writes b x

/-- A step of the kernel on behalf of process `pid`. -/
structure Serves (L : Layout) (b : Buffers) (pid : ℕ) (s t : State) : Prop
    extends Grows s t pid where
  shielded : Shielded L t
  kernel : ∀ x < memUserLo, ¬ Writes b x → t.memory x = s.memory x

variable {L : Layout} {b : Buffers} {s t u : State} {i pid va kva len copied total perm : ℕ}
  {v : UInt8} {m : Memory}

theorem Grows.refl (s : State) (pid : ℕ) : Grows s s pid :=
  ⟨fun _ _ _ _ h ↦ h, fun _ _ _ _ ↦ rfl⟩

theorem Grows.trans (h : Grows s t pid) (h' : Grows t u pid) : Grows s u pid where
  kept i va hu v hv := h'.kept i va hu v (h.kept i va hu v hv)
  others i va hu hi := (h'.others i va hu hi).trans (h.others i va hu hi)

theorem Serves.refl (h : Shielded L s) (pid : ℕ) : Serves L b pid s s :=
  ⟨Grows.refl s pid, h, fun _ _ _ ↦ rfl⟩

theorem Serves.trans (h : Serves L b pid s t) (h' : Serves L b pid t u) : Serves L b pid s u :=
  ⟨h.toGrows.trans h'.toGrows, h'.shielded,
    fun x hx hb ↦ (h'.kernel x hx hb).trans (h.kernel x hx hb)⟩

theorem view_eq_some_iff (h : Shielded L s) (hu : UserTable i (vaPdeIndex va)) :
    view s i va = some v ↔
      Present (getPageTableEntryByVA s i va) ∧ s.memory (physicalAddr s i va) = v := by
  rw [view, Option.map_eq_some_iff]
  constructor
  · rintro ⟨pa, hpa, hv⟩
    obtain ⟨_, hperm, rfl⟩ := mmu_eq_some_iff.mp hpa
    exact ⟨permits_present hperm, hv⟩
  · rintro ⟨hp, hv⟩
    exact ⟨_, (mmu_user h hu).mpr hp, hv⟩

/-- Two states show the same bytes where they agree on the translation and on the byte. -/
theorem view_congr (h : Shielded L s) (h' : Shielded L t) (hu : UserTable i (vaPdeIndex va))
    (hpte : getPageTableEntryByVA t i va = getPageTableEntryByVA s i va)
    (hbyte : Present (getPageTableEntryByVA s i va) →
      t.memory (physicalAddr s i va) = s.memory (physicalAddr s i va)) :
    view t i va = view s i va := by
  have hpa : physicalAddr t i va = physicalAddr s i va := by rw [physicalAddr, physicalAddr, hpte]
  refine Option.ext fun v ↦ ?_
  rw [view_eq_some_iff h' hu, view_eq_some_iff h hu, hpte, hpa]
  exact and_congr_right fun hp ↦ by rw [hbyte hp]

/-- Writes to kernel memory beside the identity tables are nothing to the processes. -/
theorem grows_kernelWrite (h : Shielded L s) (hk : KernelBuffer L kva len)
    (hm : ∀ x, x < kva ∨ kva + len ≤ x → m x = s.memory x) (pid : ℕ) :
    Grows s { s with memory := m } pid ∧ Shielded L { s with memory := m } := by
  have hagree : TablesAgree L s m := hk.tablesAgree h.toIsolated hm
  have hwrite : Shielded L { s with memory := m } := h.write hagree
  have hview : ∀ i va, UserTable i (vaPdeIndex va) →
      view { s with memory := m } i va = view s i va := by
    intro i va hu
    apply view_congr h hwrite hu (translation_write h.toIsolated hagree hu.lt.1 hu.lt.2)
    intro hp
    obtain ⟨f, hf, hpa⟩ := physicalAddr_of_present hu hp
    have hframe := (h.owned _ _ hf).1.bounds
    have hlow := hk.kernel
    simp only [memUserLo] at hlow
    exact hm _ (by omega)
  exact ⟨⟨fun i va hu v hv ↦ (hview i va hu).trans hv, fun i va hu _ ↦ hview i va hu⟩, hwrite⟩

theorem serves_kernelWrite (h : Shielded L s) (hk : OwnBuffer L b kva len)
    (hm : ∀ x, x < kva ∨ kva + len ≤ x → m x = s.memory x) (pid : ℕ) :
    Serves L b pid s { s with memory := m } := by
  obtain ⟨hgrows, hshield⟩ := grows_kernelWrite h hk.toKernelBuffer hm pid
  refine ⟨hgrows, hshield, fun x _ hx ↦ hm x ?_⟩
  by_contra hin
  exact hx (hk.own x (by omega) (by omega))

/-- `AllocPage` for an address without a page. -/
theorem serves_allocPage (h : Shielded L s) (hu : UserTable pid (vaPdeIndex va))
    (hnp : ¬ Present (getPageTableEntryByVA s pid va)) :
    Serves L b pid s (allocPage s pid va ptePWU).1 := by
  have hwrite : Shielded L (allocPage s pid va ptePWU).1 := h.alloc hu (by decide) (by decide)
  rcases h.allocPage_spec hu (by decide : ptePWU < 4096) with
    ⟨p, _, ha⟩ | ⟨s', page, result, ha, _, hmaps⟩
  · rw [ha] at hwrite ⊢
    exact ⟨⟨fun _ _ _ _ hv ↦ hv, fun _ _ _ _ ↦ rfl⟩, hwrite, fun _ _ _ ↦ rfl⟩
  · rw [ha] at hwrite ⊢
    have hview : ∀ i va', UserTable i (vaPdeIndex va') → ¬ (i = pid ∧ va' / 4096 = va / 4096) →
        view s' i va' = view s i va' := by
      intro i va' hu' hother
      have hpte := hmaps.translation i hu'.lt.1 va' hu'.lt.2
      rw [if_neg hother] at hpte
      apply view_congr h hwrite hu' hpte
      intro hp
      obtain ⟨f, hf, hpa⟩ := physicalAddr_of_present hu' hp
      exact hmaps.data _ _ _ _ hf _ (by omega) (by omega)
    refine ⟨⟨fun i va' hu' v hv ↦ ?_, fun i va' hu' hi ↦ hview i va' hu' fun hs ↦ hi hs.1⟩, hwrite,
      fun x hx _ ↦ hmaps.kernel x (Nat.zero_le x) hx⟩
    rw [hview i va' hu', hv]
    rintro ⟨rfl, hpage⟩
    have hp := ((view_eq_some_iff h hu').mp hv).1
    rw [translation_page hpage] at hp
    exact hnp hp

section Copies

variable (hpid : 1 ≤ pid ∧ pid < maxProcs)

include hpid

theorem serves_translate (h : Shielded L s) (hva : va < 2 ^ 32) :
    Serves L b pid s (translate s pid va).1 := by
  rw [UserCopy.translate]
  dsimp only
  split
  · rename_i hp
    have hnp : ¬ Present (getPageTableEntryByVA s pid va) := not_not.mpr hp
    exact serves_allocPage h (userTable_of_not_present h.toIsolated hpid hva hnp) hnp
  · exact Serves.refl h pid

/-- A copy into a kernel buffer, whatever it copies and however far it gets. -/
theorem serves_walk (hk : OwnBuffer L b kva total) (h : Shielded L s) (hva : va < 2 ^ 32)
    (hlen : copied + len ≤ total) :
    Serves L b pid s (walk (inAccess kva) s pid va len copied).state := by
  induction len using Nat.strong_induction_on generalizing s va copied with
  | _ len ih =>
  by_cases h0 : len = 0
  · rw [h0, walk_zero]
    exact Serves.refl h pid
  · have hlow := hk.kernel
    simp only [memUserLo] at hlow
    have hle := chunk_le (translate s pid va).2 len
    have hpos := chunk_pos (translate s pid va).2 h0
    have htranslate := serves_translate (b := b) hpid h hva
    have hcopy : Serves L b pid (translate s pid va).1 { (translate s pid va).1 with
        memory := inAccess kva (translate s pid va).1.memory (translate s pid va).2 copied
          (chunk (translate s pid va).2 len) } := by
      refine serves_kernelWrite htranslate.shielded hk (fun x hx ↦ ?_) pid
      rw [inAccess, u32_of_lt (by omega)]
      exact memCopy_of_outside (by omega) (by omega)
    have hfirst := htranslate.trans hcopy
    rw [walk_step h0]
    exact hfirst.trans (ih _ (by omega) hfirst.shielded (u32_lt _) (by omega))

theorem serves_ptCopyIn (hk : OwnBuffer L b kva len) (h : Shielded L s) (hva : va < 2 ^ 32) :
    Serves L b pid s (ptCopyIn s pid va kva len).state := by
  rw [ptCopyIn]
  split
  · exact Serves.refl h pid
  · split
    · exact Serves.refl h pid
    · exact serves_walk hpid hk h hva (zero_add len).le

end Copies

theorem Linked.display (hb : Linked L b) : OwnBuffer L b vgaAddress (vgaWidth * vgaHeight) :=
  ⟨hb.video, fun _ hlo hhi ↦ .inl ⟨hlo, hhi⟩⟩

theorem Linked.ofProc (hb : Linked L b) (hpid : pid < maxProcs) (hlen : len ≤ 4096) :
    OwnBuffer L b (b.ofProc pid) len := by
  obtain ⟨hlow, hbeside⟩ := hb.buffers
  simp only [maxProcs, pageSize, memUserLo] at hpid hlow hbeside
  constructor
  · constructor
    · simp only [Buffers.ofProc, pageSize, memUserLo]
      omega
    · simp only [Buffers.ofProc, pageSize]
      omega
  · intro x hlo hhi
    simp only [Buffers.ofProc, pageSize] at hlo hhi
    right
    simp only [maxProcs, pageSize]
    omega

section Calls

variable (hb : Linked L b) (hpid : 1 ≤ pid ∧ pid < maxProcs)

include hb hpid

/-- The loop of `SysPutStr`, in every round and whatever ends it. -/
theorem serves_putStrLoop {k k' : Kernel} {stack : ℕ → Args} {color remain curPos : ℕ}
    {errno : UInt32} (h : Shielded L k.vm) (hpos : curPos < 2 ^ 32)
    (hr : (putStrLoop b pid color k stack remain curPos).result = some (k', errno)) :
    Serves L b pid k.vm k'.vm := by
  induction remain using Nat.strong_induction_on generalizing k stack curPos with
  | _ remain ih =>
  rw [putStrLoop] at hr
  by_cases h0 : remain = 0
  · rw [if_pos h0] at hr
    obtain ⟨rfl, -⟩ := Prod.mk.inj (Option.some.inj hr)
    exact Serves.refl h pid
  · have hn := nBytes_eq remain
    have hcopy : Serves L b pid k.vm (ptCopyIn k.vm pid curPos (b.ofProc pid) (nBytes remain)).state :=
      serves_ptCopyIn hpid (hb.ofProc hpid.2 (by omega)) h hpos
    rw [if_neg h0] at hr
    dsimp only at hr
    split at hr
    · obtain ⟨rfl, -⟩ := Prod.mk.inj (Option.some.inj hr)
      exact hcopy
    · split at hr
      · cases hr
      · have hnul := serves_kernelWrite (m := store8
            (ptCopyIn k.vm pid curPos (b.ofProc pid) (nBytes remain)).state.memory
            (b.ofProc pid + nBytes remain) 0) hcopy.shielded
          (hb.ofProc hpid.2 (le_refl 4096)) (fun x hx ↦ store8_of_ne (by omega)) pid
        have hfirst := hcopy.trans hnul
        exact hfirst.trans (ih _ (sub_nBytes_lt h0) hfirst.shielded (u32_lt _) hr)

theorem serves_sysPutStr {k k' : Kernel} {tf tf' : TrapFrame} {stack : ℕ → Args}
    (h : Shielded L k.vm) (hr : (sysPutStr b pid k tf stack).result = some (k', tf')) :
    Serves L b pid k.vm k'.vm ∧ ∃ errno, tf' = setErrNo tf errno := by
  rw [sysPutStr] at hr
  dsimp only at hr
  split at hr
  · obtain ⟨rfl, rfl⟩ := Prod.mk.inj (Option.some.inj hr)
    exact ⟨Serves.refl h pid, _, rfl⟩
  · obtain ⟨⟨k'', errno⟩, hloop, heq⟩ := Option.map_eq_some_iff.mp hr
    obtain ⟨rfl, rfl⟩ := Prod.mk.inj heq
    exact ⟨serves_putStrLoop hb hpid h tf.regs.ebx.toNat_lt hloop, errno, rfl⟩

theorem serves_displayUserBuffer {bufVA : ℕ} (h : Shielded L s) :
    Serves L b pid s (displayUserBuffer s pid bufVA).1 := by
  rw [displayUserBuffer]
  apply forUpTo_invariant (I := fun _ (r : State × List ℕ) ↦ Serves L b pid s r.1) vgaPlanes
  · exact Serves.refl h pid
  · intro p r _ hr
    exact hr.trans (serves_ptCopyIn hpid hb.display hr.shielded (u32_lt _))

omit hb hpid in
theorem sysDisplayBuffer_result (pid : ℕ) (k : Kernel) (tf : TrapFrame) :
    (sysDisplayBuffer pid k tf).result = some (k, setErrNo tf eInvalAddr) ∨
      (sysDisplayBuffer pid k tf).result =
        some ({ k with vm := (displayUserBuffer k.vm pid tf.regs.ebx.toNat).1 },
          setErrNo tf eSucc) := by
  rw [sysDisplayBuffer]
  split
  · exact .inl rfl
  · exact .inr rfl

omit hb hpid in
theorem serves_withVm {k k' : Kernel} {tf tf' : TrapFrame} (h : Serves L b pid k.vm t)
    (hr : some (k', tf') = some ({ k with vm := t }, tf)) :
    Serves L b pid k.vm k'.vm ∧ tf' = tf := by
  obtain ⟨rfl, rfl⟩ := Prod.mk.inj (Option.some.inj hr)
  exact ⟨h, rfl⟩

theorem serves_sysDisplayBuffer {k k' : Kernel} {tf tf' : TrapFrame} (h : Shielded L k.vm)
    (hr : (sysDisplayBuffer pid k tf).result = some (k', tf')) :
    Serves L b pid k.vm k'.vm ∧ ∃ errno, tf' = setErrNo tf errno := by
  rcases sysDisplayBuffer_result pid k tf with hres | hres
  · obtain ⟨rfl, rfl⟩ := Prod.mk.inj (Option.some.inj (hr.symm.trans hres))
    exact ⟨Serves.refl h pid, _, rfl⟩
  · obtain ⟨hserves, hframe⟩ := serves_withVm (serves_displayUserBuffer hb hpid h)
      (hr.symm.trans hres)
    exact ⟨hserves, _, hframe⟩

/-- A system call of process `pid`. What it changes in the frame are the error number and, for
`SYS_GETCHAR`, the character. -/
theorem serves_syscallDispatch {k k' : Kernel} {tf tf' : TrapFrame} {stack : ℕ → Args}
    {keys : List ℤ} (h : Shielded L k.vm)
    (hr : (syscallDispatch b pid k tf stack keys).result = some (k', tf')) :
    Serves L b pid k.vm k'.vm ∧ ((∃ errno, tf' = setErrNo tf errno) ∨
      tf.regs.eax.toNat = sysGetCharNumber ∧
        ∃ ch, tf' = setRetVal1 (setErrNo tf eSucc) (UInt32.ofNat (uint32OfInt ch))) := by
  rw [syscallDispatch] at hr
  split at hr
  · obtain ⟨hserves, hframe⟩ := serves_sysPutStr hb hpid h hr
    exact ⟨hserves, .inl hframe⟩
  · split at hr
    · rename_i hcall
      obtain ⟨rfl, rfl⟩ := Prod.mk.inj (Option.some.inj hr)
      exact ⟨Serves.refl h pid, .inr ⟨hcall, _, rfl⟩⟩
    · split at hr
      · obtain ⟨hserves, hframe⟩ := serves_sysDisplayBuffer hb hpid h hr
        exact ⟨hserves, .inl hframe⟩
      · obtain ⟨rfl, rfl⟩ := Prod.mk.inj (Option.some.inj hr)
        exact ⟨Serves.refl h pid, .inl ⟨_, rfl⟩⟩

end Calls

end StormOS.Trap
