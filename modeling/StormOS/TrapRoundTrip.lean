import StormOS.TaskState
import StormOS.TrapStack
import StormOS.ProcessMemory

namespace StormOS.TrapRoundTrip

open Library.Bytes TaskState TrapStack Descriptors
open Trap hiding switchTSS
open AddressSpaces hiding Action machine perform
open PhysicalMemory hiding State
open Machine VirtualMemory UserCopy Interrupt Syscall Isolation Mmu

/-- What the processor has been set up with while process `pid` runs: `InterruptInit` has filled the
task state segment of the process, and `SwitchTSS` has loaded it. -/
structure OwnStack (P : Placement) (pid : ℕ) (m : Memory) (esp0 : UInt32) : Prop where
  initialised : load32 m (P.tss pid + 4) = P.stack pid + pageSize
  loaded : ∃ gdt seg gdt', switchTSS P gdt pid = some (seg, gdt') ∧ esp0.toNat = trapStack m seg

/-- The linker puts the task state segments and the kernel stacks beside the identity tables, and
apart from the memory that system calls write. -/
structure Placed (L : Layout) (b : Buffers) (P : Placement) : Prop extends Linked L b where
  taskStates : KernelBuffer L P.tssLoc (maxProcs * tssSize)
  kernelStacks : KernelBuffer L P.procStacks (maxProcs * pageSize)
  taskStatesApart : ∀ x, Writes b x → x < P.tssLoc ∨ P.tssLoc + maxProcs * tssSize ≤ x
  kernelStacksApart : ∀ x, Writes b x → x < P.procStacks ∨ P.procStacks + maxProcs * pageSize ≤ x

/-- The kernel with the memory that it is entered with. -/
def entered (p : Processor) (d : Cpu) : Processor :=
  withMemory p { p.kernel.vm with memory := d.memory }

/-- What the system calls write to the frame at `a`. -/
def setResults (m : Memory) (a : ℕ) (tf : TrapFrame) : Memory :=
  store32 (store32 m (a + 16) tf.regs.ebx.toNat) (a + 28) tf.regs.eax.toNat

variable {L : Layout} {b : Buffers} {e : Surroundings} {p p' : Processor} {tf tf' : TrapFrame}
  {P : Placement} {pid v : ℕ} {m : Memory} {c d : Cpu} {esp0 : UInt32} {code : Option UInt32}
  {s : Stub}

theorem OwnStack.top (h : OwnStack P pid m esp0) (hpid : pid < maxProcs) :
    esp0.toNat = P.stack pid + pageSize := by
  obtain ⟨gdt, seg, gdt', hswitch, hesp0⟩ := h.loaded
  obtain ⟨gdt₂, hloads⟩ := switchTSS_loads P hpid gdt
  obtain ⟨rfl, -⟩ := Prod.mk.inj (Option.some.inj (hswitch.symm.trans hloads))
  rw [hesp0, trapStack]
  exact h.initialised

theorem ownStack_of_initialised (P : Placement) (hpid : pid < maxProcs)
    (h : load32 m (P.tss pid + 4) = P.stack pid + pageSize) (gdt : ℕ → SegDesc) :
    OwnStack P pid m (UInt32.ofNat (P.stack pid + pageSize)) := by
  have hb := P.bounds hpid
  obtain ⟨gdt', hloads⟩ := switchTSS_loads P hpid gdt
  refine ⟨h, gdt, _, gdt', hloads, ?_⟩
  rw [trapStack, h, UInt32.toNat_ofNat_of_lt']
  change P.stack pid + 4096 < 2 ^ 32
  omega

theorem OwnStack.congr (h : OwnStack P pid m esp0) (hpid : pid < maxProcs) {m' : Memory}
    (hm : ∀ x, P.tss pid ≤ x → x < P.tss pid + tssSize → m' x = m x) :
    OwnStack P pid m' esp0 := by
  have hload : load32 m' (P.tss pid + 4) = load32 m (P.tss pid + 4) :=
    load32_congr fun x hx hx' ↦ hm x (by omega) (by simp only [tssSize]; omega)
  obtain ⟨gdt, seg, gdt', hswitch, hesp0⟩ := h.loaded
  obtain ⟨gdt₂, hloads⟩ := switchTSS_loads P hpid gdt
  obtain ⟨rfl, -⟩ := Prod.mk.inj (Option.some.inj (hswitch.symm.trans hloads))
  refine ⟨hload.trans h.initialised, gdt, _, gdt', hswitch, hesp0.trans ?_⟩
  exact hload.symm

/-- `VirtualMemoryInit` leaves the task states as `InterruptInit` filled them. -/
theorem start_ownStack (hP : Placed L b P) (hpid : pid < maxProcs) (smap : List SMAP)
    (containers : ℕ → Container) (memory : Memory) (pageDirEntries : ℕ → ℕ → ℕ)
    (gdt : ℕ → SegDesc) :
    OwnStack P pid (start L smap containers (initTaskStates P memory) pageDirEntries).memory
      (UInt32.ofNat (P.stack pid + pageSize)) := by
  have hbeside := hP.taskStates.beside
  simp only [maxProcs, tssSize] at hpid hbeside
  apply ownStack_of_initialised P hpid _ gdt
  rw [start_memory, ← initTaskStates_esp0 P memory hpid]
  apply load32_congr
  intro x hx hx'
  apply initIdentity_of_outside
  simp only [Placement.tss, tssSize] at hx hx'
  omega

theorem Placed.stack (h : Placed L b P) (hpid : pid < maxProcs) :
    KernelBuffer L (P.stack pid) pageSize := by
  obtain ⟨hlow, hbeside⟩ := h.kernelStacks
  simp only [maxProcs, pageSize, memUserLo] at hpid hlow hbeside
  constructor
  · simp only [Placement.stack, pageSize, memUserLo]
    omega
  · simp only [Placement.stack, pageSize]
    omega

theorem frameAt_congr {m' : Memory} {a : ℕ} (h : ∀ x, a ≤ x → x < a + 68 → m' x = m x) :
    frameAt m' a = frameAt m a := by
  have hload (k : ℕ) (hk : k + 4 ≤ 68) : load32 m' (a + k) = load32 m (a + k) :=
    load32_congr fun x hx hx' ↦ h x (by omega) (by omega)
  have hfirst : load32 m' a = load32 m a := hload 0 (by decide)
  simp (disch := omega) only [frameAt, hfirst, hload]

theorem frameAt_setResults (m : Memory) (a : ℕ) (tf : TrapFrame) :
    frameAt (setResults m a tf) a = { frameAt m a with
      regs := { (frameAt m a).regs with eax := tf.regs.eax, ebx := tf.regs.ebx } } := by
  have hkept (k : ℕ) (hk : k + 4 ≤ 16 ∨ (20 ≤ k ∧ k + 4 ≤ 28) ∨ 32 ≤ k) :
      load32 (setResults m a tf) (a + k) = load32 m (a + k) := by
    rw [setResults, load32_store32_of_disjoint (by omega), load32_store32_of_disjoint (by omega)]
  have hfirst : load32 (setResults m a tf) a = load32 m a := hkept 0 (by decide)
  have hebx : load32 (setResults m a tf) (a + 16) = tf.regs.ebx.toNat := by
    rw [setResults, load32_store32_of_disjoint (by omega),
      load32_store32_self _ _ tf.regs.ebx.toNat_lt]
  have heax : load32 (setResults m a tf) (a + 28) = tf.regs.eax.toNat :=
    load32_store32_self _ _ tf.regs.eax.toNat_lt
  simp (disch := omega) only [frameAt, hfirst, hkept, hebx, heax, UInt32.ofNat_toNat]

/-- A frame that `HandleTrap` resumes says of the code all that the trap saved, but `eax` and
`ebx`. -/
theorem saved_of_resumes (h : Resumes tf tf') (hsaved : Saved c tf) :
    Saved { c with eax := tf'.regs.eax, ebx := tf'.regs.ebx } tf' := by
  obtain ⟨hregs, hes, hds, heip, hcs, hflags, huser⟩ := hsaved
  rw [h.registers]
  refine ⟨?_, hes, hds, heip, hcs, hflags, huser⟩
  rw [hregs]

/-- What user code can tell of a trap: it goes on with the memory it then finds, and only a system
call gives it other values in `eax` and `ebx`. -/
structure Transparent (v : ℕ) (c c' : Cpu) (m : Memory) : Prop where
  resumed : c' = { c with memory := m, eax := c'.eax, ebx := c'.ebx }
  silent : v ≠ trapSyscall → c'.eax = c.eax ∧ c'.ebx = c.ebx
  result : ¬ (v = trapSyscall ∧ c.eax.toNat = sysGetCharNumber) → c'.ebx = c.ebx

theorem transparent_of_resumes (hentered : Entered esp0 s code c d) (huser : UserMode c.cs)
    (hv : v < 256) (hnumber : s.number = v)
    (h : Resumes (frameAt d.memory d.esp.toNat) tf') (c' : Cpu)
    (hleft : frameAt c'.memory d.esp.toNat = tf') :
    Transparent v c (trapReturn d.esp c') c'.memory := by
  have hsaved := hentered.saved
  have hregs := hsaved.registers
  have htrap : (frameAt d.memory d.esp.toNat).trapno.toNat = v := by
    rw [hentered.trapno, hnumber, UInt32.toNat_ofNat_of_lt' (by change v < 2 ^ 32; omega)]
  have hleave : Saved { c with eax := tf'.regs.eax, ebx := tf'.regs.ebx }
      (frameAt c'.memory d.esp.toNat) := by
    rw [hleft]
    exact saved_of_resumes h hsaved
  have hreturn := trapReturn_of_saved hentered hleave rfl fun hn ↦ absurd huser hn
  rw [hreturn]
  refine ⟨rfl, fun hne ↦ ?_, fun hne ↦ ?_⟩
  · have hsame := h.silent (by rwa [htrap])
    rw [hsame, hregs]
    exact ⟨rfl, rfl⟩
  · have hebx := h.result (by rwa [htrap, hregs])
    rw [hebx, hregs]

/-- The machine when the code goes on with memory `m`: the processes have kept theirs, and the next
trap finds what this one found. -/
structure GoesOn (L : Layout) (P : Placement) (p p' : Processor) (m : Memory) (esp0 : UInt32) :
    Prop where
  grows : Grows p.kernel.vm { p'.kernel.vm with memory := m } p.threads.currentID
  shielded : Shielded L { p'.kernel.vm with memory := m }
  current : p'.threads.currentID = p.threads.currentID
  directory : p'.pageDirectory = p.threads.currentID
  stack : OwnStack P p.threads.currentID m esp0

theorem raised_entered (h : Isolated L p.kernel.vm) (hpid : UserRunning p)
    (hagree : TablesAgree L p.kernel.vm d.memory)
    (hraised : Raised e p.kernel.vm p.threads.currentID tf) :
    Raised e (entered p d).kernel.vm (entered p d).threads.currentID tf := by
  intro htrap herr
  obtain ⟨hva, hnp⟩ := hraised htrap herr
  refine ⟨hva, ?_⟩
  have hpte : getPageTableEntryByVA (entered p d).kernel.vm (entered p d).threads.currentID
      e.faultVA = getPageTableEntryByVA p.kernel.vm p.threads.currentID e.faultVA :=
    translation_write h hagree hpid.2 hva
  rwa [hpte]

/-- What a trap of user code saves fills the top of the kernel stack of the process. -/
theorem OwnStack.entry (h : OwnStack P pid c.memory esp0) (hpid : pid < maxProcs)
    (huser : UserMode c.cs) (hentered : Entered esp0 s code c d) :
    d.esp.toNat + 68 = P.stack pid + pageSize ∧
      ∀ x, x < P.stack pid ∨ P.stack pid + pageSize ≤ x → d.memory x = c.memory x := by
  have hpage : pageSize = 4096 := rfl
  have htop := h.top hpid
  have hesp0 : stackTop esp0 c = esp0.toNat := if_pos huser
  have hbottom := hentered.bottom
  rw [userStack_of_user huser, List.length_cons, List.length_cons, List.length_nil] at hbottom
  exact ⟨by omega, fun x hx ↦ hentered.outside x (by omega)⟩

/-- The entry and the exit write the kernel stack of the process, and `HandleTrap` does not. -/
theorem goesOn_of_entered (hP : Placed L b P) (h : Shielded L p.kernel.vm) (hpid : UserRunning p)
    (hmemory : c.memory = p.kernel.vm.memory)
    (hstack : OwnStack P p.threads.currentID c.memory esp0) (huser : UserMode c.cs)
    (hentered : Entered esp0 s code c d)
    (hraised : Raised e p.kernel.vm p.threads.currentID (frameAt d.memory d.esp.toNat))
    (hr : handleTrap b e (entered p d) (frameAt d.memory d.esp.toNat) = some (p', tf'))
    (hleft : ∀ x, x < P.stack p.threads.currentID ∨ d.esp.toNat ≤ x →
      m x = setResults p'.kernel.vm.memory d.esp.toNat tf' x) :
    (∀ x, x < P.stack p.threads.currentID ∨ P.stack p.threads.currentID + pageSize ≤ x →
        d.memory x = c.memory x) ∧
      frameAt m d.esp.toNat = tf' ∧ Resumes (frameAt d.memory d.esp.toNat) tf' ∧
      GoesOn L P p p' m esp0 := by
  have hpage : pageSize = 4096 := rfl
  have hsize : tssSize = 236 := rfl
  obtain ⟨htss, hstacks⟩ := P.within hpid.2
  have hbounds := P.bounds hpid.2
  have hapart := P.apart
  obtain ⟨hbottom, hin⟩ := hstack.entry hpid.2 huser hentered
  have hk : KernelBuffer L (P.stack p.threads.currentID) pageSize := hP.stack hpid.2
  have hwritten : ∀ x, x < P.stack p.threads.currentID ∨
      P.stack p.threads.currentID + pageSize ≤ x → d.memory x = p.kernel.vm.memory x :=
    fun x hx ↦ (hin x hx).trans (congrFun hmemory x)
  obtain ⟨hgrows, hshield⟩ := grows_kernelWrite h hk hwritten p.threads.currentID
  have hraised' := raised_entered h.toIsolated hpid (hk.tablesAgree h.toIsolated hwritten) hraised
  obtain ⟨hserves, hresumes⟩ := handleTrap_spec (p := entered p d) hP.toLinked hshield hpid
    hraised' hr
  obtain ⟨hcurrent, hdirectory⟩ := handleTrap_pageDirectory hr
  have hframe : ∀ x, d.esp.toNat ≤ x → x < d.esp.toNat + 68 →
      p'.kernel.vm.memory x = d.memory x := by
    intro x hx hx'
    refine hserves.kernel x (by simp only [memUserLo]; omega) fun hw ↦ ?_
    have hbeside := hP.kernelStacksApart x hw
    omega
  have hleft' : frameAt m d.esp.toNat = tf' := by
    rw [frameAt_congr (m := setResults p'.kernel.vm.memory d.esp.toNat tf')
      fun x hx _ ↦ hleft x (.inr hx), frameAt_setResults, frameAt_congr hframe]
    exact hresumes.registers.symm
  have hkept : ∀ x, x < P.stack p.threads.currentID ∨
      P.stack p.threads.currentID + pageSize ≤ x → m x = p'.kernel.vm.memory x := by
    intro x hx
    rw [hleft x (by omega), setResults, store32_of_outside (by omega), store32_of_outside (by omega)]
  obtain ⟨hleave, hshield'⟩ := grows_kernelWrite hserves.shielded hk hkept p.threads.currentID
  refine ⟨hin, hleft', hresumes, (hgrows.trans hserves.toGrows).trans hleave, hshield', hcurrent,
    hdirectory, hstack.congr hpid.2 fun x hx hx' ↦ ?_⟩
  rw [hkept x (by omega), ← hin x (by omega)]
  refine hserves.kernel x (by simp only [memUserLo]; omega) fun hw ↦ ?_
  have hbeside := hP.taskStatesApart x hw
  omega

/-- User code of a process takes a trap of a vector with a gate of its own and is resumed: what the
trap saves lies on the kernel stack of that process, `HandleTrap` finds it there and leaves it there
with the results of a system call, and the code goes on as if nothing had happened, apart from these
results. Below the frame, the kernel leaves on that stack what it likes. -/
theorem trap_transparent (L : Layout) (b : Buffers) (P : Placement) (hP : Placed L b P)
    (p p' : Processor) (h : Shielded L p.kernel.vm) (hpid : UserRunning p) (c c' : Cpu)
    (hmemory : c.memory = p.kernel.vm.memory) (esp0 handler : UInt32)
    (hstack : OwnStack P p.threads.currentID c.memory esp0) (huser : UserMode c.cs) (v : ℕ)
    (hv : v < 256) (hfits : Fits v) (code : Option UInt32)
    (hcode : code.isSome = pushesErrorCode v) (e : Surroundings) (tf' : TrapFrame) :
    let d := takeTrap esp0 handler v code c
    let stack := P.stack p.threads.currentID
    Raised e p.kernel.vm p.threads.currentID (frameAt d.memory d.esp.toNat) →
      handleTrap b e (entered p d) (frameAt d.memory d.esp.toNat) = some (p', tf') →
      (∀ x, x < stack ∨ d.esp.toNat ≤ x →
        c'.memory x = setResults p'.kernel.vm.memory d.esp.toNat tf' x) →
      (∀ x, x < stack ∨ stack + pageSize ≤ x → d.memory x = c.memory x) ∧
        Transparent v c (trapReturn d.esp c') c'.memory ∧ GoesOn L P p p' c'.memory esp0 := by
  intro d stack hraised hr hleft
  have htop := hstack.top hpid.2
  have hesp0 : stackTop esp0 c = esp0.toNat := if_pos huser
  have hentered : Entered esp0 (stub (installed v).1) code c (takeTrap esp0 handler v code c) :=
    enter_entered (hcode.trans hfits.errorCode.symm) (by rw [hesp0, htop, pageSize]; omega) handler
  obtain ⟨hin, hframe, hresumes, hgoes⟩ :=
    goesOn_of_entered hP h hpid hmemory hstack huser hentered hraised hr hleft
  exact ⟨hin, transparent_of_resumes hentered huser hv hfits.number hresumes c' hframe, hgoes⟩

theorem lowPlaced : Placed lowLayout lowBuffers lowPlacement where
  toLinked := lowLinked
  taskStates := ⟨by decide, .inr (by decide)⟩
  kernelStacks := ⟨by decide, .inr (by decide)⟩
  taskStatesApart x hx := by
    simp only [Writes, lowBuffers, lowPlacement, vgaAddress, vgaWidth, vgaHeight, maxProcs,
      pageSize, tssSize] at *
    omega
  kernelStacksApart x hx := by
    simp only [Writes, lowBuffers, lowPlacement, vgaAddress, vgaWidth, vgaHeight, maxProcs,
      pageSize] at *
    omega

/-- A page fault of user code, if the process can afford the page. -/
theorem fault_handled (hP : Placed L b P) (h : Shielded L p.kernel.vm) (hpid : UserRunning p)
    (hmemory : c.memory = p.kernel.vm.memory)
    (hstack : OwnStack P p.threads.currentID c.memory esp0) (huser : UserMode c.cs)
    (hentered : Entered esp0 s (some 6) c d) (hnumber : s.number = trapPageFault) {va : ℕ}
    (hu : UserTable p.threads.currentID (vaPdeIndex va))
    (hafford : Affords p.kernel.vm.physical p.threads.currentID 2) :
    ∃ p', handleTrap b (faultAt va) (entered p d) (frameAt d.memory d.esp.toNat) =
      some (p', frameAt d.memory d.esp.toNat) := by
  obtain ⟨-, hin⟩ := hstack.entry hpid.2 huser hentered
  have hagree : TablesAgree L p.kernel.vm d.memory :=
    (hP.stack hpid.2).tablesAgree h.toIsolated fun x hx ↦
      (hin x hx).trans (congrFun hmemory x)
  have htrap : (frameAt d.memory d.esp.toNat).trapno.toNat = trapPageFault := by
    rw [hentered.trapno, hnumber]
    rfl
  have herr : (frameAt d.memory d.esp.toNat).err &&& pageFaultProtectionViolation = 0 := by
    rw [hentered.err]
    decide
  obtain ⟨s', page, -, hhandled⟩ := handleTrap_afforded (b := b) (e := faultAt va)
    (p := entered p d) (h.write hagree).toIsolated htrap herr hu hafford
  exact ⟨_, hhandled⟩

/-- Memory as `InterruptInit` and `VirtualMemoryInit` leave it. -/
def initialised : State :=
  start lowLayout (pageMap 2) (fun _ ↦ ⟨(2 : ℕ), 0, 0, 0, true⟩)
    (initTaskStates lowPlacement fun _ ↦ 0) fun _ _ ↦ 0

/-- Code of process 1 about to touch its first page. -/
def touching (m : Memory) : Cpu where
  memory := m
  edi := 0
  esi := 0
  ebp := 0
  ebx := 0
  edx := 0
  ecx := 0
  eax := 0x40000000
  esp := 0xf0000000
  es := 0x23
  ds := 0x23
  eip := 0x40001000
  cs := 0x1b
  eflags := 0x202
  ss := 0x23

def ownTop : UInt32 := UInt32.ofNat (lowPlacement.stack 1 + pageSize)

/-- `touching` once its page fault is taken. -/
def touched (m : Memory) : Cpu := takeTrap ownTop 0 14 (some 6) (touching m)

theorem touched_entered (m : Memory) :
    Entered ownTop (stub (installed 14).1) (some 6) (touching m) (touched m) := by
  have hfits : Fits 14 := (fits_iff (by decide)).mpr (by decide)
  have hcode : (some 6 : Option UInt32).isSome = (stub (installed 14).1).errorCode :=
    hfits.errorCode.symm
  have huser : UserMode (touching m).cs := by
    change (0x1b : UInt16) &&& 3 ≠ 0
    decide
  have hroom : 72 ≤ stackTop ownTop (touching m) := by
    rw [stackTop, if_pos huser]
    decide
  exact enter_entered hcode hroom 0

/-- Process 1 touches its first page and goes on when it is there. -/
def FaultTransparent (vm : State) : Prop :=
  ∃ p' c', handleTrap lowBuffers (faultAt 0x40000000) (entered (running vm) (touched vm.memory))
      (frameAt (touched vm.memory).memory (touched vm.memory).esp.toNat) =
        some (p', frameAt (touched vm.memory).memory (touched vm.memory).esp.toNat) ∧
    (∀ x, x < lowPlacement.stack 1 ∨ lowPlacement.stack 1 + pageSize ≤ x →
      (touched vm.memory).memory x = vm.memory x) ∧
    Transparent 14 (touching vm.memory) (trapReturn (touched vm.memory).esp c') c'.memory ∧
    GoesOn lowLayout lowPlacement (running vm) p' c'.memory ownTop

theorem trap_transparent_fault : FaultTransparent initialised := by
  have hfits : Fits 14 := (fits_iff (by decide)).mpr (by decide)
  have hresumed (vm : State) (hshield : Shielded lowLayout vm)
      (hstack : OwnStack lowPlacement 1 vm.memory ownTop)
      (hpde : vm.pageDirEntries 1 (vaPdeIndex 0x40000000) = 0)
      (hafford : Affords vm.physical 1 2) : FaultTransparent vm := by
    have huser : UserMode (touching vm.memory).cs := by
      change (0x1b : UInt16) &&& 3 ≠ 0
      decide
    obtain ⟨p', hhandled⟩ := fault_handled (c := touching vm.memory) lowPlaced
      (running_shielded hshield) (running_user vm) rfl hstack huser (touched_entered vm.memory)
      hfits.number userTable_first hafford
    let c' : Cpu := { touched vm.memory with
      memory := setResults p'.kernel.vm.memory (touched vm.memory).esp.toNat
        (frameAt (touched vm.memory).memory (touched vm.memory).esp.toNat) }
    obtain ⟨hin, htransparent, hgoes⟩ := trap_transparent lowLayout lowBuffers lowPlacement
      lowPlaced (running vm) p' (running_shielded hshield) (running_user vm) (touching vm.memory) c'
      rfl ownTop 0 hstack huser 14 (by decide) hfits (some 6) rfl (faultAt 0x40000000)
      (frameAt (touched vm.memory).memory (touched vm.memory).esp.toNat)
      (fun _ _ ↦ ⟨by decide, not_present_of_no_table hpde⟩) hhandled fun _ _ ↦ rfl
    exact ⟨p', c', hhandled, hin, htransparent, hgoes⟩
  exact hresumed initialised (start_shielded _ _ _ _ _)
    (start_ownStack lowPlaced (by decide) _ _ _ _ fun _ ↦ segDesc32 0 0 0 0)
    (start_pde _ _ _ _ _ userTable_first) (start_affords _ _ _ (by decide))

end StormOS.TrapRoundTrip
