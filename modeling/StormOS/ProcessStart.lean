import StormOS.Library.Runs
import StormOS.ElfPages
import StormOS.ThreadQueue
import StormOS.Trap

namespace StormOS.ProcessStart

open Library.Runs Machine Interrupt PhysicalMemory VirtualMemory Syscall Elf Threads Trap Function

/-- What `CreateProcess` is called with, where `ProcessStartUser` is, and the registers that are
live when `ContextSwitch` is called. -/
structure Call where
  elfAddr : ℕ
  quota : ℕ
  processStartUser : UInt32
  live : KernelContext

/-- The fields of the user context that `CreateProcess` assigns. -/
inductive Field
  | es
  | ds
  | cs
  | ss
  | esp
  | eflags
  | eip
  deriving DecidableEq

def contextFields : List Field := [.es, .ds, .cs, .ss, .esp, .eflags, .eip]

def Field.assign (m : Library.Bytes.Memory) (elfAddr : ℕ) (tf : TrapFrame) :
    Field → Option TrapFrame
  | .es => some { tf with es := gdtUserData ||| 3 }
  | .ds => some { tf with ds := gdtUserData ||| 3 }
  | .cs => some { tf with cs := gdtUserCode ||| 3 }
  | .ss => some { tf with ss := gdtUserData ||| 3 }
  | .esp => some { tf with esp := UInt32.ofNat memUserHi }
  | .eflags => some { tf with eflags := flagIF }
  | .eip => (elfEntry m elfAddr).map fun entry ↦ { tf with eip := UInt32.ofNat entry }

def assignAll (m : Library.Bytes.Memory) (elfAddr : ℕ) (fs : List Field) (tf : TrapFrame) :
    Option TrapFrame := fs.foldlM (Field.assign m elfAddr) tf

def withThreads (p : Processor) (threads : Threads.State) : Processor :=
  { p with threads := threads }

def createProcess (call : Call) (p : Processor) : Option (Processor × ℕ) :=
  let (physical, threads, pid) := threadSpawn p.kernel.vm.physical p.threads
    p.threads.currentID call.quota call.processStartUser
  let p := withThreads (withMemory p { p.kernel.vm with physical := physical }) threads
  (elfLoad p.kernel.vm call.elfAddr pid).bind fun vm ↦
    (assignAll vm.memory call.elfAddr contextFields (p.threads.userContexts pid)).map fun tf ↦
      (setUserContext (withMemory p vm) pid tf, pid)

/-- The frame that `CreateProcess` writes. -/
def createdFrame (call : Call) (p : Processor) : Option TrapFrame :=
  (createProcess call p).map fun (p, pid) ↦ p.threads.userContexts pid

/-- The statements between the call of `CreateProcess` and user mode. The loops of `ELFLoad` stop
at every header and at every page. -/
inductive Pc
  | containerSplit
  | setEip
  | setEsp
  | setReady
  | enqueue
  | elfLoad
  | segment (ph eph : ℕ)
  | page (ph eph perm zva eva va fa : ℕ)
  | fields (fs : List Field)
  | saveCurrent
  | remove
  | setRun
  | setCurrent
  | contextSwitch
  | switchTSS
  | setPageDirectory
  | trapReturn
  | user (tf : TrapFrame)
  | elsewhere
  deriving DecidableEq

/-- The locals `pid` of `CreateProcess` and `curid` of `ForceRunProcess`, and what comes next. -/
structure Config where
  processor : Processor
  pid : ℕ
  curid : ℕ
  pc : Pc

def Config.goTo (c : Config) (p : Processor) (pc : Pc) : Config :=
  { c with processor := p, pc := pc }

/-- The next statement of the path, `none` in a kernel panic and at the end. -/
def next (call : Call) (c : Config) : Option Config :=
  let p := c.processor
  let threads := p.threads
  let vm := p.kernel.vm
  match c.pc with
  | .containerSplit =>
    let r := containerSplit vm.physical threads.currentID call.quota
    some ⟨withMemory p { vm with physical := r.1 }, r.2, c.curid, .setEip⟩
  | .setEip =>
    let context := { threads.kernelContexts c.pid with eip := call.processStartUser }
    some (c.goTo (withThreads p
      { threads with kernelContexts := update threads.kernelContexts c.pid context }) .setEsp)
  | .setEsp =>
    let context := { threads.kernelContexts c.pid with esp := stackTop threads c.pid }
    some (c.goTo (withThreads p
      { threads with kernelContexts := update threads.kernelContexts c.pid context }) .setReady)
  | .setReady => some (c.goTo (withThreads p (setState threads c.pid .ready)) .enqueue)
  | .enqueue => some (c.goTo (withThreads p (tqEnqueue threads maxProcs c.pid)) .elfLoad)
  | .elfLoad =>
    let eh := call.elfAddr
    let sh := u32 (eh + eShoff vm.memory eh)
    if eMagic vm.memory eh ≠ elfMagic then none
    else if eShstrndx vm.memory eh = elfShnUndef then none
    else if shType vm.memory (u32 (sh + eShstrndx vm.memory eh * sechdrSize)) ≠ elfShtStrtab
    then none
    else
      some (c.goTo p (.segment (programHeaders vm.memory eh) (programHeadersEnd vm.memory eh)))
  | .segment ph eph =>
    if ph < eph then
      if pType vm.memory ph ≠ elfProgLoad then some (c.goTo p (.segment (ph + proghdrSize) eph))
      else
        let fa := u32 (call.elfAddr + roundDown (pOffset vm.memory ph) pageSize)
        let va := roundDown (pVa vm.memory ph) pageSize
        let zva := u32 (pVa vm.memory ph + pFilesz vm.memory ph)
        let eva := roundUp (u32 (pVa vm.memory ph + pMemsz vm.memory ph)) pageSize
        some (c.goTo p (.page ph eph (segmentPerm (pFlags vm.memory ph)) zva eva va fa))
    else some (c.goTo p (.fields contextFields))
  | .page ph eph perm zva eva va fa =>
    if va < eva then
      (loadPage vm c.pid ph perm zva va fa).map fun vm ↦
        c.goTo (withMemory p vm) (.page ph eph perm zva eva (va + pageSize) (u32 (fa + pageSize)))
    else some (c.goTo p (.segment (ph + proghdrSize) eph))
  | .fields [] => some (c.goTo p .saveCurrent)
  | .fields (f :: fs) =>
    (f.assign vm.memory call.elfAddr (threads.userContexts c.pid)).map fun tf ↦
      c.goTo (setUserContext p c.pid tf) (.fields fs)
  | .saveCurrent => some { c with curid := threads.currentID, pc := .remove }
  | .remove => some (c.goTo (withThreads p (tqRemove threads maxProcs c.pid)) .setRun)
  | .setRun => some (c.goTo (withThreads p (setState threads c.pid .run)) .setCurrent)
  | .setCurrent =>
    some (c.goTo (withThreads p { threads with currentID := c.pid }) .contextSwitch)
  | .contextSwitch =>
    let r := Threads.contextSwitch threads.kernelContexts c.curid c.pid call.live
    some (c.goTo (withThreads p { threads with kernelContexts := r.1 })
      (if r.2.eip = call.processStartUser then .switchTSS else .elsewhere))
  | .switchTSS => some (c.goTo (Trap.switchTSS p threads.currentID) .setPageDirectory)
  | .setPageDirectory => some (c.goTo (Trap.setPageDirectory p threads.currentID) .trapReturn)
  | .trapReturn => some (c.goTo p (.user (threads.userContexts threads.currentID)))
  | .user _ => none
  | .elsewhere => none

/-- Where a statement stands with respect to the assignment `currentID = pid`. -/
inductive Phase
  | creating
  | handOver
  | left
  deriving DecidableEq

def Pc.phase : Pc → Phase
  | .contextSwitch => .handOver
  | .switchTSS => .handOver
  | .setPageDirectory => .handOver
  | .trapReturn => .handOver
  | .user _ => .left
  | .elsewhere => .left
  | _ => .creating

inductive Event
  | step
  | interrupt (e : Surroundings) (tf : TrapFrame)

/-- An interrupt resumes the path when `TrapReturn` loads the frame that it saved. -/
def interrupted (b : Buffers) (e : Surroundings) (c : Config) (tf : TrapFrame) : Option Config :=
  (handleTrap b e c.processor tf).map fun (p, tf') ↦
    c.goTo p (if tf' = tf then c.pc else .elsewhere)

/-- The path with the hardware interrupts that are taken on it. -/
def path (b : Buffers) (call : Call) : System Config Event where
  enabled c
    | .step => (next call c).isSome
    | .interrupt _ tf => c.pc.phase ≠ .left ∧ HardwareInterrupt tf ∧ KernelMode tf
  step c
    | .step => (next call c).getD c
    | .interrupt e tf => (interrupted b e c tf).getD c

def start (p : Processor) : Config := ⟨p, 0, 0, .containerSplit⟩

section ElfLoad

variable {call : Call} {c' : Config} {p : Processor} {pid curid ph eph perm zva eva va fa : ℕ}

theorem next_elfLoad (h : next call ⟨p, pid, curid, .elfLoad⟩ = some c') :
    Accepted p.kernel.vm.memory call.elfAddr ∧
      c' = ⟨p, pid, curid, .segment (programHeaders p.kernel.vm.memory call.elfAddr)
        (programHeadersEnd p.kernel.vm.memory call.elfAddr)⟩ := by
  simp only [next] at h
  split at h
  · cases h
  rename_i hmagic
  split at h
  · cases h
  rename_i hndx
  split at h
  · cases h
  rename_i htype
  obtain rfl := Option.some.inj h
  exact ⟨⟨not_not.mp hmagic, hndx, not_not.mp htype⟩, rfl⟩

theorem next_segment (h : next call ⟨p, pid, curid, .segment ph eph⟩ = some c') :
    ph < eph ∧ pType p.kernel.vm.memory ph ≠ elfProgLoad ∧
        c' = ⟨p, pid, curid, .segment (ph + proghdrSize) eph⟩ ∨
      ph < eph ∧ pType p.kernel.vm.memory ph = elfProgLoad ∧
        c' = ⟨p, pid, curid, .page ph eph (segmentPerm (pFlags p.kernel.vm.memory ph))
          (u32 (pVa p.kernel.vm.memory ph + pFilesz p.kernel.vm.memory ph))
          (roundUp (u32 (pVa p.kernel.vm.memory ph + pMemsz p.kernel.vm.memory ph)) pageSize)
          (roundDown (pVa p.kernel.vm.memory ph) pageSize)
          (u32 (call.elfAddr + roundDown (pOffset p.kernel.vm.memory ph) pageSize))⟩ ∨
      ¬ ph < eph ∧ c' = ⟨p, pid, curid, .fields contextFields⟩ := by
  simp only [next] at h
  split at h
  · rename_i hlt
    split at h
    · rename_i htype
      exact .inl ⟨hlt, htype, (Option.some.inj h).symm⟩
    · rename_i htype
      exact .inr (.inl ⟨hlt, not_not.mp htype, (Option.some.inj h).symm⟩)
  · rename_i hlt
    exact .inr (.inr ⟨hlt, (Option.some.inj h).symm⟩)

theorem next_page (h : next call ⟨p, pid, curid, .page ph eph perm zva eva va fa⟩ = some c') :
    (va < eva ∧ ∃ vm, loadPage p.kernel.vm pid ph perm zva va fa = some vm ∧
        c' = ⟨withMemory p vm, pid, curid,
          .page ph eph perm zva eva (va + pageSize) (u32 (fa + pageSize))⟩) ∨
      ¬ va < eva ∧ c' = ⟨p, pid, curid, .segment (ph + proghdrSize) eph⟩ := by
  simp only [next] at h
  split at h
  · rename_i hlt
    obtain ⟨vm, hvm, rfl⟩ := Option.map_eq_some_iff.mp h
    exact .inl ⟨hlt, vm, hvm, rfl⟩
  · rename_i hlt
    exact .inr ⟨hlt, (Option.some.inj h).symm⟩

theorem next_fields {fs : List Field} (h : next call ⟨p, pid, curid, .fields fs⟩ = some c') :
    (fs = [] ∧ c' = ⟨p, pid, curid, .saveCurrent⟩) ∨ ∃ f rest tf, fs = f :: rest ∧
      f.assign p.kernel.vm.memory call.elfAddr (p.threads.userContexts pid) = some tf ∧
        c' = ⟨setUserContext p pid tf, pid, curid, .fields rest⟩ := by
  cases fs with
  | nil => exact .inl ⟨rfl, (Option.some.inj h).symm⟩
  | cons f rest =>
    obtain ⟨tf, htf, rfl⟩ := Option.map_eq_some_iff.mp h
    exact .inr ⟨f, rest, tf, rfl, htf, rfl⟩

end ElfLoad

end StormOS.ProcessStart
