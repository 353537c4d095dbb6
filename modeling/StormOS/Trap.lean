import StormOS.Syscall
import StormOS.Threads

namespace StormOS.Trap

open Machine Interrupt VirtualMemory Printf Syscall Threads Function

abbrev pageFaultProtectionViolation : UInt32 := 0x1

/-- The kernel's state, and of the hardware the process whose task state segment is loaded, the
process whose page directory is in use, and the number of ends of interrupt sent. -/
structure Processor where
  kernel : Kernel
  threads : Threads.State
  taskState : ℕ
  pageDirectory : ℕ
  endsOfInterrupt : ℕ

/-- What a handler finds outside the kernel's state: the faulting address, the words that stand
where `PrintfColor` looks for its arguments, and the keys pressed. -/
structure Surroundings where
  faultVA : ℕ
  stack : ℕ → Args
  keys : List ℤ

def switchTSS (p : Processor) (pid : ℕ) : Processor := { p with taskState := pid }

def setPageDirectory (p : Processor) (pid : ℕ) : Processor := { p with pageDirectory := pid }

/-- `ProcessStartUser` before its `TrapReturn`. -/
def processStartUser (p : Processor) : Processor :=
  setPageDirectory (switchTSS p p.threads.currentID) p.threads.currentID

def picEoi (p : Processor) : Processor := { p with endsOfInterrupt := p.endsOfInterrupt + 1 }

def setUserContext (p : Processor) (id : ℕ) (tf : TrapFrame) : Processor :=
  { p with threads := { p.threads with userContexts := update p.threads.userContexts id tf } }

def withMemory (p : Processor) (vm : VirtualMemory.State) : Processor :=
  { p with kernel := { p.kernel with vm := vm } }

/-- The handlers are `none` when the kernel panics or the call does not return. -/
def pageFaultHandler (e : Surroundings) (p : Processor) (tf : TrapFrame) : Option Processor :=
  if tf.err &&& pageFaultProtectionViolation ≠ 0 then none
  else
    let (vm, _, err) := allocPage p.kernel.vm p.threads.currentID e.faultVA ptePWU
    if err ≠ 0 then none else some (withMemory p vm)

def exceptionHandler (e : Surroundings) (p : Processor) (tf : TrapFrame) : Option Processor :=
  if tf.trapno.toNat = trapPageFault then pageFaultHandler e p tf else some p

def interruptHandler (p : Processor) : Processor :=
  let type := (p.threads.userContexts p.threads.currentID).trapno.toNat
  if type = irqBase + irqTimer then picEoi p
  else if type = irqBase + irqSpurious then p
  else picEoi p

/-- The frame is the one that `TrapReturn` loads at the end. -/
def handleTrap (b : Buffers) (e : Surroundings) (p : Processor) (tf : TrapFrame) :
    Option (Processor × TrapFrame) :=
  let currentID := p.threads.currentID
  let p := setPageDirectory (setUserContext p currentID tf) 0
  let handled :=
    if trapDivide ≤ tf.trapno.toNat ∧ tf.trapno.toNat ≤ trapSecurityEvent then
      (exceptionHandler e p tf).map fun p ↦ (p, tf)
    else if irqBase + irqTimer ≤ tf.trapno.toNat ∧ tf.trapno.toNat ≤ irqBase + irqIDE2 then
      some (interruptHandler p, tf)
    else if tf.trapno.toNat = trapSyscall then
      (syscallDispatch b currentID p.kernel tf e.stack e.keys).result.map fun (kernel, tf) ↦
        ({ p with kernel := kernel }, tf)
    else some (p, tf)
  handled.map fun (p, tf) ↦ (setPageDirectory p currentID, tf)

def HardwareInterrupt (tf : TrapFrame) : Prop :=
  irqBase ≤ tf.trapno.toNat ∧ tf.trapno.toNat ≤ irqBase + irqIDE2

def KernelMode (tf : TrapFrame) : Prop := tf.cs &&& 3 = 0

variable {b : Buffers} {e : Surroundings} {p p' : Processor} {tf tf' : TrapFrame}

theorem interruptHandler_eq (p : Processor) :
    ∃ n, interruptHandler p = { p with endsOfInterrupt := n } := by
  unfold interruptHandler
  dsimp only
  split
  · exact ⟨_, rfl⟩
  · split
    · exact ⟨_, rfl⟩
    · exact ⟨_, rfl⟩

/-- A hardware interrupt saves its frame in the context of the running thread, whatever code it
interrupts, and goes back to where it came from. -/
theorem handleTrap_of_hardwareInterrupt (h : HardwareInterrupt tf) (b : Buffers)
    (e : Surroundings) (p : Processor) : ∃ n, handleTrap b e p tf = some
      ({ setUserContext p p.threads.currentID tf with
          pageDirectory := p.threads.currentID, endsOfInterrupt := n }, tf) := by
  have hexc : ¬ (trapDivide ≤ tf.trapno.toNat ∧ tf.trapno.toNat ≤ trapSecurityEvent) := by
    intro he
    exact absurd (h.1.trans he.2) (by decide)
  have hirq : irqBase + irqTimer ≤ tf.trapno.toNat ∧ tf.trapno.toNat ≤ irqBase + irqIDE2 := h
  obtain ⟨n, hn⟩ := interruptHandler_eq
    (setPageDirectory (setUserContext p p.threads.currentID tf) 0)
  refine ⟨n, ?_⟩
  rw [handleTrap, if_neg hexc, if_pos hirq, hn]
  rfl

theorem pageFaultHandler_threads (h : pageFaultHandler e p tf = some p') :
    p'.threads = p.threads := by
  unfold pageFaultHandler at h
  dsimp only at h
  split at h
  · cases h
  · split at h
    · cases h
    · obtain rfl := Option.some.inj h
      rfl

theorem exceptionHandler_threads (h : exceptionHandler e p tf = some p') :
    p'.threads = p.threads := by
  unfold exceptionHandler at h
  split at h
  · exact pageFaultHandler_threads h
  · obtain rfl := Option.some.inj h
    rfl

/-- Whatever the trap, its frame replaces the saved context of the running thread and nothing
else of the thread module changes. -/
theorem handleTrap_threads (h : handleTrap b e p tf = some (p', tf')) :
    p'.threads = (setUserContext p p.threads.currentID tf).threads := by
  obtain ⟨⟨q, tq⟩, hq, heq⟩ := Option.map_eq_some_iff.mp h
  obtain rfl : setPageDirectory q p.threads.currentID = p' := congrArg Prod.fst heq
  change q.threads = _
  split at hq
  · obtain ⟨r, hr, heq⟩ := Option.map_eq_some_iff.mp hq
    obtain rfl : r = q := congrArg Prod.fst heq
    have hthreads := exceptionHandler_threads hr
    exact hthreads
  · split at hq
    · obtain ⟨n, hn⟩ := interruptHandler_eq
        (setPageDirectory (setUserContext p p.threads.currentID tf) 0)
      rw [hn] at hq
      obtain rfl := congrArg Prod.fst (Option.some.inj hq)
      rfl
    · split at hq
      · obtain ⟨r, _, heq⟩ := Option.map_eq_some_iff.mp hq
        obtain rfl := congrArg Prod.fst heq
        rfl
      · obtain rfl := congrArg Prod.fst (Option.some.inj hq)
        rfl

/-- The directory in use after a trap is again that of the running thread. -/
theorem handleTrap_pageDirectory (h : handleTrap b e p tf = some (p', tf')) :
    p'.threads.currentID = p.threads.currentID ∧ p'.pageDirectory = p.threads.currentID := by
  have hthreads := handleTrap_threads h
  obtain ⟨⟨q, tq⟩, _, heq⟩ := Option.map_eq_some_iff.mp h
  obtain rfl : setPageDirectory q p.threads.currentID = p' := congrArg Prod.fst heq
  refine ⟨?_, rfl⟩
  rw [hthreads]
  rfl

end StormOS.Trap
