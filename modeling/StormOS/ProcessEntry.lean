import StormOS.ElfReturns
import StormOS.ProcessPath
import StormOS.Scheduler
import StormOS.SyscallReads

namespace StormOS.ProcessStart

open Library.Runs Machine Interrupt PhysicalMemory VirtualMemory Syscall Elf Threads ThreadQueue
open Trap Function
open Scheduler (CurrentAlive currentAlive_threadInit)

variable {b : Buffers} {call : Call} {p : Processor} {run : List Event}

/-- The process enters user mode whatever the interrupts, and does so with its own frame exactly
if none of them comes between the assignment to `currentID` and `TrapReturn`. -/
theorem enters_as_created_iff (halive : CurrentAlive p.threads)
    (hfresh : stateOf p.threads (createdID call (start p)) = .dead)
    (hlegal : (path b call).Legal (start p) run) :
    (∀ f, createdFrame call p = some f → ∃ n tf,
      (path b call).Legal (start p) (run ++ List.replicate n .step) ∧
        ((path b call).final (start p) (run ++ List.replicate n .step)).pc = .user tf) ∧
    ∀ tf, ((path b call).final (start p) run).pc = .user tf →
      (EntersAsCreated call p tf ↔ (path b call).Along Undisturbed (start p) run) := by
  have hchild : createdID call (start p) ≠ p.threads.currentID := fun h ↦ halive (h ▸ hfresh)
  have hstart : Creating call (createdFrame call p) (start p) :=
    ⟨rfl, hchild, (createdFrame_eq call p).symm⟩
  refine ⟨fun f hf ↦ trapReturn_reached ⟨.inl (hf ▸ hstart), trivial⟩ hlegal, fun tf hpc ↦ ?_⟩
  constructor
  · intro hcreated
    by_contra hu
    have hkernel : KernelMode tf := (OnCourse.final_disturbed (.inl hstart) hlegal hu).of_user hpc
    exact absurd (hcreated.cs.symm.trans hkernel) (by decide)
  · intro hu
    rcases OnCourse.final (.inl hstart) hlegal hu with h | h
    · have hphase := h.phase
      rw [hpc] at hphase
      cases hphase
    · exact entersAsCreated (h.of_user hpc)

instance (tf : TrapFrame) : Decidable (HardwareInterrupt tf) := inferInstanceAs (Decidable (_ ∧ _))

instance (tf : TrapFrame) : Decidable (KernelMode tf) := inferInstanceAs (Decidable (_ = _))

instance (b : Buffers) (call : Call) (c : Config) :
    (a : Event) → Decidable ((path b call).enabled c a)
  | .step => inferInstanceAs (Decidable ((next call c).isSome = true))
  | .interrupt _ tf => inferInstanceAs
      (Decidable (c.pc.phase ≠ .left ∧ HardwareInterrupt tf ∧ KernelMode tf))

instance (c : Config) : (a : Event) → Decidable (Undisturbed c a)
  | .step => .isTrue trivial
  | .interrupt _ _ => inferInstanceAs (Decidable (c.pc.phase ≠ .handOver))

def emptyFile : List UInt8 := elfFile 0x40000000 []

/-- The machine as the monitor finds it. The allocator is given so that runs can be computed. -/
def bootedProcessor : Processor where
  kernel := ⟨{ bootedWith emptyFile with
    physical := AddressSpaces.allocator (pageMap 4) fun _ ↦ ⟨(4 : ℕ), 0, 0, 0, true⟩ }, ⟨fun _ ↦ 0, 0, 0⟩, []⟩
  threads := threadInit (loaded 0x300000)
  taskState := 0
  pageDirectory := 0
  endsOfInterrupt := 0

def userCommand : Call where
  elfAddr := 0x10000000
  quota := 10000
  processStartUser := 0x8000
  live := default

def timerFrame : TrapFrame :=
  { (default : TrapFrame) with trapno := 32, cs := gdtKernelCode, eflags := flagIF, eip := 0x9000 }

def userFrame : TrapFrame :=
  { (default : TrapFrame) with
    es := 0x23, ds := 0x23, cs := 0x1b, ss := 0x23, esp := 0xF0000000, eflags := 0x200
    eip := 0x40000000 }

def timerBefore (n : ℕ) : List Event :=
  List.replicate n .step ++ .interrupt ⟨0, fun _ ↦ default, []⟩ timerFrame ::
    List.replicate (23 - n) .step

theorem bootedProcessor_alive : CurrentAlive bootedProcessor.threads :=
  currentAlive_threadInit (loaded 0x300000)

theorem bootedProcessor_fresh : stateOf bootedProcessor.threads
    (createdID userCommand (start bootedProcessor)) = .dead := by decide +kernel

theorem enters_as_created_iff_timer : EntersAsCreated userCommand bootedProcessor userFrame := by
  have hlegal : (path lowBuffers userCommand).Legal (start bootedProcessor) (timerBefore 18) := by
    decide +kernel
  have hpc : ((path lowBuffers userCommand).final (start bootedProcessor) (timerBefore 18)).pc =
      .user userFrame := by decide +kernel
  refine ((enters_as_created_iff bootedProcessor_alive bootedProcessor_fresh hlegal).2
    userFrame hpc).mpr ?_
  decide +kernel

theorem timer_enters_kernel : ¬ ∀ (b : Buffers) (call : Call) (p : Processor) (run : List Event)
    (tf : TrapFrame), CurrentAlive p.threads →
    stateOf p.threads (createdID call (start p)) = .dead →
    (path b call).Legal (start p) run → ((path b call).final (start p) run).pc = .user tf →
    EntersAsCreated call p tf := by
  intro h
  have hcs := (h lowBuffers userCommand bootedProcessor (timerBefore 19) timerFrame
    bootedProcessor_alive bootedProcessor_fresh (by decide +kernel)
    (by decide +kernel)).cs
  exact absurd hcs (by decide)

end StormOS.ProcessStart
