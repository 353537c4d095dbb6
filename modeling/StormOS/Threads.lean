import StormOS.Interrupt
import StormOS.PhysicalMemory

namespace StormOS.Threads

open Library.Loops Machine Interrupt Function

inductive ThreadState
  | ready
  | run
  | sleep
  | dead
  deriving DecidableEq

structure KernelContext where
  esp : UInt32
  edi : UInt32
  esi : UInt32
  ebx : UInt32
  ebp : UInt32
  eip : UInt32
  deriving DecidableEq, Inhabited

/-- A thread control block. The links name threads, and `maxProcs` stands for none. -/
structure TCB where
  state : ThreadState
  prev : ℕ
  next : ℕ

structure ThreadQueue where
  head : ℕ
  tail : ℕ

/-- The globals of the thread module. `procStacks` is the address of the kernel stacks. -/
structure State where
  procStacks : ℕ
  kernelContexts : ℕ → KernelContext
  userContexts : ℕ → TrapFrame
  tcbs : ℕ → TCB
  threadQueues : ℕ → ThreadQueue
  currentID : ℕ

def loaded (procStacks : ℕ) : State where
  procStacks := procStacks
  kernelContexts _ := default
  userContexts _ := default
  tcbs _ := ⟨.ready, 0, 0⟩
  threadQueues _ := ⟨0, 0⟩
  currentID := 0

def setState (s : State) (id : ℕ) (v : ThreadState) : State :=
  { s with tcbs := update s.tcbs id { s.tcbs id with state := v } }

def setPrev (s : State) (id v : ℕ) : State :=
  { s with tcbs := update s.tcbs id { s.tcbs id with prev := v } }

def setNext (s : State) (id v : ℕ) : State :=
  { s with tcbs := update s.tcbs id { s.tcbs id with next := v } }

def setHead (s : State) (q v : ℕ) : State :=
  { s with threadQueues := update s.threadQueues q { s.threadQueues q with head := v } }

def setTail (s : State) (q v : ℕ) : State :=
  { s with threadQueues := update s.threadQueues q { s.threadQueues q with tail := v } }

def tqEnqueue (s : State) (id1 id2 : ℕ) : State :=
  let oldTailID := (s.threadQueues id1).tail
  if oldTailID = maxProcs then
    let s := setHead s id1 id2
    let s := setTail s id1 id2
    let s := setNext s id2 maxProcs
    setPrev s id2 maxProcs
  else
    let s := setNext s oldTailID id2
    let s := setPrev s id2 oldTailID
    let s := setNext s id2 maxProcs
    setTail s id1 id2

def tqDequeue (s : State) (pid : ℕ) : State × ℕ :=
  let head := (s.threadQueues pid).head
  if head ≠ maxProcs then
    let next := (s.tcbs head).next
    let s := setNext s head maxProcs
    let s := setHead s pid next
    (if next = maxProcs then setTail s pid maxProcs else setPrev s next maxProcs, head)
  else (s, head)

def tqRemove (s : State) (id1 id2 : ℕ) : State :=
  let prev := (s.tcbs id2).prev
  let next := (s.tcbs id2).next
  let s := setPrev s id2 maxProcs
  let s := setNext s id2 maxProcs
  let s := if prev = maxProcs then setHead s id1 next else setNext s prev next
  if next = maxProcs then setTail s id1 prev else setPrev s next prev

def threadInit (s : State) : State :=
  let s := forUpTo
    (fun i s ↦ setNext (setPrev (setState s i .dead) i maxProcs) i maxProcs) maxProcs s
  let s := forUpTo (fun i s ↦ setTail (setHead s i maxProcs) i maxProcs) (maxProcs + 1) s
  setState { s with currentID := 0 } 0 .run

def stackTop (s : State) (id : ℕ) : UInt32 :=
  UInt32.ofNat (s.procStacks + id * pageSize + (pageSize - 1))

def threadSpawn (m : PhysicalMemory.State) (s : State) (parent quota : ℕ) (entry : UInt32) :
    PhysicalMemory.State × State × ℕ :=
  let (m, id) := PhysicalMemory.containerSplit m parent quota
  let context := { s.kernelContexts id with eip := entry, esp := stackTop s id }
  let s := { s with kernelContexts := update s.kernelContexts id context }
  let s := setState s id .ready
  (m, tqEnqueue s maxProcs id, id)

/-- The live registers go to slot `old`, and the machine goes on with those of slot `new`. -/
def contextSwitch (contexts : ℕ → KernelContext) (old new : ℕ) (live : KernelContext) :
    (ℕ → KernelContext) × KernelContext :=
  let contexts := update contexts old live
  (contexts, contexts new)

/-- A yield with the given live registers. The second component is what the machine goes on
with. -/
def threadYield (s : State) (live : KernelContext) : State × KernelContext :=
  let s := setState s s.currentID .ready
  let s := tqEnqueue s maxProcs s.currentID
  let (s, nextID) := tqDequeue s maxProcs
  let s := setState s nextID .run
  if nextID ≠ s.currentID then
    let s := { s with currentID := nextID }
    let (contexts, registers) := contextSwitch s.kernelContexts s.currentID nextID live
    ({ s with kernelContexts := contexts }, registers)
  else (s, live)

def forceRunProcess (s : State) (pid : ℕ) (live : KernelContext) : State × KernelContext :=
  let curid := s.currentID
  let s := tqRemove s maxProcs pid
  let s := setState s pid .run
  let s := { s with currentID := pid }
  let (contexts, registers) := contextSwitch s.kernelContexts curid pid live
  ({ s with kernelContexts := contexts }, registers)

end StormOS.Threads
