import StormOS.Threads

namespace StormOS.SwitchCode

open Library.Bytes Machine Function
open Threads hiding contextSwitch State

/-- Memory, and the registers that a kernel context holds. -/
structure Cpu where
  memory : Memory
  registers : KernelContext

abbrev contextSize : ℕ := 24

/-- Where the linker put the kernel stacks and the kernel contexts. -/
structure Placement where
  procStacks : ℕ
  kernelContexts : ℕ
  stacksLow : procStacks + maxProcs * pageSize ≤ memUserLo
  contextsLow : kernelContexts + maxProcs * contextSize ≤ memUserLo
  apart : kernelContexts + maxProcs * contextSize ≤ procStacks ∨
    procStacks + maxProcs * pageSize ≤ kernelContexts

def Placement.stack (L : Placement) (id : ℕ) : ℕ := L.procStacks + id * pageSize

def Placement.context (L : Placement) (id : ℕ) : ℕ := L.kernelContexts + id * contextSize

/-- `&procStacks[id][PAGESIZE - 1]` -/
def Placement.stackTop (L : Placement) (id : ℕ) : UInt32 :=
  UInt32.ofNat (L.stack id + (pageSize - 1))

def word (m : Memory) (a : ℕ) : UInt32 := UInt32.ofNat (load32 m a)

def contextAt (m : Memory) (a : ℕ) : KernelContext where
  esp := word m a
  edi := word m (u32 (a + 4))
  esi := word m (u32 (a + 8))
  ebx := word m (u32 (a + 12))
  ebp := word m (u32 (a + 16))
  eip := word m (u32 (a + 20))

def saveContext (m : Memory) (a : ℕ) (r : KernelContext) : Memory :=
  let m := store32 m (u32 (a + 20)) r.eip.toNat
  let m := store32 m (u32 (a + 16)) r.ebp.toNat
  let m := store32 m (u32 (a + 12)) r.ebx.toNat
  let m := store32 m (u32 (a + 8)) r.esi.toNat
  let m := store32 m (u32 (a + 4)) r.edi.toNat
  store32 m a r.esp.toNat

/-- What `ContextSwitch` saves: its caller's registers, and as `eip` the return address. -/
def live (c : Cpu) : KernelContext :=
  { c.registers with eip := word c.memory c.registers.esp.toNat }

def savedMemory (c : Cpu) : Memory :=
  saveContext c.memory (load32 c.memory (u32 (c.registers.esp.toNat + 4))) (live c)

def loadedContext (c : Cpu) : KernelContext :=
  contextAt (savedMemory c) (load32 c.memory (u32 (c.registers.esp.toNat + 8)))

/-- The return address goes to the new stack, from where `ret` takes it. -/
def contextSwitch (c : Cpu) : Cpu :=
  let r := loadedContext c
  let m := store32 (savedMemory c) r.esp.toNat r.eip.toNat
  ⟨m, { r with eip := word m r.esp.toNat, esp := r.esp + 4 }⟩

/-- What `ThreadSpawn` writes to the context of the new thread. -/
def spawnContext (L : Placement) (m : Memory) (id : ℕ) (entry : UInt32) : Memory :=
  let m := store32 m (u32 (L.context id + 20)) entry.toNat
  store32 m (L.context id) (L.stackTop id).toNat

/-- The registers and the stack are those of a call with the contexts of `old` and `new`. -/
structure Calls (L : Placement) (c : Cpu) (old new : ℕ) : Prop where
  saves : load32 c.memory (u32 (c.registers.esp.toNat + 4)) = L.context old
  loads : load32 c.memory (u32 (c.registers.esp.toNat + 8)) = L.context new

def contexts (L : Placement) (m : Memory) (id : ℕ) : KernelContext := contextAt m (L.context id)

variable {L : Placement} {c : Cpu} {m m' : Memory} {r : KernelContext} {a x i id old new : ℕ}

theorem Placement.context_bounds (L : Placement) (hid : id < maxProcs) :
    L.kernelContexts ≤ L.context id ∧ L.context id + 24 ≤ L.kernelContexts + 1536 ∧
      L.kernelContexts + 1536 ≤ 0x40000000 := by
  have hlow := L.contextsLow
  simp only [maxProcs, contextSize, memUserLo] at hid hlow
  simp only [Placement.context, contextSize]
  omega

theorem Placement.stack_bounds (L : Placement) (hid : id < maxProcs) :
    L.procStacks ≤ L.stack id ∧ L.stack id + 4096 ≤ L.procStacks + 262144 ∧
      L.procStacks + 262144 ≤ 0x40000000 := by
  have hlow := L.stacksLow
  simp only [maxProcs, pageSize, memUserLo] at hid hlow
  simp only [Placement.stack, pageSize]
  omega

theorem Placement.contexts_apart (L : Placement) (hne : i ≠ id) :
    L.context i + 24 ≤ L.context id ∨ L.context id + 24 ≤ L.context i := by
  simp only [Placement.context, contextSize]
  omega

theorem word_congr (h : ∀ x, a ≤ x → x < a + 4 → m' x = m x) : word m' a = word m a := by
  rw [word, word, load32_congr h]

theorem word_store32_self (m : Memory) (a : ℕ) (v : UInt32) : word (store32 m a v.toNat) a = v := by
  rw [word, load32_store32_self m a v.toNat_lt, UInt32.ofNat_toNat]

theorem word_store32_of_disjoint {b v : ℕ} (h : b + 4 ≤ a ∨ a + 4 ≤ b) :
    word (store32 m a v) b = word m b := by
  rw [word, word, load32_store32_of_disjoint h]

section Block

variable (ha : a + 24 ≤ 2 ^ 32)

include ha

theorem contextAt_eq (m : Memory) :
    contextAt m a =
      ⟨word m a, word m (a + 4), word m (a + 8), word m (a + 12), word m (a + 16),
        word m (a + 20)⟩ := by
  simp (disch := omega) only [contextAt, u32_of_lt]

theorem saveContext_eq (m : Memory) (r : KernelContext) :
    saveContext m a r =
      store32 (store32 (store32 (store32 (store32 (store32 m (a + 20) r.eip.toNat) (a + 16)
        r.ebp.toNat) (a + 12) r.ebx.toNat) (a + 8) r.esi.toNat) (a + 4) r.edi.toNat) a
        r.esp.toNat := by
  simp (disch := omega) only [saveContext, u32_of_lt]

theorem contextAt_congr (h : AgreeOn m m' a (a + 24)) : contextAt m' a = contextAt m a := by
  have hword {k : ℕ} (hk : k ≤ 20) : word m' (a + k) = word m (a + k) :=
    word_congr fun x hx hx' ↦ h x (by omega) (by omega)
  have hfirst : word m' a = word m a := hword (Nat.zero_le _)
  rw [contextAt_eq ha, contextAt_eq ha]
  simp (disch := omega) only [hfirst, hword]

theorem contextAt_saveContext (r : KernelContext) : contextAt (saveContext m a r) a = r := by
  rw [contextAt_eq ha, saveContext_eq ha]
  simp (disch := omega) only [word_store32_self, word_store32_of_disjoint]

theorem saveContext_of_outside (hx : x < a ∨ a + 24 ≤ x) : saveContext m a r x = m x := by
  rw [saveContext_eq ha]
  simp (disch := omega) only [store32_of_outside]

end Block

/-- The contexts as the thread module knows them are the words of `kernelContexts`. -/
theorem contexts_congr (hid : id < maxProcs)
    (h : AgreeOn m m' (L.context id) (L.context id + 24)) : contexts L m' id = contexts L m id := by
  have hb := L.context_bounds hid
  exact contextAt_congr (by omega) h

theorem contexts_saveContext (hi : i < maxProcs) (hid : id < maxProcs) (r : KernelContext) :
    contexts L (saveContext m (L.context id) r) i = update (contexts L m) id r i := by
  have hb := L.context_bounds hi
  have hb' := L.context_bounds hid
  by_cases he : i = id
  · rw [he, update_self]
    exact contextAt_saveContext (by omega) r
  · have hapart := L.contexts_apart he
    rw [update_of_ne he]
    exact contexts_congr hi fun x hx hx' ↦ saveContext_of_outside (by omega) (by omega)

section Spawn

variable (entry : UInt32) (hid : id < maxProcs)

include hid

theorem spawnContext_of_outside (hx : x < L.context id ∨ L.context id + 24 ≤ x) :
    spawnContext L m id entry x = m x := by
  have hb := L.context_bounds hid
  rw [spawnContext, u32_of_lt (x := L.context id + 20) (by omega)]
  simp (disch := omega) only [store32_of_outside]

/-- The context of a new thread, as the thread module has it. -/
theorem contexts_spawnContext (hi : i < maxProcs) {s : Threads.State}
    (hs : s.procStacks = L.procStacks) :
    contexts L (spawnContext L m id entry) i =
      update (contexts L m) id
        { contexts L m id with eip := entry, esp := stackTop s id } i := by
  have hb := L.context_bounds hi
  have hb' := L.context_bounds hid
  by_cases he : i = id
  · have htop : stackTop s id = L.stackTop id := by
      rw [stackTop, hs]
      rfl
    rw [he, update_self, htop, contexts, contexts, contextAt_eq (by omega),
      contextAt_eq (by omega), spawnContext, u32_of_lt (x := L.context id + 20) (by omega)]
    simp (disch := omega) only [word_store32_self, word_store32_of_disjoint]
  · have hapart := L.contexts_apart he
    rw [update_of_ne he]
    exact contexts_congr hi fun x hx hx' ↦ spawnContext_of_outside entry hid (by omega)

end Spawn

section Switch

variable (h : Calls L c old new) (hold : old < maxProcs) (hnew : new < maxProcs)

include h hold

theorem contexts_savedMemory (hi : i < maxProcs) :
    contexts L (savedMemory c) i =
      (Threads.contextSwitch (contexts L c.memory) old new (live c)).1 i := by
  rw [savedMemory, h.saves]
  exact contexts_saveContext hi hold (live c)

include hnew

theorem loadedContext_eq :
    loadedContext c = (Threads.contextSwitch (contexts L c.memory) old new (live c)).2 := by
  rw [loadedContext, h.loads]
  exact contexts_savedMemory h hold hnew

end Switch

theorem contextSwitch_memory (c : Cpu) : (contextSwitch c).memory =
    store32 (savedMemory c) (loadedContext c).esp.toNat (loadedContext c).eip.toNat := rfl

/-- The machine goes on with the loaded context, less the return address on its stack. -/
theorem contextSwitch_registers (c : Cpu) :
    (contextSwitch c).registers = { loadedContext c with esp := (loadedContext c).esp + 4 } := by
  rw [contextSwitch]
  simp only [word_store32_self]

end StormOS.SwitchCode
