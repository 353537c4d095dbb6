import StormOS.SwitchCode
import StormOS.Library.Runs
import Mathlib.Data.Finset.Insert

namespace StormOS.KernelStacks

open Library.Bytes Library.Runs Machine SwitchCode Function
open Threads hiding contextSwitch State

inductive Action
  | spawn (id : ℕ) (entry : UInt32)
  | run (cpu : Cpu)
  | switch (id : ℕ)

/-- The machine and the thread that runs on it, beside a record of the threads that were spawned
and of those that a switch has left. -/
structure Dispatch where
  cpu : Cpu
  running : ℕ
  spawned : Finset ℕ
  left : Finset ℕ

def perform (L : Placement) (t : Dispatch) : Action → Dispatch
  | .spawn id entry =>
    { t with
      cpu := { t.cpu with memory := spawnContext L t.cpu.memory id entry }
      spawned := insert id t.spawned }
  | .run cpu => { t with cpu := cpu }
  | .switch id =>
    { t with cpu := contextSwitch t.cpu, running := id, left := insert t.running t.left }

/-- The stack pointer of a call with two arguments is in the page of the thread. -/
def OnStack (L : Placement) (id : ℕ) (esp : UInt32) : Prop :=
  L.stack id ≤ esp.toNat ∧ esp.toNat + 12 ≤ L.stack id + pageSize

/-- Between switches a thread does what it likes, the contexts apart. Thread 0 has the stack that
the boot loader gave it. -/
def dispatcher (L : Placement) : System Dispatch Action where
  enabled t
    | .spawn id _ => id < maxProcs ∧ id ≠ 0 ∧ id ∉ t.spawned
    | .run cpu => AgreeOn t.cpu.memory cpu.memory L.kernelContexts
        (L.kernelContexts + maxProcs * contextSize)
    | .switch id => id ∈ t.spawned ∧ Calls L t.cpu t.running id ∧
        (t.running ≠ 0 → OnStack L t.running t.cpu.registers.esp)
  step := perform L

def start (cpu : Cpu) : Dispatch := ⟨cpu, 0, ∅, ∅⟩

/-- The return address that a switch stores at the new stack pointer is in the page of the thread
it switches to, and the stacks of the other threads stay as they were. -/
structure SwitchInside (L : Placement) (t : Dispatch) (id : ℕ) : Prop where
  lower : L.stack id ≤ (loadedContext t.cpu).esp.toNat
  upper : (loadedContext t.cpu).esp.toNat + 4 ≤ L.stack id + pageSize
  others : ∀ i < maxProcs, i ≠ id →
    AgreeOn t.cpu.memory (contextSwitch t.cpu).memory (L.stack i) (L.stack i + pageSize)

/-- A switch has left the thread before, or leaves it now. -/
def LeftBefore (t : Dispatch) (id : ℕ) : Prop := id ∈ insert t.running t.left

instance (t : Dispatch) (id : ℕ) : Decidable (LeftBefore t id) :=
  inferInstanceAs (Decidable (id ∈ insert t.running t.left))

/-- Where the stack pointers in the contexts come from: a switch that left the thread, or else
the spawn. -/
structure Tracked (L : Placement) (t : Dispatch) : Prop where
  ids : ∀ id ∈ t.spawned, id < maxProcs ∧ id ≠ 0
  running : t.running = 0 ∨ t.running ∈ t.spawned
  left : ∀ id ∈ t.left, id = 0 ∨ id ∈ t.spawned
  switched : ∀ id ∈ t.spawned, id ∈ t.left → OnStack L id (contexts L t.cpu.memory id).esp
  fresh : ∀ id ∈ t.spawned, id ∉ t.left → (contexts L t.cpu.memory id).esp = L.stackTop id

variable {L : Placement} {t : Dispatch} {cpu : Cpu} {id i x : ℕ} {esp : UInt32}

theorem start_tracked (L : Placement) (cpu : Cpu) : Tracked L (start cpu) where
  ids _ hid := absurd hid (Finset.notMem_empty _)
  running := .inl rfl
  left _ hid := absurd hid (Finset.notMem_empty _)
  switched _ hid := absurd hid (Finset.notMem_empty _)
  fresh _ hid := absurd hid (Finset.notMem_empty _)

theorem Tracked.running_lt (h : Tracked L t) : t.running < maxProcs := by
  rcases h.running with h0 | hr
  · rw [h0]
    decide
  · exact (h.ids _ hr).1

theorem stackTop_toNat (hid : id < maxProcs) : (L.stackTop id).toNat = L.stack id + 4095 := by
  have hb := L.stack_bounds hid
  rw [Placement.stackTop, UInt32.toNat_ofNat_of_lt']
  · rfl
  · simp only [pageSize, UInt32.size]
    omega

theorem Tracked.spawn (h : Tracked L t) (hid : id < maxProcs) (h0 : id ≠ 0)
    (hnew : id ∉ t.spawned) (entry : UInt32) : Tracked L (perform L t (.spawn id entry)) := by
  have hnot : id ∉ t.left := fun hl ↦ (h.left id hl).elim h0 hnew
  have hesp {i : ℕ} (hi : i < maxProcs) :
      (contexts L (spawnContext L t.cpu.memory id entry) i).esp =
        if i = id then L.stackTop id else (contexts L t.cpu.memory i).esp := by
    rw [contexts_spawnContext entry hid hi (s := loaded L.procStacks) rfl]
    split
    · rename_i he
      rw [he, update_self]
      rfl
    · rename_i he
      rw [update_of_ne he]
  constructor
  · intro i hi
    rcases Finset.mem_insert.mp hi with rfl | hi
    · exact ⟨hid, h0⟩
    · exact h.ids i hi
  · exact h.running.imp_right (Finset.mem_insert_of_mem ·)
  · exact fun i hi ↦ (h.left i hi).imp_right (Finset.mem_insert_of_mem ·)
  · intro i hi hl
    rcases Finset.mem_insert.mp hi with rfl | hi
    · exact absurd hl hnot
    · dsimp only [perform]
      rw [hesp (h.ids i hi).1, if_neg (ne_of_mem_of_not_mem hi hnew)]
      exact h.switched i hi hl
  · intro i hi hl
    dsimp only [perform]
    rcases Finset.mem_insert.mp hi with rfl | hi
    · rw [hesp hid, if_pos rfl]
    · rw [hesp (h.ids i hi).1, if_neg (ne_of_mem_of_not_mem hi hnew)]
      exact h.fresh i hi hl

theorem Tracked.run (h : Tracked L t) (hcpu : AgreeOn t.cpu.memory cpu.memory L.kernelContexts
    (L.kernelContexts + maxProcs * contextSize)) : Tracked L (perform L t (.run cpu)) := by
  have hsame {i : ℕ} (hi : i < maxProcs) :
      contexts L cpu.memory i = contexts L t.cpu.memory i := by
    have hb := L.context_bounds hi
    exact contexts_congr hi (hcpu.mono hb.1 hb.2.1)
  constructor
  · exact h.ids
  · exact h.running
  · exact h.left
  · intro i hi hl
    dsimp only [perform]
    rw [hsame (h.ids i hi).1]
    exact h.switched i hi hl
  · intro i hi hl
    dsimp only [perform]
    rw [hsame (h.ids i hi).1]
    exact h.fresh i hi hl

section Switch

variable (h : Tracked L t) (hid : id ∈ t.spawned) (hcalls : Calls L t.cpu t.running id)
  (hstack : t.running ≠ 0 → OnStack L t.running t.cpu.registers.esp)

include h hid hcalls hstack

omit hcalls in
theorem Tracked.running_onStack (he : id = t.running) : OnStack L id t.cpu.registers.esp := by
  have h0 := (h.ids id hid).2
  rw [he] at h0 ⊢
  exact hstack h0

theorem Tracked.loaded_onStack (hleft : LeftBefore t id) :
    OnStack L id (loadedContext t.cpu).esp := by
  rw [loadedContext_eq hcalls h.running_lt (h.ids id hid).1, Threads.contextSwitch]
  dsimp only
  by_cases he : id = t.running
  · have hrun := h.running_onStack hid hstack he
    rw [he] at hrun ⊢
    rw [update_self]
    exact hrun
  · rw [update_of_ne he]
    exact h.switched id hid (Finset.mem_of_mem_insert_of_ne hleft he)

omit hstack in
theorem Tracked.loaded_fresh (hleft : ¬ LeftBefore t id) :
    (loadedContext t.cpu).esp = L.stackTop id := by
  obtain ⟨he, hl⟩ := not_or.mp (Finset.mem_insert.not.mp hleft)
  rw [loadedContext_eq hcalls h.running_lt (h.ids id hid).1, Threads.contextSwitch]
  dsimp only
  rw [update_of_ne he]
  exact h.fresh id hid hl

/-- Wherever the stack pointer comes from, the return address spares the contexts of the threads
that can be switched to. Past the last stack it may reach into the first context. -/
theorem Tracked.loaded_apart (hi : i < maxProcs) (h0 : i ≠ 0) :
    L.context i + 24 ≤ (loadedContext t.cpu).esp.toNat ∨
      (loadedContext t.cpu).esp.toNat + 4 ≤ L.context i := by
  have hlt := (h.ids id hid).1
  have hb := L.stack_bounds hlt
  have hb' := L.context_bounds hi
  have hapart := L.apart
  simp only [maxProcs, contextSize, pageSize] at hapart
  have hinner : L.kernelContexts + 24 ≤ L.context i := by
    simp only [Placement.context, contextSize]
    omega
  by_cases hleft : LeftBefore t id
  · obtain ⟨hlo, hhi⟩ := h.loaded_onStack hid hcalls hstack hleft
    simp only [pageSize] at hhi
    omega
  · rw [h.loaded_fresh hid hcalls hleft, stackTop_toNat hlt]
    omega

theorem Tracked.contexts_switch (hi : i < maxProcs) (h0 : i ≠ 0) :
    contexts L (contextSwitch t.cpu).memory i =
      update (contexts L t.cpu.memory) t.running (live t.cpu) i := by
  have hapart := h.loaded_apart hid hcalls hstack hi h0
  have hsaved : contexts L (savedMemory t.cpu) i =
      update (contexts L t.cpu.memory) t.running (live t.cpu) i :=
    contexts_savedMemory hcalls h.running_lt hi
  rw [← hsaved, contextSwitch_memory]
  apply contexts_congr hi
  intro x hx hx'
  exact store32_of_outside (by omega)

theorem Tracked.switch : Tracked L (perform L t (.switch id)) := by
  have hcontext {i : ℕ} (hi : i ∈ t.spawned) :=
    h.contexts_switch hid hcalls hstack (h.ids i hi).1 (h.ids i hi).2
  constructor
  · exact h.ids
  · exact .inr hid
  · intro i hi
    rcases Finset.mem_insert.mp hi with rfl | hi
    · exact h.running
    · exact h.left i hi
  · intro i hi hl
    dsimp only [perform]
    rw [hcontext hi]
    by_cases he : i = t.running
    · have h0 := (h.ids i hi).2
      rw [he] at h0 ⊢
      rw [update_self]
      exact hstack h0
    · rw [update_of_ne he]
      exact h.switched i hi (Finset.mem_of_mem_insert_of_ne hl he)
  · intro i hi hl
    obtain ⟨he, hl⟩ := not_or.mp (Finset.mem_insert.not.mp hl)
    dsimp only [perform]
    rw [hcontext hi, update_of_ne he]
    exact h.fresh i hi hl

omit hid hstack in
/-- A switch changes the context of its caller and the four bytes at the new stack pointer. -/
theorem contextSwitch_of_outside (hctx : x < L.context t.running ∨ L.context t.running + 24 ≤ x)
    (hesp : x < (loadedContext t.cpu).esp.toNat ∨ (loadedContext t.cpu).esp.toNat + 4 ≤ x) :
    (contextSwitch t.cpu).memory x = t.cpu.memory x := by
  have hb := L.context_bounds h.running_lt
  rw [contextSwitch_memory, store32_of_outside hesp, savedMemory, hcalls.saves]
  exact saveContext_of_outside (by omega) hctx

theorem Tracked.switchInside_iff : SwitchInside L t id ↔ LeftBefore t id := by
  have hlt := (h.ids id hid).1
  have hb := L.stack_bounds hlt
  constructor
  · intro hinside
    by_contra hleft
    have hupper := hinside.upper
    rw [h.loaded_fresh hid hcalls hleft, stackTop_toNat hlt] at hupper
    simp only [pageSize] at hupper
    omega
  · intro hleft
    obtain ⟨hlo, hhi⟩ := h.loaded_onStack hid hcalls hstack hleft
    refine ⟨hlo, by omega, fun i hi hne x hx hx' ↦ ?_⟩
    have hb' := L.context_bounds h.running_lt
    have hbi := L.stack_bounds hi
    have hapart := L.apart
    simp only [maxProcs, contextSize, pageSize] at hapart hhi hx'
    apply contextSwitch_of_outside h hcalls
    · omega
    · simp only [Placement.stack, pageSize] at *
      omega

omit hstack in
/-- The first switch to a thread puts all but the lowest byte of its entry point at the bottom of
the next stack. -/
theorem Tracked.first_switch (hleft : ¬ LeftBefore t id) {k : ℕ} (hk : k < 3) :
    (contextSwitch t.cpu).memory (L.stack (id + 1) + k) =
      UInt8.ofNat ((loadedContext t.cpu).eip.toNat / 256 ^ (k + 1)) := by
  have hnext : L.stack (id + 1) + k = L.stack id + 4095 + (k + 1) := by
    simp only [Placement.stack, pageSize]
    omega
  rw [contextSwitch_memory, h.loaded_fresh hid hcalls hleft, stackTop_toNat (h.ids id hid).1,
    hnext, store32, if_pos (by omega), Nat.add_sub_cancel_left]

end Switch

theorem Tracked.step (h : Tracked L t) {a : Action} (he : (dispatcher L).enabled t a) :
    Tracked L ((dispatcher L).step t a) := by
  cases a with
  | spawn id entry => exact h.spawn he.1 he.2.1 he.2.2 entry
  | run cpu => exact h.run he
  | switch id => exact h.switch he.1 he.2.1 he.2.2

/-- A switch stays inside the stack of its target exactly if the target has run before. -/
theorem switchInside_iff_left (L : Placement) (cpu : Cpu) (as : List Action) (id : ℕ)
    (hlegal : (dispatcher L).Legal (start cpu) (as ++ [.switch id])) :
    SwitchInside L ((dispatcher L).final (start cpu) as) id ↔
      LeftBefore ((dispatcher L).final (start cpu) as) id := by
  obtain ⟨hrun, ⟨hid, hcalls, hstack⟩, _⟩ := System.along_append.mp hlegal
  have h : Tracked L ((dispatcher L).final (start cpu) as) :=
    System.Along.final hrun (start_tracked L cpu) fun _ _ h he ↦ h.step he
  exact h.switchInside_iff hid hcalls hstack

def lowPlacement : Placement where
  procStacks := 0x200000
  kernelContexts := 0x1F0000
  stacksLow := by decide
  contextsLow := by decide
  apart := .inl (by decide)

def blank : Cpu := ⟨fun _ ↦ 0, default⟩

/-- Thread 0 calls `ContextSwitch` for thread 1. -/
def calling (m : Memory) : Cpu where
  memory := store32 (store32 m 0x7004 (lowPlacement.context 0)) 0x7008 (lowPlacement.context 1)
  registers := { (default : KernelContext) with esp := 0x7000 }

def entered : Memory := spawnContext lowPlacement blank.memory 1 0x100000

abbrev firstSwitch : Dispatch :=
  (dispatcher lowPlacement).final (start blank) [.spawn 1 0x100000, .run (calling entered)]

theorem firstSwitch_eq : firstSwitch = ⟨calling entered, 0, {1}, ∅⟩ := rfl

theorem calling_calls (m : Memory) : Calls lowPlacement (calling m) 0 1 where
  saves := by
    have harg : u32 ((calling m).registers.esp.toNat + 4) = 0x7004 := rfl
    rw [harg, calling, load32_store32_of_disjoint (by decide)]
    exact load32_store32_self m 0x7004 (by decide)
  loads := by
    have harg : u32 ((calling m).registers.esp.toNat + 8) = 0x7008 := rfl
    rw [harg, calling]
    exact load32_store32_self _ 0x7008 (by decide)

theorem calling_agree (m : Memory) {lo hi : ℕ} (hlo : 0x700C ≤ lo) :
    AgreeOn m (calling m).memory lo hi := by
  intro x hx _
  rw [calling]
  simp (disch := omega) only [store32_of_outside]

theorem firstSwitch_legal : (dispatcher lowPlacement).Legal (start blank)
    ([.spawn 1 0x100000, .run (calling entered)] ++ [.switch 1]) := by
  have hagree : AgreeOn entered (calling entered).memory lowPlacement.kernelContexts
      (lowPlacement.kernelContexts + maxProcs * contextSize) := calling_agree entered (by decide)
  refine ⟨⟨by decide, by decide, Finset.notMem_empty _⟩, hagree, ⟨?_, ?_, ?_⟩, trivial⟩
  · exact Finset.mem_insert_self _ _
  · exact calling_calls entered
  · exact fun h0 ↦ absurd rfl h0

theorem switchInside_iff_left_first :
    SwitchInside lowPlacement firstSwitch 1 ↔ LeftBefore firstSwitch 1 :=
  switchInside_iff_left lowPlacement blank _ 1 firstSwitch_legal

theorem firstSwitch_tracked : Tracked lowPlacement firstSwitch :=
  System.Along.final (System.along_append.mp firstSwitch_legal).1 (start_tracked _ blank)
    fun _ _ h he ↦ h.step he

theorem firstSwitch_eip : (loadedContext firstSwitch.cpu).eip = 0x100000 := by
  have hsame : contexts lowPlacement (calling entered).memory 1 = contexts lowPlacement entered 1 :=
    contexts_congr (by decide) (calling_agree entered (by decide))
  have hspawned : contexts lowPlacement entered 1 = update (contexts lowPlacement blank.memory) 1
      { contexts lowPlacement blank.memory 1 with
        eip := 0x100000, esp := stackTop (loaded 0x200000) 1 } 1 :=
    contexts_spawnContext 0x100000 (by decide) (by decide) rfl
  rw [firstSwitch_eq, loadedContext_eq (calling_calls entered) (by decide) (by decide),
    Threads.contextSwitch]
  dsimp only
  rw [update_of_ne (by decide), hsame, hspawned, update_self]

/-- The first switch to thread 1 overwrites a byte of the stack of thread 2. -/
theorem first_switch_spills :
    (dispatcher lowPlacement).Legal (start blank)
        ([.spawn 1 0x100000, .run (calling entered)] ++ [.switch 1]) ∧
      ¬ SwitchInside lowPlacement firstSwitch 1 ∧
      (contextSwitch firstSwitch.cpu).memory (lowPlacement.stack 2 + 1) ≠
        firstSwitch.cpu.memory (lowPlacement.stack 2 + 1) := by
  have hleft : ¬ LeftBefore firstSwitch 1 := by
    rw [firstSwitch_eq]
    decide
  obtain ⟨_, ⟨hid, hcalls, hstack⟩, _⟩ := System.along_append.mp firstSwitch_legal
  refine ⟨firstSwitch_legal, ?_, ?_⟩
  · rw [firstSwitch_tracked.switchInside_iff hid hcalls hstack]
    exact hleft
  · have hold : firstSwitch.cpu.memory (lowPlacement.stack 2 + 1) = 0 := by
      have hentered : entered (lowPlacement.stack 2 + 1) = 0 :=
        spawnContext_of_outside 0x100000 (by decide) (.inr (by decide))
      rw [firstSwitch_eq]
      exact (calling_agree entered (by decide) _ le_rfl (Nat.lt_succ_self _)).trans hentered
    rw [firstSwitch_tracked.first_switch hid hcalls hleft (k := 1) (by decide), firstSwitch_eip,
      hold]
    decide

end StormOS.KernelStacks
