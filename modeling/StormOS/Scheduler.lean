import StormOS.Library.Runs
import StormOS.PhysicalMemoryInit
import StormOS.ThreadSteps
import Mathlib.Data.Finset.Insert

namespace StormOS.Scheduler

open Library.Loops Library.Runs Machine Threads ThreadQueue Function

inductive Operation
  | spawn (parent quota : ℕ) (entry : UInt32)
  | yield (live : KernelContext)
  | force (pid : ℕ) (live : KernelContext)

/-- The thread module and the memory it charges, beside the threads spawned so far. -/
structure Kernel where
  memory : PhysicalMemory.State
  threads : State
  spawned : Finset ℕ

def perform (k : Kernel) : Operation → Kernel
  | .spawn parent quota entry =>
    let (memory, threads, id) := threadSpawn k.memory k.threads parent quota entry
    ⟨memory, threads, insert id k.spawned⟩
  | .yield live => { k with threads := (threadYield k.threads live).1 }
  | .force pid live => { k with threads := (forceRunProcess k.threads pid live).1 }

/-- Spawns return the id of a dead thread, and only a queued thread is forced to run. -/
def kernel : System Kernel Operation where
  enabled k
    | .spawn parent quota entry =>
      let id := (threadSpawn k.memory k.threads parent quota entry).2.2
      id < maxProcs ∧ stateOf k.threads id = .dead
    | .yield _ => True
    | .force pid _ => ∃ l, Queue k.threads maxProcs l ∧ pid ∈ l
  step := perform

def start (memory : PhysicalMemory.State) (s : State) : Kernel := ⟨memory, threadInit s, ∅⟩

/-- The running thread is not dead, so no fresh id is its own. -/
def CurrentAlive (s : State) : Prop := stateOf s s.currentID ≠ .dead

theorem currentAlive_threadInit (s : State) : CurrentAlive (threadInit s) := by
  intro h
  rw [threadInit, stateOf_setState] at h
  cases h

theorem currentAlive_of_update {s : State} {states : ℕ → ThreadState} {id : ℕ} {v : ThreadState}
    (hs : stateOf s = update states id v) (hv : v ≠ .dead)
    (h : s.currentID ≠ id → states s.currentID ≠ .dead) : CurrentAlive s := by
  rw [CurrentAlive, hs]
  by_cases hid : s.currentID = id
  · rwa [hid, update_self]
  · rw [update_of_ne hid]
    exact h hid

/-- No operation of the thread module hands the processor to a dead thread. -/
theorem CurrentAlive.perform {k : Kernel} (h : CurrentAlive k.threads) (a : Operation) :
    CurrentAlive (Scheduler.perform k a).threads := by
  cases a with
  | spawn parent quota entry =>
    let id := (PhysicalMemory.containerSplit k.memory parent quota).2
    let context := { k.threads.kernelContexts id with eip := entry, esp := stackTop k.threads id }
    let s := { k.threads with kernelContexts := update k.threads.kernelContexts id context }
    have hrel : Relinked maxProcs (setState s id .ready) (Scheduler.perform k
        (.spawn parent quota entry)).threads := tqEnqueue_relinked _ maxProcs id
    have hstates := hrel.states.trans (stateOf_setState ..)
    apply currentAlive_of_update hstates (by decide)
    intro _
    rw [hrel.current]
    exact h
  | yield live =>
    let ready := setState k.threads k.threads.currentID .ready
    obtain ⟨r, hr⟩ : ∃ r, tqDequeue (tqEnqueue ready maxProcs ready.currentID) maxProcs = r :=
      ⟨_, rfl⟩
    have hyield : stateOf (threadYield k.threads live).1 = update (stateOf r.1) r.2 .run ∧
        (threadYield k.threads live).1.currentID = r.2 := by
      simp only [threadYield, ready] at hr ⊢
      simp only [hr]
      split
      · exact ⟨stateOf_setState .., rfl⟩
      · rename_i hid
        exact ⟨stateOf_setState .., (not_not.mp hid).symm⟩
    exact currentAlive_of_update hyield.1 (by decide) fun hid ↦ absurd hyield.2 hid
  | force pid live =>
    have hstates : stateOf (forceRunProcess k.threads pid live).1 =
        update (stateOf (tqRemove k.threads maxProcs pid)) pid .run := stateOf_setState ..
    exact currentAlive_of_update hstates (by decide) fun hid ↦ absurd rfl hid

theorem currentAlive_of_run {k : Kernel} (h : CurrentAlive k.threads) (run : List Operation) :
    CurrentAlive (kernel.final k run).threads := by
  induction run generalizing k with
  | nil => exact h
  | cons a run ih => exact ih (h.perform a)

def runsAfter (live : KernelContext) (s : State) : ℕ → ℕ
  | 0 => s.currentID
  | n + 1 => runsAfter live (threadYield s live).1 n

/-- One thread runs, the ready threads are queued once each, and every thread ever spawned can
still be reached by yielding. -/
structure NoThreadLost (k : Kernel) : Prop where
  current : k.threads.currentID < maxProcs
  running : ∀ i < maxProcs, stateOf k.threads i = .run ↔ i = k.threads.currentID
  queues : ∃ queue : ℕ → List ℕ,
    (∀ q ≤ maxProcs, Queue k.threads q (queue q) ∧ k.threads.currentID ∉ queue q) ∧
      ∀ i, i ∈ queue maxProcs ↔ i < maxProcs ∧ stateOf k.threads i = .ready
  spawned : ∀ i ∈ k.spawned, i = k.threads.currentID ∨ ∃ l, Queue k.threads maxProcs l ∧ i ∈ l
  reached : ∀ i ∈ k.spawned, ∀ live, ∃ n, runsAfter live k.threads n = i

/-- The inductive invariant, with the contents of the ready queue. -/
structure Scheduled (s : State) (ready : List ℕ) : Prop where
  current : s.currentID < maxProcs
  running : ∀ i < maxProcs, stateOf s i = .run ↔ i = s.currentID
  idle : ∀ q < maxProcs, Queue s q []
  queue : Queue s maxProcs ready
  ready : ∀ i, i ∈ ready ↔ i < maxProcs ∧ stateOf s i = .ready

variable {s : State} {ready l l' : List ℕ} {live : KernelContext} {n : ℕ}

theorem Scheduled.current_notMem (h : Scheduled s ready) : s.currentID ∉ ready := by
  intro hm
  have hr := (h.running _ h.current).mpr rfl
  rw [((h.ready _).mp hm).2] at hr
  cases hr

theorem Scheduled.yield (h : Scheduled s ready) (live : KernelContext)
    (hn : ready ++ [s.currentID] = n :: l) :
    Scheduled (threadYield s live).1 l ∧ (threadYield s live).1.currentID = n := by
  have hcur := h.current_notMem
  obtain ⟨hq, hid, hstates, hqueues, _, _⟩ :=
    threadYield_spec h.queue h.current hcur hn live
  have hmem (i : ℕ) : i ∈ ready ∨ i = s.currentID ↔ i = n ∨ i ∈ l := by
    have he : i ∈ ready ++ [s.currentID] ↔ i ∈ n :: l := by rw [hn]
    simpa using he
  have hnl : n ∉ l := by
    have hnd : (ready ++ [s.currentID]).Nodup := List.nodup_append.mpr
      ⟨h.queue.nodup, List.nodup_singleton _,
        fun x hx y hy ↦ by rw [List.mem_singleton.mp hy]; exact ne_of_mem_of_not_mem hx hcur⟩
    rw [hn] at hnd
    exact (List.nodup_cons.mp hnd).1
  have hnlt : n < maxProcs := by
    rcases (hmem n).mpr (.inl rfl) with hm | hm
    · exact h.queue.ids n hm
    · exact hm ▸ h.current
  refine ⟨⟨hid ▸ hnlt, ?_, ?_, hq, ?_⟩, hid⟩
  · intro i hi
    rw [hstates, hid]
    by_cases hin : i = n
    · simp [hin]
    · by_cases hic : i = s.currentID
      · simp [hic ▸ hin, hic]
      · simp [hin, hic, h.running i hi]
  · intro q hq
    exact (h.idle q hq).nil_of_eq (hqueues q hq)
  · intro i
    rw [hstates]
    by_cases hin : i = n
    · simp [hin, hnl]
    · have hm := hmem i
      by_cases hic : i = s.currentID
      · have hil : i ∈ l := ((hmem i).mp (.inr hic)).resolve_left hin
        rw [update_of_ne hin, hic, update_self]
        exact iff_of_true (hic ▸ hil) ⟨h.current, rfl⟩
      · rw [update_of_ne hin, update_of_ne hic, ← h.ready i]
        tauto

theorem Scheduled.spawn (h : Scheduled s ready) {m : PhysicalMemory.State} {parent quota id : ℕ}
    {entry : UInt32} (hid : (threadSpawn m s parent quota entry).2.2 = id) (hlt : id < maxProcs)
    (hdead : stateOf s id = .dead) :
    Scheduled (threadSpawn m s parent quota entry).2.1 (ready ++ [id]) ∧
      (threadSpawn m s parent quota entry).2.1.currentID = s.currentID := by
  have hr : id ∉ ready := by
    intro hm
    rw [((h.ready id).mp hm).2] at hdead
    cases hdead
  have hne : id ≠ s.currentID := by
    intro he
    rw [(h.running id hlt).mpr he] at hdead
    cases hdead
  obtain ⟨hq, hcur, hstates, hqueues, _⟩ := threadSpawn_spec hid h.queue hlt hr
  refine ⟨⟨hcur ▸ h.current, ?_, ?_, hq, ?_⟩, hcur⟩
  · intro i hi
    rw [hstates, hcur]
    by_cases hii : i = id
    · simp [hii, hne]
    · simp [hii, h.running i hi]
  · intro q hq
    exact (h.idle q hq).nil_of_eq (hqueues q hq)
  · intro i
    rw [hstates]
    by_cases hii : i = id
    · simp [hii, hlt]
    · simp [hii, h.ready i]

theorem Scheduled.force_loses (h : Scheduled s ready) {pid : ℕ} (hpid : pid ∈ ready)
    {k : Kernel} (hk : k.threads = (forceRunProcess s pid live).1) : ¬ NoThreadLost k := by
  intro hlost
  obtain ⟨hcur, hstates⟩ := forceRunProcess_spec s pid live
  have hne : s.currentID ≠ pid := fun he ↦ h.current_notMem (he ▸ hpid)
  have hrun : stateOf k.threads s.currentID = .run := by
    rw [hk, hstates, update_of_ne hne]
    exact (h.running _ h.current).mpr rfl
  have he := (hlost.running _ h.current).mp hrun
  rw [hk, hcur] at he
  exact hne he

/-- A queued thread runs after one yield for each thread before it, and one more. -/
theorem Scheduled.runsAfter (h : Scheduled s (l ++ n :: l')) (live : KernelContext) :
    runsAfter live s (l.length + 1) = n := by
  induction l generalizing s l' with
  | nil =>
    have hy := (h.yield live (n := n) (l := l' ++ [s.currentID]) rfl).2
    simpa only [List.length_nil, Scheduler.runsAfter] using hy
  | cons a l ih =>
    have hy := (h.yield live (n := a) (l := l ++ n :: (l' ++ [s.currentID])) (by simp)).1
    simpa only [List.length_cons, Scheduler.runsAfter] using ih hy

/-- The invariant of the run, the spawned threads included. -/
def Kept (k : Kernel) : Prop :=
  ∃ ready, Scheduled k.threads ready ∧ ∀ i ∈ k.spawned, i = k.threads.currentID ∨ i ∈ ready

theorem Kept.noThreadLost {k : Kernel} (h : Kept k) : NoThreadLost k := by
  obtain ⟨ready, hs, hsp⟩ := h
  constructor
  · exact hs.current
  · exact hs.running
  · refine ⟨fun q ↦ if q = maxProcs then ready else [], fun q hq ↦ ?_, fun i ↦ ?_⟩
    · by_cases he : q = maxProcs
      · simp only [he, if_true]
        exact ⟨hs.queue, hs.current_notMem⟩
      · simp only [he, if_false]
        exact ⟨hs.idle q (by omega), by simp⟩
    · simpa using hs.ready i
  · intro i hi
    exact (hsp i hi).imp_right fun hm ↦ ⟨ready, hs.queue, hm⟩
  · intro i hi live
    rcases hsp i hi with hc | hm
    · exact ⟨0, hc.symm⟩
    · obtain ⟨l, l', rfl⟩ := List.append_of_mem hm
      exact ⟨_, hs.runsAfter live⟩

theorem threadInit_scheduled (s : State) : Scheduled (threadInit s) [] := by
  obtain ⟨hcur, hstates, hqueues⟩ := threadInit_spec s
  have hq (q : ℕ) (h : q < maxProcs + 1) : Queue (threadInit s) q [] :=
    ⟨by rw [hqueues q h]; rfl, by rw [hqueues q h]; rfl, trivial, List.nodup_nil, by simp⟩
  refine ⟨?_, ?_, fun q h ↦ hq q (h.trans (Nat.lt_succ_self _)), hq _ (Nat.lt_succ_self _), ?_⟩
  · rw [hcur]
    decide
  · intro i hi
    rw [hstates i hi, hcur]
    by_cases he : i = 0
    · simp [he]
    · simp [he]
  · intro i
    simp only [List.not_mem_nil, false_iff, not_and]
    intro hi
    rw [hstates i hi]
    split
    · decide
    · decide

theorem start_kept (memory : PhysicalMemory.State) (s : State) : Kept (start memory s) :=
  ⟨[], threadInit_scheduled s, by simp [start]⟩

theorem Kept.step {k : Kernel} (h : Kept k) {op : Operation} (he : kernel.enabled k op)
    (hop : ∀ pid live, op ≠ .force pid live) : Kept (kernel.step k op) := by
  obtain ⟨ready, hs, hsp⟩ := h
  cases op with
  | spawn parent quota entry =>
    obtain ⟨hsch, hcur⟩ := hs.spawn rfl he.1 he.2
    refine ⟨_, hsch, fun i hi ↦ ?_⟩
    rcases Finset.mem_insert.mp hi with hi | hi
    · exact .inr (List.mem_append_right _ (List.mem_singleton.mpr hi))
    · rcases hsp i hi with hi | hi
      · exact .inl (hi.trans hcur.symm)
      · exact .inr (List.mem_append_left _ hi)
  | yield live =>
    obtain ⟨n, l, hn⟩ : ∃ n l, ready ++ [k.threads.currentID] = n :: l :=
      List.exists_cons_of_ne_nil (by simp)
    obtain ⟨hsch, hcur⟩ := hs.yield live hn
    refine ⟨l, hsch, fun i hi ↦ ?_⟩
    have hm : i ∈ ready ++ [k.threads.currentID] := by
      rcases hsp i hi with hi | hi
      · simp [hi]
      · simp [hi]
    rw [hn] at hm
    rcases List.mem_cons.mp hm with hm | hm
    · exact .inl (hm.trans hcur.symm)
    · exact .inr hm
  | force pid live => exact absurd rfl (hop pid live)

theorem Kept.throughout_iff {k : Kernel} (h : Kept k) {ops : List Operation}
    (hlegal : kernel.Legal k ops) :
    kernel.Throughout NoThreadLost k ops ↔ ∀ op ∈ ops, ∀ pid live, op ≠ .force pid live := by
  induction ops generalizing k with
  | nil => simpa [System.Throughout] using h.noThreadLost
  | cons op ops ih =>
    obtain ⟨he, hrest⟩ := hlegal
    by_cases hop : ∀ pid live, op ≠ .force pid live
    · rw [System.Throughout, ih (h.step he hop) hrest, List.forall_mem_cons]
      exact and_congr_left fun _ ↦ iff_of_true h.noThreadLost hop
    · refine iff_of_false (fun ht ↦ ?_) (fun hall ↦ hop (hall op (by simp)))
      push Not at hop
      obtain ⟨pid, live, rfl⟩ := hop
      obtain ⟨ready, hs, _⟩ := h
      obtain ⟨l, hl, hpid⟩ := he
      exact hs.force_loses (hl.unique hs.queue ▸ hpid) rfl ht.2.head

/-- No thread is lost exactly in the runs without `ForceRunProcess`. -/
theorem noThreadLost_throughout_iff (memory : PhysicalMemory.State) (s : State)
    (ops : List Operation) (hlegal : kernel.Legal (start memory s) ops) :
    kernel.Throughout NoThreadLost (start memory s) ops ↔
      ∀ op ∈ ops, ∀ pid live, op ≠ .force pid live :=
  (start_kept memory s).throughout_iff hlegal

section FirstSpawn

variable {memory : PhysicalMemory.State} (hm : (memory.containers 0).numChildren = 0) (s : State)
  (entry : UInt32)

include hm

theorem threadSpawn_first : (threadSpawn memory s 0 0 entry).2.2 = 1 := by
  simp only [threadSpawn, PhysicalMemory.containerSplit, hm]
  decide

theorem enabled_first_spawn : kernel.enabled (start memory s) (.spawn 0 0 entry) := by
  obtain ⟨_, hstates, _⟩ := threadInit_spec s
  simp only [kernel, start, threadSpawn_first hm]
  exact ⟨by decide, hstates 1 (by decide)⟩

theorem queue_first_spawn :
    Queue (kernel.step (start memory s) (.spawn 0 0 entry)).threads maxProcs [1] :=
  (threadSpawn_spec (threadSpawn_first hm _ entry) (threadInit_scheduled s).queue (by decide)
    (by simp)).1

end FirstSpawn

abbrev booted : PhysicalMemory.State := PhysicalMemory.physicalMemoryInit PhysicalMemory.loaded []

/-- Spawning a thread and forcing it to run loses the boot thread. -/
theorem force_loses_thread :
    kernel.Legal (start booted (loaded 0x200000)) [.spawn 0 0 0x100000, .force 1 default] ∧
      ¬ kernel.Throughout NoThreadLost (start booted (loaded 0x200000))
        [.spawn 0 0 0x100000, .force 1 default] := by
  have hm : (booted.containers 0).numChildren = 0 := by
    rw [PhysicalMemory.physicalMemoryInit_root]
  have hlegal : kernel.Legal (start booted (loaded 0x200000))
      [.spawn 0 0 0x100000, .force 1 default] :=
    ⟨enabled_first_spawn hm _ _, ⟨[1], queue_first_spawn hm _ _, by simp⟩, trivial⟩
  refine ⟨hlegal, fun h ↦ ?_⟩
  exact ((start_kept booted (loaded 0x200000)).throughout_iff hlegal).mp h (.force 1 default)
    (by simp) 1 default rfl

theorem noThreadLost_throughout_first_yield :
    kernel.Throughout NoThreadLost (start booted (loaded 0x200000))
      [.spawn 0 0 0x100000, .yield default] := by
  have hm : (booted.containers 0).numChildren = 0 := by
    rw [PhysicalMemory.physicalMemoryInit_root]
  refine (noThreadLost_throughout_iff booted (loaded 0x200000)
    [.spawn 0 0 0x100000, .yield default] ⟨enabled_first_spawn hm _ _, trivial, trivial⟩).mpr ?_
  simp

end StormOS.Scheduler
