import StormOS.ThreadQueue

namespace StormOS.Scheduler

open Library.Loops Machine Threads ThreadQueue Function

variable {s : State} {ready l : List ℕ} {n : ℕ}

/-- The queues and states as a yield leaves them: the caller goes to the end of the queue, and
the head of the queue so obtained is taken out. -/
def rotated (s : State) : State :=
  (tqDequeue (tqEnqueue (setState s s.currentID .ready) maxProcs s.currentID) maxProcs).1

section Yield

variable (hq : Queue s maxProcs ready) (hc : s.currentID < maxProcs) (hcur : s.currentID ∉ ready)
  (hn : ready ++ [s.currentID] = n :: l)

theorem rotated_relinked (s : State) :
    Relinked maxProcs (setState s s.currentID .ready) (rotated s) :=
  (tqEnqueue_relinked _ maxProcs s.currentID).trans (tqDequeue_relinked _ maxProcs)

include hq hc hcur hn

theorem queue_rotated : Queue (rotated s) maxProcs l ∧
    (tqDequeue (tqEnqueue (setState s s.currentID .ready) maxProcs s.currentID) maxProcs).2 = n := by
  have hq₂ := (hq.setState s.currentID .ready).enqueue hcur hc
  rw [hn] at hq₂
  exact hq₂.dequeue

theorem threadYield_eq (live : KernelContext) :
    threadYield s live = if n ≠ s.currentID then
      ({ setState (rotated s) n .run with
          currentID := n, kernelContexts := update s.kernelContexts n live }, live)
      else (setState (rotated s) n .run, live) := by
  have hrel := rotated_relinked s
  have hpair : tqDequeue (tqEnqueue (setState s s.currentID .ready) maxProcs s.currentID)
      maxProcs = (rotated s, n) := Prod.ext rfl (queue_rotated hq hc hcur hn).2
  have hid : (setState (rotated s) n .run).currentID = s.currentID := hrel.current
  have hk : (setState (rotated s) n .run).kernelContexts = s.kernelContexts := hrel.kernel
  have hid' : (setState s s.currentID .ready).currentID = s.currentID := rfl
  rw [threadYield]
  simp only [hid', hpair, hid, hk, contextSwitch, update_self]

/-- All that a yield does. The caller's registers go into the slot of the thread that runs. -/
theorem threadYield_spec (live : KernelContext) :
    Queue (threadYield s live).1 maxProcs l ∧
      (threadYield s live).1.currentID = n ∧
      stateOf (threadYield s live).1 = update (update (stateOf s) s.currentID .ready) n .run ∧
      (∀ q < maxProcs, (threadYield s live).1.threadQueues q = s.threadQueues q) ∧
      (threadYield s live).2 = live ∧
      (threadYield s live).1.kernelContexts =
        (if n = s.currentID then s.kernelContexts else update s.kernelContexts n live) := by
  have hrel := rotated_relinked s
  have hset := (queue_rotated hq hc hcur hn).1.setState n .run
  have hstates : stateOf (setState (rotated s) n .run) =
      update (update (stateOf s) s.currentID .ready) n .run := by
    rw [stateOf_setState, hrel.states, stateOf_setState]
  have hqueues (q : ℕ) (h : q < maxProcs) : (rotated s).threadQueues q = s.threadQueues q :=
    hrel.queues q h.ne
  rw [threadYield_eq hq hc hcur hn]
  by_cases he : n = s.currentID
  · rw [if_neg (not_not.mpr he), if_pos he]
    exact ⟨hset, hrel.current.trans he.symm, hstates, hqueues, rfl, hrel.kernel⟩
  · rw [if_pos he, if_neg he]
    exact ⟨⟨hset.head, hset.tail, hset.linked, hset.nodup, hset.ids⟩, rfl, hstates, hqueues, rfl,
      rfl⟩

end Yield

theorem threadSpawn_threads {m : PhysicalMemory.State} {s : State} {parent quota id : ℕ}
    {entry : UInt32} (hid : (threadSpawn m s parent quota entry).2.2 = id) :
    (threadSpawn m s parent quota entry).2.1 = tqEnqueue (setState { s with
      kernelContexts := update s.kernelContexts id
        { s.kernelContexts id with eip := entry, esp := stackTop s id } } id .ready)
      maxProcs id := by
  have hid' : (PhysicalMemory.containerSplit m parent quota).2 = id := hid
  rw [threadSpawn]
  simp only [hid']

theorem threadSpawn_spec {m : PhysicalMemory.State} {parent quota id : ℕ} {entry : UInt32}
    (hid : (threadSpawn m s parent quota entry).2.2 = id) (hq : Queue s maxProcs ready)
    (hlt : id < maxProcs) (hr : id ∉ ready) :
    Queue (threadSpawn m s parent quota entry).2.1 maxProcs (ready ++ [id]) ∧
      (threadSpawn m s parent quota entry).2.1.currentID = s.currentID ∧
      stateOf (threadSpawn m s parent quota entry).2.1 = update (stateOf s) id .ready ∧
      (∀ q < maxProcs,
        (threadSpawn m s parent quota entry).2.1.threadQueues q = s.threadQueues q) ∧
      (threadSpawn m s parent quota entry).2.1.kernelContexts =
        update s.kernelContexts id
          { s.kernelContexts id with eip := entry, esp := stackTop s id } := by
  let s₁ : State := { s with
    kernelContexts := update s.kernelContexts id
      { s.kernelContexts id with eip := entry, esp := stackTop s id } }
  have hs : (threadSpawn m s parent quota entry).2.1 =
      tqEnqueue (setState s₁ id .ready) maxProcs id := threadSpawn_threads hid
  have hq₁ : Queue s₁ maxProcs ready := ⟨hq.head, hq.tail, hq.linked, hq.nodup, hq.ids⟩
  have hrel := tqEnqueue_relinked (setState s₁ id .ready) maxProcs id
  rw [hs]
  refine ⟨(hq₁.setState id .ready).enqueue hr hlt, hrel.current, ?_, ?_, hrel.kernel⟩
  · rw [hrel.states, stateOf_setState]
    rfl
  · exact fun q hq ↦ hrel.queues q hq.ne

/-- All that `ForceRunProcess` does. The state and the links of the caller are left alone. -/
theorem forceRunProcess_spec (s : State) (pid : ℕ) (live : KernelContext) :
    (forceRunProcess s pid live).1.currentID = pid ∧
      stateOf (forceRunProcess s pid live).1 = update (stateOf s) pid .run := by
  have hrel := tqRemove_relinked s maxProcs pid
  refine ⟨rfl, ?_⟩
  have hs : stateOf (forceRunProcess s pid live).1 =
      stateOf (setState (tqRemove s maxProcs pid) pid .run) := rfl
  rw [hs, stateOf_setState, hrel.states]

theorem threadInit_spec (s : State) :
    (threadInit s).currentID = 0 ∧
      (∀ i < maxProcs, stateOf (threadInit s) i = if i = 0 then .run else .dead) ∧
      ∀ q < maxProcs + 1, (threadInit s).threadQueues q = ⟨maxProcs, maxProcs⟩ := by
  obtain ⟨s₁, hs₁⟩ : ∃ s₁, forUpTo (fun i s ↦
      setNext (setPrev (setState s i .dead) i maxProcs) i maxProcs) maxProcs s = s₁ := ⟨_, rfl⟩
  have htcbs : ∀ i < maxProcs, stateOf s₁ i = .dead := by
    rw [← hs₁]
    refine forUpTo_invariant (I := fun n (s : State) ↦ ∀ i < n, stateOf s i = .dead) maxProcs
      (by simp) fun n t _ ht i hi ↦ ?_
    rw [stateOf_setNext, stateOf_setPrev, stateOf_setState]
    by_cases he : i = n
    · rw [he, update_self]
    · rw [update_of_ne he]
      exact ht i (by omega)
  obtain ⟨s₂, hs₂⟩ : ∃ s₂, forUpTo (fun i s ↦ setTail (setHead s i maxProcs) i maxProcs)
      (maxProcs + 1) s₁ = s₂ := ⟨_, rfl⟩
  have hqueues : stateOf s₂ = stateOf s₁ ∧
      ∀ q < maxProcs + 1, s₂.threadQueues q = ⟨maxProcs, maxProcs⟩ := by
    rw [← hs₂]
    refine forUpTo_invariant (I := fun n (s : State) ↦ stateOf s = stateOf s₁ ∧
      ∀ q < n, s.threadQueues q = ⟨maxProcs, maxProcs⟩) (maxProcs + 1) (by simp)
      fun n t _ ht ↦ ⟨ht.1, fun q hq ↦ ?_⟩
    rw [threadQueues_setTail, threadQueues_setHead]
    by_cases he : q = n
    · simp [he]
    · rw [update_of_ne he, update_of_ne he]
      exact ht.2 q (by omega)
  have hinit : threadInit s = setState { s₂ with currentID := 0 } 0 .run := by
    rw [threadInit, hs₁]
    simp only [hs₂]
  rw [hinit]
  refine ⟨rfl, fun i hi ↦ ?_, hqueues.2⟩
  have hst : stateOf { s₂ with currentID := 0 } = stateOf s₁ := hqueues.1
  rw [stateOf_setState, hst]
  by_cases he : i = 0
  · rw [he, update_self, if_pos rfl]
  · rw [update_of_ne he, if_neg he, htcbs i hi]

end StormOS.Scheduler
