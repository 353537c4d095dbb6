import StormOS.Scheduler
import Mathlib.Data.List.Rotate

namespace StormOS.Scheduler

open Machine Threads ThreadQueue Function

/-- Yields one after the other, each by the thread that then runs, with the registers that are then
live. -/
def yields (s : State) (lives : List KernelContext) : State :=
  lives.foldl (fun s live ↦ (threadYield s live).1) s

/-- The threads that the yields hand the processor to. -/
def dispatched : State → List KernelContext → List ℕ
  | _, [] => []
  | s, live :: lives =>
    (threadYield s live).1.currentID :: dispatched (threadYield s live).1 lives

/-- Thread `c` runs and the threads of `waiting` are queued for their turns. Any other thread is in
the state that `others` tells. -/
structure Turn (others : ℕ → ThreadState) (s : State) (c : ℕ) (waiting : List ℕ) : Prop where
  current : s.currentID = c
  lt : c < maxProcs
  notMem : c ∉ waiting
  queue : Queue s maxProcs waiting
  states : stateOf s = fun i ↦ if i = c then .run else if i ∈ waiting then .ready else others i

variable {others : ℕ → ThreadState} {s : State} {c n : ℕ} {waiting l : List ℕ}

theorem Turn.yield (h : Turn others s c waiting) (live : KernelContext)
    (hn : waiting ++ [c] = n :: l) : Turn others (threadYield s live).1 n l := by
  obtain ⟨rfl, hlt, hnot, hq, hstates⟩ := h
  obtain ⟨hq', hcur, hstates', _⟩ := threadYield_spec hq hlt hnot hn live
  have hmem (i : ℕ) : i ∈ waiting ∨ i = s.currentID ↔ i = n ∨ i ∈ l := by
    have he : i ∈ waiting ++ [s.currentID] ↔ i ∈ n :: l := by rw [hn]
    simpa using he
  have hnodup : (n :: l).Nodup := by
    rw [← hn, ← List.concat_eq_append]
    exact hq.nodup.concat hnot
  constructor
  · exact hcur
  · rcases (hmem n).mpr (.inl rfl) with hm | hm
    · exact hq.ids n hm
    · exact hm ▸ hlt
  · exact (List.nodup_cons.mp hnodup).1
  · exact hq'
  · rw [hstates', hstates]
    funext i
    have hi := hmem i
    by_cases hin : i = n
    · rw [hin, update_self, if_pos rfl]
    · rw [update_of_ne hin, if_neg hin]
      by_cases hic : i = s.currentID
      · have hil : i ∈ l := (hi.mp (.inr hic)).resolve_left hin
        rw [hic] at hil ⊢
        rw [update_self, if_pos hil]
      · rw [update_of_ne hic, if_neg hic]
        exact if_congr (by tauto) rfl rfl

/-- The yields turn the running thread and the queue behind it as one cycle. -/
theorem Turn.yields (h : Turn others s c waiting) (lives : List KernelContext)
    (hn : (c :: waiting).rotate lives.length = n :: l) :
    Turn others (Scheduler.yields s lives) n l := by
  induction lives generalizing s c waiting with
  | nil =>
    rw [List.length_nil, List.rotate_zero] at hn
    obtain ⟨rfl, rfl⟩ := List.cons.inj hn
    exact h
  | cons live lives ih =>
    rw [List.length_cons, List.rotate_cons_succ] at hn
    obtain ⟨m, l', hm⟩ : ∃ m l', waiting ++ [c] = m :: l' := List.exists_cons_of_ne_nil (by simp)
    rw [hm] at hn
    exact ih (h.yield live hm) hn

theorem Turn.dispatched (h : Turn others s c waiting) (lives : List KernelContext)
    (hle : lives.length ≤ waiting.length + 1) :
    Scheduler.dispatched s lives = (waiting ++ [c]).take lives.length := by
  induction lives generalizing s c waiting with
  | nil => rfl
  | cons live lives ih =>
    obtain ⟨m, l', hm⟩ : ∃ m l', waiting ++ [c] = m :: l' := List.exists_cons_of_ne_nil (by simp)
    have hlen : waiting.length = l'.length := by simpa using congrArg List.length hm
    rw [List.length_cons] at hle
    have hnext := h.yield live hm
    rw [Scheduler.dispatched, hnext.current, ih hnext (by omega), List.length_cons, hm,
      List.take_succ_cons, List.take_append_of_le_length (by omega)]

/-- Yielding is round-robin: `k` yields turn the cycle of the running thread and the ready queue by
`k` places, and one yield more than there are ready threads brings everything back. -/
theorem yields_roundRobin (s : State) (waiting : List ℕ) (hq : Queue s maxProcs waiting)
    (hready : ∀ i ∈ waiting, stateOf s i = .ready) (hc : s.currentID < maxProcs)
    (hrun : stateOf s s.currentID = .run) (hnot : s.currentID ∉ waiting) :
    (∀ lives, lives.length ≤ waiting.length →
      (s.currentID :: waiting)[lives.length]? = some (yields s lives).currentID ∧
        Queue (yields s lives) maxProcs ((s.currentID :: waiting).rotate lives.length).tail) ∧
    ∀ lives, lives.length = waiting.length + 1 →
      (yields s lives).currentID = s.currentID ∧ stateOf (yields s lives) = stateOf s ∧
        Queue (yields s lives) maxProcs waiting ∧
        dispatched s lives = waiting ++ [s.currentID] ∧ (dispatched s lives).Nodup := by
  have hstates : stateOf s = fun i ↦
      if i = s.currentID then .run else if i ∈ waiting then .ready else stateOf s i := by
    funext i
    by_cases hi : i = s.currentID
    · rw [if_pos hi, hi, hrun]
    · rw [if_neg hi]
      by_cases hm : i ∈ waiting
      · rw [if_pos hm, hready i hm]
      · rw [if_neg hm]
  have hturn : Turn (stateOf s) s s.currentID waiting := ⟨rfl, hc, hnot, hq, hstates⟩
  refine ⟨fun lives hle ↦ ?_, fun lives hlen ↦ ?_⟩
  · obtain ⟨n, l, hn⟩ : ∃ n l, (s.currentID :: waiting).rotate lives.length = n :: l :=
      List.exists_cons_of_ne_nil (by simp)
    have hend := hturn.yields lives hn
    have hhead := List.head?_rotate (l := s.currentID :: waiting) (n := lives.length)
      (by rw [List.length_cons]; omega)
    rw [hn, List.head?_cons] at hhead
    rw [hn, hend.current]
    exact ⟨hhead.symm, hend.queue⟩
  · have hfull : (s.currentID :: waiting).rotate lives.length = s.currentID :: waiting := by
      rw [hlen, ← List.length_cons, List.rotate_length]
    have hend := hturn.yields lives hfull
    have hdispatched : dispatched s lives = waiting ++ [s.currentID] := by
      rw [hturn.dispatched lives hlen.le, List.take_of_length_le (by simp [hlen])]
    refine ⟨hend.current, hend.states.trans hstates.symm, hend.queue, hdispatched, ?_⟩
    rw [hdispatched, ← List.concat_eq_append]
    exact hq.nodup.concat hnot

theorem yields_roundRobin_first_spawn :
    let s := (kernel.step (start booted (loaded 0x200000)) (.spawn 0 0 0x100000)).threads
    (∀ lives, lives.length ≤ 1 →
      [s.currentID, 1][lives.length]? = some (yields s lives).currentID ∧
        Queue (yields s lives) maxProcs ([s.currentID, 1].rotate lives.length).tail) ∧
    ∀ lives, lives.length = 2 →
      (yields s lives).currentID = s.currentID ∧ stateOf (yields s lives) = stateOf s ∧
        Queue (yields s lives) maxProcs [1] ∧
        dispatched s lives = [1, s.currentID] ∧ (dispatched s lives).Nodup := by
  have hm : (booted.containers 0).numChildren = 0 := by
    rw [PhysicalMemory.physicalMemoryInit_root]
  obtain ⟨hinit, hstates, _⟩ := threadInit_spec (loaded 0x200000)
  obtain ⟨hq, hcur, hspawned, _⟩ := threadSpawn_spec
    (threadSpawn_first hm (threadInit (loaded 0x200000)) 0x100000)
    (threadInit_scheduled (loaded 0x200000)).queue (by decide) (by simp)
  have hzero := hcur.trans hinit
  refine yields_roundRobin _ [1] hq ?_ ?_ ?_ ?_
  · intro i hi
    rw [List.mem_singleton.mp hi]
    exact (congrFun hspawned 1).trans (update_self ..)
  · exact hzero ▸ (by decide)
  · apply (congrArg _ hzero).trans
    exact (congrFun hspawned 0).trans ((update_of_ne (by decide) _ _).trans (hstates 0 (by decide)))
  · rw [List.mem_singleton]
    exact fun h ↦ absurd (hzero.symm.trans h) (by decide)

end StormOS.Scheduler
