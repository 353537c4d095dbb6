import StormOS.Scheduler

namespace StormOS.ContextSwitch

open Library.Runs Machine Threads ThreadQueue Scheduler Function

inductive Request
  | spawn (parent quota : ℕ) (entry : UInt32)
  | yield

/-- The threads beside a record of their entries and of the registers they last yielded with. -/
structure Journal where
  memory : PhysicalMemory.State
  threads : State
  entry : ℕ → UInt32
  lastYield : ℕ → Option KernelContext

/-- Every request comes with the registers that are live when it is made. -/
def perform (j : Journal) : Request × KernelContext → Journal
  | (.spawn parent quota entry, _) =>
    let (memory, threads, id) := threadSpawn j.memory j.threads parent quota entry
    { j with memory := memory, threads := threads, entry := update j.entry id entry }
  | (.yield, live) =>
    { j with
      threads := (threadYield j.threads live).1
      lastYield := update j.lastYield j.threads.currentID (some live) }

/-- Spawns return fresh ids. -/
def journal : System Journal (Request × KernelContext) where
  enabled j
    | (.spawn parent quota entry, _) =>
      let id := (threadSpawn j.memory j.threads parent quota entry).2.2
      id < maxProcs ∧ stateOf j.threads id = .dead
    | (.yield, _) => True
  step := perform

def start (memory : PhysicalMemory.State) (s : State) : Journal :=
  ⟨memory, threadInit s, fun _ ↦ 0, fun _ ↦ none⟩

def Resumes (j : Journal) (id : ℕ) (registers : KernelContext) : Prop :=
  match j.lastYield id with
  | some context => registers = context
  | none => registers.eip = j.entry id ∧ registers.esp = stackTop j.threads id

/-- A yield resumes the thread that it dispatches and leaves the others' contexts alone. -/
def ContextsKept (j : Journal) : Request × KernelContext → Prop
  | (.spawn _ _ _, _) => True
  | (.yield, live) =>
    Resumes (perform j (.yield, live)) (threadYield j.threads live).1.currentID
        (threadYield j.threads live).2 ∧
      ∀ i, i ≠ j.threads.currentID →
        (threadYield j.threads live).1.kernelContexts i = j.threads.kernelContexts i

/-- No thread yields once there is another one. -/
def NoYieldAfterSpawn : List Request → Prop
  | [] => True
  | .spawn _ _ _ :: rs => .yield ∉ rs
  | .yield :: rs => NoYieldAfterSpawn rs

variable {j j' : Journal} {run : List (Request × KernelContext)} {rs : List Request} {l : List ℕ}

theorem along_of_no_yield (h : .yield ∉ run.map Prod.fst) : journal.Along ContextsKept j run := by
  induction run generalizing j with
  | nil => trivial
  | cons a run ih =>
    rw [List.map_cons, List.mem_cons, not_or] at h
    obtain ⟨request, live⟩ := a
    cases request with
    | spawn parent quota entry => exact ⟨trivial, ih h.2⟩
    | yield => exact absurd rfl h.1

theorem yield_alone {s : State} (h : Scheduled s []) (live : KernelContext) :
    Scheduled (threadYield s live).1 [] ∧ (threadYield s live).1.currentID = s.currentID ∧
      (threadYield s live).1.kernelContexts = s.kernelContexts ∧ (threadYield s live).2 = live := by
  obtain ⟨_, _, _, _, hlive, hk⟩ := threadYield_spec (n := s.currentID) (l := []) h.queue
    h.current h.current_notMem rfl live
  obtain ⟨hs, hc⟩ := h.yield live (n := s.currentID) (l := []) rfl
  rw [if_pos rfl] at hk
  exact ⟨hs, hc, hk, hlive⟩

theorem yield_alone_eq {s : State} (h : Scheduled s []) (live live' : KernelContext) :
    (threadYield s live).1 = (threadYield s live').1 := by
  have heq := threadYield_eq (n := s.currentID) (l := []) h.queue h.current h.current_notMem rfl
  rw [heq, heq, if_neg (by simp), if_neg (by simp)]

theorem along_of_alone (h : Scheduled j.threads []) (hrs : NoYieldAfterSpawn rs)
    (hrun : run.map Prod.fst = rs) : journal.Along ContextsKept j run := by
  induction run generalizing j rs with
  | nil => trivial
  | cons a run ih =>
    obtain ⟨request, live⟩ := a
    subst hrun
    cases request with
    | spawn parent quota entry => exact ⟨trivial, along_of_no_yield hrs⟩
    | yield =>
      obtain ⟨hs, hc, hk, hlive⟩ := yield_alone h live
      refine ⟨⟨?_, fun i _ ↦ by rw [hk]⟩,
        ih (j := perform j (.yield, live)) hs
          (show NoYieldAfterSpawn (run.map Prod.fst) from hrs) rfl⟩
      rw [hc, hlive, Resumes]
      simp only [perform, update_self]

def relive (live : KernelContext) (run : List (Request × KernelContext)) :
    List (Request × KernelContext) := run.map fun a ↦ (a.1, live)

def SameThreads (j j' : Journal) : Prop := j'.memory = j.memory ∧ j'.threads = j.threads

theorem SameThreads.spawn (h : SameThreads j j') (parent quota : ℕ) (entry : UInt32)
    (live live' : KernelContext) :
    SameThreads (perform j (.spawn parent quota entry, live))
      (perform j' (.spawn parent quota entry, live')) := by
  simp only [SameThreads, perform, h.1, h.2, and_self]

/-- While a spawned thread waits at the head of the queue, the next yield overwrites its context
with the registers of the caller. -/
theorem not_along_of_waiting {id : ℕ} {live : KernelContext}
    (hlegal : journal.Legal j run) (hy : .yield ∈ run.map Prod.fst)
    (h : Scheduled j.threads (id :: l)) (hne : j.threads.kernelContexts id ≠ live)
    (hj : SameThreads j j') : ¬ journal.Along ContextsKept j' (relive live run) := by
  induction run generalizing j j' l with
  | nil => simp at hy
  | cons a run ih =>
    obtain ⟨request, live₀⟩ := a
    cases request with
    | yield =>
      intro hkept
      obtain ⟨⟨_, hothers⟩, _⟩ := hkept
      obtain ⟨_, _, _, _, _, hk⟩ := threadYield_spec (n := id)
        (l := l ++ [j.threads.currentID]) h.queue h.current h.current_notMem rfl live
      have hid : id ≠ j.threads.currentID := fun he ↦ h.current_notMem (he ▸ List.mem_cons_self)
      have hsame := hothers id (by rwa [hj.2])
      rw [hj.2, hk, if_neg hid, update_self] at hsame
      exact hne hsame.symm
    | spawn parent quota entry =>
      obtain ⟨⟨hlt, hdead⟩, hrest⟩ := hlegal
      intro hkept
      have hready : stateOf j.threads id = .ready := ((h.ready id).mp List.mem_cons_self).2
      obtain ⟨id', hid'⟩ : ∃ id',
          (threadSpawn j.memory j.threads parent quota entry).2.2 = id' := ⟨_, rfl⟩
      rw [hid'] at hlt hdead
      have hne' : id ≠ id' := by
        rintro rfl
        rw [hready] at hdead
        cases hdead
      have hnm : id' ∉ id :: l := by
        intro hm
        rw [((h.ready id').mp hm).2] at hdead
        cases hdead
      obtain ⟨_, _, _, _, hk⟩ := threadSpawn_spec hid' h.queue hlt hnm
      refine ih (j := perform j (.spawn parent quota entry, live₀)) hrest ?_
        (h.spawn hid' hlt hdead).1 ?_ (hj.spawn parent quota entry live₀ live) hkept.2
      · simpa using hy
      · simp only [perform, hk, update_of_ne hne']
        exact hne

theorem not_along_of_yield_after_spawn (hlegal : journal.Legal j run)
    (h : Scheduled j.threads []) (hrs : ¬ NoYieldAfterSpawn (run.map Prod.fst)) :
    ∃ live, ∀ j', SameThreads j j' → ¬ journal.Along ContextsKept j' (relive live run) := by
  induction run generalizing j with
  | nil => exact absurd trivial hrs
  | cons a run ih =>
    obtain ⟨request, live₀⟩ := a
    cases request with
    | yield =>
      obtain ⟨live, hlive⟩ := ih (j := perform j (.yield, live₀)) hlegal.2
        (yield_alone h live₀).1 hrs
      refine ⟨live, fun j' hj hkept ↦ ?_⟩
      refine hlive (perform j' (.yield, live)) ⟨hj.1, ?_⟩ hkept.2
      simp only [perform, hj.2]
      exact yield_alone_eq h live live₀
    | spawn parent quota entry =>
      obtain ⟨⟨hlt, hdead⟩, hrest⟩ := hlegal
      obtain ⟨id, hid⟩ : ∃ id,
          (threadSpawn j.memory j.threads parent quota entry).2.2 = id := ⟨_, rfl⟩
      rw [hid] at hlt hdead
      obtain ⟨_, _, _, _, hk⟩ := threadSpawn_spec hid h.queue hlt (by simp)
      let live : KernelContext := { (default : KernelContext) with eip := entry + 1 }
      refine ⟨live, fun j' hj hkept ↦ ?_⟩
      refine not_along_of_waiting (j := perform j (.spawn parent quota entry, live₀)) (l := [])
        hrest ?_ (h.spawn hid hlt hdead).1 ?_
        (hj.spawn parent quota entry live₀ live) hkept.2
      · simpa [NoYieldAfterSpawn] using hrs
      · simp only [perform, hk, update_self]
        intro he
        have heip : entry = entry + 1 := congrArg KernelContext.eip he
        simp at heip

/-- Contexts survive every choice of live registers exactly when no thread yields to another. -/
theorem contextsKept_iff (memory : PhysicalMemory.State) (s : State)
    (run : List (Request × KernelContext)) (hlegal : journal.Legal (start memory s) run) :
    (∀ run', run'.map Prod.fst = run.map Prod.fst →
        journal.Along ContextsKept (start memory s) run') ↔
      NoYieldAfterSpawn (run.map Prod.fst) := by
  have halone : Scheduled (start memory s).threads [] := threadInit_scheduled s
  constructor
  · intro hkept
    by_contra hrs
    obtain ⟨live, hlive⟩ := not_along_of_yield_after_spawn hlegal halone hrs
    refine hlive _ ⟨rfl, rfl⟩ (hkept _ ?_)
    rw [relive, List.map_map]
    rfl
  · exact fun hrs run' hrun ↦ along_of_alone halone hrs hrun

theorem yield_loses_context :
    journal.Legal (start booted (loaded 0x200000))
        [(.spawn 0 0 0x100000, default), (.yield, default)] ∧
      ¬ journal.Along ContextsKept (start booted (loaded 0x200000))
        [(.spawn 0 0 0x100000, default), (.yield, default)] := by
  have hm : (booted.containers 0).numChildren = 0 := by
    rw [PhysicalMemory.physicalMemoryInit_root]
  have halone := threadInit_scheduled (loaded 0x200000)
  have hid := threadSpawn_first hm (threadInit (loaded 0x200000)) 0x100000
  have he := enabled_first_spawn hm (loaded 0x200000) 0x100000
  obtain ⟨_, _, _, _, hk⟩ := threadSpawn_spec hid halone.queue (by decide) (by simp)
  refine ⟨⟨he, trivial, trivial⟩, fun h ↦ ?_⟩
  have hlegal : journal.Legal (perform (start booted (loaded 0x200000))
    (.spawn 0 0 0x100000, default)) [(.yield, default)] := ⟨trivial, trivial⟩
  refine not_along_of_waiting hlegal (by simp)
    (halone.spawn hid (by decide) (by rw [← hid]; exact he.2)).1 ?_ ⟨rfl, rfl⟩ h.2
  simp only [perform, start, hk, update_self]
  intro heq
  exact absurd (congrArg KernelContext.eip heq) (by decide)

theorem contextsKept_yield_then_spawn :
    journal.Along ContextsKept (start booted (loaded 0x200000))
      [(.yield, default), (.spawn 0 0 0x100000, default)] := by
  have hm : (booted.containers 0).numChildren = 0 := by
    rw [PhysicalMemory.physicalMemoryInit_root]
  have halone := threadInit_scheduled (loaded 0x200000)
  obtain ⟨hcur, hstates, _⟩ := threadInit_spec (loaded 0x200000)
  have hy := (threadYield_spec (n := 0) (l := []) halone.queue halone.current
    halone.current_notMem (by rw [hcur]; rfl) default).2.2.1
  have hid := threadSpawn_first hm (threadYield (threadInit (loaded 0x200000)) default).1 0x100000
  refine (contextsKept_iff booted (loaded 0x200000)
    [(.yield, default), (.spawn 0 0 0x100000, default)] ⟨trivial, ?_, trivial⟩).mpr ?_ _ rfl
  · simp only [journal, perform, start, hid, hy, hcur]
    exact ⟨by decide, hstates 1 (by decide)⟩
  · simp [NoYieldAfterSpawn]

end StormOS.ContextSwitch
