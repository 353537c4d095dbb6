import StormOS.ProcessStart

namespace StormOS.ProcessStart

open Library.Runs Machine Interrupt PhysicalMemory VirtualMemory Syscall Elf Threads Trap Function

def createdID (call : Call) (c : Config) : ℕ :=
  match c.pc with
  | .containerSplit => (containerSplit c.processor.kernel.vm.physical
      c.processor.threads.currentID call.quota).2
  | _ => c.pid

def memoryToCome (call : Call) (c : Config) : Option VirtualMemory.State :=
  let vm := c.processor.kernel.vm
  match c.pc with
  | .containerSplit =>
    let r := containerSplit vm.physical c.processor.threads.currentID call.quota
    elfLoad { vm with physical := r.1 } call.elfAddr r.2
  | .setEip => elfLoad vm call.elfAddr c.pid
  | .setEsp => elfLoad vm call.elfAddr c.pid
  | .setReady => elfLoad vm call.elfAddr c.pid
  | .enqueue => elfLoad vm call.elfAddr c.pid
  | .elfLoad => elfLoad vm call.elfAddr c.pid
  | .segment ph eph => loadSegments vm call.elfAddr c.pid ph eph
  | .page ph eph perm zva eva va fa =>
    (loadPages vm c.pid ph perm zva eva va fa).bind fun vm ↦
      loadSegments vm call.elfAddr c.pid (ph + proghdrSize) eph
  | _ => some vm

def pending : Pc → List Field
  | .fields fs => fs
  | .saveCurrent => []
  | .remove => []
  | .setRun => []
  | .setCurrent => []
  | _ => contextFields

def frameToCome (call : Call) (c : Config) : Option TrapFrame :=
  (memoryToCome call c).bind fun vm ↦ assignAll vm.memory call.elfAddr (pending c.pc)
    (c.processor.threads.userContexts (createdID call c))

/-- `CreateProcess` is to write `frame`, in a slot that interrupts leave alone. -/
structure Creating (call : Call) (frame : Option TrapFrame) (c : Config) : Prop where
  phase : c.pc.phase = .creating
  child : createdID call c ≠ c.processor.threads.currentID
  building : frameToCome call c = frame

/-- `P` holds of the frame that `TrapReturn` is going to load, or has loaded. -/
inductive Enters (P : TrapFrame → Prop) (c : Config) : Prop
  | handOver (hphase : c.pc.phase = .handOver)
      (h : P (c.processor.threads.userContexts c.processor.threads.currentID))
  | user (tf : TrapFrame) (hpc : c.pc = .user tf) (h : P tf)
  | elsewhere (hpc : c.pc = .elsewhere)

variable {b : Buffers} {call : Call} {c c' : Config} {p : Processor} {e : Surroundings}
  {tf : TrapFrame} {frame : Option TrapFrame} {P Q : TrapFrame → Prop}

theorem frameToCome_congr (hmemory : memoryToCome call c' = memoryToCome call c)
    (hpending : pending c'.pc = pending c.pc)
    (hframe : c'.processor.threads.userContexts (createdID call c') =
      c.processor.threads.userContexts (createdID call c)) :
    frameToCome call c' = frameToCome call c := by
  rw [frameToCome, frameToCome, hmemory, hpending, hframe]

section ElfLoad

variable {pid curid ph eph perm zva eva va fa : ℕ}

theorem memoryToCome_segment : memoryToCome call ⟨p, pid, curid, .segment ph eph⟩ =
    loadSegments p.kernel.vm call.elfAddr pid ph eph := rfl

theorem memoryToCome_page : memoryToCome call ⟨p, pid, curid, .page ph eph perm zva eva va fa⟩ =
    (loadPages p.kernel.vm pid ph perm zva eva va fa).bind fun vm ↦
      loadSegments vm call.elfAddr pid (ph + proghdrSize) eph := rfl

theorem memoryToCome_header (h : ph < eph) :
    memoryToCome call ⟨p, pid, curid, .segment ph eph⟩ =
      (loadSegment p.kernel.vm call.elfAddr pid ph).bind fun vm ↦
        loadSegments vm call.elfAddr pid (ph + proghdrSize) eph := by
  rw [memoryToCome_segment, loadSegments, if_pos h]

theorem Creating.elfLoad (h : Creating call frame ⟨p, pid, curid, .elfLoad⟩)
    (hn : next call ⟨p, pid, curid, .elfLoad⟩ = some c') : Creating call frame c' := by
  obtain ⟨hacc, rfl⟩ := next_elfLoad hn
  refine ⟨rfl, h.child, ?_⟩
  rw [← h.building]
  refine frameToCome_congr ?_ rfl rfl
  exact (elfLoad_of_accepted hacc).symm

theorem Creating.segment (h : Creating call frame ⟨p, pid, curid, .segment ph eph⟩)
    (hn : next call ⟨p, pid, curid, .segment ph eph⟩ = some c') : Creating call frame c' := by
  obtain ⟨hlt, htype, rfl⟩ | ⟨hlt, htype, rfl⟩ | ⟨hlt, rfl⟩ := next_segment hn
  · refine ⟨rfl, h.child, ?_⟩
    rw [← h.building]
    refine frameToCome_congr ?_ rfl rfl
    rw [memoryToCome_header hlt, loadSegment, if_pos htype]
    rfl
  · refine ⟨rfl, h.child, ?_⟩
    rw [← h.building]
    refine frameToCome_congr ?_ rfl rfl
    rw [memoryToCome_header hlt, loadSegment, if_neg (not_not.mpr htype), memoryToCome_page]
  · refine ⟨rfl, h.child, ?_⟩
    rw [← h.building]
    refine frameToCome_congr ?_ rfl rfl
    rw [memoryToCome_segment, loadSegments, if_neg hlt]
    rfl

theorem Creating.page (h : Creating call frame ⟨p, pid, curid, .page ph eph perm zva eva va fa⟩)
    (hn : next call ⟨p, pid, curid, .page ph eph perm zva eva va fa⟩ = some c') :
    Creating call frame c' := by
  obtain ⟨hlt, vm, hvm, rfl⟩ | ⟨hlt, rfl⟩ := next_page hn
  · refine ⟨rfl, h.child, ?_⟩
    rw [← h.building]
    refine frameToCome_congr ?_ rfl rfl
    rw [memoryToCome_page, memoryToCome_page, loadPages.eq_def p.kernel.vm, if_pos hlt, hvm,
      Option.bind_some]
    rfl
  · refine ⟨rfl, h.child, ?_⟩
    rw [← h.building]
    refine frameToCome_congr ?_ rfl rfl
    rw [memoryToCome_page, loadPages, if_neg hlt, Option.bind_some, memoryToCome_segment]

end ElfLoad

theorem Creating.fields {pid curid : ℕ} {fs : List Field}
    (h : Creating call frame ⟨p, pid, curid, .fields fs⟩)
    (hn : next call ⟨p, pid, curid, .fields fs⟩ = some c') : Creating call frame c' := by
  obtain ⟨rfl, rfl⟩ | ⟨f, rest, tf, rfl, htf, rfl⟩ := next_fields hn
  · exact ⟨rfl, h.child, h.building⟩
  · refine ⟨rfl, h.child, ?_⟩
    have hself : (setUserContext p pid tf).threads.userContexts pid = tf := update_self ..
    calc
      _ = assignAll p.kernel.vm.memory call.elfAddr rest
          ((setUserContext p pid tf).threads.userContexts pid) := rfl
      _ = assignAll p.kernel.vm.memory call.elfAddr (f :: rest) (p.threads.userContexts pid) := by
        rw [hself, assignAll, assignAll, List.foldlM_cons, htf]
        rfl
      _ = frame := h.building

/-- The next statement of `CreateProcess` does its part of what is left to be done. -/
theorem Creating.next (h : Creating call frame c) (hn : next call c = some c') :
    Creating call frame c' ∨ Enters (frame = some ·) c' := by
  obtain ⟨p, pid, curid, pc⟩ := c
  cases pc with
  | containerSplit | setEip | setEsp | setReady | saveCurrent | setRun =>
    obtain rfl := Option.some.inj hn
    exact .inl ⟨rfl, h.child, h.building⟩
  | enqueue =>
    obtain rfl := Option.some.inj hn
    have hrel := ThreadQueue.tqEnqueue_relinked p.threads maxProcs pid
    refine .inl ⟨rfl, h.child.trans_eq hrel.current.symm, ?_⟩
    rw [← h.building]
    exact frameToCome_congr rfl rfl (congrFun hrel.user pid)
  | elfLoad => exact .inl (h.elfLoad hn)
  | segment ph eph => exact .inl (h.segment hn)
  | page ph eph perm zva eva va fa => exact .inl (h.page hn)
  | fields fs => exact .inl (h.fields hn)
  | remove =>
    obtain rfl := Option.some.inj hn
    have hrel := ThreadQueue.tqRemove_relinked p.threads maxProcs pid
    refine .inl ⟨rfl, h.child.trans_eq hrel.current.symm, ?_⟩
    rw [← h.building]
    exact frameToCome_congr rfl rfl (congrFun hrel.user pid)
  | setCurrent =>
    obtain rfl := Option.some.inj hn
    exact .inr (.handOver rfl h.building.symm)
  | _ => cases h.phase

theorem Enters.mono (h : Enters P c) (hPQ : ∀ tf, P tf → Q tf) : Enters Q c := by
  cases h with
  | handOver hphase h => exact .handOver hphase (hPQ _ h)
  | user tf hpc h => exact .user tf hpc (hPQ _ h)
  | elsewhere hpc => exact .elsewhere hpc

/-- After the assignment to `currentID` the path only reads the frame. -/
theorem Enters.next (h : Enters P c) (hn : next call c = some c') : Enters P c' := by
  obtain ⟨p, pid, curid, pc⟩ := c
  cases h with
  | handOver hphase h =>
    cases pc with
    | contextSwitch =>
      obtain rfl := Option.some.inj hn
      dsimp only [Config.goTo]
      split
      · exact .handOver rfl h
      · exact .elsewhere rfl
    | switchTSS | setPageDirectory =>
      obtain rfl := Option.some.inj hn
      exact .handOver rfl h
    | trapReturn =>
      obtain rfl := Option.some.inj hn
      exact .user _ rfl h
    | _ => cases hphase
  | user tf hpc h =>
    obtain rfl : pc = .user tf := hpc
    cases hn
  | elsewhere hpc =>
    obtain rfl : pc = .elsewhere := hpc
    cases hn

/-- A hardware interrupt writes its frame to the context of the running thread, and the path goes
on. -/
theorem interrupted_eq (h : HardwareInterrupt tf) (b : Buffers) (e : Surroundings) (c : Config) :
    ∃ n, interrupted b e c tf = some (c.goTo
      { setUserContext c.processor c.processor.threads.currentID tf with
        pageDirectory := c.processor.threads.currentID, endsOfInterrupt := n } c.pc) := by
  obtain ⟨n, hn⟩ := handleTrap_of_hardwareInterrupt h b e c.processor
  refine ⟨n, ?_⟩
  rw [interrupted, hn]
  simp

theorem Creating.interrupted (h : Creating call frame c) (htf : HardwareInterrupt tf)
    (hc : interrupted b e c tf = some c') : Creating call frame c' := by
  obtain ⟨n, hn⟩ := interrupted_eq htf b e c
  obtain rfl := Option.some.inj (hn.symm.trans hc)
  obtain ⟨p, pid, curid, pc⟩ := c
  refine ⟨h.phase, h.child, ?_⟩
  rw [← h.building]
  have hne : (setUserContext p p.threads.currentID tf).threads.userContexts
      (createdID call ⟨p, pid, curid, pc⟩) =
        p.threads.userContexts (createdID call ⟨p, pid, curid, pc⟩) := update_of_ne h.child ..
  exact frameToCome_congr rfl rfl hne

theorem Enters.interrupted (h : Enters P c) (hphase : c.pc.phase ≠ .left)
    (htf : HardwareInterrupt tf) (hP : Q tf) (hc : interrupted b e c tf = some c') :
    Enters Q c' := by
  obtain ⟨n, hn⟩ := interrupted_eq htf b e c
  obtain rfl := Option.some.inj (hn.symm.trans hc)
  cases h with
  | handOver hphase _ =>
    refine .handOver hphase ?_
    have hself : (setUserContext c.processor c.processor.threads.currentID tf).threads.userContexts
        c.processor.threads.currentID = tf := update_self ..
    change Q ((setUserContext c.processor c.processor.threads.currentID tf).threads.userContexts
      c.processor.threads.currentID)
    rwa [hself]
  | user tf hpc => exact absurd (by rw [hpc]; rfl) hphase
  | elsewhere hpc => exact absurd (by rw [hpc]; rfl) hphase

end StormOS.ProcessStart
