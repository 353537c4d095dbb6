import StormOS.HandOver

namespace StormOS.ProcessStart

open Library.Runs Machine Interrupt PhysicalMemory VirtualMemory Syscall Elf Threads Trap Function

/-- Nothing that has happened so far keeps the frame of `CreateProcess` from being loaded. -/
def OnCourse (call : Call) (frame : Option TrapFrame) (c : Config) : Prop :=
  Creating call frame c ∨ Enters (frame = some ·) c

/-- No interrupt is taken from the assignment to `currentID` on. -/
def Undisturbed (c : Config) : Event → Prop
  | .step => True
  | .interrupt _ _ => c.pc.phase ≠ .handOver

/-- The frame is the one that `CreateProcess` wrote, and enters user mode at the ELF entry. -/
structure EntersAsCreated (call : Call) (p : Processor) (tf : TrapFrame) : Prop where
  created : createdFrame call p = some tf
  cs : tf.cs &&& 3 = 3
  ss : tf.ss &&& 3 = 3
  esp : tf.esp.toNat = memUserHi
  eip : ∃ vm, memoryToCome call (start p) = some vm ∧
    (elfEntry vm.memory call.elfAddr).map UInt32.ofNat = some tf.eip

variable {b : Buffers} {call : Call} {c : Config} {p : Processor} {a : Event} {tf : TrapFrame}
  {frame : Option TrapFrame} {P : TrapFrame → Prop} {run : List Event}

theorem path_step_next {c' : Config} (h : next call c = some c') :
    (path b call).step c .step = c' := by
  change (next call c).getD c = c'
  rw [h]
  rfl

theorem path_step_interrupt {e : Surroundings} (h : HardwareInterrupt tf) :
    interrupted b e c tf = some ((path b call).step c (.interrupt e tf)) := by
  obtain ⟨n, hn⟩ := interrupted_eq h b e c
  change _ = some ((interrupted b e c tf).getD c)
  rw [hn]
  rfl

theorem OnCourse.step (h : OnCourse call frame c) (ha : (path b call).enabled c a)
    (hu : Undisturbed c a) : OnCourse call frame ((path b call).step c a) := by
  cases a with
  | step =>
    obtain ⟨c', hc'⟩ := Option.isSome_iff_exists.mp ha
    rw [path_step_next hc']
    rcases h with h | h
    · exact h.next hc'
    · exact .inr (h.next hc')
  | interrupt e tf =>
    obtain ⟨hleft, htf, _⟩ := ha
    rcases h with h | h
    · exact .inl (h.interrupted htf (path_step_interrupt htf))
    · cases h with
      | handOver hphase => exact absurd hphase hu
      | user tf' hpc => exact absurd (by rw [hpc]; rfl) hleft
      | elsewhere hpc => exact absurd (by rw [hpc]; rfl) hleft

/-- Once a frame of the kernel stands in the way, every later interrupt only replaces it by
another one. -/
theorem Enters.step_kernelMode (h : Enters KernelMode c) (ha : (path b call).enabled c a) :
    Enters KernelMode ((path b call).step c a) := by
  cases a with
  | step =>
    obtain ⟨c', hc'⟩ := Option.isSome_iff_exists.mp ha
    rw [path_step_next hc']
    exact h.next hc'
  | interrupt e tf => exact h.interrupted ha.1 ha.2.1 ha.2.2 (path_step_interrupt ha.2.1)

theorem OnCourse.disturbed (h : OnCourse call frame c) (ha : (path b call).enabled c a)
    (hu : ¬ Undisturbed c a) : Enters KernelMode ((path b call).step c a) := by
  cases a with
  | step => exact absurd trivial hu
  | interrupt e tf =>
    have hphase : c.pc.phase = .handOver := not_not.mp hu
    rcases h with h | h
    · exact absurd (h.phase.symm.trans hphase) (by decide)
    · exact h.interrupted ha.1 ha.2.1 ha.2.2 (path_step_interrupt ha.2.1)

theorem OnCourse.final (h : OnCourse call frame c) (hlegal : (path b call).Legal c run)
    (hu : (path b call).Along Undisturbed c run) :
    OnCourse call frame ((path b call).final c run) :=
  (hlegal.and hu).final h fun _ _ h ha ↦ h.step ha.1 ha.2

theorem OnCourse.final_disturbed (h : OnCourse call frame c) (hlegal : (path b call).Legal c run)
    (hu : ¬ (path b call).Along Undisturbed c run) :
    Enters KernelMode ((path b call).final c run) := by
  induction run generalizing c with
  | nil => exact absurd trivial hu
  | cons a run ih =>
    by_cases ha : Undisturbed c a
    · exact ih (h.step hlegal.1 ha) hlegal.2 fun hrun ↦ hu ⟨ha, hrun⟩
    · exact hlegal.2.final (h.disturbed hlegal.1 ha) fun _ _ h ha ↦ h.step_kernelMode ha

theorem Enters.of_user {P : TrapFrame → Prop} (h : Enters P c) (hpc : c.pc = .user tf) : P tf := by
  cases h with
  | handOver hphase =>
    rw [hpc] at hphase
    cases hphase
  | user tf' hpc' h =>
    obtain rfl : tf' = tf := Pc.user.inj (hpc'.symm.trans hpc)
    exact h
  | elsewhere hpc' => cases hpc'.symm.trans hpc

theorem threadSpawn_userContexts (m : PhysicalMemory.State) (s : Threads.State)
    (parent quota : ℕ) (entry : UInt32) :
    (threadSpawn m s parent quota entry).2.1.userContexts = s.userContexts := by
  rw [threadSpawn]
  exact (ThreadQueue.tqEnqueue_relinked _ _ _).user

theorem createdFrame_eq (call : Call) (p : Processor) :
    createdFrame call p = frameToCome call (start p) := by
  have huser := threadSpawn_userContexts p.kernel.vm.physical p.threads p.threads.currentID
    call.quota call.processStartUser
  rw [createdFrame, createProcess, Option.map_bind, frameToCome]
  refine congrArg (Option.bind (memoryToCome call (start p))) (funext fun vm ↦ ?_)
  rw [Function.comp_apply, Option.map_map]
  have hself (q : Processor) (pid : ℕ) : (fun r : Processor × ℕ ↦ r.1.threads.userContexts r.2) ∘
      (fun tf ↦ (setUserContext q pid tf, pid)) = id := funext fun tf ↦ update_self ..
  apply Eq.trans (congrFun (congrArg Option.map (hself _ _)) _)
  rw [Option.map_id]
  exact congrArg (fun u ↦ assignAll vm.memory call.elfAddr contextFields
    (u (createdID call (start p)))) huser

theorem assignAll_contextFields {m : Library.Bytes.Memory} {elfAddr : ℕ} {old : TrapFrame}
    (h : assignAll m elfAddr contextFields old = some tf) :
    ∃ entry, elfEntry m elfAddr = some entry ∧ tf = { old with
      es := gdtUserData ||| 3
      ds := gdtUserData ||| 3
      cs := gdtUserCode ||| 3
      ss := gdtUserData ||| 3
      esp := UInt32.ofNat memUserHi
      eflags := flagIF
      eip := UInt32.ofNat entry } := by
  simp only [assignAll, contextFields, List.foldlM_cons, List.foldlM_nil, Field.assign,
    Option.bind_eq_bind, Option.bind_some, Option.pure_def, Option.bind_eq_some_iff,
    Option.map_eq_some_iff] at h
  obtain ⟨_, ⟨entry, hentry, rfl⟩, htf⟩ := h
  exact ⟨entry, hentry, (Option.some.inj htf).symm⟩

theorem entersAsCreated (h : createdFrame call p = some tf) : EntersAsCreated call p tf := by
  obtain ⟨vm, hvm, hassign⟩ := Option.bind_eq_some_iff.mp ((createdFrame_eq call p).symm.trans h)
  obtain ⟨entry, hentry, rfl⟩ := assignAll_contextFields hassign
  have hcode : (gdtUserCode ||| 3) &&& 3 = 3 := by decide
  have hdata : (gdtUserData ||| 3) &&& 3 = 3 := by decide
  have hesp : (UInt32.ofNat memUserHi).toNat = memUserHi := by decide
  exact ⟨h, hcode, hdata, hesp, vm, hvm, by rw [hentry]; rfl⟩

end StormOS.ProcessStart
