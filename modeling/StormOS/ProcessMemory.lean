import StormOS.Library.Histories
import StormOS.TrapEffects

namespace StormOS.Trap

open Library.Bytes Library.Histories Library.Runs
open PhysicalMemory hiding State
open Threads hiding State
open AddressSpaces hiding Action machine perform
open Machine VirtualMemory UserCopy Printf Interrupt Syscall Isolation Mmu

/-- The frame that a trap goes back to. A system call leaves its error number in `eax`, and
`SYS_GETCHAR` the character in `ebx`. -/
structure Resumes (tf tf' : TrapFrame) : Prop where
  registers : tf' = { tf with regs := { tf.regs with eax := tf'.regs.eax, ebx := tf'.regs.ebx } }
  silent : tf.trapno.toNat ≠ trapSyscall → tf' = tf
  result : ¬ (tf.trapno.toNat = trapSyscall ∧ tf.regs.eax.toNat = sysGetCharNumber) →
    tf'.regs.ebx = tf.regs.ebx

/-- What the processor promises of a page fault: without the protection flag, the page is not
there in directory `dir`. -/
def Raised (e : Surroundings) (s : State) (dir : ℕ) (tf : TrapFrame) : Prop :=
  tf.trapno.toNat = trapPageFault → tf.err &&& pageFaultProtectionViolation = 0 →
    e.faultVA < 2 ^ 32 ∧ ¬ Present (getPageTableEntryByVA s dir e.faultVA)

def UserRunning (p : Processor) : Prop := 1 ≤ p.threads.currentID ∧ p.threads.currentID < maxProcs

/-- The processor walks the page directory of the running process. -/
def OwnDirectory (p : Processor) : Prop := p.pageDirectory = p.threads.currentID

/-- Whichever process runs next, what user code of the running process stores, and the traps it
takes. -/
inductive Action
  | dispatch (i : ℕ)
  | store (va : UInt32) (value : UInt8)
  | trap (e : Surroundings) (tf : TrapFrame)

def userStore (p : Processor) (va : UInt32) (value : UInt8) : Option Processor :=
  (mmu p.kernel.vm p.pageDirectory va.toNat ⟨true, true⟩).map fun pa ↦
    withMemory p { p.kernel.vm with memory := store8 p.kernel.vm.memory pa value }

def perform (b : Buffers) (p : Processor) : Action → Option Processor
  | .dispatch i => some (processStartUser { p with threads := { p.threads with currentID := i } })
  | .store va value => userStore p va value
  | .trap e tf => (handleTrap b e p tf).map Prod.fst

def processes (b : Buffers) : System Processor Action where
  enabled p
    | .dispatch i => 1 ≤ i ∧ i < maxProcs
    | .store va value => UserRunning p ∧ (userStore p va value).isSome
    | .trap e tf =>
      (UserRunning p ∧ Raised e p.kernel.vm p.pageDirectory tf) ∧ (handleTrap b e p tf).isSome
  step p a := (perform b p a).getD p

/-- The byte of its own memory that user code writes in a step. -/
def written (p : Processor) : Action → Option ((ℕ × ℕ) × UInt8)
  | .dispatch _ => none
  | .store va value => some ((p.threads.currentID, va.toNat), value)
  | .trap _ _ => none

/-- What process `k.1` finds at address `k.2`. -/
def shown (p : Processor) (k : ℕ × ℕ) : Option UInt8 := view p.kernel.vm k.1 k.2

variable {L : Layout} {b : Buffers} {e : Surroundings} {p p' : Processor} {tf tf' : TrapFrame}
  {i va : ℕ} {v : UInt8} {a : Action}

theorem Resumes.refl (tf : TrapFrame) : Resumes tf tf := ⟨rfl, fun _ ↦ rfl, fun _ ↦ rfl⟩

theorem resumes_setErrNo (h : tf.trapno.toNat = trapSyscall) (errno : UInt32) :
    Resumes tf (setErrNo tf errno) := ⟨rfl, fun hn ↦ absurd h hn, fun _ ↦ rfl⟩

theorem resumes_getChar (h : tf.trapno.toNat = trapSyscall)
    (hcall : tf.regs.eax.toNat = sysGetCharNumber) (errno ch : UInt32) :
    Resumes tf (setRetVal1 (setErrNo tf errno) ch) :=
  ⟨rfl, fun hn ↦ absurd h hn, fun hn ↦ absurd ⟨h, hcall⟩ hn⟩

theorem serves_pageFaultHandler (h : Shielded L p.kernel.vm) (hpid : UserRunning p)
    (hraised : Raised e p.kernel.vm p.threads.currentID tf) (htrap : tf.trapno.toNat = trapPageFault)
    (hr : pageFaultHandler e p tf = some p') :
    Serves L b p.threads.currentID p.kernel.vm p'.kernel.vm := by
  rw [pageFaultHandler] at hr
  split at hr
  · cases hr
  · rename_i herr
    obtain ⟨hva, hnp⟩ := hraised htrap (not_not.mp herr)
    have halloc := serves_allocPage (b := b) h (userTable_of_not_present h.toIsolated hpid hva hnp) hnp
    dsimp only at hr
    split at hr
    · cases hr
    · obtain rfl := Option.some.inj hr
      exact halloc

/-- One trap of any kind, taken while process `pid` runs, serves that process, and its frame
resumes the code that took it. -/
theorem handleTrap_spec (hb : Linked L b) (h : Shielded L p.kernel.vm) (hpid : UserRunning p)
    (hraised : Raised e p.kernel.vm p.threads.currentID tf) (hr : handleTrap b e p tf = some (p', tf')) :
    Serves L b p.threads.currentID p.kernel.vm p'.kernel.vm ∧ Resumes tf tf' := by
  obtain ⟨⟨q, tq⟩, hq, heq⟩ := Option.map_eq_some_iff.mp hr
  obtain ⟨rfl, rfl⟩ := Prod.mk.inj heq
  change Serves L b _ _ q.kernel.vm ∧ _
  split at hq
  · obtain ⟨r, hexc, heq⟩ := Option.map_eq_some_iff.mp hq
    obtain ⟨rfl, rfl⟩ := Prod.mk.inj heq
    rw [exceptionHandler] at hexc
    split at hexc
    · rename_i htrap
      exact ⟨serves_pageFaultHandler (p := setPageDirectory (setUserContext p _ tf) 0) h hpid
        hraised htrap hexc, Resumes.refl tf⟩
    · obtain rfl := Option.some.inj hexc
      exact ⟨Serves.refl h _, Resumes.refl tf⟩
  · split at hq
    · obtain ⟨n, hn⟩ := interruptHandler_eq
        (setPageDirectory (setUserContext p p.threads.currentID tf) 0)
      rw [hn] at hq
      obtain ⟨rfl, rfl⟩ := Prod.mk.inj (Option.some.inj hq)
      exact ⟨Serves.refl h _, Resumes.refl tf⟩
    · split at hq
      · rename_i hcall
        obtain ⟨⟨kernel, frame⟩, hdispatch, heq⟩ := Option.map_eq_some_iff.mp hq
        obtain ⟨rfl, rfl⟩ := Prod.mk.inj heq
        obtain ⟨hserves, hframe⟩ := serves_syscallDispatch hb hpid h hdispatch
        refine ⟨hserves, ?_⟩
        rcases hframe with ⟨errno, rfl⟩ | ⟨hnumber, ch, rfl⟩
        · exact resumes_setErrNo hcall errno
        · exact resumes_getChar hcall hnumber eSucc _
      · obtain ⟨rfl, rfl⟩ := Prod.mk.inj (Option.some.inj hq)
        exact ⟨Serves.refl h _, Resumes.refl tf⟩

/-- A store of user code: what it changes is the byte that its process finds there. -/
theorem userStore_spec (h : Shielded L p.kernel.vm) (hown : OwnDirectory p)
    (hpid : p.threads.currentID < maxProcs) {w : UInt32} {value : UInt8}
    (hr : userStore p w value = some p') :
    (Shielded L p'.kernel.vm ∧ OwnDirectory p') ∧ ∀ i va, UserTable i (vaPdeIndex va) →
      ∀ v, view p.kernel.vm i va = some v → view p'.kernel.vm i va =
        some (if i = p.threads.currentID ∧ va = w.toNat then value else v) := by
  obtain ⟨pa, hpa, rfl⟩ := Option.map_eq_some_iff.mp hr
  rw [hown] at hpa
  have hw : w.toNat < 2 ^ 32 := w.toNat_lt
  have hiso := h.toIsolated
  obtain ⟨f, hf, hplace⟩ := mmu_frame hiso hpid hw hpa rfl
  have hagree : TablesAgree L p.kernel.vm (store8 p.kernel.vm.memory pa value) :=
    tablesAgree_of_page hiso hf fun x hx ↦ store8_of_ne (by omega)
  have hshield := h.write hagree
  refine ⟨⟨hshield, hown⟩, fun i va hu v hv ↦ ?_⟩
  obtain ⟨hp, hbyte⟩ := (view_eq_some_iff h hu).mp hv
  have hpte : getPageTableEntryByVA { p.kernel.vm with
      memory := store8 p.kernel.vm.memory pa value } i va = getPageTableEntryByVA p.kernel.vm i va :=
    translation_write hiso hagree hu.lt.1 hu.lt.2
  have hload := (mmu_user h hu).mpr hp
  apply (view_eq_some_iff hshield hu).mpr
  have haddr : physicalAddr { p.kernel.vm with
      memory := store8 p.kernel.vm.memory pa value } i va = physicalAddr p.kernel.vm i va := by
    rw [physicalAddr, physicalAddr, hpte]
  change Present (getPageTableEntryByVA { p.kernel.vm with
    memory := store8 p.kernel.vm.memory pa value } i va) ∧
      store8 p.kernel.vm.memory pa value (physicalAddr { p.kernel.vm with
        memory := store8 p.kernel.vm.memory pa value } i va) = _
  rw [hpte, haddr]
  refine ⟨hp, ?_⟩
  by_cases hsame : physicalAddr p.kernel.vm i va = pa
  · rw [hsame] at hload
    obtain ⟨rfl, rfl⟩ := (isolated_confined hiso).exclusive i hu.lt.1 _ hpid va hu.lt.2 _ hw _ _ pa
      hload hpa
    rw [hsame, store8_self, if_pos ⟨rfl, rfl⟩]
  · rw [store8_of_ne hsame, hbyte, if_neg]
    rintro ⟨rfl, rfl⟩
    obtain ⟨_, _, hother⟩ := mmu_eq_some_iff.mp hpa
    exact hsame hother

theorem step_eq {p' : Processor} (h : perform b p a = some p') : (processes b).step p a = p' := by
  change (perform b p a).getD p = p'
  rw [h]
  rfl

/-- Every step keeps the invariant, and changes no byte of user memory but the one that it
stores. -/
theorem processes_step (hb : Linked L b) (h : Shielded L p.kernel.vm) (hown : OwnDirectory p)
    (he : (processes b).enabled p a) :
    (Shielded L ((processes b).step p a).kernel.vm ∧ OwnDirectory ((processes b).step p a)) ∧
      ∀ i va, UserTable i (vaPdeIndex va) →
        Faithful (processes b) written shown (i, va) p a := by
  cases a with
  | dispatch i => exact ⟨⟨h, rfl⟩, fun i va hu v hv ↦ hv⟩
  | store w value =>
    obtain ⟨p', hp'⟩ := Option.isSome_iff_exists.mp he.2
    obtain ⟨hkept, hview⟩ := userStore_spec h hown he.1.2 hp'
    have hstep : perform b p (.store w value) = some p' := hp'
    rw [step_eq hstep]
    refine ⟨hkept, fun i va hu v hv ↦ ?_⟩
    rw [step_eq hstep]
    apply (hview i va hu v hv).trans
    simp only [written, Option.bind_some, Prod.mk.injEq]
    by_cases hsame : i = p.threads.currentID ∧ va = w.toNat
    · rw [if_pos hsame, if_pos ⟨hsame.1.symm, hsame.2.symm⟩]
      rfl
    · rw [if_neg hsame, if_neg fun hs ↦ hsame ⟨hs.1.symm, hs.2.symm⟩]
      rfl
  | trap e tf =>
    obtain ⟨⟨p', tf'⟩, hp'⟩ := Option.isSome_iff_exists.mp he.2
    obtain ⟨hserves, -⟩ := handleTrap_spec hb h he.1.1 (hown ▸ he.1.2) hp'
    obtain ⟨hid, hdir⟩ := handleTrap_pageDirectory hp'
    have hstep : perform b p (.trap e tf) = some p' := by
      rw [perform, hp']
      rfl
    rw [step_eq hstep]
    refine ⟨⟨hserves.shielded, hdir.trans hid.symm⟩, fun i va hu v hv ↦ ?_⟩
    rw [step_eq hstep]
    exact hserves.kept i va hu v hv

theorem lowLinked : Linked lowLayout lowBuffers where
  video := ⟨by decide, .inl (by decide)⟩
  buffers := ⟨by decide, .inr (by decide)⟩

/-- A page fault on a missing page ends with the page in place and the same instruction to run. -/
theorem handleTrap_pageFault (htrap : tf.trapno.toNat = trapPageFault)
    (herr : tf.err &&& pageFaultProtectionViolation = 0)
    (halloc : (allocPage p.kernel.vm p.threads.currentID e.faultVA ptePWU).2.2 = 0) :
    handleTrap b e p tf = some
      (setPageDirectory (withMemory (setUserContext p p.threads.currentID tf)
        (allocPage p.kernel.vm p.threads.currentID e.faultVA ptePWU).1) p.threads.currentID, tf) := by
  have hexc : trapDivide ≤ tf.trapno.toNat ∧ tf.trapno.toNat ≤ trapSecurityEvent := by
    rw [htrap]
    decide
  have halloc' : ¬ (allocPage (setPageDirectory (setUserContext p p.threads.currentID tf) 0).kernel.vm
      (setPageDirectory (setUserContext p p.threads.currentID tf) 0).threads.currentID e.faultVA
      ptePWU).2.2 ≠ 0 := not_not.mpr halloc
  rw [handleTrap, if_pos hexc, exceptionHandler, if_pos htrap, pageFaultHandler,
    if_neg (not_not.mpr herr)]
  dsimp only
  rw [if_neg halloc']
  rfl

/-- A process that can afford it is given the page that it touches. -/
theorem handleTrap_afforded (h : Isolated L p.kernel.vm) (htrap : tf.trapno.toNat = trapPageFault)
    (herr : tf.err &&& pageFaultProtectionViolation = 0)
    (hu : UserTable p.threads.currentID (vaPdeIndex e.faultVA))
    (hafford : Affords p.kernel.vm.physical p.threads.currentID 2) :
    ∃ s' page, MapsPage p.kernel.vm s' p.threads.currentID e.faultVA ptePWU page ∧
      handleTrap b e p tf = some (setPageDirectory (withMemory
        (setUserContext p p.threads.currentID tf) s') p.threads.currentID, tf) := by
  obtain ⟨s', page, result, ha, -, hmaps, -⟩ := h.maps_afforded hu (by decide : ptePWU < 4096)
    (hafford.mono (cost_le _ _ _))
  refine ⟨s', page, hmaps, ?_⟩
  rw [handleTrap_pageFault htrap herr (by rw [ha]), ha]

/-- A machine in which process 1 runs. -/
def running (vm : State) : Processor where
  kernel := ⟨vm, ⟨fun _ ↦ 0, 0, 0⟩, []⟩
  threads := { threadInit (loaded 0x300000) with currentID := 1 }
  taskState := 1
  pageDirectory := 1
  endsOfInterrupt := 0

theorem running_user (vm : State) : UserRunning (running vm) := ⟨le_rfl, (by decide : 1 < maxProcs)⟩

theorem running_shielded {vm : State} (h : Shielded L vm) : Shielded L (running vm).kernel.vm := h

def faultFrame : TrapFrame := { (default : TrapFrame) with trapno := 14, err := 6 }

def faultAt (va : ℕ) : Surroundings := ⟨va, fun _ _ ↦ 0, []⟩

theorem pagesFor_shielded (n : ℕ) : Shielded lowLayout (pagesFor n) :=
  start_shielded lowLayout (pageMap n) (fun _ ↦ ⟨n, 0, 0, 0, true⟩) (fun _ ↦ 0) (fun _ _ ↦ 0)

/-- Over every run of traps of any kind, and of stores by user code of any process, a byte of
mapped user memory holds what its own process last stored there. -/
theorem memory_private (L : Layout) (b : Buffers) (hb : Linked L b) (p : Processor)
    (h : Shielded L p.kernel.vm) (hown : OwnDirectory p) (as : List Action)
    (hlegal : (processes b).Legal p as) (i va : ℕ) (hi : i < maxProcs) (hva : va < 2 ^ 32)
    (v : UInt8) (hv : view p.kernel.vm i va = some v) :
    view ((processes b).final p as).kernel.vm i va =
      some ((lastWrite (processes b) written (i, va) p as).getD v) := by
  obtain ⟨pa, hpa, -⟩ := Option.map_eq_some_iff.mp hv
  have hu := userTable_of_mmu h.toIsolated hi hva hpa rfl
  have hshown : shown p (i, va) = some v := hv
  exact view_final (I := fun p ↦ Shielded L p.kernel.vm ∧ OwnDirectory p) hlegal ⟨h, hown⟩
    (fun _ _ h he ↦ (processes_step hb h.1 h.2 he).1)
    (fun _ _ h he ↦ (processes_step hb h.1 h.2 he).2 i va hu) hshown

/-- The page of an entry that `AllocPage` writes may be read and written. -/
theorem permits_entry (page : ℕ) (a : Access) : Permits a (page * 4096 + 7) := by
  have hbits : (page * 4096 + 7) % 2 = 1 ∧ (page * 4096 + 7) / 4 % 2 = 1 ∧
      (page * 4096 + 7) / 2 % 2 = 1 := by omega
  exact permits_iff.mpr ⟨hbits.1, fun _ ↦ hbits.2.1, fun _ ↦ hbits.2.2⟩

/-- The code of process `i` runs. -/
structure Runs (L : Layout) (p : Processor) (i : ℕ) : Prop where
  shielded : Shielded L p.kernel.vm
  directory : OwnDirectory p
  current : p.threads.currentID = i

theorem Runs.userRunning (h : Runs L p i) (hi : 1 ≤ i ∧ i < maxProcs) : UserRunning p := by
  rwa [UserRunning, h.current]

section Steps

variable (hb : Linked L b) (h : Runs L p i)

include hb h

theorem Runs.dispatch {j : ℕ} (hj : 1 ≤ j ∧ j < maxProcs) :
    (processes b).enabled p (.dispatch j) ∧ Runs L ((processes b).step p (.dispatch j)) j ∧
      ((processes b).step p (.dispatch j)).kernel = p.kernel := by
  have he : (processes b).enabled p (.dispatch j) := hj
  obtain ⟨⟨hshield, hown⟩, -⟩ := processes_step hb h.shielded h.directory he
  exact ⟨he, ⟨hshield, hown, rfl⟩, rfl⟩

theorem Runs.store {w : UInt32} {page : ℕ} (hu : UserTable i (vaPdeIndex w.toNat))
    (hpte : getPageTableEntryByVA p.kernel.vm i w.toNat = page * 4096 + 7) (value : UInt8) :
    (processes b).enabled p (.store w value) ∧
      Runs L ((processes b).step p (.store w value)) i ∧
      ∃ m, ((processes b).step p (.store w value)).kernel.vm =
        { p.kernel.vm with memory := m } := by
  have hstore : userStore p w value = some (withMemory p { p.kernel.vm with
      memory := store8 p.kernel.vm.memory (physicalAddr p.kernel.vm i w.toNat) value }) := by
    rw [userStore, h.directory, h.current,
      mmu_of_leaf h.shielded hu (hpte ▸ permits_entry page _)]
    rfl
  have he : (processes b).enabled p (.store w value) :=
    ⟨h.userRunning hu.1, Option.isSome_of_eq_some hstore⟩
  obtain ⟨⟨hshield, hown⟩, -⟩ := processes_step hb h.shielded h.directory he
  have hstep := step_eq (b := b) (a := .store w value) hstore
  rw [hstep] at hshield hown ⊢
  exact ⟨he, ⟨hshield, hown, h.current⟩, _, rfl⟩

/-- A process that can afford it touches a page for which it has no table yet. -/
theorem Runs.fault {w : ℕ} (hu : UserTable i (vaPdeIndex w))
    (hpde : p.kernel.vm.pageDirEntries i (vaPdeIndex w) = 0)
    (hafford : Affords p.kernel.vm.physical i 2) :
    (processes b).enabled p (.trap (faultAt w) faultFrame) ∧
      Runs L ((processes b).step p (.trap (faultAt w) faultFrame)) i ∧
      ∃ page, getPageTableEntryByVA
        ((processes b).step p (.trap (faultAt w) faultFrame)).kernel.vm i w = page * 4096 + 7 := by
  rw [← h.current] at hu hpde hafford
  obtain ⟨s', page, hmaps, hfault⟩ := handleTrap_afforded (b := b) (e := faultAt w)
    h.shielded.toIsolated (rfl : faultFrame.trapno.toNat = trapPageFault) rfl hu hafford
  have hraised : Raised (faultAt w) p.kernel.vm p.pageDirectory faultFrame := fun _ _ ↦
    ⟨hu.lt.2, not_present_of_no_table (h.directory ▸ hpde)⟩
  have he : (processes b).enabled p (.trap (faultAt w) faultFrame) :=
    ⟨⟨h.userRunning (h.current ▸ hu.1), hraised⟩, Option.isSome_of_eq_some hfault⟩
  obtain ⟨⟨hshield, hown⟩, -⟩ := processes_step hb h.shielded h.directory he
  have hstep := step_eq (b := b) (a := .trap (faultAt w) faultFrame)
    (congrArg (Option.map Prod.fst) hfault)
  rw [hstep] at hshield hown ⊢
  refine ⟨he, ⟨hshield, hown, h.current⟩, page, ?_⟩
  have hpte := hmaps.translation p.threads.currentID hu.lt.1 w hu.lt.2
  rw [if_pos ⟨rfl, rfl⟩, h.current] at hpte
  exact hpte

end Steps

/-- Process 1 stores, and process 2 takes a page fault at the same address and stores there too. -/
def twoStores : List Action :=
  [.store 0x40000000 65, .dispatch 2, .trap (faultAt 0x40000000) faultFrame, .store 0x40000000 66,
    .dispatch 1]

theorem twoStores_legal (hb : Linked L b) (h : Runs L p 1) {page : ℕ}
    (hpte : getPageTableEntryByVA p.kernel.vm 1 0x40000000 = page * 4096 + 7)
    (hpde : p.kernel.vm.pageDirEntries 2 (vaPdeIndex 0x40000000) = 0)
    (hafford : Affords p.kernel.vm.physical 2 2) :
    (processes b).Legal p twoStores ∧
      lastWrite (processes b) written (1, 0x40000000) p twoStores = some 65 := by
  have hw : (0x40000000 : UInt32).toNat = 0x40000000 := rfl
  obtain ⟨hfirst, h₁, m, hstored⟩ := h.store hb (w := 0x40000000) userTable_first hpte 65
  obtain ⟨hdispatch, h₂, hkernel⟩ := h₁.dispatch hb (j := 2) (by decide)
  obtain ⟨hfault, h₃, page₂, hpte₂⟩ := h₂.fault hb userTable_second
    (by rw [hkernel, hstored]; exact hpde) (by rw [hkernel, hstored]; exact hafford)
  obtain ⟨hsecond, -⟩ := h₃.store hb (w := 0x40000000) userTable_second hpte₂ 66
  refine ⟨⟨hfirst, hdispatch, hfault, hsecond, ⟨le_rfl, by decide⟩, trivial⟩, ?_⟩
  simp only [twoStores, lastWrite, written, h.current, h₃.current, hw]
  decide

theorem memory_private_two_stores :
    view ((processes lowBuffers).final (running (allocPage (pagesFor 4) 1 0x40000000 7).1)
      twoStores).kernel.vm 1 0x40000000 = some 65 := by
  have hstart (i : ℕ) : Affords (pagesFor 4).physical i 4 := start_affords _ _ _ (by decide)
  obtain ⟨s', page, result, ha, -, hmaps, hcosts⟩ := (pagesFor_shielded 4).maps_afforded
    userTable_first (by decide : 7 < 4096) ((hstart 1).mono ((cost_le _ _ _).trans (by decide)))
  have hshield : Shielded lowLayout (allocPage (pagesFor 4) 1 0x40000000 7).1 :=
    (pagesFor_shielded 4).alloc userTable_first (by decide) (by decide)
  have hpte : getPageTableEntryByVA s' 1 0x40000000 = page * 4096 + 7 := by
    rw [hmaps.translation 1 (by decide) 0x40000000 (by decide), if_pos ⟨rfl, rfl⟩]
  have hpde : s'.pageDirEntries 2 (vaPdeIndex 0x40000000) = 0 := by
    rw [hmaps.directories 2 (by decide)]
    exact start_pde _ _ _ _ _ userTable_second
  rw [ha] at hshield ⊢
  have hruns : Runs lowLayout (running s') 1 := ⟨hshield, rfl, rfl⟩
  obtain ⟨hlegal, hlast⟩ := twoStores_legal lowLinked hruns hpte hpde
    (hcosts 2 2 ((hstart 2).mono (Nat.add_le_add le_rfl (cost_le _ _ _))))
  have hview := (view_eq_some_iff hshield userTable_first).mpr
    ⟨hpte ▸ permits_present (permits_entry page ⟨true, false⟩), rfl⟩
  have hprivate := memory_private lowLayout lowBuffers lowLinked (running s') hshield rfl _ hlegal 1
    0x40000000 (by decide) (by decide) _ hview
  rwa [hlast] at hprivate

/-- From the start of the machine on, whatever traps are taken, every process reaches its own
pages only, the kernel finds all memory where it is, and the processor walks the directory of the
running process. -/
theorem confined_of_legal (L : Layout) (b : Buffers) (hb : Linked L b) (p : Processor)
    (smap : List SMAP) (containers : ℕ → Container) (memory : Memory)
    (pageDirEntries : ℕ → ℕ → ℕ)
    (hp : p.kernel.vm = start L smap containers memory pageDirEntries) (hown : OwnDirectory p)
    (as : List Action) (hlegal : (processes b).Legal p as) :
    Confined ((processes b).final p as).kernel.vm ∧ OwnDirectory ((processes b).final p as) := by
  have hstart : Shielded L p.kernel.vm := by
    rw [hp]
    exact start_shielded L smap containers memory pageDirEntries
  obtain ⟨hfinal, hdir⟩ := hlegal.final (P := fun p ↦ Shielded L p.kernel.vm ∧ OwnDirectory p)
    ⟨hstart, hown⟩ fun _ _ h he ↦ (processes_step hb h.1 h.2 he).1
  exact ⟨isolated_confined hfinal.toIsolated, hdir⟩

theorem confined_of_legal_fault :
    let p := (processes lowBuffers).final (running (pagesFor 2))
      [.trap (faultAt 0x40000000) faultFrame]
    Confined p.kernel.vm ∧ OwnDirectory p := by
  have hruns : Runs lowLayout (running (pagesFor 2)) 1 := ⟨pagesFor_shielded 2, rfl, rfl⟩
  obtain ⟨hfault, -⟩ := hruns.fault lowLinked userTable_first (start_pde _ _ _ _ _ userTable_first)
    (start_affords _ _ _ (by decide))
  exact confined_of_legal lowLayout lowBuffers lowLinked (running (pagesFor 2)) (pageMap 2)
    (fun _ ↦ ⟨(2 : ℕ), 0, 0, 0, true⟩) (fun _ ↦ 0) (fun _ _ ↦ 0) rfl rfl _ ⟨hfault, trivial⟩

end StormOS.Trap
