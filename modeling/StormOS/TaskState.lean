import StormOS.Descriptors

namespace StormOS.TaskState

open Library.Bytes Library.Loops Machine Interrupt Descriptors

abbrev tssSize : ℕ := 236
abbrev gdtTSS : ℕ := 5

/-- Where the linker put the task state segments and the kernel stacks of the processes. -/
structure Placement where
  tssLoc : ℕ
  procStacks : ℕ
  tssLow : tssLoc + maxProcs * tssSize ≤ memUserLo
  stacksLow : procStacks + maxProcs * pageSize ≤ memUserLo
  apart : tssLoc + maxProcs * tssSize ≤ procStacks ∨ procStacks + maxProcs * pageSize ≤ tssLoc

def Placement.tss (P : Placement) (pid : ℕ) : ℕ := P.tssLoc + pid * tssSize

def Placement.stack (P : Placement) (pid : ℕ) : ℕ := P.procStacks + pid * pageSize

/-- One round of the loop of `InterruptInit` over the processes: `ts_esp0`, `ts_ss0`, `ts_iomb` and
`ts_iopm`. -/
def initTSS (P : Placement) (pid : ℕ) (m : Memory) : Memory :=
  let tss := P.tss pid
  let m := store32 m (tss + 4) (P.stack pid + pageSize)
  let m := store8 (store8 m (tss + 8) 0x10) (tss + 9) 0
  let m := store8 (store8 m (tss + 102) 104) (tss + 103) 0
  let m := memSet m (tss + 104) 0 128
  store8 m (tss + 232) 0xff

def initTaskStates (P : Placement) (m : Memory) : Memory :=
  let m := memSet m P.tssLoc 0 (tssSize * maxProcs)
  let m := memSet m P.procStacks 0 (maxProcs * pageSize)
  forUpTo (initTSS P) maxProcs m

/-- `SwitchTSS` before its `LTR`. -/
def setTSS (P : Placement) (gdt : ℕ → SegDesc) (pid : ℕ) : ℕ → SegDesc :=
  Function.update gdt gdtTSS
    { segDesc16 stsT32A (u32 (P.tss pid)) (tssSize - 1) 0 with s := field 1 0 }

/-- `LTR` loads an available task state segment and marks it busy. -/
def ltr (gdt : ℕ → SegDesc) (entry : ℕ) : Option (Segment × (ℕ → SegDesc)) :=
  let d := decodeSegment (gdt entry).words
  if d.present = 1 ∧ d.s = 0 ∧ d.type = stsT32A then
    some (d, Function.update gdt entry { gdt entry with type := field 4 0xB })
  else none

def switchTSS (P : Placement) (gdt : ℕ → SegDesc) (pid : ℕ) :
    Option (Segment × (ℕ → SegDesc)) :=
  ltr (setTSS P gdt pid) gdtTSS

/-- The segments that `InterruptInit` loads, with the bootstrap task state at `tss0`. -/
def gdtLoc (tss0 : ℕ) : ℕ → SegDesc
  | 1 => segDesc32 (staX + staR) 0 0xffffffff 0
  | 2 => segDesc32 staW 0 0xffffffff 0
  | 3 => segDesc32 (staX + staR) 0 0xffffffff 3
  | 4 => segDesc32 staW 0 0xffffffff 3
  | 5 => { segDesc16 stsT32A tss0 (tssSize - 1) 0 with s := field 1 0 }
  | _ => segDescNull

/-- The processes run one after the other. -/
def switchAll (P : Placement) (gdt : ℕ → SegDesc) : List ℕ → Option (ℕ → SegDesc)
  | [] => some gdt
  | pid :: pids => (switchTSS P gdt pid).bind fun r ↦ switchAll P r.2 pids

/-- The stack that the processor changes to when a trap leaves user code. -/
def trapStack (m : Memory) (loaded : Segment) : ℕ := load32 m (loaded.base + 4)

variable {P : Placement} {m : Memory} {pid i x : ℕ}

theorem Placement.bounds (P : Placement) (hpid : pid < maxProcs) :
    P.tss pid + 236 ≤ 0x40000000 ∧ P.stack pid + 4096 ≤ 0x40000000 := by
  have hlow := P.tssLow
  have hstacks := P.stacksLow
  simp only [maxProcs, pageSize, memUserLo, tssSize] at *
  simp only [Placement.tss, Placement.stack, tssSize, pageSize]
  omega

theorem Placement.within (P : Placement) (hpid : pid < maxProcs) :
    (P.tssLoc ≤ P.tss pid ∧ P.tss pid + tssSize ≤ P.tssLoc + maxProcs * tssSize) ∧
      P.procStacks ≤ P.stack pid ∧
        P.stack pid + pageSize ≤ P.procStacks + maxProcs * pageSize := by
  simp only [maxProcs] at hpid
  simp only [Placement.tss, Placement.stack, tssSize, pageSize, maxProcs]
  omega

theorem initTSS_of_outside (hpid : pid < maxProcs) (hx : x < P.tss pid ∨ P.tss pid + 236 ≤ x) :
    initTSS P pid m x = m x := by
  have hb := P.bounds hpid
  rw [initTSS]
  rw [store8_of_ne (by omega), memSet_apply (by omega), if_neg (by omega), store8_of_ne (by omega),
    store8_of_ne (by omega), store8_of_ne (by omega), store8_of_ne (by omega),
    store32_of_outside (by omega)]

theorem initTSS_esp0 (hpid : pid < maxProcs) :
    load32 (initTSS P pid m) (P.tss pid + 4) = P.stack pid + pageSize := by
  have hb := P.bounds hpid
  rw [← load32_store32_self m (P.tss pid + 4) (v := P.stack pid + pageSize)
    (by simp only [pageSize]; omega)]
  refine load32_congr fun x hx hx' ↦ ?_
  rw [initTSS]
  rw [store8_of_ne (by omega), memSet_apply (by omega), if_neg (by omega), store8_of_ne (by omega),
    store8_of_ne (by omega), store8_of_ne (by omega), store8_of_ne (by omega)]

/-- After the initialisation each task state segment names the top of its process's stack. -/
theorem initTaskStates_esp0 (P : Placement) (m : Memory) (hpid : pid < maxProcs) :
    load32 (initTaskStates P m) (P.tss pid + 4) = P.stack pid + pageSize := by
  refine forUpTo_invariant (f := initTSS P)
    (I := fun n m' ↦ ∀ i < n, load32 m' (P.tss i + 4) = P.stack i + pageSize) maxProcs ?_ ?_ pid hpid
  · intro i hi
    omega
  · intro n m' hn h i hi
    by_cases he : i = n
    · rw [he]
      exact initTSS_esp0 hn
    · have hi' : i < n := by omega
      rw [← h i hi']
      refine load32_congr fun x hx hx' ↦ initTSS_of_outside hn ?_
      simp only [Placement.tss, tssSize] at *
      omega

/-- Whatever segment was loaded before, `SwitchTSS` loads the one of the process. -/
theorem switchTSS_loads (P : Placement) (hpid : pid < maxProcs) (gdt : ℕ → SegDesc) :
    ∃ gdt', switchTSS P gdt pid =
      some (⟨P.tss pid, tssSize - 1, stsT32A, 0, 0, 1⟩, gdt') := by
  have hb := P.bounds hpid
  have hdecode : decodeSegment (setTSS P gdt pid gdtTSS).words =
      ⟨P.tss pid, tssSize - 1, stsT32A, 0, 0, 1⟩ := by
    rw [setTSS, Function.update_self,
      decodeSegment_segDesc16 (by decide) (u32_lt _) (by decide) (by decide),
      u32_of_lt (by omega)]
  rw [switchTSS, ltr, hdecode]
  exact ⟨_, if_pos ⟨rfl, rfl, rfl⟩⟩

theorem switchTSS_kept {loaded : Segment} {gdt gdt' : ℕ → SegDesc}
    (h : switchTSS P gdt pid = some (loaded, gdt')) (hi : i ≠ gdtTSS) : gdt' i = gdt i := by
  rw [switchTSS, ltr] at h
  split at h
  · obtain ⟨-, rfl⟩ := Prod.mk.inj (Option.some.inj h)
    rw [Function.update_of_ne hi, setTSS, Function.update_of_ne hi]
  · cases h

theorem switchAll_kept (P : Placement) (pids : List ℕ) (hpids : ∀ pid ∈ pids, pid < maxProcs)
    (gdt : ℕ → SegDesc) :
    ∃ gdt', switchAll P gdt pids = some gdt' ∧ ∀ i, i ≠ gdtTSS → gdt' i = gdt i := by
  induction pids generalizing gdt with
  | nil => exact ⟨gdt, rfl, fun _ _ ↦ rfl⟩
  | cons pid pids ih =>
    obtain ⟨gdt₁, hswitch⟩ := switchTSS_loads P (hpids pid List.mem_cons_self) gdt
    obtain ⟨gdt', hall, hkept⟩ := ih (fun q hq ↦ hpids q (List.mem_cons_of_mem pid hq)) gdt₁
    refine ⟨gdt', ?_, fun i hi ↦ (hkept i hi).trans (switchTSS_kept hswitch hi)⟩
    rw [switchAll, hswitch]
    exact hall

/-- A segment of all memory for code or data. -/
def Flat (d : SegDesc) (type dpl : ℕ) : Prop :=
  decodeSegment d.words = ⟨0, 0xffffffff, type, 1, dpl, 1⟩

/-- Whichever processes have run, the code and data segments are still those of all memory, and
`SwitchTSS` makes a trap of the next process change to the kernel stack of that process. -/
theorem switches_own_stack (P : Placement) (m : Memory) (tss0 : ℕ) (pids : List ℕ)
    (hpids : ∀ pid ∈ pids, pid < maxProcs) (pid : ℕ) (hpid : pid < maxProcs) :
    ∃ gdt, switchAll P (gdtLoc tss0) pids = some gdt ∧
      Flat (gdt 1) (staX + staR) 0 ∧ Flat (gdt 2) staW 0 ∧
      Flat (gdt 3) (staX + staR) 3 ∧ Flat (gdt 4) staW 3 ∧
      ∃ loaded gdt', switchTSS P gdt pid = some (loaded, gdt') ∧
        trapStack (initTaskStates P m) loaded = P.stack pid + pageSize := by
  obtain ⟨gdt, hall, hkept⟩ := switchAll_kept P pids hpids (gdtLoc tss0)
  obtain ⟨gdt', hswitch⟩ := switchTSS_loads P hpid gdt
  have hflat : ∀ i type dpl, i ≠ gdtTSS → type < 16 → dpl < 4 →
      gdtLoc tss0 i = segDesc32 type 0 0xffffffff dpl → Flat (gdt i) type dpl := by
    intro i type dpl hi htype hdpl h
    rw [Flat, hkept i hi, h, decodeSegment_segDesc32 htype (by decide) (by decide) hdpl]
  exact ⟨gdt, hall, hflat 1 _ _ (by decide) (by decide) (by decide) rfl,
    hflat 2 _ _ (by decide) (by decide) (by decide) rfl,
    hflat 3 _ _ (by decide) (by decide) (by decide) rfl,
    hflat 4 _ _ (by decide) (by decide) (by decide) rfl, _, gdt', hswitch,
    initTaskStates_esp0 P m hpid⟩

def lowPlacement : Placement := ⟨0x600000, 0x610000, by decide, by decide, .inl (by decide)⟩

theorem switches_own_stack_again :
    ∃ gdt, switchAll lowPlacement (gdtLoc 0x300000) [1, 2] = some gdt ∧
      Flat (gdt 1) (staX + staR) 0 ∧ Flat (gdt 2) staW 0 ∧
      Flat (gdt 3) (staX + staR) 3 ∧ Flat (gdt 4) staW 3 ∧
      ∃ loaded gdt', switchTSS lowPlacement gdt 1 = some (loaded, gdt') ∧
        trapStack (initTaskStates lowPlacement fun _ ↦ 0) loaded = 0x612000 :=
  switches_own_stack lowPlacement (fun _ ↦ 0) 0x300000 [1, 2] (by decide) 1 (by decide)

end StormOS.TaskState
