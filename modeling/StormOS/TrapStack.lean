import StormOS.Library.Stacks
import StormOS.Descriptors

namespace StormOS.TrapStack

open Library.Bytes Library.Stacks Machine Interrupt Descriptors

/-- The processor, as far as a trap concerns it. -/
structure Cpu where
  memory : Memory
  edi : UInt32
  esi : UInt32
  ebp : UInt32
  ebx : UInt32
  edx : UInt32
  ecx : UInt32
  eax : UInt32
  esp : UInt32
  es : UInt16
  ds : UInt16
  eip : UInt32
  cs : UInt16
  eflags : UInt32
  ss : UInt16

abbrev gdtKernelData : UInt16 := 0x10

/-- `FL_TF`, `FL_IF`, `FL_NT`, `FL_RF` and `FL_VM`, which an interrupt gate clears. -/
abbrev gateClears : UInt32 := 0x34300

abbrev flagDF : UInt32 := 0x400

def push (w : UInt32) (c : Cpu) : Cpu :=
  { c with memory := store32 c.memory (c.esp - 4).toNat w.toNat, esp := c.esp - 4 }

/-- The instruction `pop`, into the place that `set` writes. -/
def pop (set : Cpu → UInt32 → Cpu) (c : Cpu) : Cpu :=
  set { c with esp := c.esp + 4 } (UInt32.ofNat (load32 c.memory c.esp.toNat))

def UserMode (cs : UInt16) : Prop := cs &&& 3 ≠ 0

instance (cs : UInt16) : Decidable (UserMode cs) := inferInstanceAs (Decidable (_ ≠ _))

/-- From user code the processor changes to the stack at `esp0`. -/
def changeStack (esp0 : UInt32) (c : Cpu) : Cpu :=
  if UserMode c.cs then
    push c.esp (push c.ss.toUInt32 { c with esp := esp0, ss := gdtKernelData })
  else c

def pushCode : Option UInt32 → Cpu → Cpu
  | some w, c => push w c
  | none, c => c

/-- The processor takes a trap through an interrupt gate. -/
def deliver (esp0 handler : UInt32) (code : Option UInt32) (c : Cpu) : Cpu :=
  let d := push c.eip (push c.cs.toUInt32 (push c.eflags (changeStack esp0 c)))
  { pushCode code d with
    cs := gdtKernelCode
    eip := handler
    eflags := c.eflags &&& ~~~gateClears }

/-- `TRAPHANDLER` and `TRAPHANDLER_NOEC`. -/
def enterStub (s : Stub) (c : Cpu) : Cpu :=
  push (UInt32.ofNat s.number) (if s.errorCode then c else push 0 c)

def pushal (c : Cpu) : Cpu :=
  let d := push c.ebx (push c.edx (push c.ecx (push c.eax c)))
  push c.edi (push c.esi (push c.ebp (push c.esp d)))

def loadKernelData (c : Cpu) : Cpu :=
  { c with eax := gdtKernelData.toUInt32, ds := gdtKernelData, es := gdtKernelData }

/-- `_alltraps` up to the call of `HandleTrap`, whose argument is then `esp`. -/
def allTraps (c : Cpu) : Cpu :=
  -- cli, cld
  let c := { c with eflags := c.eflags &&& ~~~(flagIF ||| flagDF) }
  loadKernelData (pushal (push c.es.toUInt32 (push c.ds.toUInt32 c)))

def enter (esp0 handler : UInt32) (code : Option UInt32) (s : Stub) (c : Cpu) : Cpu :=
  allTraps (enterStub s (deliver esp0 handler code c))

/-- The trap of vector `v`, through the gate that `InterruptInitIDT` has installed for it. -/
def takeTrap (esp0 handler : UInt32) (v : ℕ) (code : Option UInt32) (c : Cpu) : Cpu :=
  enter esp0 handler code (stub (installed v).1) c

def iret (c : Cpu) : Cpu :=
  let c := pop (fun c w ↦ { c with eip := w }) c
  let c := pop (fun c w ↦ { c with cs := w.toUInt16 }) c
  let c := pop (fun c w ↦ { c with eflags := w }) c
  if UserMode c.cs then
    { c with
      esp := UInt32.ofNat (load32 c.memory c.esp.toNat)
      ss := (UInt32.ofNat (load32 c.memory (c.esp + 4).toNat)).toUInt16 }
  else c

/-- `TrapReturn`. -/
def trapReturn (tf : UInt32) (c : Cpu) : Cpu :=
  let c := { c with esp := tf }
  -- popal
  let c := pop (fun c w ↦ { c with edi := w }) c
  let c := pop (fun c w ↦ { c with esi := w }) c
  let c := pop (fun c w ↦ { c with ebp := w }) c
  let c := pop (fun c _ ↦ c) c
  let c := pop (fun c w ↦ { c with ebx := w }) c
  let c := pop (fun c w ↦ { c with edx := w }) c
  let c := pop (fun c w ↦ { c with ecx := w }) c
  let c := pop (fun c w ↦ { c with eax := w }) c
  let c := pop (fun c w ↦ { c with es := w.toUInt16 }) c
  let c := pop (fun c w ↦ { c with ds := w.toUInt16 }) c
  let c := { c with esp := c.esp + 8 }
  -- sti
  iret { c with eflags := c.eflags ||| flagIF }

/-- The trap frame that C code finds at an address. -/
def frameAt (m : Memory) (a : ℕ) : TrapFrame where
  regs :=
    { edi := UInt32.ofNat (load32 m a)
      esi := UInt32.ofNat (load32 m (a + 4))
      ebp := UInt32.ofNat (load32 m (a + 8))
      oesp := UInt32.ofNat (load32 m (a + 12))
      ebx := UInt32.ofNat (load32 m (a + 16))
      edx := UInt32.ofNat (load32 m (a + 20))
      ecx := UInt32.ofNat (load32 m (a + 24))
      eax := UInt32.ofNat (load32 m (a + 28)) }
  es := (UInt32.ofNat (load32 m (a + 32))).toUInt16
  ds := (UInt32.ofNat (load32 m (a + 36))).toUInt16
  trapno := UInt32.ofNat (load32 m (a + 40))
  err := UInt32.ofNat (load32 m (a + 44))
  eip := UInt32.ofNat (load32 m (a + 48))
  cs := (UInt32.ofNat (load32 m (a + 52))).toUInt16
  eflags := UInt32.ofNat (load32 m (a + 56))
  esp := UInt32.ofNat (load32 m (a + 60))
  ss := (UInt32.ofNat (load32 m (a + 64))).toUInt16

variable {c d : Cpu} {m : Memory} {top : ℕ} {ws : List UInt32} {w esp0 handler tf : UInt32}
  {code : Option UInt32} {s : Stub}

/-- The words pushed so far below `top`, and the memory beside them. -/
structure Holds (c : Cpu) (m : Memory) (top : ℕ) (ws : List UInt32) : Prop where
  esp : c.esp.toNat + 4 * ws.length = top
  words : StackAt c.memory c.esp.toNat ws
  outside : ∀ x, x < c.esp.toNat ∨ top ≤ x → c.memory x = m x

theorem Holds.push (h : Holds c m top ws) (hroom : 4 * (ws.length + 1) ≤ top) (w : UInt32) :
    Holds (push w c) m top (w :: ws) := by
  have hesp := h.esp
  have hsub : (c.esp - 4).toNat = c.esp.toNat - 4 :=
    UInt32.toNat_sub_of_le _ _ (UInt32.le_iff_toNat_le.mpr (by simp; omega))
  have hnext : (c.esp - 4).toNat + 4 = c.esp.toNat := by omega
  refine ⟨?_, ?_, fun x hx ↦ ?_⟩
  · simp only [TrapStack.push, List.length_cons]
    omega
  · exact StackAt.push (hnext ▸ h.words) w
  · simp only [TrapStack.push] at hx ⊢
    rw [store32_of_outside (by omega)]
    exact h.outside x (by omega)

/-- Where the words of a trap are pushed: below `esp0` when it leaves user code, else below the
stack pointer that it finds. -/
def stackTop (esp0 : UInt32) (c : Cpu) : ℕ :=
  if UserMode c.cs then esp0.toNat else c.esp.toNat

/-- The stack that user code had. -/
def userStack (c : Cpu) : List UInt32 := if UserMode c.cs then [c.esp, c.ss.toUInt32] else []

/-- What the processor saves of the interrupted code, the last word first. -/
def returnWords (c : Cpu) : List UInt32 := c.eip :: c.cs.toUInt32 :: c.eflags :: userStack c

def registerWords (c : Cpu) (oesp : UInt32) : List UInt32 :=
  [c.edi, c.esi, c.ebp, oesp, c.ebx, c.edx, c.ecx, c.eax]

/-- What `_alltraps` saves. -/
def pushed (c : Cpu) (oesp : UInt32) : List UInt32 :=
  registerWords c oesp ++ [c.es.toUInt32, c.ds.toUInt32]

theorem Holds.keeps (h : Holds c m top ws) (hm : d.memory = c.memory) (hesp : d.esp = c.esp) :
    Holds d m top ws := by
  obtain ⟨h₁, h₂, h₃⟩ := h
  rw [← hesp] at h₁ h₂ h₃
  rw [← hm] at h₂ h₃
  exact ⟨h₁, h₂, h₃⟩

theorem holds_nil (c : Cpu) : Holds c c.memory c.esp.toNat [] := ⟨rfl, trivial, fun _ _ ↦ rfl⟩

theorem changeStack_holds (hroom : 8 ≤ stackTop esp0 c) :
    Holds (changeStack esp0 c) c.memory (stackTop esp0 c) (userStack c) := by
  rw [stackTop] at hroom ⊢
  rw [changeStack, userStack]
  split at hroom
  · rename_i huser
    rw [if_pos huser, if_pos huser, if_pos huser]
    have hnil := holds_nil { c with esp := esp0, ss := gdtKernelData }
    have hss := hnil.push (by simp only [List.length_nil]; omega) c.ss.toUInt32
    exact hss.push (by simp only [List.length_cons, List.length_nil]; omega) c.esp
  · rename_i huser
    rw [if_neg huser, if_neg huser, if_neg huser]
    exact holds_nil c

theorem pushCode_holds (h : Holds d m top ws) (hroom : 4 * (ws.length + 1) ≤ top)
    (code : Option UInt32) : Holds (pushCode code d) m top (code.toList ++ ws) := by
  cases code with
  | none => exact h
  | some w => exact h.push hroom w

theorem userStack_length (c : Cpu) : (userStack c).length ≤ 2 := by
  rw [userStack]
  split <;> simp

theorem deliver_holds (hroom : 24 ≤ stackTop esp0 c) (handler : UInt32) (code : Option UInt32) :
    Holds (deliver esp0 handler code c) c.memory (stackTop esp0 c)
      (code.toList ++ returnWords c) := by
  have hlen := userStack_length c
  have hstack := changeStack_holds (by omega : 8 ≤ stackTop esp0 c)
  have hflags := hstack.push (by omega) c.eflags
  have hcs := hflags.push (by simp only [List.length_cons]; omega) c.cs.toUInt32
  have heip := hcs.push (by simp only [List.length_cons]; omega) c.eip
  have hcode := pushCode_holds heip (by simp only [List.length_cons]; omega) code
  exact hcode.keeps rfl rfl

theorem enterStub_holds (h : Holds d m top ws) (hroom : 4 * (ws.length + 2) ≤ top) (s : Stub) :
    Holds (enterStub s d) m top
      (UInt32.ofNat s.number :: if s.errorCode then ws else 0 :: ws) := by
  rw [enterStub]
  cases s.errorCode with
  | true => exact h.push (by omega) _
  | false =>
    have hzero := h.push (by omega) 0
    exact hzero.push (by simp only [List.length_cons]; omega) _

theorem pushal_holds (h : Holds d m top ws) (hroom : 4 * (ws.length + 8) ≤ top) :
    Holds (pushal d) m top (registerWords d d.esp ++ ws) := by
  have heax := h.push (by omega) d.eax
  have hecx := heax.push (by simp only [List.length_cons]; omega) d.ecx
  have hedx := hecx.push (by simp only [List.length_cons]; omega) d.edx
  have hebx := hedx.push (by simp only [List.length_cons]; omega) d.ebx
  have hesp := hebx.push (by simp only [List.length_cons]; omega) d.esp
  have hebp := hesp.push (by simp only [List.length_cons]; omega) d.ebp
  have hesi := hebp.push (by simp only [List.length_cons]; omega) d.esi
  exact hesi.push (by simp only [List.length_cons]; omega) d.edi

theorem loadKernelData_holds (h : Holds d m top ws) : Holds (loadKernelData d) m top ws :=
  h.keeps rfl rfl

theorem allTraps_holds (h : Holds d m top ws) (hroom : 4 * (ws.length + 10) ≤ top) :
    ∃ oesp, Holds (allTraps d) m top (pushed d oesp ++ ws) := by
  have hflags : Holds { d with eflags := d.eflags &&& ~~~(flagIF ||| flagDF) } m top ws :=
    h.keeps rfl rfl
  have hds := hflags.push (by omega) d.ds.toUInt32
  have hes := hds.push (by simp only [List.length_cons]; omega) d.es.toUInt32
  have hall := pushal_holds hes (by simp only [List.length_cons]; omega)
  exact ⟨_, loadKernelData_holds hall⟩

/-- The registers that neither the processor nor a stub changes. -/
structure SameRegisters (c d : Cpu) : Prop where
  pushed : ∀ oesp, pushed d oesp = pushed c oesp
  ss : ¬ UserMode c.cs → d.ss = c.ss

theorem changeStack_registers (esp0 : UInt32) (c : Cpu) : SameRegisters c (changeStack esp0 c) := by
  rw [changeStack]
  split
  · rename_i huser
    exact ⟨fun _ ↦ rfl, fun hn ↦ absurd huser hn⟩
  · exact ⟨fun _ ↦ rfl, fun _ ↦ rfl⟩

theorem SameRegisters.pushCode (h : SameRegisters c d) (code : Option UInt32) :
    SameRegisters c (pushCode code d) := by
  cases code with
  | none => exact h
  | some w => exact ⟨h.pushed, h.ss⟩

theorem SameRegisters.enterStub (h : SameRegisters c d) (s : Stub) :
    SameRegisters c (enterStub s d) := by
  rw [TrapStack.enterStub]
  split
  · exact ⟨h.pushed, h.ss⟩
  · exact ⟨h.pushed, h.ss⟩

theorem deliver_registers (esp0 handler : UInt32) (code : Option UInt32) (c : Cpu) :
    SameRegisters c (deliver esp0 handler code c) := by
  have hstack := changeStack_registers esp0 c
  have hreturn : SameRegisters c
      (push c.eip (push c.cs.toUInt32 (push c.eflags (changeStack esp0 c)))) :=
    ⟨hstack.pushed, hstack.ss⟩
  have hcode := hreturn.pushCode code
  exact ⟨hcode.pushed, hcode.ss⟩

/-- The words between the registers of a trap frame and the return address. -/
def codeWords (s : Stub) (code : Option UInt32) : List UInt32 :=
  UInt32.ofNat s.number :: if s.errorCode then code.toList else 0 :: code.toList

/-- A trap leaves on the stack what `_alltraps`, the stub and the processor save, and changes no
other byte of memory. -/
theorem enter_holds (hroom : 72 ≤ stackTop esp0 c) (handler : UInt32) (code : Option UInt32)
    (s : Stub) : ∃ oesp, Holds (enter esp0 handler code s c) c.memory (stackTop esp0 c)
      (pushed c oesp ++ codeWords s code ++ returnWords c) := by
  have hlen : (code.toList ++ returnWords c).length ≤ 6 := by
    have huser := userStack_length c
    have hcode : code.toList.length ≤ 1 := by cases code <;> simp
    simp only [List.length_append, returnWords, List.length_cons]
    omega
  have hdeliver := deliver_holds (by omega : 24 ≤ stackTop esp0 c) handler code
  have hstub := enterStub_holds hdeliver (by omega) s
  have hwords : (UInt32.ofNat s.number :: if s.errorCode then code.toList ++ returnWords c
      else 0 :: (code.toList ++ returnWords c)) = codeWords s code ++ returnWords c := by
    rw [codeWords]
    split <;> rfl
  rw [hwords] at hstub
  have hcodes : (codeWords s code ++ returnWords c).length ≤ 8 := by
    rw [← hwords]
    split <;> simp only [List.length_cons] <;> omega
  obtain ⟨oesp, hall⟩ := allTraps_holds hstub (by omega)
  rw [((deliver_registers esp0 handler code c).enterStub s).pushed, ← List.append_assoc] at hall
  exact ⟨oesp, hall⟩

/-- What a trap frame says of the code to resume. -/
structure Saved (c : Cpu) (f : TrapFrame) : Prop where
  registers : f.regs = ⟨c.edi, c.esi, c.ebp, f.regs.oesp, c.ebx, c.edx, c.ecx, c.eax⟩
  es : f.es = c.es
  ds : f.ds = c.ds
  eip : f.eip = c.eip
  cs : f.cs = c.cs
  eflags : f.eflags = c.eflags
  user : UserMode c.cs → f.esp = c.esp ∧ f.ss = c.ss

/-- The processor after `TrapReturn`. -/
def resumed (tf : UInt32) (f : TrapFrame) (c : Cpu) : Cpu where
  memory := c.memory
  edi := f.regs.edi
  esi := f.regs.esi
  ebp := f.regs.ebp
  ebx := f.regs.ebx
  edx := f.regs.edx
  ecx := f.regs.ecx
  eax := f.regs.eax
  esp := if UserMode f.cs then f.esp else tf + 60
  es := f.es
  ds := f.ds
  eip := f.eip
  cs := f.cs
  eflags := f.eflags
  ss := if UserMode f.cs then f.ss else c.ss

theorem toNat_add_of_lt {a k : UInt32} (h : a.toNat + k.toNat < 2 ^ 32) :
    (a + k).toNat = a.toNat + k.toNat := by
  rw [UInt32.toNat_add, Nat.mod_eq_of_lt h]

theorem trapReturn_eq (c : Cpu) (h : tf.toNat + 60 < 2 ^ 32)
    (huser : UserMode (frameAt c.memory tf.toNat).cs → tf.toNat + 64 < 2 ^ 32) :
    trapReturn tf c = resumed tf (frameAt c.memory tf.toNat) c := by
  have haddr : ∀ k : UInt32, k.toNat ≤ 60 → (tf + k).toNat = tf.toNat + k.toNat :=
    fun k hk ↦ toNat_add_of_lt (by omega)
  have hcs : (tf + 52).toNat = tf.toNat + 52 := haddr 52 (by decide)
  by_cases hmode : UserMode (frameAt c.memory tf.toNat).cs
  · have hss : (tf + 64).toNat = tf.toNat + 64 := toNat_add_of_lt (huser hmode)
    rw [resumed, if_pos hmode, if_pos hmode]
    rw [frameAt, ← hcs] at hmode
    simp only [trapReturn, iret, pop, frameAt, UInt32.add_assoc, UInt32.reduceAdd]
    rw [if_pos hmode, haddr 4 (by decide), haddr 8 (by decide), haddr 16 (by decide),
      haddr 20 (by decide), haddr 24 (by decide), haddr 28 (by decide), haddr 32 (by decide),
      haddr 36 (by decide), haddr 48 (by decide), haddr 52 (by decide), haddr 56 (by decide),
      haddr 60 (by decide), hss]
    rfl
  · rw [resumed, if_neg hmode, if_neg hmode]
    rw [frameAt, ← hcs] at hmode
    simp only [trapReturn, iret, pop, frameAt, UInt32.add_assoc, UInt32.reduceAdd]
    rw [if_neg hmode, haddr 4 (by decide), haddr 8 (by decide), haddr 16 (by decide),
      haddr 20 (by decide), haddr 24 (by decide), haddr 28 (by decide), haddr 32 (by decide),
      haddr 36 (by decide), haddr 48 (by decide), haddr 52 (by decide), haddr 56 (by decide)]
    rfl

/-- The frame that the words of a trap make. -/
theorem frameAt_saved {a : ℕ} {oesp number err : UInt32}
    (h : StackAt m a (pushed c oesp ++ [number, err] ++ returnWords c)) :
    Saved c (frameAt m a) ∧ (frameAt m a).trapno = number ∧ (frameAt m a).err = err := by
  obtain ⟨hedi, hesi, hebp, hoesp, hebx, hedx, hecx, heax, hes, hds, hnumber, herr, heip, hcs,
    hflags, hstack⟩ := h
  have hword : ∀ {k w}, load32 m k = w.toNat → UInt32.ofNat (load32 m k) = w :=
    fun hk ↦ by rw [hk, UInt32.ofNat_toNat]
  have hhalf : ∀ {k : ℕ} {w : UInt16}, load32 m k = w.toUInt32.toNat →
      (UInt32.ofNat (load32 m k)).toUInt16 = w := fun hk ↦ by
    rw [hk, UInt32.ofNat_toNat, UInt16.toUInt16_toUInt32]
  refine ⟨⟨?_, hhalf hes, hhalf hds, hword heip, hhalf hcs, hword hflags, fun huser ↦ ?_⟩,
    hword hnumber, hword herr⟩
  · simp only [frameAt, PushedRegisters.mk.injEq]
    exact ⟨hword hedi, hword hesi, hword hebp, trivial, hword hebx, hword hedx, hword hecx,
      hword heax⟩
  · rw [userStack, if_pos huser] at hstack
    exact ⟨hword hstack.1, hhalf hstack.2.1⟩

/-- `TrapReturn` resumes the code that the frame says. -/
theorem resumed_of_saved {f : TrapFrame} (h : Saved c f)
    (hesp : ¬ UserMode c.cs → tf + 60 = c.esp ∧ d.ss = c.ss) :
    resumed tf f d = { c with memory := d.memory } := by
  obtain ⟨hregs, hes, hds, heip, hcs, hflags, huser⟩ := h
  rw [resumed, hregs, hes, hds, heip, hcs, hflags]
  by_cases hmode : UserMode c.cs
  · rw [if_pos hmode, if_pos hmode, (huser hmode).1, (huser hmode).2]
  · rw [if_neg hmode, if_neg hmode, (hesp hmode).1, (hesp hmode).2]

theorem codeWords_eq (hcode : code.isSome = s.errorCode) :
    codeWords s code = [UInt32.ofNat s.number, code.getD 0] := by
  rw [codeWords, ← hcode]
  cases code with
  | none => rfl
  | some w => rfl

theorem push_ss (w : UInt32) (c : Cpu) : (push w c).ss = c.ss := rfl

theorem allTraps_ss (c : Cpu) : (allTraps c).ss = c.ss := by
  simp only [allTraps, loadKernelData, pushal, push_ss]

/-- What a trap leaves when its stub and the processor agree on the error code. -/
structure Entered (esp0 : UInt32) (s : Stub) (code : Option UInt32) (c d : Cpu) : Prop where
  bottom : d.esp.toNat + 60 + 4 * (userStack c).length = stackTop esp0 c
  saved : Saved c (frameAt d.memory d.esp.toNat)
  trapno : (frameAt d.memory d.esp.toNat).trapno = UInt32.ofNat s.number
  err : (frameAt d.memory d.esp.toNat).err = code.getD 0
  outside : ∀ x, x < d.esp.toNat ∨ stackTop esp0 c ≤ x → d.memory x = c.memory x
  ss : ¬ UserMode c.cs → d.ss = c.ss

theorem enter_entered (hcode : code.isSome = s.errorCode) (hroom : 72 ≤ stackTop esp0 c)
    (handler : UInt32) : Entered esp0 s code c (enter esp0 handler code s c) := by
  obtain ⟨oesp, hesp, hwords, houtside⟩ := enter_holds hroom handler code s
  rw [codeWords_eq hcode] at hesp hwords
  obtain ⟨hsaved, htrapno, herr⟩ := frameAt_saved hwords
  have hlen : (pushed c oesp ++ [UInt32.ofNat s.number, code.getD 0] ++ returnWords c).length =
      15 + (userStack c).length := by
    simp only [pushed, registerWords, returnWords, List.length_append, List.length_cons,
      List.length_nil]
    omega
  rw [hlen] at hesp
  refine ⟨?_, hsaved, htrapno, herr, houtside, fun hmode ↦ ?_⟩
  · omega
  · rw [enter, allTraps_ss]
    exact ((deliver_registers esp0 handler code c).enterStub s).ss hmode

theorem userStack_of_user (huser : UserMode c.cs) : userStack c = [c.esp, c.ss.toUInt32] :=
  if_pos huser

theorem stackTop_lt (esp0 : UInt32) (c : Cpu) : stackTop esp0 c < 2 ^ 32 := by
  rw [stackTop]
  split
  · exact esp0.toNat_lt
  · exact c.esp.toNat_lt

/-- Whatever the kernel did with memory meanwhile, `TrapReturn` goes on with the code that the
frame of the trap says, if that runs in the mode of the interrupted code. -/
theorem trapReturn_of_saved {c' c₂ : Cpu} (h : Entered esp0 s code c d)
    (hsaved : Saved c₂ (frameAt c'.memory d.esp.toNat)) (hcs : c₂.cs = c.cs)
    (hkernel : ¬ UserMode c.cs → c₂.esp = c.esp ∧ c'.ss = c₂.ss) :
    trapReturn d.esp c' = { c₂ with memory := c'.memory } := by
  have hbottom := h.bottom
  have htop := stackTop_lt esp0 c
  have huser : UserMode (frameAt c'.memory d.esp.toNat).cs → d.esp.toNat + 64 < 2 ^ 32 := by
    intro hmode
    rw [hsaved.cs, hcs] at hmode
    rw [userStack_of_user hmode] at hbottom
    simp only [List.length_cons, List.length_nil] at hbottom
    omega
  rw [trapReturn_eq c' (by omega) huser]
  apply resumed_of_saved hsaved
  intro hmode
  rw [hcs] at hmode
  obtain ⟨hesp, hss⟩ := hkernel hmode
  refine ⟨?_, hss⟩
  rw [userStack, if_neg hmode, stackTop, if_neg hmode, List.length_nil] at hbottom
  have hlt := c.esp.toNat_lt
  have hadd : (d.esp + 60).toNat = d.esp.toNat + 60 := toNat_add_of_lt (by
    simp only [UInt32.reduceToNat]
    omega)
  rw [hesp]
  apply UInt32.toNat_inj.mp
  rw [hadd]
  exact hbottom

/-- The stub pushes no error code for a vector whose processor pushes none, and the return then
takes the saved `cs` for the address. -/
theorem frameAt_eip_of_missing (hs : s.errorCode = true) (hroom : 72 ≤ stackTop esp0 c)
    (handler : UInt32) : (frameAt (enter esp0 handler none s c).memory
      (enter esp0 handler none s c).esp.toNat).eip = c.cs.toUInt32 := by
  obtain ⟨oesp, -, hwords, -⟩ := enter_holds hroom handler none s
  rw [codeWords, hs] at hwords
  obtain ⟨-, -, -, -, -, -, -, -, -, -, -, -, hcs, -⟩ := hwords
  rw [frameAt, hcs, UInt32.ofNat_toNat]

/-- A trap of vector `v` goes back to the code that it interrupts, whatever mode that runs in, if
the kernel leaves the frame alone. What lies above the stack of the trap is as it was. -/
def Returns (v : ℕ) : Prop :=
  ∀ (c : Cpu) (esp0 handler : UInt32) (code : Option UInt32),
    code.isSome = pushesErrorCode v → 72 ≤ stackTop esp0 c →
      trapReturn (takeTrap esp0 handler v code c).esp (takeTrap esp0 handler v code c) =
          { c with memory := (takeTrap esp0 handler v code c).memory } ∧
        ∀ x, stackTop esp0 c ≤ x → (takeTrap esp0 handler v code c).memory x = c.memory x

theorem returns_of_fits {v : ℕ} (h : Fits v) : Returns v := by
  intro c esp0 handler code hcode hroom
  have hentered := enter_entered (hcode.trans h.errorCode.symm) hroom handler
  exact ⟨trapReturn_of_saved hentered hentered.saved rfl fun hmode ↦ ⟨rfl, hentered.ss hmode⟩,
    fun x hx ↦ hentered.outside x (.inr hx)⟩

/-- Kernel code about to run the instruction at address 1. -/
def atOne : Cpu := ⟨fun _ ↦ 0, 0, 0, 0, 0, 0, 0, 0, 0x1000, 0x10, 0x10, 1, 8, 0, 0x10⟩

theorem misfit_code : ∀ v < 256, ¬ (Named v ∧ v ≠ trapDefault) →
    (stub (installed v).1).errorCode = true ∧ pushesErrorCode v = false := by
  decide +kernel

/-- The gate of the default handler serves no vector: `Xdefault` expects an error code that none of
them pushes. -/
theorem not_returns_of_misfit {v : ℕ} (hv : v < 256) (h : ¬ (Named v ∧ v ≠ trapDefault)) :
    ¬ Returns v := by
  intro hreturns
  obtain ⟨hstub, hcode⟩ := misfit_code v hv h
  have hroom : 72 ≤ stackTop 0 atOne := by decide
  have hreturn := congrArg Cpu.eip (hreturns atOne 0 0 none hcode.symm hroom).1
  obtain ⟨oesp, hesp, -, -⟩ := enter_holds hroom 0 none (stub (installed v).1)
  have heip := frameAt_eip_of_missing hstub hroom 0
  change (takeTrap 0 0 v none atOne).esp.toNat + _ = 0x1000 at hesp
  rw [trapReturn_eq _ (by omega) (fun _ ↦ by omega)] at hreturn
  have hone : (atOne.cs.toUInt32 : UInt32) = 1 := heip.symm.trans hreturn
  exact absurd hone (by decide)

/-- A trap returns to the interrupted code exactly when its vector has a gate of its own, and is
not the number of the default handler. -/
theorem trap_returns_iff (v : ℕ) (hv : v < 256) : Returns v ↔ Named v ∧ v ≠ trapDefault := by
  constructor
  · intro h
    by_contra hn
    exact not_returns_of_misfit hv hn h
  · intro h
    exact returns_of_fits ((fits_iff hv).mpr h)

theorem trap_returns_iff_syscall :
    Returns trapSyscall ↔ Named trapSyscall ∧ trapSyscall ≠ trapDefault :=
  trap_returns_iff trapSyscall (by decide)

end StormOS.TrapStack
