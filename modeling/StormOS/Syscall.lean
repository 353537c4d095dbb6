import StormOS.UserCopy
import StormOS.Printf
import StormOS.Interrupt

namespace StormOS.Syscall

open Library.Bytes Library.Loops Machine VirtualMemory UserCopy Printf Interrupt Function

abbrev sysPutStrNumber : ℕ := 0
abbrev sysGetCharNumber : ℕ := 1
abbrev sysDispBufNumber : ℕ := 2

abbrev eSucc : UInt32 := 0
abbrev eMem : UInt32 := 1
abbrev eInvalCallNr : UInt32 := 3
abbrev eInvalAddr : UInt32 := 4

abbrev vgaAddress : ℕ := 0xA0000
abbrev vgaWidth : ℕ := 80
abbrev vgaHeight : ℕ := 480
abbrev vgaPlanes : ℕ := 4

structure Console where
  buf : ℕ → UInt8
  readPos : ℕ
  writePos : ℕ

/-- The state that system calls work on. Of the screen, the calls of `PutChar` so far. -/
structure Kernel where
  vm : State
  console : Console
  screen : List (UInt8 × ℕ)

/-- Where the linker put the buffers of the processes. -/
structure Buffers where
  sysBuf : ℕ
  kernel : sysBuf + maxProcs * pageSize ≤ memUserLo

def Buffers.ofProc (b : Buffers) (pid : ℕ) : ℕ := b.sysBuf + pid * pageSize

def setErrNo (tf : TrapFrame) (errno : UInt32) : TrapFrame :=
  { tf with regs := { tf.regs with eax := errno } }

def setRetVal1 (tf : TrapFrame) (retval : UInt32) : TrapFrame :=
  { tf with regs := { tf.regs with ebx := retval } }

/-- One byte from the keyboard goes to the console buffer, unless it is 0. -/
def consoleInput (c : Console) (ch : ℤ) : Console :=
  if ch = 0 then c
  else
    { c with
      buf := update c.buf c.writePos (UInt8.ofNat (uint32OfInt ch))
      writePos := if c.writePos + 1 = consoleBufferSize then 0 else c.writePos + 1 }

def intOfChar (ch : UInt8) : ℤ := Int.bmod ch.toNat 256

/-- `keys` is what the keyboard returns before it has nothing more. -/
def getChar (c : Console) (keys : List ℤ) : Console × ℤ :=
  let c := keys.foldl consoleInput c
  if c.readPos ≠ c.writePos then
    ({ c with readPos := if c.readPos + 1 = consoleBufferSize then 0 else c.readPos + 1 },
      intOfChar (c.buf c.readPos))
  else (c, 0)

/-- The addresses that a system call has read through `PTCopyIn`, and what it leaves when it
returns. Printing a string that has no end does not return. -/
structure Outcome (α : Type) where
  reads : List ℕ
  result : Option (Kernel × α)

/-- The bytes that one round of `SysPutStr` copies, so that a NUL still fits behind them. -/
def nBytes (remain : ℕ) : ℕ := if remain < pageSize - 1 then remain else pageSize - 1

theorem nBytes_eq (remain : ℕ) : nBytes remain = min remain 4095 := by
  have hp : pageSize - 1 = 4095 := rfl
  rw [nBytes, hp]
  split
  · omega
  · omega

theorem sub_nBytes_lt {remain : ℕ} (h : remain ≠ 0) : remain - nBytes remain < remain := by
  rw [nBytes_eq]
  omega

/-- The loop of `SysPutStr` with its error number. Each call of `PrintfColor` finds the words of
`stack` where it looks for its arguments. -/
def putStrLoop (b : Buffers) (pid color : ℕ) (k : Kernel) (stack : ℕ → Args)
    (remain curPos : ℕ) : Outcome UInt32 :=
  if remain = 0 then ⟨[], some (k, eSucc)⟩
  else
    let t := ptCopyIn k.vm pid curPos (b.ofProc pid) (nBytes remain)
    if t.copied ≠ nBytes remain then ⟨t.visited, some ({ k with vm := t.state }, eMem)⟩
    else
      let vm := { t.state with memory := store8 t.state.memory (b.ofProc pid + nBytes remain) 0 }
      match printfColor vm.memory color (b.ofProc pid) (stack 0) with
      | none => ⟨t.visited, none⟩
      | some (calls, _) =>
        let r := putStrLoop b pid color { k with vm := vm, screen := k.screen ++ calls }
          (fun i ↦ stack (i + 1)) (remain - nBytes remain) (u32 (curPos + nBytes remain))
        { r with reads := t.visited ++ r.reads }
termination_by remain
decreasing_by exact sub_nBytes_lt ‹_›

def sysPutStr (b : Buffers) (pid : ℕ) (k : Kernel) (tf : TrapFrame) (stack : ℕ → Args) :
    Outcome TrapFrame :=
  let strVA := tf.regs.ebx.toNat
  let len := tf.regs.ecx.toNat
  let color := tf.regs.edx.toNat
  if ¬ (memUserLo ≤ strVA ∧ u32 (strVA + len) ≤ memUserHi) then
    ⟨[], some (k, setErrNo tf eInvalAddr)⟩
  else
    let r := putStrLoop b pid color k stack len strVA
    ⟨r.reads, r.result.map fun (k, errno) ↦ (k, setErrNo tf errno)⟩

def sysGetChar (k : Kernel) (tf : TrapFrame) (keys : List ℤ) : Outcome TrapFrame :=
  let (console, ch) := getChar k.console keys
  ⟨[], some ({ k with console := console },
    setRetVal1 (setErrNo tf eSucc) (UInt32.ofNat (uint32OfInt ch)))⟩

/-- The planes of the buffer go to the screen one after the other. -/
def displayUserBuffer (s : State) (pid bufVA : ℕ) : State × List ℕ :=
  forUpTo (fun p (s, reads) ↦
    let srcVA := u32 (bufVA + p * vgaWidth * vgaHeight)
    let t := ptCopyIn s pid srcVA vgaAddress (vgaWidth * vgaHeight)
    (t.state, reads ++ t.visited)) vgaPlanes (s, [])

def sysDisplayBuffer (pid : ℕ) (k : Kernel) (tf : TrapFrame) : Outcome TrapFrame :=
  let bufVA := tf.regs.ebx.toNat
  let bufLen := vgaWidth * vgaHeight * vgaPlanes
  if ¬ (memUserLo ≤ bufVA ∧ u32 (bufVA + bufLen) ≤ memUserHi) then
    ⟨[], some (k, setErrNo tf eInvalAddr)⟩
  else
    let r := displayUserBuffer k.vm pid bufVA
    ⟨r.2, some ({ k with vm := r.1 }, setErrNo tf eSucc)⟩

def syscallDispatch (b : Buffers) (pid : ℕ) (k : Kernel) (tf : TrapFrame) (stack : ℕ → Args)
    (keys : List ℤ) : Outcome TrapFrame :=
  if tf.regs.eax.toNat = sysPutStrNumber then sysPutStr b pid k tf stack
  else if tf.regs.eax.toNat = sysGetCharNumber then sysGetChar k tf keys
  else if tf.regs.eax.toNat = sysDispBufNumber then sysDisplayBuffer pid k tf
  else ⟨[], some (k, setErrNo tf eInvalCallNr)⟩

end StormOS.Syscall
