import Mathlib.Data.Nat.Notation

namespace StormOS.Interrupt

abbrev irqBase : ℕ := 32
abbrev irqTimer : ℕ := 0
abbrev irqSpurious : ℕ := 7
abbrev irqIDE2 : ℕ := 15
abbrev trapDivide : ℕ := 0
abbrev trapPageFault : ℕ := 14
abbrev trapSecurityEvent : ℕ := 30
abbrev trapSyscall : ℕ := 48

abbrev gdtKernelCode : UInt16 := 0x08
abbrev gdtUserCode : UInt16 := 0x18
abbrev gdtUserData : UInt16 := 0x20

abbrev flagIF : UInt32 := 0x200

structure PushedRegisters where
  edi : UInt32
  esi : UInt32
  ebp : UInt32
  oesp : UInt32
  ebx : UInt32
  edx : UInt32
  ecx : UInt32
  eax : UInt32
  deriving DecidableEq, Inhabited

structure TrapFrame where
  regs : PushedRegisters
  es : UInt16
  ds : UInt16
  trapno : UInt32
  err : UInt32
  eip : UInt32
  cs : UInt16
  eflags : UInt32
  esp : UInt32
  ss : UInt16
  deriving DecidableEq, Inhabited

end StormOS.Interrupt
