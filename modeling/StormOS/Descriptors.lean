import StormOS.Interrupt
import StormOS.Machine

namespace StormOS.Descriptors

open Machine Interrupt

/-- A bit field of `width` bits. -/
abbrev Field (width : ℕ) := Fin (2 ^ width)

/-- The value left in a bit field by an assignment. -/
def field (width x : ℕ) : Field width := Fin.ofNat (2 ^ width) x

/-- The bit fields of a gate, lowest bit first. -/
structure GateDesc where
  off150 : Field 16
  ss : Field 16
  args : Field 5
  rsv1 : Field 3
  type : Field 4
  s : Field 1
  dpl : Field 2
  p : Field 1
  off3116 : Field 16

abbrev staX : ℕ := 0x8
abbrev staW : ℕ := 0x2
abbrev staR : ℕ := 0x2
abbrev stsT32A : ℕ := 0x9
abbrev stsIG32 : ℕ := 0xE
abbrev stsTG32 : ℕ := 0xF

/-- `SETGATE`. -/
def setGate (isTrap : Bool) (sel off dpl : ℕ) : GateDesc where
  off150 := field 16 off
  ss := field 16 sel
  args := field 5 0
  rsv1 := field 3 0
  type := field 4 (if isTrap then stsTG32 else stsIG32)
  s := field 1 0
  dpl := field 2 dpl
  p := field 1 1
  off3116 := field 16 (off / 2 ^ 16)

/-- The two words of a gate in the table. -/
def GateDesc.words (g : GateDesc) : ℕ × ℕ :=
  (g.off150 + g.ss * 2 ^ 16,
    g.args + g.rsv1 * 2 ^ 5 + g.type * 2 ^ 8 + g.s * 2 ^ 12 + g.dpl * 2 ^ 13 + g.p * 2 ^ 15 +
      g.off3116 * 2 ^ 16)

/-- What the processor reads in a gate. -/
structure Gate where
  offset : ℕ
  selector : ℕ
  type : ℕ
  dpl : ℕ
  present : ℕ
  deriving DecidableEq

def decodeGate (w : ℕ × ℕ) : Gate where
  offset := w.1 % 2 ^ 16 + w.2 / 2 ^ 16 * 2 ^ 16
  selector := w.1 / 2 ^ 16
  type := w.2 / 2 ^ 8 % 2 ^ 5
  dpl := w.2 / 2 ^ 13 % 2 ^ 2
  present := w.2 / 2 ^ 15 % 2

/-- The bit fields of a segment descriptor, lowest bit first. -/
structure SegDesc where
  lim150 : Field 16
  base150 : Field 16
  base2316 : Field 8
  type : Field 4
  s : Field 1
  dpl : Field 2
  p : Field 1
  lim1916 : Field 4
  avl : Field 1
  rsv1 : Field 1
  db : Field 1
  g : Field 1
  base3124 : Field 8

def segDescNull : SegDesc :=
  ⟨field 16 0, field 16 0, field 8 0, field 4 0, field 1 0, field 2 0, field 1 0, field 4 0,
    field 1 0, field 1 0, field 1 0, field 1 0, field 8 0⟩

/-- `SEGDESC32`. -/
def segDesc32 (type base lim dpl : ℕ) : SegDesc where
  lim150 := field 16 (lim / 2 ^ 12)
  base150 := field 16 base
  base2316 := field 8 (base / 2 ^ 16)
  type := field 4 type
  s := field 1 1
  dpl := field 2 dpl
  p := field 1 1
  lim1916 := field 4 (lim / 2 ^ 28)
  avl := field 1 0
  rsv1 := field 1 0
  db := field 1 1
  g := field 1 1
  base3124 := field 8 (base / 2 ^ 24)

/-- `SEGDESC16`. -/
def segDesc16 (type base lim dpl : ℕ) : SegDesc where
  lim150 := field 16 lim
  base150 := field 16 base
  base2316 := field 8 (base / 2 ^ 16)
  type := field 4 type
  s := field 1 1
  dpl := field 2 dpl
  p := field 1 1
  lim1916 := field 4 (lim / 2 ^ 16)
  avl := field 1 0
  rsv1 := field 1 0
  db := field 1 1
  g := field 1 0
  base3124 := field 8 (base / 2 ^ 24)

def SegDesc.words (d : SegDesc) : ℕ × ℕ :=
  (d.lim150 + d.base150 * 2 ^ 16,
    d.base2316 + d.type * 2 ^ 8 + d.s * 2 ^ 12 + d.dpl * 2 ^ 13 + d.p * 2 ^ 15 +
      d.lim1916 * 2 ^ 16 + d.avl * 2 ^ 20 + d.rsv1 * 2 ^ 21 + d.db * 2 ^ 22 + d.g * 2 ^ 23 +
      d.base3124 * 2 ^ 24)

/-- What the processor reads in a segment descriptor. `limit` is the last offset allowed. -/
structure Segment where
  base : ℕ
  limit : ℕ
  type : ℕ
  s : ℕ
  dpl : ℕ
  present : ℕ
  deriving DecidableEq

def decodeSegment (w : ℕ × ℕ) : Segment where
  base := w.1 / 2 ^ 16 + w.2 % 2 ^ 8 * 2 ^ 16 + w.2 / 2 ^ 24 * 2 ^ 24
  limit :=
    let limit := w.1 % 2 ^ 16 + w.2 / 2 ^ 16 % 2 ^ 4 * 2 ^ 16
    -- the granularity
    if w.2 / 2 ^ 23 % 2 = 1 then limit * 2 ^ 12 + 0xfff else limit
  type := w.2 / 2 ^ 8 % 2 ^ 4
  s := w.2 / 2 ^ 12 % 2
  dpl := w.2 / 2 ^ 13 % 2 ^ 2
  present := w.2 / 2 ^ 15 % 2

variable {isTrap : Bool} {width sel off type base lim dpl x : ℕ}

theorem field_val (width x : ℕ) : (field width x : ℕ) = x % 2 ^ width := rfl

theorem decodeGate_words (g : GateDesc) : decodeGate g.words =
    ⟨g.off150 + g.off3116 * 2 ^ 16, g.ss, g.type + g.s * 2 ^ 4, g.dpl, g.p⟩ := by
  have h₀ := g.off150.isLt
  have h₁ := g.args.isLt
  have h₂ := g.rsv1.isLt
  have h₃ := g.type.isLt
  have h₄ := g.s.isLt
  have h₅ := g.dpl.isLt
  have h₆ := g.p.isLt
  simp only [decodeGate, GateDesc.words, Gate.mk.injEq]
  omega

theorem decodeSegment_words (d : SegDesc) : decodeSegment d.words =
    ⟨d.base150 + d.base2316 * 2 ^ 16 + d.base3124 * 2 ^ 24,
      if (d.g : ℕ) = 1 then (d.lim150 + d.lim1916 * 2 ^ 16) * 2 ^ 12 + 0xfff
        else d.lim150 + d.lim1916 * 2 ^ 16,
      d.type, d.s, d.dpl, d.p⟩ := by
  have h₀ := d.lim150.isLt
  have h₁ := d.base2316.isLt
  have h₂ := d.type.isLt
  have h₃ := d.s.isLt
  have h₄ := d.dpl.isLt
  have h₅ := d.p.isLt
  have h₆ := d.lim1916.isLt
  have h₇ := d.avl.isLt
  have h₈ := d.rsv1.isLt
  have h₉ := d.db.isLt
  have h₁₀ := d.g.isLt
  have hg : d.words.2 / 2 ^ 23 % 2 = d.g := by
    simp only [SegDesc.words]
    omega
  have hlimit : d.words.1 % 2 ^ 16 + d.words.2 / 2 ^ 16 % 2 ^ 4 * 2 ^ 16 =
      d.lim150 + d.lim1916 * 2 ^ 16 := by
    simp only [SegDesc.words]
    omega
  rw [decodeSegment, hg, hlimit]
  clear hg hlimit
  simp only [SegDesc.words, Segment.mk.injEq]
  refine ⟨by omega, trivial, by omega, by omega, by omega, by omega⟩

theorem decodeGate_setGate (hsel : sel < 2 ^ 16) (hoff : off < 2 ^ 32) (hdpl : dpl < 4) :
    decodeGate (setGate isTrap sel off dpl).words =
      ⟨off, sel, if isTrap then stsTG32 else stsIG32, dpl, 1⟩ := by
  have htype : (if isTrap then stsTG32 else stsIG32) < 16 := by
    split
    · decide
    · decide
  rw [decodeGate_words]
  simp only [setGate, field_val, Gate.mk.injEq]
  omega

theorem decodeSegment_segDesc32 (htype : type < 16) (hbase : base < 2 ^ 32) (hlim : lim < 2 ^ 32)
    (hdpl : dpl < 4) : decodeSegment (segDesc32 type base lim dpl).words =
      ⟨base, lim / 4096 * 4096 + 4095, type, 1, dpl, 1⟩ := by
  have hg : ((segDesc32 type base lim dpl).g : ℕ) = 1 := rfl
  rw [decodeSegment_words, if_pos hg]
  simp only [segDesc32, field_val, Segment.mk.injEq]
  omega

theorem decodeSegment_segDesc16 (htype : type < 16) (hbase : base < 2 ^ 32) (hlim : lim < 2 ^ 20)
    (hdpl : dpl < 4) : decodeSegment { segDesc16 type base lim dpl with s := field 1 0 }.words =
      ⟨base, lim, type, 0, dpl, 1⟩ := by
  have hzero : ¬ ((field 1 0 : Field 1) : ℕ) = 1 := by decide
  have hg : ¬ ({ segDesc16 type base lim dpl with s := field 1 0 }.g : ℕ) = 1 := hzero
  rw [decodeSegment_words, if_neg hg]
  simp only [segDesc16, field_val, Segment.mk.injEq]
  omega

section Idt

/-- The entry points of `trap_main.S`. -/
inductive Handler
  | divide | debug | nmi | brkpt | oflow | bound | illop | device | dblflt | coproc | tss | segnp
  | stack | gpflt | pgflt | res | fperr | align | mchk
  | irqTimer | irqKbd | irqSlave | irqSerial2 | irqSerial1 | irqLpt | irqFloppy | irqSpurious
  | irqRtc | irq9 | irq10 | irq11 | irqMouse | irqCoproc | irqIde1 | irqIde2
  | syscall | default
  deriving DecidableEq

abbrev trapDefault : ℕ := 254

/-- The entries of `InterruptInitIDT` after the default handler, each with its privilege. -/
def gates : List (ℕ × Handler × ℕ) :=
  [(0, .divide, 0), (1, .debug, 0), (2, .nmi, 0), (3, .brkpt, 3), (4, .oflow, 3), (5, .bound, 0),
    (6, .illop, 0), (7, .device, 0), (8, .dblflt, 0), (10, .tss, 0), (11, .segnp, 0),
    (12, .stack, 0), (13, .gpflt, 0), (14, .pgflt, 0), (16, .fperr, 0), (17, .align, 0),
    (18, .mchk, 0),
    (irqBase + 0, .irqTimer, 0), (irqBase + 1, .irqKbd, 0), (irqBase + 2, .irqSlave, 0),
    (irqBase + 3, .irqSerial2, 0), (irqBase + 4, .irqSerial1, 0), (irqBase + 5, .irqLpt, 0),
    (irqBase + 6, .irqFloppy, 0), (irqBase + 7, .irqSpurious, 0), (irqBase + 8, .irqRtc, 0),
    (irqBase + 9, .irq9, 0), (irqBase + 10, .irq10, 0), (irqBase + 11, .irq11, 0),
    (irqBase + 12, .irqMouse, 0), (irqBase + 13, .irqCoproc, 0), (irqBase + 14, .irqIde1, 0),
    (irqBase + 15, .irqIde2, 0), (trapSyscall, .syscall, 3), (trapDefault, .default, 0)]

/-- The table, given the addresses of the handlers. -/
def interruptInitIDT (address : Handler → ℕ) : ℕ → GateDesc :=
  gates.foldl
    (fun idt g ↦ Function.update idt g.1
      (setGate false gdtKernelCode.toNat (address g.2.1) g.2.2))
    fun _ ↦ setGate false gdtKernelCode.toNat (address .default) 0

/-- The handler of each vector, with the privilege that an `int` instruction needs. -/
def installed (v : ℕ) : Handler × ℕ :=
  gates.foldl (fun f g ↦ Function.update f g.1 g.2) (fun _ ↦ (.default, 0)) v

theorem foldl_update_comp {α β : Type} (F : α → β) (l : List (ℕ × α)) (f : ℕ → α) :
    l.foldl (fun f g ↦ Function.update f g.1 (F g.2)) (F ∘ f) =
      F ∘ l.foldl (fun f g ↦ Function.update f g.1 g.2) f := by
  induction l generalizing f with
  | nil => rfl
  | cons g l ih =>
    rw [List.foldl_cons, List.foldl_cons, ← ih, Function.comp_update]

theorem interruptInitIDT_eq (address : Handler → ℕ) (v : ℕ) : interruptInitIDT address v =
    setGate false gdtKernelCode.toNat (address (installed v).1) (installed v).2 :=
  congrFun (foldl_update_comp (fun g : Handler × ℕ ↦
    setGate false gdtKernelCode.toNat (address g.1) g.2) gates fun _ ↦ (.default, 0)) v

/-- What a stub of `trap_main.S` pushes: the number, and a zero for the error code unless the
processor has pushed one. -/
structure Stub where
  number : ℕ
  errorCode : Bool
  deriving DecidableEq

/-- `TRAPHANDLER` and `TRAPHANDLER_NOEC`. -/
def stub : Handler → Stub
  | .divide => ⟨0, false⟩
  | .debug => ⟨1, false⟩
  | .nmi => ⟨2, false⟩
  | .brkpt => ⟨3, false⟩
  | .oflow => ⟨4, false⟩
  | .bound => ⟨5, false⟩
  | .illop => ⟨6, false⟩
  | .device => ⟨7, false⟩
  | .dblflt => ⟨8, true⟩
  | .coproc => ⟨9, false⟩
  | .tss => ⟨10, true⟩
  | .segnp => ⟨11, true⟩
  | .stack => ⟨12, true⟩
  | .gpflt => ⟨13, true⟩
  | .pgflt => ⟨14, true⟩
  | .res => ⟨15, false⟩
  | .fperr => ⟨16, false⟩
  | .align => ⟨17, true⟩
  | .mchk => ⟨18, false⟩
  | .irqTimer => ⟨irqBase + 0, false⟩
  | .irqKbd => ⟨irqBase + 1, false⟩
  | .irqSlave => ⟨irqBase + 2, false⟩
  | .irqSerial2 => ⟨irqBase + 3, false⟩
  | .irqSerial1 => ⟨irqBase + 4, false⟩
  | .irqLpt => ⟨irqBase + 5, false⟩
  | .irqFloppy => ⟨irqBase + 6, false⟩
  | .irqSpurious => ⟨irqBase + 7, false⟩
  | .irqRtc => ⟨irqBase + 8, false⟩
  | .irq9 => ⟨irqBase + 9, false⟩
  | .irq10 => ⟨irqBase + 10, false⟩
  | .irq11 => ⟨irqBase + 11, false⟩
  | .irqMouse => ⟨irqBase + 12, false⟩
  | .irqCoproc => ⟨irqBase + 13, false⟩
  | .irqIde1 => ⟨irqBase + 14, false⟩
  | .irqIde2 => ⟨irqBase + 15, false⟩
  | .syscall => ⟨trapSyscall, false⟩
  | .default => ⟨trapDefault, true⟩

/-- The exceptions for which the processor pushes an error code. -/
def pushesErrorCode (v : ℕ) : Bool := v ∈ [8, 10, 11, 12, 13, 14, 17]

/-- The vectors with a gate of their own. -/
def Named (v : ℕ) : Prop := v ∈ gates.map Prod.fst

instance (v : ℕ) : Decidable (Named v) := inferInstanceAs (Decidable (_ ∈ _))

/-- A gate leads to a stub that announces its own vector and agrees with the processor on the
error code. -/
structure Fits (v : ℕ) : Prop where
  number : (stub (installed v).1).number = v
  errorCode : (stub (installed v).1).errorCode = pushesErrorCode v

theorem installed_dpl : ∀ v < 256, (installed v).2 < 4 ∧
    ((installed v).2 = 3 ↔ v = 3 ∨ v = 4 ∨ v = trapSyscall) := by
  decide +kernel

theorem fits_iff {v : ℕ} (hv : v < 256) : Fits v ↔ Named v ∧ v ≠ trapDefault := by
  have hall : ∀ v < 256, ((stub (installed v).1).number = v ∧
      (stub (installed v).1).errorCode = pushesErrorCode v ↔ Named v ∧ v ≠ trapDefault) := by
    decide +kernel
  rw [← hall v hv]
  exact ⟨fun h ↦ ⟨h.number, h.errorCode⟩, fun h ↦ ⟨h.1, h.2⟩⟩

/-- Every vector leads to its handler through an interrupt gate of the kernel's code segment, and
user code may call three of them. The handlers with a gate of their own are the right ones, that of
the default handler apart. -/
theorem idt_decoded (address : Handler → ℕ) (haddress : ∀ h, address h < 2 ^ 32) (v : ℕ)
    (hv : v < 256) : (∃ dpl, decodeGate (interruptInitIDT address v).words =
      ⟨address (installed v).1, gdtKernelCode.toNat, stsIG32, dpl, 1⟩ ∧
        (dpl = 3 ↔ v = 3 ∨ v = 4 ∨ v = trapSyscall)) ∧ (Fits v ↔ Named v ∧ v ≠ trapDefault) := by
  obtain ⟨hdpl, huser⟩ := installed_dpl v hv
  refine ⟨⟨(installed v).2, ?_, huser⟩, fits_iff hv⟩
  rw [interruptInitIDT_eq, decodeGate_setGate (by decide) (haddress _) hdpl]
  rfl

theorem idt_decoded_syscall : (∃ dpl, decodeGate
    (interruptInitIDT (fun _ ↦ 0x101000) trapSyscall).words =
      ⟨0x101000, gdtKernelCode.toNat, stsIG32, dpl, 1⟩ ∧
        (dpl = 3 ↔ trapSyscall = 3 ∨ trapSyscall = 4 ∨ trapSyscall = trapSyscall)) ∧
      (Fits trapSyscall ↔ Named trapSyscall ∧ trapSyscall ≠ trapDefault) :=
  idt_decoded (fun _ ↦ 0x101000) (fun _ ↦ by decide) trapSyscall (by decide)

end Idt

end StormOS.Descriptors
