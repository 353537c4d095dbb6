import StormOS.Library.Loops
import StormOS.Library.Runs
import StormOS.Trap
import Mathlib.Logic.Function.Basic

namespace StormOS.Pic

open Library.Loops Library.Runs Interrupt Function

inductive Awaits
  | icw2
  | icw3
  | icw4
  | commands

/-- An 8259A. Line 0 has the highest priority. -/
structure Chip where
  mask : UInt8
  inService : ℕ → Bool
  base : UInt8
  cascade : UInt8
  autoEoi : Bool
  specialMask : Bool
  awaits : Awaits

def Chip.masked (c : Chip) (line : ℕ) : Bool := c.mask.toNat.testBit line

/-- The end of the interrupt of highest priority. In the special mask mode the masked lines do not
count. -/
def endOfInterrupt (c : Chip) : Chip :=
  match scan (fun line ↦ c.inService line && !(c.specialMask && c.masked line)) 0 8 with
  | some line => { c with inService := update c.inService line false }
  | none => c

/-- A byte for the even port: ICW1, OCW3 or OCW2. -/
def command (v : UInt8) (c : Chip) : Chip :=
  if v &&& 0x10 ≠ 0 then
    { c with mask := 0, inService := fun _ ↦ false, specialMask := false, awaits := .icw2 }
  else if v &&& 0x08 ≠ 0 then
    if v &&& 0x40 ≠ 0 then { c with specialMask := v &&& 0x20 ≠ 0 } else c
  else if v &&& 0xe0 = 0x20 then endOfInterrupt c
  else c

/-- A byte for the odd port. -/
def data (v : UInt8) (c : Chip) : Chip :=
  match c.awaits with
  | .icw2 => { c with base := v &&& 0xf8, awaits := .icw3 }
  | .icw3 => { c with cascade := v, awaits := .icw4 }
  | .icw4 => { c with autoEoi := v &&& 0x02 ≠ 0, awaits := .commands }
  | .commands => { c with mask := v }

structure Pics where
  master : Chip
  slave : Chip
  irqmask : UInt16
  inited : Bool

def portByteOut (port : ℕ) (v : UInt8) (p : Pics) : Pics :=
  if port = 0x20 then { p with master := command v p.master }
  else if port = 0x21 then { p with master := data v p.master }
  else if port = 0xa0 then { p with slave := command v p.slave }
  else if port = 0xa1 then { p with slave := data v p.slave }
  else p

def initWrites : List (ℕ × UInt8) :=
  [(0x21, 0xff), (0xa1, 0xff),
    (0x20, 0x11), (0x21, 32), (0x21, 4), (0x21, 0x1),
    (0xa0, 0x11), (0xa1, 40), (0xa1, 2), (0xa1, 0x1),
    (0x20, 0x68), (0x20, 0x0a), (0xa0, 0x68), (0xa0, 0x0a),
    (0x21, 0xff), (0xa1, 0xff)]

def picInit (p : Pics) : Pics :=
  if p.inited then p
  else initWrites.foldl (fun p w ↦ portByteOut w.1 w.2 p) { p with inited := true }

def picSetMask (mask : UInt16) (p : Pics) : Pics :=
  portByteOut 0xa1 (mask >>> 8).toUInt8 (portByteOut 0x21 mask.toUInt8 { p with irqmask := mask })

def picEnable (irq : ℕ) (p : Pics) : Pics :=
  picSetMask (p.irqmask &&& ~~~(1 <<< UInt16.ofNat irq)) p

def interruptEnable (irq : ℕ) (p : Pics) : Pics := if irq ≥ 16 then p else picEnable irq p

def picEoi (p : Pics) : Pics := portByteOut 0xa0 0x20 (portByteOut 0x20 0x20 p)

/-- A chip passes a request on if its line is not masked and nothing of that priority or a higher
one is in service. -/
def Accepts (c : Chip) (line : ℕ) : Prop :=
  line < 8 ∧ c.masked line = false ∧
    ∀ l ≤ line, c.inService l = true → c.specialMask = true ∧ c.masked l = true

/-- The requests of the slave go through the line of the master that it is connected to. -/
def Delivered (irq : ℕ) (p : Pics) : Prop :=
  if irq < 8 then Accepts p.master irq
  else Accepts p.slave (irq - 8) ∧ Accepts p.master p.slave.cascade.toNat ∧
    p.master.cascade.toNat.testBit p.slave.cascade.toNat = true

def acknowledge (line : ℕ) (c : Chip) : Chip :=
  if c.autoEoi then c else { c with inService := update c.inService line true }

def vector (irq : ℕ) (p : Pics) : ℕ :=
  if irq < 8 then p.master.base.toNat + irq else p.slave.base.toNat + (irq - 8)

def acknowledged (irq : ℕ) (p : Pics) : Pics :=
  if irq < 8 then { p with master := acknowledge irq p.master }
  else
    { p with
      master := acknowledge p.slave.cascade.toNat p.master
      slave := acknowledge (irq - 8) p.slave }

/-- What `InterruptHandler` does to the controllers, with the number of the trap. -/
def interruptHandler (type : ℕ) (p : Pics) : Pics :=
  if type = irqBase + irqTimer then picEoi p
  else if type = irqBase + irqSpurious then p
  else picEoi p

inductive Action
  | enable (irq : ℕ)
  | interrupt (irq : ℕ)

def perform (p : Pics) : Action → Pics
  | .enable irq => interruptEnable irq p
  | .interrupt irq => interruptHandler (vector irq p) (acknowledged irq p)

def pics : System Pics Action where
  enabled p
    | .enable _ => True
    -- nothing but the slave is on its line
    | .interrupt irq => irq < 16 ∧ irq ≠ 2 ∧ Delivered irq p
  step := perform

/-- The controllers when `InterruptInit` ends. -/
def start (p : Pics) : Pics := interruptEnable 4 (interruptEnable 1 (interruptEnable 0 (picInit p)))

def Idle (p : Pics) : Prop :=
  ∀ line, p.master.inService line = false ∧ p.slave.inService line = false

/-- The controllers between two interrupts. -/
def quiet (mask : UInt16) : Pics where
  master := ⟨mask.toUInt8, fun _ ↦ false, 32, 4, false, true, .commands⟩
  slave := ⟨(mask >>> 8).toUInt8, fun _ ↦ false, 40, 2, false, true, .commands⟩
  irqmask := mask
  inited := true

variable {p : Pics} {c : Chip} {mask : UInt16} {irq line : ℕ} {a : Action} {as : List Action}

theorem idle_quiet (mask : UInt16) : Idle (quiet mask) := fun _ ↦ ⟨rfl, rfl⟩

theorem picSetMask_quiet (mask mask' : UInt16) : picSetMask mask' (quiet mask) = quiet mask' := rfl

theorem interruptEnable_quiet (irq : ℕ) (mask : UInt16) :
    ∃ mask', interruptEnable irq (quiet mask) = quiet mask' := by
  rw [interruptEnable]
  split
  · exact ⟨mask, rfl⟩
  · exact ⟨_, picSetMask_quiet mask _⟩

/-- The initialisation leaves nothing of what the controllers were before. -/
theorem picInit_enable (h : p.inited = false) : ∃ mask, picEnable 0 (picInit p) = quiet mask := by
  refine ⟨p.irqmask &&& ~~~(1 <<< UInt16.ofNat 0), ?_⟩
  rw [picInit, h]
  rfl

theorem start_quiet (h : p.inited = false) : ∃ mask, start p = quiet mask := by
  obtain ⟨mask, hmask⟩ := picInit_enable h
  obtain ⟨mask', hmask'⟩ := interruptEnable_quiet 1 mask
  obtain ⟨mask'', hmask''⟩ := interruptEnable_quiet 4 mask'
  have hzero : interruptEnable 0 (picInit p) = quiet mask := hmask
  exact ⟨mask'', by rw [start, hzero, hmask', hmask'']⟩

theorem endOfInterrupt_idle (h : ∀ line, c.inService line = false) : endOfInterrupt c = c := by
  have hscan : scan (fun line ↦ c.inService line && !(c.specialMask && c.masked line)) 0 8 =
      none := by
    rw [scan_eq_none]
    intro x _ _
    rw [h x, Bool.false_and]
  rw [endOfInterrupt, hscan]

/-- The end of the one interrupt that is in service. -/
theorem endOfInterrupt_update (h : ∀ line, c.inService line = false) (hline : line < 8)
    (hmask : c.masked line = false) :
    endOfInterrupt { c with inService := update c.inService line true } = c := by
  have hscan : scan (fun l ↦ update c.inService line true l &&
      !(c.specialMask && c.masked l)) 0 8 = some line := by
    apply scan_of_first (Nat.zero_le line) hline
    · rw [update_self, hmask, Bool.and_false]
      rfl
    · intro y _ hy
      rw [update_of_ne (by omega), h y, Bool.false_and]
  have hback : update (update c.inService line true) line false = c.inService := by
    rw [update_idem, ← h line, update_eq_self]
  rw [endOfInterrupt]
  change (match scan (fun l ↦ update c.inService line true l &&
      !(c.specialMask && c.masked l)) 0 8 with
    | some l => { c with inService := update (update c.inService line true) l false }
    | none => { c with inService := update c.inService line true }) = c
  rw [hscan]
  dsimp only
  rw [hback]

theorem picEoi_eq (p : Pics) : picEoi p =
    { p with master := endOfInterrupt p.master, slave := endOfInterrupt p.slave } := rfl

/-- The ends of interrupt that the trap handler counts are commands to both controllers. -/
theorem interruptHandler_ends (q : Trap.Processor) (p : Pics) :
    ∃ n, (Trap.interruptHandler q).endsOfInterrupt = q.endsOfInterrupt + n ∧
      interruptHandler (q.threads.userContexts q.threads.currentID).trapno.toNat p =
        picEoi^[n] p := by
  unfold Trap.interruptHandler interruptHandler
  dsimp only
  split
  · exact ⟨1, rfl, rfl⟩
  · split
    · exact ⟨0, rfl, rfl⟩
    · exact ⟨1, rfl, rfl⟩

/-- An interrupt of any line but the seventh is over when its handler returns. -/
theorem interrupt_quiet (hirq : irq < 16) (hne : irq ≠ 7) (h : Delivered irq (quiet mask)) :
    perform (quiet mask) (.interrupt irq) = quiet mask := by
  have hvector : vector irq (quiet mask) = irqBase + irq := by
    rw [vector]
    change (if irq < 8 then 32 + irq else 40 + (irq - 8)) = 32 + irq
    split
    · rfl
    · omega
  have hhandler : interruptHandler (vector irq (quiet mask)) (acknowledged irq (quiet mask)) =
      picEoi (acknowledged irq (quiet mask)) := by
    rw [hvector, interruptHandler]
    split
    · rfl
    · rw [if_neg]
      simp only [irqBase, irqSpurious]
      omega
  rw [Delivered] at h
  rw [perform, hhandler, acknowledged, picEoi_eq]
  by_cases hlt : irq < 8
  · rw [if_pos hlt] at h ⊢
    have hmaster : endOfInterrupt { (quiet mask).master with
        inService := update (quiet mask).master.inService irq true } = (quiet mask).master :=
      endOfInterrupt_update (fun _ ↦ rfl) hlt h.2.1
    have hslave : endOfInterrupt (quiet mask).slave = (quiet mask).slave :=
      endOfInterrupt_idle fun _ ↦ rfl
    change { quiet mask with
      master := endOfInterrupt { (quiet mask).master with
        inService := update (quiet mask).master.inService irq true }
      slave := endOfInterrupt (quiet mask).slave } = quiet mask
    rw [hmaster, hslave]
  · rw [if_neg hlt] at h ⊢
    have hmaster : endOfInterrupt { (quiet mask).master with
        inService := update (quiet mask).master.inService 2 true } = (quiet mask).master :=
      endOfInterrupt_update (fun _ ↦ rfl) (by decide) h.2.1.2.1
    have hslave : endOfInterrupt { (quiet mask).slave with
        inService := update (quiet mask).slave.inService (irq - 8) true } = (quiet mask).slave :=
      endOfInterrupt_update (fun _ ↦ rfl) (by omega) h.1.2.1
    change { quiet mask with
      master := endOfInterrupt { (quiet mask).master with
        inService := update (quiet mask).master.inService 2 true }
      slave := endOfInterrupt { (quiet mask).slave with
        inService := update (quiet mask).slave.inService (irq - 8) true } } = quiet mask
    rw [hmaster, hslave]

/-- The handler takes the seventh line for a spurious interrupt and leaves it in service. -/
theorem interrupt_seven (mask : UInt16) : ¬ Idle (perform (quiet mask) (.interrupt 7)) :=
  fun h ↦ Bool.noConfusion (show true = false from (h 7).1)

def IsSeven : Action → Prop
  | .interrupt irq => irq = 7
  | .enable _ => False

theorem step_quiet (h : pics.enabled (quiet mask) a) (hne : ¬ IsSeven a) :
    ∃ mask', pics.step (quiet mask) a = quiet mask' := by
  cases a with
  | enable irq => exact interruptEnable_quiet irq mask
  | interrupt irq => exact ⟨mask, interrupt_quiet h.1 hne h.2.2⟩

theorem throughout_idle_iff (h : pics.Legal (quiet mask) as) :
    pics.Throughout Idle (quiet mask) as ↔ ∀ a ∈ as, ¬ IsSeven a := by
  induction as generalizing mask with
  | nil => exact iff_of_true (idle_quiet mask) fun _ ha ↦ absurd ha List.not_mem_nil
  | cons a as ih =>
    rw [List.forall_mem_cons]
    by_cases hseven : IsSeven a
    · refine iff_of_false (fun ht ↦ ?_) fun hf ↦ hf.1 hseven
      cases a with
      | enable irq => exact hseven
      | interrupt irq =>
        obtain rfl : irq = 7 := hseven
        exact interrupt_seven mask ht.2.head
    · obtain ⟨mask', hstep⟩ := step_quiet h.1 hseven
      have hrest := h.2
      rw [hstep] at hrest
      rw [← ih hrest]
      constructor
      · intro ht
        have hnext := ht.2
        rw [hstep] at hnext
        exact ⟨hseven, hnext⟩
      · intro hf
        refine ⟨idle_quiet mask, ?_⟩
        rw [hstep]
        exact hf.2

theorem final_quiet (h : pics.Legal (quiet mask) as) (hseven : ∀ a ∈ as, ¬ IsSeven a) :
    ∃ mask', pics.final (quiet mask) as = quiet mask' := by
  induction as generalizing mask with
  | nil => exact ⟨mask, rfl⟩
  | cons a as ih =>
    obtain ⟨mask', hstep⟩ := step_quiet h.1 (hseven a List.mem_cons_self)
    have hrest := h.2
    rw [hstep] at hrest
    rw [System.final_cons, hstep]
    exact ih hrest fun b hb ↦ hseven b (List.mem_cons_of_mem a hb)

/-- Whatever the controllers were before `PICInit`, over every run of enabled lines and delivered
interrupts each handler leaves both controllers with nothing in service, exactly as long as line 7
raises no interrupt of its own. Until then their masks are those of `irqmask`. -/
theorem idle_throughout_iff (p : Pics) (hp : p.inited = false) (as : List Action)
    (hlegal : pics.Legal (start p) as) :
    (pics.Throughout Idle (start p) as ↔ ∀ a ∈ as, ¬ IsSeven a) ∧
      ((∀ a ∈ as, ¬ IsSeven a) → ∃ mask, pics.final (start p) as = quiet mask) := by
  obtain ⟨mask, hstart⟩ := start_quiet hp
  rw [hstart] at hlegal ⊢
  exact ⟨throughout_idle_iff hlegal, final_quiet hlegal⟩

/-- Controllers about which nothing is known. -/
def unknown : Pics where
  master := ⟨0x5a, fun _ ↦ true, 8, 0, true, false, .icw3⟩
  slave := ⟨0xa5, fun _ ↦ true, 112, 0, true, false, .commands⟩
  irqmask := 0xfffb
  inited := false

theorem delivered_timer : Delivered 0 (start unknown) :=
  ⟨by decide, by decide, fun _ _ h ↦ absurd h (by exact Bool.false_ne_true)⟩

theorem idle_throughout_iff_timer :
    (pics.Throughout Idle (start unknown) [.interrupt 0] ↔
        ∀ a ∈ [Action.interrupt 0], ¬ IsSeven a) ∧
      ((∀ a ∈ [Action.interrupt 0], ¬ IsSeven a) →
        ∃ mask, pics.final (start unknown) [.interrupt 0] = quiet mask) :=
  idle_throughout_iff unknown rfl [.interrupt 0] ⟨⟨by decide, by decide, delivered_timer⟩, trivial⟩

end StormOS.Pic
