import StormOS.ConsoleRefinement
import StormOS.Printf

namespace StormOS.Display

open Library.Loops Library.Terminals Screen Function
open Console hiding State

/-- The graphics memory: four planes at the same addresses, the planes that a store reaches, and the
write mode. -/
structure Vga where
  planes : ℕ → ℕ → UInt8
  mapMask : ℕ
  writeMode : ℕ

/-- An index and a value, for the sequencer or the graphics controller. -/
def portWordOut (port value : ℕ) (v : Vga) : Vga :=
  if port = 0x3c4 ∧ value % 2 ^ 8 = 2 then { v with mapMask := value / 2 ^ 8 % 2 ^ 4 }
  else if port = 0x3ce ∧ value % 2 ^ 8 = 5 then { v with writeMode := value / 2 ^ 8 % 2 ^ 2 }
  else v

def planeMasks : ℕ → ℕ
  | 0 => 0x0102
  | 1 => 0x0202
  | 2 => 0x0402
  | _ => 0x0802

section Device

-- what a store does in the other write modes
variable (otherMode : Vga → ℕ → UInt8 → Vga)

/-- A store to the byte `o` of the graphics memory. -/
def store (v : Vga) (o : ℕ) (b : UInt8) : Vga :=
  if v.writeMode = 0 then
    { v with planes := fun p ↦ if v.mapMask.testBit p then update (v.planes p) o b else v.planes p }
  else otherMode v o b

/-- `MemCopy` and `MemSet` to the graphics memory. -/
def copy (src : ℕ → UInt8) (size : ℕ) (v : Vga) : Vga :=
  forUpTo (fun i v ↦ store otherMode v i (src i)) size v

def showPlane (src : ℕ → UInt8) (p : ℕ) (v : Vga) : Vga :=
  copy otherMode src (vgaWidth * vgaHeight) (portWordOut 0x3c4 (planeMasks p) v)

def displayBuffer (buf : ℕ → UInt8) (v : Vga) : Vga :=
  let v := portWordOut 0x3ce 0x5 v
  let v := forUpTo (fun p ↦ showPlane otherMode (fun i ↦ buf (p * vgaWidth * vgaHeight + i)) p)
    vgaPlanes v
  portWordOut 0x3c4 0x0f02 v

/-- What `ClearScreen` does to the graphics memory. -/
def clearPlanes (color : ℕ) (v : Vga) : Vga :=
  let v := portWordOut 0x3ce 0x5 v
  let v := forUpTo (fun p ↦ showPlane otherMode (fun _ ↦ planeColor color p) p) vgaPlanes v
  portWordOut 0x3c4 0x0f02 v

end Device

structure State where
  console : Console.State
  vga : Vga

/-- `ClearScreen` with the `ResetCursor` after it, `PutStr`, and `DisplayBuffer` of a buffer that is
not the console's. -/
inductive Request
  | clear (color : ℕ)
  | putStr (str : List UInt8) (color : ℕ)
  | displayBuffer (buf : ℕ → UInt8)

section Perform

variable (font : UInt8 → ℕ → UInt8) (reverseBits : UInt8 → UInt8)
  (otherMode : Vga → ℕ → UInt8 → Vga)

def perform (d : State) : Request → State
  | .clear color =>
    { console := resetCursor { d.console with screen := clearScreen d.console.screen color }
      vga := clearPlanes otherMode color d.vga }
  | .putStr str color =>
    let console := (Printf.putStr str color).foldl
      (fun s x ↦ putChar font reverseBits s x.1 x.2) d.console
    -- FlushBuffer
    { console, vga := displayBuffer otherMode console.screen.screenBuf d.vga }
  | .displayBuffer buf => { d with vga := displayBuffer otherMode buf d.vga }

end Perform

/-- What a reader of the screen should see: the text on its background, unless another buffer is
displayed. -/
structure Picture where
  background : ℕ
  text : TextScreen
  overlay : Option (ℕ → UInt8)

def Picture.next (P : Picture) : Request → Picture
  | .clear color => ⟨color, cleared, none⟩
  | .putStr str color =>
    { P with text := (Printf.putStr str color).foldl put P.text, overlay := none }
  | .displayBuffer buf => { P with overlay := some buf }

def Picture.byte (font : UInt8 → ℕ → UInt8) (reverseBits : UInt8 → UInt8) (P : Picture) (n : ℕ) :
    UInt8 :=
  P.overlay.elim (render font reverseBits P.background P.text.grid n) fun buf ↦ buf n

variable {font : UInt8 → ℕ → UInt8} {reverseBits : UInt8 → UInt8}
  {otherMode : Vga → ℕ → UInt8 → Vga} {v : Vga} {d : State} {P : Picture} {src buf : ℕ → UInt8}
  {size p o color : ℕ}

/-- A copy in write mode 0 fills the selected planes and nothing else. -/
theorem copy_spec (otherMode : Vga → ℕ → UInt8 → Vga) (h : v.writeMode = 0) (src : ℕ → UInt8)
    (size : ℕ) :
    (copy otherMode src size v).mapMask = v.mapMask ∧
      (copy otherMode src size v).writeMode = 0 ∧
      ∀ p o, (copy otherMode src size v).planes p o =
        if v.mapMask.testBit p ∧ o < size then src o else v.planes p o := by
  apply forUpTo_invariant (I := fun n (w : Vga) ↦ w.mapMask = v.mapMask ∧ w.writeMode = 0 ∧
    ∀ p o, w.planes p o = if v.mapMask.testBit p ∧ o < n then src o else v.planes p o) size
  · refine ⟨rfl, h, fun p o ↦ ?_⟩
    rw [if_neg fun hlt ↦ Nat.not_lt_zero o hlt.2]
  · rintro n w - ⟨hmask, hmode, hplanes⟩
    rw [store, if_pos hmode]
    refine ⟨hmask, hmode, fun p o ↦ ?_⟩
    dsimp only
    rw [hmask]
    by_cases hbit : v.mapMask.testBit p
    · rw [if_pos hbit]
      by_cases ho : o = n
      · rw [ho, update_self, if_pos ⟨hbit, Nat.lt_succ_self n⟩]
      · rw [update_of_ne ho, hplanes]
        have hlt : o < n + 1 ↔ o < n := by omega
        simp only [hlt]
    · rw [if_neg hbit, hplanes, if_neg fun hb ↦ hbit hb.1, if_neg fun hb ↦ hbit hb.1]

theorem planeMasks_spec (hp : p < vgaPlanes) (v : Vga) :
    portWordOut 0x3c4 (planeMasks p) v = { v with mapMask := 2 ^ p } := by
  match p with
  | 0 => rfl
  | 1 => rfl
  | 2 => rfl
  | 3 => rfl

theorem showPlane_spec (otherMode : Vga → ℕ → UInt8 → Vga) (h : v.writeMode = 0) (hp : p < vgaPlanes)
    (src : ℕ → UInt8) :
    (showPlane otherMode src p v).writeMode = 0 ∧
      ∀ q o, (showPlane otherMode src p v).planes q o =
        if q = p ∧ o < vgaWidth * vgaHeight then src o else v.planes q o := by
  have hmode : { v with mapMask := 2 ^ p }.writeMode = 0 := h
  obtain ⟨-, hkept, hplanes⟩ := copy_spec otherMode hmode src (vgaWidth * vgaHeight)
  rw [showPlane, planeMasks_spec hp]
  refine ⟨hkept, fun q o ↦ ?_⟩
  apply (hplanes q o).trans
  have hbit : (2 ^ p).testBit q = true ↔ q = p := by
    rw [Nat.testBit_two_pow, decide_eq_true_eq, eq_comm]
  simp only [hbit]

theorem plane_place (ho : o < vgaWidth * vgaHeight) :
    plane (p * vgaWidth * vgaHeight + o) = p := by
  simp only [vgaWidth, vgaHeight] at ho
  simp only [plane, vgaWidth, vgaHeight]
  omega

theorem place_lt (hp : p < vgaPlanes) (ho : o < vgaWidth * vgaHeight) :
    p * vgaWidth * vgaHeight + o < screenSize := by
  simp only [vgaPlanes, vgaWidth, vgaHeight] at hp ho
  simp only [screenSize, vgaPlanes, vgaWidth, vgaHeight]
  omega

/-- The first `n` planes have been copied. -/
structure Copied (src : ℕ → ℕ → UInt8) (n : ℕ) (v : Vga) : Prop where
  writeMode : v.writeMode = 0
  planes : ∀ p < n, ∀ o < vgaWidth * vgaHeight, v.planes p o = src p o

theorem Copied.showPlane {src : ℕ → ℕ → UInt8} {n : ℕ} (h : Copied src n v) (hn : n < vgaPlanes) :
    Copied src (n + 1) (showPlane otherMode (src n) n v) := by
  obtain ⟨hmode, hspec⟩ := showPlane_spec otherMode h.writeMode hn (src n)
  refine ⟨hmode, fun p hp o ho ↦ ?_⟩
  rw [hspec]
  by_cases hpn : p = n
  · rw [if_pos ⟨hpn, ho⟩, hpn]
  · rw [if_neg fun hb ↦ hpn hb.1]
    exact h.planes p (by omega) o ho

theorem Copied.showPlanes (otherMode : Vga → ℕ → UInt8 → Vga) (src : ℕ → ℕ → UInt8) (v : Vga) :
    Copied src vgaPlanes (forUpTo (fun p ↦ Display.showPlane otherMode (src p) p) vgaPlanes
      (portWordOut 0x3ce 0x5 v)) := by
  apply forUpTo_invariant (I := Copied src) vgaPlanes
  · exact ⟨rfl, fun p hp ↦ absurd hp (Nat.not_lt_zero p)⟩
  · intro n w hn h
    exact h.showPlane hn

/-- The graphics memory shows these bytes, plane after plane. -/
def Presents (v : Vga) (bytes : ℕ → UInt8) : Prop :=
  ∀ p < vgaPlanes, ∀ o < vgaWidth * vgaHeight,
    v.planes p o = bytes (p * vgaWidth * vgaHeight + o)

theorem Copied.presents {src : ℕ → ℕ → UInt8} {bytes : ℕ → UInt8} (h : Copied src vgaPlanes v)
    (hbytes : ∀ p < vgaPlanes, ∀ o < vgaWidth * vgaHeight,
      src p o = bytes (p * vgaWidth * vgaHeight + o)) :
    Presents (portWordOut 0x3c4 0x0f02 v) bytes :=
  fun p hp o ho ↦ (h.planes p hp o ho).trans (hbytes p hp o ho)

theorem displayBuffer_presents (otherMode : Vga → ℕ → UInt8 → Vga) (v : Vga)
    {bytes : ℕ → UInt8} (h : ∀ n < screenSize, buf n = bytes n) :
    Presents (displayBuffer otherMode buf v) bytes := by
  rw [displayBuffer]
  apply (Copied.showPlanes otherMode
    (fun p i ↦ buf (p * vgaWidth * vgaHeight + i)) v).presents
  intro p hp o ho
  exact h _ (place_lt hp ho)

theorem clearPlanes_presents (otherMode : Vga → ℕ → UInt8 → Vga) (color : ℕ) (v : Vga) :
    Presents (clearPlanes otherMode color v) fun n ↦ planeColor color (plane n) := by
  rw [clearPlanes]
  apply (Copied.showPlanes otherMode (fun p _ ↦ planeColor color p) v).presents
  intro p _ o ho
  rw [plane_place ho]

/-- The console holds the text, and the graphics memory shows the picture. -/
structure Displays (font : UInt8 → ℕ → UInt8) (reverseBits : UInt8 → UInt8) (d : State)
    (P : Picture) : Prop where
  console : Shows font reverseBits P.background d.console P.text
  blank : P.text.BlankFrom .blank
  vga : Presents d.vga (P.byte font reverseBits)

theorem shows_putStr {s : Console.State} {t : TextScreen}
    (h : Shows font reverseBits color s t) (hblank : t.BlankFrom .blank)
    (chars : List (UInt8 × ℕ)) :
    Shows font reverseBits color
        (chars.foldl (fun s x ↦ putChar font reverseBits s x.1 x.2) s) (chars.foldl put t) ∧
      (chars.foldl put t).BlankFrom .blank :=
  List.foldl_rel (r := fun s t ↦ Shows font reverseBits color s t ∧ t.BlankFrom Cell.blank)
    ⟨h, hblank⟩ fun x _ _ _ hst ↦ hst.1.putChar hst.2 x

theorem Displays.clear (d : State) (P : Picture) (color : ℕ) :
    Displays font reverseBits (perform font reverseBits otherMode d (.clear color))
      (P.next (.clear color)) :=
  ⟨shows_cleared font reverseBits color d.console, fun _ _ _ _ _ ↦ rfl,
    clearPlanes_presents otherMode color d.vga⟩

theorem Displays.putStr (h : Displays font reverseBits d P) (str : List UInt8) (color : ℕ) :
    Displays font reverseBits (perform font reverseBits otherMode d (.putStr str color))
      (P.next (.putStr str color)) := by
  obtain ⟨hshows, hblank⟩ := shows_putStr h.console h.blank (Printf.putStr str color)
  exact ⟨hshows, hblank, displayBuffer_presents otherMode d.vga hshows.bytes⟩

theorem Displays.overlay (h : Displays font reverseBits d P) (hv : Presents v buf) :
    Displays font reverseBits { d with vga := v } { P with overlay := some buf } :=
  ⟨h.console, h.blank, hv⟩

theorem Displays.perform (h : Displays font reverseBits d P) (r : Request) :
    Displays font reverseBits (perform font reverseBits otherMode d r) (P.next r) := by
  cases r with
  | clear color => exact Displays.clear d P color
  | putStr str color => exact h.putStr str color
  | displayBuffer buf =>
    have hvga : Presents (Display.displayBuffer otherMode buf d.vga) buf :=
      displayBuffer_presents otherMode d.vga fun _ _ ↦ rfl
    exact h.overlay hvga

end StormOS.Display
