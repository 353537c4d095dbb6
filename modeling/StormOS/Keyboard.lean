import StormOS.Printf

namespace StormOS.Keyboard

open Printf

abbrev Flags := BitVec 32

abbrev shift : Flags := 1#32 <<< 0
abbrev ctl : Flags := 1#32 <<< 1
abbrev alt : Flags := 1#32 <<< 2
abbrev capsLock : Flags := 1#32 <<< 3
abbrev numLock : Flags := 1#32 <<< 4
abbrev scrollLock : Flags := 1#32 <<< 5
abbrev e0Esc : Flags := 1#32 <<< 6

def shiftcode (data : UInt8) : Flags :=
  if data = 0x1D then ctl
  else if data = 0x2A then shift
  else if data = 0x36 then shift
  else if data = 0x38 then alt
  else if data = 0x9D then ctl
  else if data = 0xB8 then alt
  else 0

def togglecode (data : UInt8) : Flags :=
  if data = 0x3A then capsLock
  else if data = 0x45 then numLock
  else if data = 0x46 then scrollLock
  else 0

section Maps

abbrev keyHome : UInt8 := 0xE0
abbrev keyEnd : UInt8 := 0xE1
abbrev keyUp : UInt8 := 0xE2
abbrev keyDn : UInt8 := 0xE3
abbrev keyLf : UInt8 := 0xE4
abbrev keyRt : UInt8 := 0xE5
abbrev keyPgUp : UInt8 := 0xE6
abbrev keyPgDn : UInt8 := 0xE7
abbrev keyIns : UInt8 := 0xE8
abbrev keyDel : UInt8 := 0xE9

def keypad (data : UInt8) : UInt8 :=
  if data = 0xC8 then keyUp
  else if data = 0xC9 then keyPgUp
  else if data = 0xCB then keyLf
  else if data = 0xCD then keyRt
  else if data = 0xCF then keyEnd
  else if data = 0xD0 then keyDn
  else if data = 0xD1 then keyPgDn
  else if data = 0xD2 then keyIns
  else if data = 0xD3 then keyDel
  else 0

def textKeypad (data : UInt8) : UInt8 :=
  if data = 0xC7 then keyHome
  else if data = 0x9C then byte '\n'
  else if data = 0xB5 then byte '/'
  else keypad data

def keyMap (rows : List String) (rest : UInt8 → UInt8) (data : UInt8) : UInt8 :=
  (((rows.flatMap String.toList).map byte)[data.toNat]?).getD (rest data)

def normalmap : UInt8 → UInt8 :=
  keyMap ["\x00\x1b123456", "7890-=\x08\t", "qwertyui", "op[]\n\x00as", "dfghjkl;",
    "'`\x00\\zxcv", "bnm,./\x00*", "\x00 \x00\x00\x00\x00\x00\x00",
    "\x00\x00\x00\x00\x00\x00\x007", "89-456+1", "230.\x00\x00\x00\x00"] textKeypad

def shiftmap : UInt8 → UInt8 :=
  keyMap ["\x00\x1b!@#$%^", "&*()_+\x08\t", "QWERTYUI", "OP\x7b\x7d\n\x00AS", "DFGHJKL:",
    "\"~\x00|ZXCV", "BNM<>?\x00*", "\x00 \x00\x00\x00\x00\x00\x00",
    "\x00\x00\x00\x00\x00\x00\x007", "89-456+1", "230.\x00\x00\x00\x00"] textKeypad

def control (c : Char) : UInt8 := byte c - byte '@'

def ctlmap (data : UInt8) : UInt8 :=
  if data < 0x10 then 0
  else if data < 0x38 then
    ([control 'Q', control 'W', control 'E', control 'R', control 'T', control 'Y', control 'U',
      control 'I', control 'O', control 'P', 0, 0, byte '\r', 0, control 'A', control 'S',
      control 'D', control 'F', control 'G', control 'H', control 'J', control 'K', control 'L', 0,
      0, 0, 0, control '\\', control 'Z', control 'X', control 'C', control 'V', control 'B',
      control 'N', control 'M', 0, 0, control '/', 0, 0].getD (data.toNat - 0x10) 0)
  else if data = 0x97 then keyHome
  else if data = 0xB5 then control '/'
  else keypad data

/-- The map is chosen by the two low flags. -/
def charcode (flags : Flags) : UInt8 → UInt8 :=
  if flags &&& (ctl ||| shift) = 0 then normalmap
  else if flags &&& (ctl ||| shift) = shift then shiftmap
  else ctlmap

end Maps

def swapCase (c : ℤ) : ℤ :=
  if 97 ≤ c ∧ c ≤ 122 then c + (65 - 97)
  else if 65 ≤ c ∧ c ≤ 90 then c + (97 - 65)
  else c

/-- The flags and the value that `KeyboardGetData` leaves, and whether it reboots the machine. -/
structure Reading where
  flags : Flags
  value : ℤ
  reboots : Bool

def keyPressed (flags : Flags) (data : UInt8) : Reading :=
  let flags := (flags ||| shiftcode data) ^^^ togglecode data
  let c : ℤ := (charcode flags data).toNat
  let c := if flags &&& capsLock ≠ 0 then swapCase c else c
  ⟨flags, c, ~~~flags &&& (ctl ||| alt) = 0 ∧ c = keyDel.toNat⟩

/-- `KeyboardGetData`, with the byte that the port has, if any. -/
def keyboardGetData (flags : Flags) : Option UInt8 → Reading
  | none => ⟨flags, -1, false⟩
  | some data =>
    if data = 0xE0 then ⟨flags ||| e0Esc, 0, false⟩
    else if data &&& 0x80 ≠ 0 then
      let data := if flags &&& e0Esc ≠ 0 then data else data &&& 0x7F
      ⟨flags &&& ~~~(shiftcode data ||| e0Esc), 0, false⟩
    else if flags &&& e0Esc ≠ 0 then keyPressed (flags &&& ~~~e0Esc) (data ||| 0x80)
    else keyPressed flags data

variable {flags : Flags} {data : UInt8}

theorem swapCase_bounds {c : ℤ} (h : 0 ≤ c) (h' : c < 256) : 0 ≤ swapCase c ∧ swapCase c < 256 := by
  rw [swapCase]
  split
  · omega
  · split <;> omega

theorem keyPressed_bounds (flags : Flags) (data : UInt8) :
    0 ≤ (keyPressed flags data).value ∧ (keyPressed flags data).value < 256 := by
  have hbyte := (charcode ((flags ||| shiftcode data) ^^^ togglecode data) data).toNat_lt
  rw [keyPressed]
  dsimp only
  split
  · exact swapCase_bounds (by omega) (by omega)
  · omega

/-- With a byte from the keyboard the value is a character, or 0. -/
theorem keyboardGetData_bounds (flags : Flags) (data : UInt8) :
    0 ≤ (keyboardGetData flags (some data)).value ∧
      (keyboardGetData flags (some data)).value < 256 := by
  rw [keyboardGetData]
  split
  · exact ⟨le_rfl, show (0 : ℤ) < 256 by decide⟩
  · split
    · exact ⟨le_rfl, show (0 : ℤ) < 256 by decide⟩
    · split
      · exact keyPressed_bounds _ _
      · exact keyPressed_bounds _ _

end StormOS.Keyboard
