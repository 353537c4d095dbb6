import StormOS.Division
import StormOS.Library.Loops

namespace StormOS.Printf

open Library.Bytes Library.Loops Machine Division

abbrev consoleBufferSize : ℕ := 512

def byte (c : Char) : UInt8 := UInt8.ofNat c.toNat

/-- The characters at `a`, up to the first NUL. A search that finds none goes on for ever. -/
def cString (m : Memory) (a : ℕ) : Option (List UInt8) :=
  (scan (fun k ↦ m (u32 (a + k)) = 0) 0 (2 ^ 32)).map fun n ↦
    (List.range n).map fun k ↦ m (u32 (a + k))

/-- The calls of `PutChar` that printing a string makes. -/
def putStr (str : List UInt8) (color : ℕ) : List (UInt8 × ℕ) :=
  (str.takeWhile (· ≠ 0)).map (·, color)

structure PrintBuf where
  buf : List UInt8
  count : ℕ
  calls : List (UInt8 × ℕ)

def printfPutCh (color : ℕ) (b : PrintBuf) (ch : UInt8) : PrintBuf :=
  let buf := b.buf ++ [ch]
  if buf.length ≥ consoleBufferSize - 1 then ⟨[], b.count + 1, b.calls ++ putStr buf color⟩
  else ⟨buf, b.count + 1, b.calls⟩

structure Base where
  val : ℕ
  two_le : 2 ≤ val
  le_sixteen : val ≤ 16

theorem divide_lt {num : ℕ} {base : Base} (h : num < 2 ^ 64) (hge : num ≥ base.val) :
    divide64by32 num base.val < num := by
  have h2 := base.two_le
  have h16 := base.le_sixteen
  rw [divide64by32_eq h (by omega) (by omega)]
  exact Nat.div_lt_self (by omega) (by omega)

def printNum (base : Base) (num : ℕ) (h : num < 2 ^ 64) : List UInt8 :=
  (if hge : num ≥ base.val then
    have := divide_lt h hge
    printNum base (divide64by32 num base.val) (this.trans h)
  else []) ++ [byte (Nat.digitChar (modulo64by32 num base.val))]

/-- The escape sequences that have a meaning. -/
inductive Conversion
  | char
  | string
  | signed
  | unsigned
  | long
  | octal
  | pointer
  | hex
  | percent

def conversion (ch : UInt8) : Option Conversion :=
  if ch = byte 'c' then some .char
  else if ch = byte 's' then some .string
  else if ch = byte 'd' then some .signed
  else if ch = byte 'u' then some .unsigned
  else if ch = byte 'l' then some .long
  else if ch = byte 'o' then some .octal
  else if ch = byte 'p' then some .pointer
  else if ch = byte 'x' then some .hex
  else if ch = byte '%' then some .percent
  else none

abbrev octal : Base := ⟨8, by decide, by decide⟩
abbrev decimal : Base := ⟨10, by decide, by decide⟩
abbrev hexadecimal : Base := ⟨16, by decide, by decide⟩

/-- The words of the argument list, from the next one on. -/
abbrev Args := ℕ → ℕ

def Args.rest (ap : Args) (n : ℕ) : Args := fun i ↦ ap (i + n)

theorem u32_lt_u64 (x : ℕ) : u32 x < 2 ^ 64 := (u32_lt x).trans (by decide)

theorem u64_lt (x : ℕ) : u64 x < 2 ^ 64 := Nat.mod_lt _ (by decide)

/-- The decimal digits of an `int`. The negation of the least one overflows. -/
def signedDecimal (n : ℤ) : List UInt8 :=
  if n < 0 then
    byte '-' :: printNum decimal (u64 (int32 (-n) % 2 ^ 64).toNat) (u64_lt _)
  else printNum decimal (u64 n.toNat) (u64_lt _)

/-- The characters of one conversion and the arguments left after it. -/
def convert (m : Memory) (ap : Args) : Conversion → Option (List UInt8 × Args)
  | .char => some ([UInt8.ofNat (ap 0)], ap.rest 1)
  | .string =>
    if u32 (ap 0) = 0 then some ("(null)".toList.map byte, ap.rest 1)
    else (cString m (u32 (ap 0))).map (·, ap.rest 1)
  | .signed => some (signedDecimal (int32 (ap 0)), ap.rest 1)
  | .unsigned => some (printNum decimal (u32 (ap 0)) (u32_lt_u64 _), ap.rest 1)
  | .long => some (printNum hexadecimal (u64 (u32 (ap 0) + u32 (ap 1) * 2 ^ 32)) (u64_lt _), ap.rest 2)
  | .octal => some (printNum octal (u32 (ap 0)) (u32_lt_u64 _), ap.rest 1)
  | .pointer =>
    some (byte '0' :: byte 'x' :: printNum hexadecimal (u32 (ap 0)) (u32_lt_u64 _), ap.rest 1)
  | .hex => some (printNum hexadecimal (u32 (ap 0)) (u32_lt_u64 _), ap.rest 1)
  | .percent => some ([byte '%'], ap)

/-- The characters that a format string, without its NUL, hands to `putCh`. -/
def vPrintFmt (m : Memory) : List UInt8 → Args → Option (List UInt8)
  | [], _ => some []
  | ch :: fmt, ap =>
    if ch ≠ byte '%' then (vPrintFmt m fmt ap).map (ch :: ·)
    else match fmt with
      | [] => some [byte '%']
      | conv :: fmt' =>
        match conversion conv with
        | some c =>
          (convert m ap c).bind fun (out, ap) ↦ (vPrintFmt m fmt' ap).map (out ++ ·)
        -- the scan backwards stops at once, so that the character itself is read again
        | none => (vPrintFmt m (conv :: fmt') ap).map (byte '%' :: ·)

def vPrintf (m : Memory) (color : ℕ) (fmt : List UInt8) (ap : Args) :
    Option (List (UInt8 × ℕ) × ℕ) :=
  (vPrintFmt m fmt ap).map fun chars ↦
    let b := chars.foldl (printfPutCh color) ⟨[], 0, []⟩
    (b.calls ++ putStr b.buf color, b.count)

/-- The calls of `PutChar`, and the value returned. -/
def printfColor (m : Memory) (color fmt : ℕ) (ap : Args) : Option (List (UInt8 × ℕ) × ℕ) :=
  (cString m fmt).bind fun fmt ↦ vPrintf m color fmt ap

end StormOS.Printf
