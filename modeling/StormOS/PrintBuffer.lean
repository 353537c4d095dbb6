import StormOS.FormatText
import StormOS.Library.Strings

namespace StormOS.Printf

open Library.Bytes Library.Strings Machine

/-- `struct PrintBuf`, with the elements of its array that have been written and the strings that
have been passed to `PutStr`. -/
structure PrintArray where
  index : ℤ
  count : ℤ
  buf : ℤ → UInt8
  writes : List ℤ
  strings : List (List UInt8)

def PrintArray.write (b : PrintArray) (ch : UInt8) : PrintArray :=
  { b with buf := Function.update b.buf b.index ch, writes := b.writes ++ [b.index] }

/-- The string is the array up to the first NUL, if it has one. -/
def PrintArray.putStr (b : PrintArray) : Option PrintArray :=
  (readString (fun i ↦ b.buf i) consoleBufferSize 0).map fun (str, _) ↦
    { b with strings := b.strings ++ [str] }

def PrintArray.append (b : PrintArray) (ch : UInt8) : PrintArray :=
  { b.write ch with index := int32 (b.index + 1) }

def PrintArray.flush (b : PrintArray) : Option PrintArray :=
  (b.write 0).putStr.map fun b ↦ { b with index := 0 }

def PrintArray.putCh (b : PrintArray) (ch : UInt8) : Option PrintArray :=
  let b := b.append ch
  (if b.index ≥ (consoleBufferSize : ℤ) - 1 then b.flush else some b).map fun b ↦
    { b with count := int32 (b.count + 1) }

/-- `VPrintf` on the array, with the characters of `VPrintFmt` and what the array held before. -/
def PrintArray.print (buf : ℤ → UInt8) (chars : List UInt8) : Option PrintArray :=
  (chars.foldlM PrintArray.putCh ⟨0, 0, buf, [], []⟩).bind fun b ↦ (b.write 0).putStr

structure Buffered (b : PrintArray) (pending chars : List UInt8) : Prop where
  index : b.index = pending.length
  room : pending.length < consoleBufferSize - 1
  array : ∀ i (h : i < pending.length), b.buf i = pending[i]
  no_nul : 0 ∉ pending
  strings : b.strings.flatten ++ pending = chars
  count : b.count = int32 chars.length
  writes : ∀ i ∈ b.writes, 0 ≤ i ∧ i < consoleBufferSize

variable {b b' : PrintArray} {pending chars : List UInt8} {ch : UInt8}

theorem buffered_nil (buf : ℤ → UInt8) : Buffered ⟨0, 0, buf, [], []⟩ [] [] where
  index := rfl
  room := by decide
  array _ h := absurd h (Nat.not_lt_zero _)
  no_nul := List.not_mem_nil
  strings := rfl
  count := rfl
  writes _ h := absurd h List.not_mem_nil

theorem write_putStr (hindex : b.index = pending.length)
    (hroom : pending.length < consoleBufferSize)
    (harray : ∀ i (h : i < pending.length), b.buf i = pending[i]) (hnul : 0 ∉ pending) :
    (b.write 0).putStr = some { b.write 0 with strings := b.strings ++ [pending] } := by
  have hwrite := update_append hindex harray 0
  have hstring : StringAt (fun i ↦ (b.write 0).buf i) 0 pending := by
    refine stringAt_of_bytes (fun i hi ↦ ?_) hnul ?_
    · have hbyte := hwrite i (by rw [List.length_append]; omega)
      rw [List.getElem_append_left hi] at hbyte
      rw [Nat.zero_add]
      exact hbyte
    · have hbyte := hwrite pending.length (by rw [List.length_append, List.length_singleton]; omega)
      rw [List.getElem_append_right (Nat.le_refl _), List.getElem_singleton] at hbyte
      rw [Nat.zero_add]
      exact hbyte
  obtain ⟨reads, hread, -⟩ := hstring.readString hroom
  rw [PrintArray.putStr, hread]
  rfl

theorem int32_int32_succ (n : ℕ) : int32 (int32 n + 1) = int32 (n + 1 : ℕ) := by
  rw [int32, int32, int32, Int.bmod_add_bmod, Nat.cast_succ]

theorem write_writes (h : Buffered b pending chars) (ch : UInt8) :
    ∀ i ∈ (b.write ch).writes, 0 ≤ i ∧ i < consoleBufferSize := by
  have hindex := h.index
  have hroom := h.room
  intro i hi
  rcases List.mem_append.mp hi with hi | hi
  · exact h.writes i hi
  · rw [List.mem_singleton.mp hi]
    omega

theorem putCh_buffered (h : Buffered b pending chars) (hch : ch ≠ 0) :
    ∃ b' pending', b.putCh ch = some b' ∧ Buffered b' pending' (chars ++ [ch]) := by
  have hroom : pending.length < 511 := h.room
  have hlen : (pending ++ [ch]).length = pending.length + 1 := by
    rw [List.length_append, List.length_singleton]
  have hindex : int32 (b.index + 1) = (pending ++ [ch]).length := by
    rw [hlen, h.index, int32_of_bounds (by omega) (by omega), Nat.cast_succ]
  have harray := update_append h.index h.array ch
  have hnul : 0 ∉ pending ++ [ch] := by simp [h.no_nul, hch.symm]
  have hcount : int32 (b.count + 1) = int32 ((chars ++ [ch]).length : ℕ) := by
    rw [h.count, int32_int32_succ, List.length_append, List.length_singleton]
  have hwrites := write_writes h ch
  rw [PrintArray.putCh]
  by_cases hfull : (b.append ch).index ≥ (consoleBufferSize : ℤ) - 1
  · have hput := write_putStr (b := b.append ch) hindex
      (show (pending ++ [ch]).length < 512 by omega) harray hnul
    rw [if_pos hfull, PrintArray.flush, hput]
    refine ⟨_, [], rfl, rfl, by decide, fun _ hi ↦ absurd hi (Nat.not_lt_zero _), List.not_mem_nil,
      ?_, hcount, fun i hi ↦ ?_⟩
    · rw [List.append_nil, ← h.strings, List.append_assoc]
      exact List.flatten_append.trans (congrArg _ List.flatten_singleton)
    · rcases List.mem_append.mp hi with hi | hi
      · exact hwrites i hi
      · have hlast : (b.append ch).index = pending.length + 1 := by
          rw [← Nat.cast_succ, Nat.succ_eq_add_one, ← hlen]
          exact hindex
        rw [List.mem_singleton.mp hi, hlast]
        exact ⟨by omega, show (pending.length : ℤ) + 1 < 512 by omega⟩
  · have hlt : ¬ int32 (b.index + 1) ≥ 511 := hfull
    rw [if_neg hfull]
    refine ⟨_, pending ++ [ch], rfl, hindex, show (pending ++ [ch]).length < 511 by omega, harray,
      hnul, ?_, hcount, hwrites⟩
    rw [← h.strings, List.append_assoc]
    rfl

theorem foldlM_buffered {more : List UInt8} (h : Buffered b pending chars) (hmore : 0 ∉ more) :
    ∃ b' pending', more.foldlM PrintArray.putCh b = some b' ∧
      Buffered b' pending' (chars ++ more) := by
  induction more generalizing b pending chars with
  | nil => exact ⟨b, pending, rfl, by rwa [List.append_nil]⟩
  | cons ch more ih =>
    obtain ⟨hch, hmore⟩ := not_or.mp (mt List.mem_cons.mpr hmore)
    obtain ⟨b₁, pending₁, hput, h₁⟩ := putCh_buffered h (Ne.symm hch)
    obtain ⟨b₂, pending₂, hrest, h₂⟩ := ih h₁ hmore
    refine ⟨b₂, pending₂, ?_, ?_⟩
    · rw [List.foldlM_cons, hput]
      exact hrest
    · rwa [List.append_assoc, List.singleton_append] at h₂

/-- The strings make up the characters, and the array is large enough. -/
structure Printed (b : PrintArray) (chars : List UInt8) (returned : ℤ) : Prop where
  strings : b.strings.flatten = chars
  count : b.count = returned
  writes : ∀ i ∈ b.writes, 0 ≤ i ∧ i < consoleBufferSize

theorem print_printed (buf : ℤ → UInt8) (h : 0 ∉ chars) :
    ∃ b, PrintArray.print buf chars = some b ∧ Printed b chars (int32 chars.length) := by
  obtain ⟨b, pending, hfold, hb⟩ := foldlM_buffered (buffered_nil buf) h
  have hroom : pending.length < 511 := hb.room
  have hput := write_putStr hb.index (show pending.length < 512 by omega) hb.array hb.no_nul
  refine ⟨{ b.write 0 with strings := b.strings ++ [pending] }, ?_, ?_, hb.count,
    write_writes hb 0⟩
  · rw [PrintArray.print, hfold]
    exact hput
  · rw [List.flatten_append, List.flatten_singleton]
    exact hb.strings

theorem foldl_count (color : ℕ) (chars : List UInt8) (b : PrintBuf) :
    (chars.foldl (printfPutCh color) b).count = b.count + chars.length := by
  induction chars generalizing b with
  | nil => rfl
  | cons ch chars ih =>
    have hstep : (printfPutCh color b ch).count = b.count + 1 := by
      rw [printfPutCh]
      split <;> rfl
    rw [List.foldl_cons, ih, hstep, List.length_cons, Nat.add_assoc, Nat.add_comm 1]

/-- The array does what the buffer of `vPrintf` does, up to the overflow of the count. -/
theorem print_vPrintf {m : Memory} {fmt : List UInt8} {ap : Args} (color : ℕ) (buf : ℤ → UInt8)
    (hfmt : vPrintFmt m fmt ap = some chars) (h : 0 ∉ chars) :
    ∃ b count, PrintArray.print buf chars = some b ∧ b.count = int32 (count : ℕ) ∧
      vPrintf m color fmt ap = some (b.strings.flatten.map (·, color), count) := by
  obtain ⟨b, hprint, hb⟩ := print_printed buf h
  obtain ⟨count, hcalls⟩ := vPrintf_eq color hfmt h
  have hcount : count = chars.length := by
    rw [vPrintf, hfmt, Option.map_some] at hcalls
    have hsnd := congrArg Prod.snd (Option.some.inj hcalls)
    dsimp only at hsnd
    rw [← hsnd, foldl_count, Nat.zero_add]
  refine ⟨b, count, hprint, ?_, ?_⟩
  · rw [hcount, hb.count]
  · rw [hb.strings]
    exact hcalls

/-- Print buffering is transparent, and the number of characters is returned as an `int`. -/
theorem print_transparent (buf : ℤ → UInt8) (h : 0 ∉ chars) :
    ∃ b, PrintArray.print buf chars = some b ∧ Printed b chars (int32 chars.length) ∧
      (chars.length < 2 ^ 31 → b.count = chars.length) := by
  obtain ⟨b, hprint, hb⟩ := print_printed buf h
  refine ⟨b, hprint, hb, fun hlt ↦ ?_⟩
  rw [hb.count]
  exact int32_of_bounds (by omega) (by omega)

theorem print_transparent_letters : ∃ b,
    PrintArray.print (fun _ ↦ 7) (List.replicate 1000 (byte 'a')) = some b ∧
      Printed b (List.replicate 1000 (byte 'a')) 1000 := by
  have hnul : 0 ∉ List.replicate 1000 (byte 'a') := fun h0 ↦
    absurd (List.eq_of_mem_replicate h0) (by decide)
  obtain ⟨b, hprint, hb, _⟩ := print_transparent (fun _ ↦ 7) hnul
  have hcount : int32 (1000 : ℕ) = 1000 := by decide
  rw [List.length_replicate, hcount] at hb
  exact ⟨b, hprint, hb⟩

/-- The count of so many characters is negative. -/
theorem print_count_overflow : ¬ ∀ (buf : ℤ → UInt8) (chars : List UInt8), 0 ∉ chars →
    ∃ b, PrintArray.print buf chars = some b ∧ Printed b chars chars.length := by
  intro h
  have hnul : 0 ∉ List.replicate (2 ^ 31) (byte 'a') := fun h0 ↦
    absurd (List.eq_of_mem_replicate h0) (by decide)
  obtain ⟨b, hprint, hb⟩ := h (fun _ ↦ 0) _ hnul
  obtain ⟨b', hprint', hb'⟩ := print_printed (fun _ ↦ 0) hnul
  obtain rfl := Option.some.inj (hprint.symm.trans hprint')
  have hcount := hb.count.symm.trans hb'.count
  rw [List.length_replicate] at hcount
  exact absurd hcount (by decide)

end StormOS.Printf
