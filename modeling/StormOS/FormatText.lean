import StormOS.Printf
import StormOS.Library.Strings
import Mathlib.Data.List.Chain
import Mathlib.Data.List.TakeWhile

namespace StormOS.Printf

open Library.Bytes Library.Loops Library.Strings Machine Division

variable {m : Memory} {color : ℕ} {ap : Args} {fmt str chars : List UInt8} {b : PrintBuf}

theorem cString_of_stringAt {a : ℕ} (h : StringAt (fun x ↦ m (u32 x)) a str) :
    cString m a = some str := by
  obtain ⟨hbytes, hstr, hnul⟩ := stringAt_iff.mp h
  have hne (i : ℕ) (hi : i < str.length) : m (u32 (a + i)) ≠ 0 := by
    intro h0
    have hbyte : 0 = str[i] := h0.symm.trans (hbytes i hi)
    exact hstr (hbyte ▸ List.getElem_mem hi)
  have hlen : str.length < 2 ^ 32 := by
    by_contra hge
    -- a longer string would meet its own NUL when the addresses come round
    have hround : u32 (a + (str.length - 2 ^ 32)) = u32 (a + str.length) := by
      rw [u32, u32]
      omega
    refine hne (str.length - 2 ^ 32) (by omega) ?_
    rw [hround]
    exact hnul
  have hscan : scan (fun i ↦ m (u32 (a + i)) = 0) 0 (2 ^ 32) = some str.length :=
    scan_of_first (Nat.zero_le _) hlen (decide_eq_true hnul) fun i _ hi ↦ decide_eq_false (hne i hi)
  rw [cString, hscan, Option.map_some, Option.some.injEq]
  apply List.ext_getElem (by simp)
  intro i _ hi
  rw [List.getElem_map, List.getElem_range]
  exact hbytes i hi

theorem putStr_eq (h : 0 ∉ str) : putStr str color = str.map (·, color) := by
  have hall : str.takeWhile (· ≠ 0) = str := by
    rw [List.takeWhile_eq_self_iff]
    intro ch hch
    have hne : ch ≠ 0 := fun h0 ↦ h (h0 ▸ hch)
    simpa using hne
  rw [putStr, hall]

/-- The calls made so far and those that the buffer will lead to. -/
def PrintBuf.written (b : PrintBuf) (color : ℕ) : List (UInt8 × ℕ) :=
  b.calls ++ b.buf.map (·, color)

theorem printfPutCh_written (color : ℕ) {ch : UInt8} (hb : 0 ∉ b.buf) (hch : ch ≠ 0) :
    (printfPutCh color b ch).written color = b.written color ++ [(ch, color)] ∧
      0 ∉ (printfPutCh color b ch).buf := by
  have hbuf : 0 ∉ b.buf ++ [ch] := by simp [hb, hch.symm]
  rw [printfPutCh]
  split
  · simp [PrintBuf.written, putStr_eq hbuf]
  · simpa [PrintBuf.written] using hbuf

theorem foldl_written (color : ℕ) (hb : 0 ∉ b.buf) (hchars : 0 ∉ chars) :
    (chars.foldl (printfPutCh color) b).written color =
        b.written color ++ chars.map (·, color) ∧
      0 ∉ (chars.foldl (printfPutCh color) b).buf := by
  induction chars generalizing b with
  | nil => simp [hb]
  | cons ch chars ih =>
    obtain ⟨hch, hchars⟩ := not_or.mp (mt List.mem_cons.mpr hchars)
    obtain ⟨hwritten, hbuf⟩ := printfPutCh_written color hb (Ne.symm hch)
    obtain ⟨hrest, hbuf'⟩ := ih hbuf hchars
    refine ⟨?_, hbuf'⟩
    rw [List.foldl_cons, hrest, hwritten, List.map_cons, List.append_assoc, List.singleton_append]

theorem vPrintf_eq (color : ℕ) (h : vPrintFmt m fmt ap = some chars) (hchars : 0 ∉ chars) :
    ∃ count, vPrintf m color fmt ap = some (chars.map (·, color), count) := by
  obtain ⟨hwritten, hbuf⟩ :=
    foldl_written (b := ⟨[], 0, []⟩) color List.not_mem_nil hchars
  refine ⟨(chars.foldl (printfPutCh color) ⟨[], 0, []⟩).count, ?_⟩
  rw [vPrintf, h, Option.map_some]
  dsimp only
  rw [putStr_eq hbuf]
  exact congrArg some (Prod.ext hwritten rfl)

/-- A format string in which no `%` starts an escape sequence with a meaning. -/
def Literal (fmt : List UInt8) : Prop :=
  fmt.IsChain fun ch conv ↦ ¬ (ch = byte '%' ∧ (conversion conv).isSome)

section Steps

variable {ch conv : UInt8} {c : Conversion}

theorem vPrintFmt_text (h : ch ≠ byte '%') :
    vPrintFmt m (ch :: fmt) ap = (vPrintFmt m fmt ap).map (ch :: ·) := by
  rw [vPrintFmt.eq_def]
  exact if_pos h

theorem vPrintFmt_convert (h : conversion conv = some c) :
    vPrintFmt m (byte '%' :: conv :: fmt) ap = (convert m ap c).bind fun (out, ap) ↦
      (vPrintFmt m fmt ap).map (out ++ ·) := by
  rw [vPrintFmt.eq_def]
  dsimp only
  rw [if_neg (not_not.mpr rfl), h]

theorem vPrintFmt_unknown (h : conversion conv = none) :
    vPrintFmt m (byte '%' :: conv :: fmt) ap =
      (vPrintFmt m (conv :: fmt) ap).map (byte '%' :: ·) := by
  rw [vPrintFmt.eq_def]
  dsimp only
  rw [if_neg (not_not.mpr rfl), h]

end Steps

theorem vPrintFmt_literal (h : Literal fmt) : vPrintFmt m fmt ap = some fmt := by
  induction fmt with
  | nil => rfl
  | cons ch fmt ih =>
    by_cases hch : ch ≠ byte '%'
    · rw [vPrintFmt_text hch, ih h.tail, Option.map_some]
    · rw [not_not] at hch
      subst hch
      cases fmt with
      | nil => rfl
      | cons conv fmt =>
        have hnone : conversion conv = none := by simpa using h.rel
        rw [vPrintFmt_unknown hnone, ih h.tail, Option.map_some]

section Sample

/-- Arguments for which a conversion prints text that is not the text of the format. -/
def sampleArgs : Conversion → List ℕ
  | .char => [65]
  | .long => [0, 0]
  | .percent => []
  | _ => [0]

def sampleText : Conversion → List UInt8
  | .char => [byte 'A']
  | .string => "(null)".toList.map byte
  | .pointer => [byte '0', byte 'x', byte '0']
  | .percent => [byte '%']
  | _ => [byte '0']

def Args.push (ws : List ℕ) (ap : Args) : Args := fun i ↦ ws.getD i (ap (i - ws.length))

theorem Args.rest_push (ws : List ℕ) (ap : Args) : (ap.push ws).rest ws.length = ap := by
  funext i
  rw [Args.rest, Args.push, List.getD_eq_default _ _ (by omega), Nat.add_sub_cancel]

theorem printNum_zero (base : Base) {num : ℕ} (h : num < 2 ^ 64) (hnum : num = 0) :
    printNum base num h = [byte '0'] := by
  subst hnum
  have h2 := base.two_le
  have h16 := base.le_sixteen
  rw [printNum, dif_neg (by omega), modulo64by32_eq h (by omega) (by omega), Nat.zero_mod]
  rfl

theorem signedDecimal_zero : signedDecimal (int32 ((0 : ℕ) : ℤ)) = [byte '0'] := by
  have h0 : int32 ((0 : ℕ) : ℤ) = 0 := int32_of_bounds (by decide) (by decide)
  rw [h0, signedDecimal, if_neg (by decide)]
  exact printNum_zero decimal _ rfl

theorem convert_sample (m : Memory) (ap : Args) (c : Conversion) :
    convert m (ap.push (sampleArgs c)) c = some (sampleText c, ap) := by
  have hrest := Args.rest_push (sampleArgs c) ap
  cases c with
  | char => exact congrArg some (Prod.ext rfl hrest)
  | string => exact congrArg some (Prod.ext rfl hrest)
  | signed =>
    have hword : ap.push (sampleArgs .signed) 0 = 0 := rfl
    rw [convert, hword, signedDecimal_zero]
    exact congrArg (fun ap ↦ some ([byte '0'], ap)) hrest
  | unsigned => exact congrArg some (Prod.ext (printNum_zero decimal _ rfl) hrest)
  | long =>
    have hzero : u64 (u32 0 + u32 0 * 2 ^ 32) = 0 := by decide
    exact congrArg some (Prod.ext (printNum_zero hexadecimal _ hzero) hrest)
  | octal => exact congrArg some (Prod.ext (printNum_zero octal _ rfl) hrest)
  | pointer =>
    exact congrArg some (Prod.ext (congrArg (byte '0' :: byte 'x' :: ·)
      (printNum_zero hexadecimal _ rfl)) hrest)
  | hex => exact congrArg some (Prod.ext (printNum_zero hexadecimal _ rfl) hrest)
  | percent => rfl

/-- The stack on which a format string finds these arguments, and what it then prints. -/
def sample : List UInt8 → Args × List UInt8
  | [] => (fun _ ↦ 0, [])
  | ch :: fmt =>
    if ch ≠ byte '%' then ((sample fmt).1, ch :: (sample fmt).2)
    else match fmt with
      | [] => (fun _ ↦ 0, [byte '%'])
      | conv :: fmt' =>
        match conversion conv with
        | some c => ((sample fmt').1.push (sampleArgs c), sampleText c ++ (sample fmt').2)
        | none => ((sample (conv :: fmt')).1, byte '%' :: (sample (conv :: fmt')).2)

variable {ch conv : UInt8} {c : Conversion}

theorem sample_text (h : ch ≠ byte '%') :
    sample (ch :: fmt) = ((sample fmt).1, ch :: (sample fmt).2) := by
  rw [sample.eq_def]
  exact if_pos h

theorem sample_convert (h : conversion conv = some c) : sample (byte '%' :: conv :: fmt) =
    ((sample fmt).1.push (sampleArgs c), sampleText c ++ (sample fmt).2) := by
  rw [sample.eq_def]
  dsimp only
  rw [if_neg (not_not.mpr rfl), h]

theorem sample_unknown (h : conversion conv = none) : sample (byte '%' :: conv :: fmt) =
    ((sample (conv :: fmt)).1, byte '%' :: (sample (conv :: fmt)).2) := by
  rw [sample.eq_def]
  dsimp only
  rw [if_neg (not_not.mpr rfl), h]

theorem format_cases {P : List UInt8 → Prop} (nil : P [])
    (text : ∀ ch fmt, ch ≠ byte '%' → P fmt → P (ch :: fmt)) (percent : P [byte '%'])
    (convert : ∀ conv c fmt, conversion conv = some c → P fmt → P (byte '%' :: conv :: fmt))
    (unknown : ∀ conv fmt, conversion conv = none → P (conv :: fmt) →
      P (byte '%' :: conv :: fmt)) (fmt : List UInt8) : P fmt := by
  induction hn : fmt.length using Nat.strong_induction_on generalizing fmt with
  | _ n ih =>
    cases fmt with
    | nil => exact nil
    | cons ch fmt =>
      by_cases hch : ch ≠ byte '%'
      · exact text ch fmt hch (ih fmt.length (by simp [← hn]) fmt rfl)
      · rw [not_not] at hch
        subst hch
        cases fmt with
        | nil => exact percent
        | cons conv fmt =>
          cases hc : conversion conv with
          | some c =>
            have hlt : fmt.length < n := by
              rw [← hn, List.length_cons, List.length_cons]
              omega
            exact convert conv c fmt hc (ih _ hlt fmt rfl)
          | none => exact unknown conv fmt hc (ih (fmt.length + 1) (by simp [← hn]) _ rfl)

theorem vPrintFmt_sample (m : Memory) (fmt : List UInt8) :
    vPrintFmt m fmt (sample fmt).1 = some (sample fmt).2 := by
  induction fmt using format_cases with
  | nil => rfl
  | text ch fmt hch ih => rw [sample_text hch, vPrintFmt_text hch, ih, Option.map_some]
  | percent => rfl
  | convert conv c fmt hc ih =>
    rw [sample_convert hc, vPrintFmt_convert hc, convert_sample, Option.bind_some]
    dsimp only
    rw [ih, Option.map_some]
  | unknown conv fmt hc ih =>
    rw [sample_unknown hc, vPrintFmt_unknown hc, ih, Option.map_some]

theorem sample_no_nul (h : 0 ∉ fmt) : 0 ∉ (sample fmt).2 := by
  induction fmt using format_cases with
  | nil => exact h
  | text ch fmt hch ih =>
    rw [sample_text hch, List.mem_cons, not_or]
    rw [List.mem_cons, not_or] at h
    exact ⟨h.1, ih h.2⟩
  | percent => exact h
  | convert conv c fmt hc ih =>
    rw [sample_convert hc, List.mem_append, not_or]
    rw [List.mem_cons, List.mem_cons, not_or, not_or] at h
    refine ⟨?_, ih h.2.2⟩
    cases c <;> decide
  | unknown conv fmt hc ih =>
    rw [sample_unknown hc, List.mem_cons, not_or]
    rw [List.mem_cons, not_or] at h
    exact ⟨h.1, ih h.2⟩

theorem literal_cons (h : ch ≠ byte '%') : Literal (ch :: fmt) ↔ Literal fmt := by
  cases fmt with
  | nil => exact iff_of_true (List.isChain_singleton _) List.isChain_nil
  | cons conv fmt =>
    rw [Literal, List.isChain_cons_cons]
    exact and_iff_right fun hp ↦ h hp.1

theorem literal_unknown (h : conversion conv = none) :
    Literal (byte '%' :: conv :: fmt) ↔ Literal (conv :: fmt) := by
  rw [Literal, List.isChain_cons_cons]
  exact and_iff_right fun hp ↦ by simp [h] at hp

theorem sampleText_head (c : Conversion) :
    c = .percent ∨ ∃ ch text, sampleText c = ch :: text ∧ ch ≠ byte '%' := by
  cases c with
  | percent => exact .inl rfl
  | char => exact .inr ⟨_, _, rfl, by decide⟩
  | string => exact .inr ⟨_, _, rfl, by decide⟩
  | signed => exact .inr ⟨_, _, rfl, by decide⟩
  | unsigned => exact .inr ⟨_, _, rfl, by decide⟩
  | long => exact .inr ⟨_, _, rfl, by decide⟩
  | octal => exact .inr ⟨_, _, rfl, by decide⟩
  | pointer => exact .inr ⟨_, _, rfl, by decide⟩
  | hex => exact .inr ⟨_, _, rfl, by decide⟩

theorem conversion_percent (h : conversion conv = some .percent) : conv = byte '%' := by
  grind [conversion]

/-- What is printed never catches up with a format that is some `%` ahead, nor with one that has
an escape sequence. -/
theorem sample_append_ne {O E : List UInt8}
    (hOE : ∀ n > 0, O ≠ List.replicate n (byte '%') ++ E) (n : ℕ) (h : 0 < n ∨ ¬ Literal fmt) :
    (sample fmt).2 ++ O ≠ List.replicate n (byte '%') ++ (fmt ++ E) := by
  have hshift (n : ℕ) (l : List UInt8) : List.replicate n (byte '%') ++ byte '%' :: l =
      byte '%' :: (List.replicate n (byte '%') ++ l) := by
    rw [← List.singleton_append, ← List.append_assoc, ← List.replicate_succ',
      List.replicate_succ, List.cons_append]
  induction fmt using format_cases generalizing n with
  | nil => exact hOE n (h.resolve_right fun hl ↦ hl List.isChain_nil)
  | text ch fmt hch ih =>
    rw [sample_text hch]
    cases n with
    | zero =>
      rw [literal_cons hch] at h
      exact fun he ↦ ih 0 h (List.cons.inj he).2
    | succ n => exact fun he ↦ hch (List.cons.inj he).1
  | percent =>
    have hn : 0 < n := h.resolve_right fun hl ↦ hl (List.isChain_singleton _)
    rw [List.singleton_append, hshift]
    exact fun he ↦ hOE n hn (List.cons.inj he).2
  | convert conv c fmt hc ih =>
    rw [sample_convert hc, List.cons_append, hshift]
    rcases sampleText_head c with rfl | ⟨ch, text, htext, hne⟩
    · have hconv := conversion_percent hc
      subst hconv
      rw [List.cons_append, hshift]
      intro he
      exact ih (n + 1) (.inl n.succ_pos) (List.cons.inj he).2
    · dsimp only
      rw [htext]
      exact fun he ↦ hne (List.cons.inj he).1
  | unknown conv fmt hc ih =>
    rw [sample_unknown hc, List.cons_append, List.cons_append, hshift]
    rw [literal_unknown hc] at h
    exact fun he ↦ ih n h (List.cons.inj he).2

end Sample

end StormOS.Printf
