import StormOS.Numerals

namespace StormOS.Printf

open Library.Bytes Library.Strings Machine Division

/-- What `VPrintFmt` leaves when it returns: the characters it gave to `putCh`, the arguments that
it has not taken, and the addresses at which it read the format. -/
structure Formatted where
  out : List UInt8
  ap : Args
  reads : List ℕ

def Formatted.after (out : List UInt8) (reads : List ℕ) (r : Formatted) : Formatted :=
  ⟨out ++ r.out, r.ap, reads ++ r.reads⟩

/-- The loop that looks backwards for a `%`, with the addresses it reads. -/
def rewind (m : Memory) : ℕ → ℕ × List ℕ
  | 0 => (0, [])
  | fmt + 1 =>
    if m fmt = byte '%' then (fmt + 1, [fmt])
    else
      let (fmt', reads) := rewind m fmt
      (fmt', fmt :: reads)

/-- `VPrintFmt` with its pointer into the format, for at most `fuel` rounds. The library of the user
programs has the same code. -/
def vPrintFmtAt (m : Memory) : ℕ → ℕ → Args → Option Formatted
  | 0, _, _ => none
  | fuel + 1, fmt, ap =>
    let ch := m fmt
    if ch ≠ byte '%' then
      if ch = 0 then some ⟨[], ap, [fmt]⟩
      else (vPrintFmtAt m fuel (fmt + 1) ap).map (Formatted.after [ch] [fmt])
    else
      match conversion (m (fmt + 1)) with
      | some c =>
        (convert m ap c).bind fun (out, ap) ↦
          (vPrintFmtAt m fuel (fmt + 2) ap).map (Formatted.after out [fmt, fmt + 1])
      | none =>
        let (fmt', reads) := rewind m (fmt + 1)
        (vPrintFmtAt m fuel fmt' ap).map
          (Formatted.after [byte '%'] ([fmt, fmt + 1] ++ reads))

inductive Piece
  | text (ch : UInt8)
  | conversion (c : Conversion)

def letters : List (UInt8 × Conversion) :=
  [(byte 'c', .char), (byte 's', .string), (byte 'd', .signed), (byte 'u', .unsigned),
    (byte 'l', .long), (byte 'o', .octal), (byte 'p', .pointer), (byte 'x', .hex)]

/-- What a format says: a `%` before one of the letters asks for an argument, before another `%` it
gives way to it, and elsewhere it stands for itself. -/
def pieces : List UInt8 → List Piece
  | [] => []
  | ch :: fmt =>
    if ch ≠ byte '%' then .text ch :: pieces fmt
    else match fmt with
      | [] => [.text (byte '%')]
      | conv :: fmt' =>
        if conv = byte '%' then .text (byte '%') :: pieces fmt'
        else match letters.lookup conv with
          | some c => .conversion c :: pieces fmt'
          | none => .text (byte '%') :: pieces (conv :: fmt')

/-- An argument takes one word of the list, or two if it is a `uint64`. A pointer to a string comes
with its characters. -/
inductive Arg
  | word (w : ℕ)
  | long (v : ℕ)
  | string (p : ℕ) (str : List UInt8)

def Arg.words : Arg → List ℕ
  | .word w => [w]
  | .long v => [v % 2 ^ 32, v / 2 ^ 32]
  | .string p _ => [p]

/-- The argument has the type that the conversion asks for. A string is null or ends. -/
def Arg.Fits (m : Memory) : Conversion → Arg → Prop
  | .percent, _ => False
  | .long, .long v => v < 2 ^ 64
  | .long, _ => False
  | .string, .string p str => p < 2 ^ 32 ∧ (p = 0 ∨ StringAt (fun x ↦ m (u32 x)) p str)
  | .string, _ => False
  | _, .word w => w < 2 ^ 32
  | _, _ => False

/-- An `int` in decimal. The least one comes out as its negation extended to 64 bits. -/
def intText (n : ℤ) : List UInt8 :=
  if n = -2 ^ 31 then byte '-' :: numeral 10 (2 ^ 64 - 2 ^ 31) else signedText n

def Arg.text : Conversion → Arg → List UInt8
  | .char, .word w => [UInt8.ofNat w]
  | .string, .string p str => if p = 0 then "(null)".toList.map byte else str
  | .signed, .word w => intText (int32 w)
  | .unsigned, .word w => numeral 10 w
  | .long, .long v => numeral 16 v
  | .octal, .word w => numeral 8 w
  | .pointer, .word w => byte '0' :: byte 'x' :: numeral 16 w
  | .hex, .word w => numeral 16 w
  | _, _ => []

def Matches (m : Memory) : List Piece → List Arg → Prop
  | [], args => args = []
  | .text _ :: ps, args => Matches m ps args
  | .conversion _ :: _, [] => False
  | .conversion c :: ps, arg :: args => arg.Fits m c ∧ Matches m ps args

def expand : List Piece → List Arg → List UInt8
  | .text ch :: ps, args => ch :: expand ps args
  | .conversion c :: ps, arg :: args => arg.text c ++ expand ps args
  | _, _ => []

variable {m : Memory} {a fuel : ℕ} {fmt : List UInt8} {ap : Args} {arg : Arg} {args : List Arg}

theorem Args.push_append (ws ws' : List ℕ) (ap : Args) :
    ap.push (ws ++ ws') = (ap.push ws').push ws := by
  funext i
  rcases lt_or_ge i ws.length with hi | hi
  · rw [push, push, List.getD_append _ _ _ _ hi, List.getD_eq_getElem _ _ hi,
      List.getD_eq_getElem _ _ hi]
  · rw [push, push, push, List.getD_append_right _ _ _ _ hi, List.getD_eq_default ws _ hi,
      List.length_append, Nat.sub_sub]

section Steps

variable {ch conv : UInt8} {c : Conversion}

theorem lookup_letters (h : conv ≠ byte '%') : letters.lookup conv = conversion conv := by
  have hlookup (k : UInt8) (c : Conversion) (rest : List (UInt8 × Conversion)) :
      List.lookup conv ((k, c) :: rest) = if conv = k then some c else rest.lookup conv := by
    by_cases hk : conv = k
    · rw [hk, List.lookup_cons_self, if_pos rfl]
    · rw [List.lookup_cons, beq_false_of_ne hk, if_neg hk]
  simp only [letters, hlookup, List.lookup_nil, conversion, h, if_false]

theorem pieces_text (h : ch ≠ byte '%') : pieces (ch :: fmt) = .text ch :: pieces fmt := by
  rw [pieces.eq_def]
  exact if_pos h

theorem pieces_percent : pieces (byte '%' :: byte '%' :: fmt) = .text (byte '%') :: pieces fmt := by
  rw [pieces.eq_def]
  rfl

theorem pieces_convert (h : conversion conv = some c) (hc : conv ≠ byte '%') :
    pieces (byte '%' :: conv :: fmt) = .conversion c :: pieces fmt := by
  rw [pieces.eq_def]
  dsimp only
  rw [if_neg (not_not.mpr rfl), if_neg hc, lookup_letters hc, h]

theorem pieces_unknown (h : conversion conv = none) :
    pieces (byte '%' :: conv :: fmt) = .text (byte '%') :: pieces (conv :: fmt) := by
  have hc : conv ≠ byte '%' := fun hpct ↦ by
    rw [hpct] at h
    cases h
  rw [pieces.eq_def]
  dsimp only
  rw [if_neg (not_not.mpr rfl), if_neg hc, lookup_letters hc, h]

theorem vPrintFmtAt_nul (h : m a = 0) : vPrintFmtAt m (fuel + 1) a ap = some ⟨[], ap, [a]⟩ := by
  have hne : m a ≠ byte '%' := by rw [h]; decide
  rw [vPrintFmtAt, if_pos hne, if_pos h]

theorem vPrintFmtAt_text (h : m a ≠ byte '%') (h0 : m a ≠ 0) :
    vPrintFmtAt m (fuel + 1) a ap =
      (vPrintFmtAt m fuel (a + 1) ap).map (Formatted.after [m a] [a]) := by
  rw [vPrintFmtAt, if_pos h, if_neg h0]

theorem vPrintFmtAt_convert (h : m a = byte '%') (hc : conversion (m (a + 1)) = some c) :
    vPrintFmtAt m (fuel + 1) a ap = (convert m ap c).bind fun (out, ap) ↦
      (vPrintFmtAt m fuel (a + 2) ap).map (Formatted.after out [a, a + 1]) := by
  rw [vPrintFmtAt, if_neg (not_not.mpr h), hc]

/-- The loop backwards stops where it starts, since the character before is the `%`. -/
theorem vPrintFmtAt_unknown (h : m a = byte '%') (hc : conversion (m (a + 1)) = none) :
    vPrintFmtAt m (fuel + 1) a ap =
      (vPrintFmtAt m fuel (a + 1) ap).map (Formatted.after [byte '%'] [a, a + 1, a]) := by
  have hrewind : rewind m (a + 1) = (a + 1, [a]) := by rw [rewind, if_pos h]
  rw [vPrintFmtAt, if_neg (not_not.mpr h), hc, hrewind]
  rfl

end Steps

/-- At a format in memory, the characters are those of the format as a list. -/
theorem vPrintFmtAt_out (h : StringAt m a fmt) (hfuel : fmt.length < fuel) (ap : Args) :
    (vPrintFmtAt m fuel a ap).map Formatted.out = vPrintFmt m fmt ap := by
  induction fmt using format_cases generalizing a ap fuel with
  | nil =>
    obtain ⟨fuel, rfl⟩ := Nat.exists_eq_add_one_of_ne_zero (Nat.ne_of_gt hfuel)
    rw [vPrintFmtAt_nul h]
    rfl
  | text ch fmt hch ih =>
    obtain ⟨rfl, hne, hrest⟩ := h
    obtain ⟨fuel, rfl⟩ := Nat.exists_eq_add_one_of_ne_zero (Nat.ne_zero_of_lt hfuel)
    rw [vPrintFmtAt_text hch hne, vPrintFmt_text hch, ← ih hrest (Nat.lt_of_succ_lt_succ hfuel),
      Option.map_map, Option.map_map]
    rfl
  | percent =>
    obtain ⟨hpct, hne, hnul⟩ := h
    obtain ⟨fuel, rfl⟩ := Nat.exists_eq_add_of_le' (show 2 ≤ fuel from hfuel)
    have hnone : conversion (m (a + 1)) = none := congrArg conversion hnul
    rw [vPrintFmtAt_unknown hpct hnone, vPrintFmtAt_nul hnul]
    rfl
  | convert conv c fmt hc ih =>
    obtain ⟨hpct, hne, rfl, hne', hrest⟩ := h
    obtain ⟨fuel, rfl⟩ := Nat.exists_eq_add_one_of_ne_zero (Nat.ne_zero_of_lt hfuel)
    have hlt : fmt.length < fuel := by
      rw [List.length_cons, List.length_cons] at hfuel
      omega
    rw [vPrintFmtAt_convert hpct hc, vPrintFmt_convert hc]
    cases convert m ap c with
    | none => rfl
    | some r =>
      obtain ⟨out, ap'⟩ := r
      rw [Option.bind_some, Option.bind_some]
      dsimp only
      rw [← ih hrest hlt, Option.map_map, Option.map_map]
      rfl
  | unknown conv fmt hc ih =>
    obtain ⟨hpct, hne, hrest⟩ := h
    obtain ⟨fuel, rfl⟩ := Nat.exists_eq_add_one_of_ne_zero (Nat.ne_zero_of_lt hfuel)
    have hnone : conversion (m (a + 1)) = none := by rw [hrest.1]; exact hc
    rw [vPrintFmtAt_unknown hpct hnone, vPrintFmt_unknown hc,
      ← ih hrest (Nat.lt_of_succ_lt_succ hfuel), Option.map_map, Option.map_map]
    rfl

theorem signedDecimal_intText (w : ℕ) : signedDecimal (int32 w) = intText (int32 w) := by
  have hlo : -2 ^ 31 ≤ int32 w := Int.le_bmod (by decide)
  have hhi : int32 w < 2 ^ 31 := Int.bmod_lt (by decide)
  rw [intText]
  split
  · rename_i hleast
    rw [hleast, signedDecimal_least]
  · exact signedDecimal_eq (by omega) hhi

theorem convert_word {c : Conversion} {w : ℕ} (h : (Arg.word w).Fits m c) (ap : Args) :
    convert m (ap.push [w]) c = some ((Arg.word w).text c, ap) := by
  have hrest : (ap.push [w]).rest 1 = ap := Args.rest_push [w] ap
  have hword : ap.push [w] 0 = w := rfl
  cases c with
  | percent | long | string => exact absurd h not_false
  | char => rw [convert, hrest, hword, Arg.text]
  | signed => rw [convert, hrest, hword, Arg.text, signedDecimal_intText]
  | unsigned | octal | pointer | hex =>
    have hw : w < 2 ^ 32 := h
    rw [convert, hrest, printNum_eq, hword, u32_of_lt hw, Arg.text]

theorem convert_arg {c : Conversion} (h : arg.Fits m c) (ap : Args) :
    convert m (ap.push arg.words) c = some (arg.text c, ap) := by
  cases arg with
  | word w => exact convert_word h ap
  | long v =>
    cases c with
    | long =>
      have hv : v < 2 ^ 64 := h
      have hjoin : u64 (u32 (v % 2 ^ 32) + u32 (v / 2 ^ 32) * 2 ^ 32) = v := by
        rw [u64, u32, u32]
        omega
      have hlow : ap.push [v % 2 ^ 32, v / 2 ^ 32] 0 = v % 2 ^ 32 := rfl
      have hhigh : ap.push [v % 2 ^ 32, v / 2 ^ 32] 1 = v / 2 ^ 32 := rfl
      have hrest : (ap.push [v % 2 ^ 32, v / 2 ^ 32]).rest 2 = ap := Args.rest_push _ ap
      rw [Arg.words, convert, hrest, printNum_eq, hlow, hhigh, hjoin, Arg.text]
    | _ => exact absurd h not_false
  | string p str =>
    cases c with
    | string =>
      obtain ⟨hp, hend⟩ := h
      have hword : u32 (ap.push [p] 0) = p := u32_of_lt hp
      have hrest : (ap.push [p]).rest 1 = ap := Args.rest_push [p] ap
      rw [Arg.words, convert, hword, hrest, Arg.text]
      by_cases h0 : p = 0
      · rw [if_pos h0, if_pos h0]
      · rw [if_neg h0, if_neg h0, cString_of_stringAt (hend.resolve_left h0)]
        rfl
    | _ => exact absurd h not_false

def Within (a n : ℕ) (reads : List ℕ) : Prop := ∀ x ∈ reads, a ≤ x ∧ x ≤ a + n

theorem Within.append {a n k : ℕ} {reads reads' : List ℕ} (h : Within a (n + k) reads)
    (h' : Within (a + k) n reads') : Within a (n + k) (reads ++ reads') := by
  intro x hx
  rcases List.mem_append.mp hx with hx | hx
  · exact h x hx
  · obtain ⟨hlo, hhi⟩ := h' x hx
    omega

/-- `VPrintFmt` returns, reads nothing behind the NUL of the format, takes each argument once and
prints what the format says. -/
theorem vPrintFmtAt_expands (hfmt : StringAt m a fmt) (hargs : Matches m (pieces fmt) args)
    (hfuel : fmt.length < fuel) (ap : Args) :
    ∃ reads, vPrintFmtAt m fuel a (ap.push (args.flatMap Arg.words)) =
        some ⟨expand (pieces fmt) args, ap, reads⟩ ∧ Within a fmt.length reads := by
  induction fmt using format_cases generalizing a fuel args with
  | nil =>
    obtain ⟨fuel, rfl⟩ := Nat.exists_eq_add_one_of_ne_zero (Nat.ne_zero_of_lt hfuel)
    obtain rfl : args = [] := hargs
    exact ⟨[a], vPrintFmtAt_nul hfmt, by simp [Within]⟩
  | text ch fmt hch ih =>
    obtain ⟨rfl, hne, hrest⟩ := hfmt
    obtain ⟨fuel, rfl⟩ := Nat.exists_eq_add_one_of_ne_zero (Nat.ne_zero_of_lt hfuel)
    rw [pieces_text hch] at hargs
    obtain ⟨reads, hrun, hreads⟩ := ih hrest hargs (Nat.lt_of_succ_lt_succ hfuel)
    refine ⟨[a] ++ reads, ?_, ?_⟩
    · rw [vPrintFmtAt_text hch hne, hrun, pieces_text hch]
      rfl
    · exact Within.append (by simp [Within]) hreads
  | percent =>
    obtain ⟨hpct, hne, hnul⟩ := hfmt
    obtain ⟨fuel, rfl⟩ := Nat.exists_eq_add_of_le' (show 2 ≤ fuel from hfuel)
    have hnone : conversion (m (a + 1)) = none := congrArg conversion hnul
    obtain rfl : args = [] := hargs
    refine ⟨[a, a + 1, a] ++ [a + 1], ?_, by simp [Within]⟩
    rw [vPrintFmtAt_unknown hpct hnone, vPrintFmtAt_nul hnul]
    rfl
  | convert conv c fmt hc ih =>
    obtain ⟨hpct, hne, rfl, hne', hrest⟩ := hfmt
    obtain ⟨fuel, rfl⟩ := Nat.exists_eq_add_one_of_ne_zero (Nat.ne_zero_of_lt hfuel)
    have hlt : fmt.length < fuel := by
      rw [List.length_cons, List.length_cons] at hfuel
      omega
    by_cases hpercent : m (a + 1) = byte '%'
    · obtain rfl : c = .percent := by
        rw [hpercent] at hc
        exact (Option.some.inj hc).symm
      rw [hpercent, pieces_percent] at hargs
      obtain ⟨reads, hrun, hreads⟩ := ih hrest hargs hlt
      refine ⟨[a, a + 1] ++ reads, ?_, ?_⟩
      · rw [vPrintFmtAt_convert hpct hc, hpercent, pieces_percent, convert, Option.bind_some]
        dsimp only
        rw [hrun]
        rfl
      · exact Within.append (k := 2) (by simp [Within]) hreads
    · rw [pieces_convert hc hpercent] at hargs
      cases args with
      | nil => exact absurd hargs not_false
      | cons arg args =>
        obtain ⟨hfit, hargs⟩ := hargs
        obtain ⟨reads, hrun, hreads⟩ := ih hrest hargs hlt
        refine ⟨[a, a + 1] ++ reads, ?_, ?_⟩
        · rw [vPrintFmtAt_convert hpct hc, pieces_convert hc hpercent, List.flatMap_cons,
            Args.push_append, convert_arg hfit, Option.bind_some]
          dsimp only
          rw [hrun]
          rfl
        · exact Within.append (k := 2) (by simp [Within]) hreads
  | unknown conv fmt hc ih =>
    obtain ⟨hpct, hne, hrest⟩ := hfmt
    obtain ⟨fuel, rfl⟩ := Nat.exists_eq_add_one_of_ne_zero (Nat.ne_zero_of_lt hfuel)
    have hnone : conversion (m (a + 1)) = none := by rw [hrest.1]; exact hc
    rw [pieces_unknown hc] at hargs
    obtain ⟨reads, hrun, hreads⟩ := ih hrest hargs (Nat.lt_of_succ_lt_succ hfuel)
    refine ⟨[a, a + 1, a] ++ reads, ?_, ?_⟩
    · rw [vPrintFmtAt_unknown hpct hnone, hrun, pieces_unknown hc]
      rfl
    · exact Within.append (by simp [Within]) hreads

def escapes : List UInt8 :=
  [byte '%', byte 'c', byte '%', byte 's', byte '%', byte 's', byte '%', byte 'd', byte '%', byte 'q',
    byte '%', byte '%', byte '%']

/-- The format at 100, and a string at 200. -/
def escapesMemory : Memory := fun x ↦
  if x < 200 then escapes.getD (x - 100) 0 else [byte 'o', byte 'k'].getD (x - 200) 0

theorem pieces_escapes : pieces escapes =
    [.conversion .char, .conversion .string, .conversion .string, .conversion .signed,
      .text (byte '%'), .text (byte 'q'), .text (byte '%'), .text (byte '%')] := by
  rw [escapes, pieces_convert (c := .char) rfl (by decide),
    pieces_convert (c := .string) rfl (by decide), pieces_convert (c := .string) rfl (by decide),
    pieces_convert (c := .signed) rfl (by decide), pieces_unknown rfl, pieces_text (by decide),
    pieces_percent]
  rfl

theorem stringAt_escapesMemory :
    StringAt (fun x ↦ escapesMemory (u32 x)) 200 [byte 'o', byte 'k'] := by
  refine ⟨?_, by decide, ?_, by decide, ?_⟩
  · exact congrArg escapesMemory (u32_of_lt (x := 200) (by decide))
  · exact congrArg escapesMemory (u32_of_lt (x := 201) (by decide))
  · exact congrArg escapesMemory (u32_of_lt (x := 202) (by decide))

theorem vPrintFmtAt_expands_escapes : ∃ reads,
    vPrintFmtAt escapesMemory 14 100 (Args.push [65, 0, 200, 4294967291] fun _ ↦ 7) =
      some ⟨"A(null)ok-5%q%%".toList.map byte, fun _ ↦ 7, reads⟩ ∧ Within 100 13 reads := by
  have hargs : Matches escapesMemory (pieces escapes)
      [.word 65, .string 0 [], .string 200 [byte 'o', byte 'k'], .word 4294967291] := by
    rw [pieces_escapes]
    exact ⟨show 65 < 2 ^ 32 by decide, ⟨by decide, .inl rfl⟩,
      ⟨by decide, .inr stringAt_escapesMemory⟩, show 4294967291 < 2 ^ 32 by decide, rfl⟩
  have hformat : StringAt escapesMemory 100 escapes := by decide
  have hminus : intText (int32 (4294967291 : ℕ)) = [byte '-', byte '5'] := by
    have hint : int32 (4294967291 : ℕ) = -5 := by decide
    rw [hint]
    decide
  obtain ⟨reads, hrun, hreads⟩ :=
    vPrintFmtAt_expands hformat hargs (show escapes.length < 14 by decide) fun _ ↦ 7
  refine ⟨reads, hrun.trans ?_, hreads⟩
  rw [pieces_escapes]
  simp only [expand, Arg.text, hminus]
  rfl

end StormOS.Printf
