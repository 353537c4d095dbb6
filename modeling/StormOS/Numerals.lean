import StormOS.FormatText

namespace StormOS.Printf

open Library.Bytes Machine Division

def digitValue (ch : UInt8) : ℕ := if ch < 0x3A then ch.toNat - 0x30 else ch.toNat - 0x57

def evaluate (base : ℕ) (digits : List UInt8) : ℕ :=
  digits.foldl (fun n ch ↦ n * base + digitValue ch) 0

def numeral (base n : ℕ) : List UInt8 := (Nat.toDigits base n).map byte

theorem digitValue_digitChar {d : ℕ} (hd : d < 16) : digitValue (byte (Nat.digitChar d)) = d := by
  have hall : ∀ d < 16, digitValue (byte (Nat.digitChar d)) = d := by decide
  exact hall d hd

theorem numeral_eq {base : ℕ} (hbase : 1 < base) (n : ℕ) : numeral base n =
    (if n < base then [] else numeral base (n / base)) ++ [byte (Nat.digitChar (n % base))] := by
  rw [numeral, Nat.toDigits_eq_if hbase]
  by_cases hn : n < base
  · rw [if_pos hn, if_pos hn, Nat.mod_eq_of_lt hn]
    rfl
  · rw [if_neg hn, if_neg hn, List.map_append]
    rfl

theorem evaluate_numeral {base : ℕ} (hbase : 1 < base) (hbase' : base ≤ 16) (n : ℕ) :
    evaluate base (numeral base n) = n := by
  induction n using Nat.strong_induction_on with
  | _ n ih =>
    have hdigit := digitValue_digitChar ((Nat.mod_lt n (by omega)).trans_le hbase')
    rw [numeral_eq hbase, evaluate, List.foldl_append, List.foldl_cons, List.foldl_nil, hdigit]
    by_cases hn : n < base
    · rw [if_pos hn, List.foldl_nil, Nat.mod_eq_of_lt hn]
      omega
    · have hrest := ih (n / base) (Nat.div_lt_self (by omega) hbase)
      rw [evaluate] at hrest
      rw [if_neg hn, hrest, Nat.div_add_mod']

theorem numeral_length_le {n k : ℕ} (hk : 0 < k) (hn : n < 10 ^ k) :
    (numeral 10 n).length ≤ k := by
  rw [numeral, List.length_map]
  exact (Nat.length_toDigits_le_iff (by decide) hk).mpr hn

theorem numeral_head (n : ℕ) :
    ∃ d digits, d < 10 ∧ numeral 10 n = byte (Nat.digitChar d) :: digits := by
  induction n using Nat.strong_induction_on with
  | _ n ih =>
    rw [numeral_eq (by decide)]
    by_cases hn : n < 10
    · rw [if_pos hn]
      exact ⟨n % 10, [], Nat.mod_lt n (by decide), rfl⟩
    · obtain ⟨d, digits, hd, hhead⟩ := ih (n / 10) (by omega)
      rw [if_neg hn, hhead]
      exact ⟨d, _, hd, List.cons_append⟩

theorem printNum_eq (base : Base) {num : ℕ} (h : num < 2 ^ 64) :
    printNum base num h = numeral base.val num := by
  have h2 := base.two_le
  have h16 := base.le_sixteen
  induction num using Nat.strong_induction_on with
  | _ num ih =>
    rw [printNum, numeral_eq h2, modulo64by32_eq h (by omega) (by omega)]
    by_cases hlt : num < base.val
    · rw [dif_neg (by omega), if_pos hlt]
    · have hdiv : num / base.val < num := Nat.div_lt_self (by omega) h2
      rw [dif_pos (not_lt.mp hlt), if_neg hlt]
      simp only [divide64by32_eq h (show 0 < base.val by omega) (show base.val < 2 ^ 32 by omega)]
      rw [ih _ hdiv]

section Canonical

variable {base : ℕ}

def digits : List UInt8 := "0123456789abcdef".toList.map byte

/-- The one way to write a number in a base, the most significant digit first. -/
structure Canonical (base n : ℕ) (text : List UInt8) : Prop where
  text_eq : text = numeral base n
  mem_digits : ∀ ch ∈ text, ch ∈ digits.take base
  leading : text.head? = some (byte '0') → text = [byte '0'] ∧ n = 0
  value : evaluate base text = n

theorem mem_digits_numeral (hbase : 1 < base) (hbase' : base ≤ 16) (n : ℕ) :
    ∀ ch ∈ numeral base n, ch ∈ digits.take base := by
  have hdigit : ∀ base ≤ 16, ∀ d < base, byte (Nat.digitChar d) ∈ digits.take base := by decide
  induction n using Nat.strong_induction_on with
  | _ n ih =>
    intro ch hch
    rw [numeral_eq hbase] at hch
    rcases List.mem_append.mp hch with hch | hch
    · by_cases hn : n < base
      · rw [if_pos hn] at hch
        exact absurd hch List.not_mem_nil
      · rw [if_neg hn] at hch
        exact ih (n / base) (Nat.div_lt_self (by omega) hbase) ch hch
    · rw [List.mem_singleton.mp hch]
      exact hdigit base hbase' _ (Nat.mod_lt n (by omega))

theorem numeral_leading (hbase : 1 < base) (hbase' : base ≤ 16) (n : ℕ)
    (h : (numeral base n).head? = some (byte '0')) : n = 0 := by
  have hdigit : ∀ d < 16, byte (Nat.digitChar d) = byte '0' → d = 0 := by decide
  induction n using Nat.strong_induction_on with
  | _ n ih =>
    rw [numeral_eq hbase] at h
    by_cases hn : n < base
    · rw [if_pos hn, Nat.mod_eq_of_lt hn] at h
      exact hdigit n (by omega) (Option.some.inj h)
    · -- the first digit is that of a quotient that is not zero
      have hpos : 0 < n / base := Nat.div_pos (not_lt.mp hn) (by omega)
      have hne : numeral base (n / base) ≠ [] := by
        rw [numeral_eq hbase]
        exact List.append_ne_nil_of_right_ne_nil _ (List.cons_ne_nil _ _)
      rw [if_neg hn, List.head?_append_of_ne_nil _ hne] at h
      exact absurd (ih (n / base) (Nat.div_lt_self (by omega) hbase) h) hpos.ne'

theorem canonical_numeral (hbase : 1 < base) (hbase' : base ≤ 16) (n : ℕ) :
    Canonical base n (numeral base n) where
  text_eq := rfl
  mem_digits := mem_digits_numeral hbase hbase' n
  value := evaluate_numeral hbase hbase' n
  leading h := by
    obtain rfl := numeral_leading hbase hbase' n h
    refine ⟨?_, rfl⟩
    rw [numeral_eq hbase, if_pos (by omega), Nat.zero_mod]
    rfl

/-- `PrintNum` prints the canonical numeral, by divisions that are exact. The library of the user
programs has the same code. -/
theorem printNum_canonical (base : Base) (num : UInt64) :
    Canonical base.val num.toNat (printNum base num.toNat num.toNat_lt) ∧
      divide64by32 num.toNat base.val = num.toNat / base.val ∧
      modulo64by32 num.toNat base.val = num.toNat % base.val := by
  have hnum : num.toNat < 2 ^ 64 := num.toNat_lt
  have h2 := base.two_le
  have h16 := base.le_sixteen
  refine ⟨?_, divide64by32_eq hnum (by omega) (by omega),
    modulo64by32_eq hnum (by omega) (by omega)⟩
  rw [printNum_eq]
  exact canonical_numeral h2 h16 _

example : printNum octal 64 (by decide) = [byte '1', byte '0', byte '0'] := by
  rw [printNum_eq]
  decide

end Canonical

/-- The number that a text with an optional sign stands for. -/
def parseSigned : List UInt8 → ℤ
  | [] => 0
  | ch :: text => if ch = byte '-' then -(evaluate 10 text : ℤ) else evaluate 10 (ch :: text)

def signedText (n : ℤ) : List UInt8 :=
  (if n < 0 then [byte '-'] else []) ++ numeral 10 n.natAbs

/-- A minus sign only for negative numbers, then the digits of the absolute value. -/
structure PrintsSigned (n : ℤ) (text : List UInt8) : Prop where
  text_eq : text = signedText n
  length_le : text.length ≤ 11
  parse : parseSigned text = n

variable {n : ℤ}

theorem parseSigned_signedText (n : ℤ) : parseSigned (signedText n) = n := by
  have habs : evaluate 10 (numeral 10 n.natAbs) = n.natAbs :=
    evaluate_numeral (by decide) (by decide) n.natAbs
  by_cases hn : n < 0
  · rw [signedText, if_pos hn, List.singleton_append, parseSigned, if_pos rfl, habs]
    omega
  · obtain ⟨d, digits, hd, hhead⟩ := numeral_head n.natAbs
    have hdigit : ∀ d < 10, byte (Nat.digitChar d) ≠ byte '-' := by decide
    rw [signedText, if_neg hn, List.nil_append, hhead, parseSigned, if_neg (hdigit d hd), ← hhead,
      habs]
    omega

theorem printsSigned_signedText (hlo : -2 ^ 31 ≤ n) (hhi : n < 2 ^ 31) :
    PrintsSigned n (signedText n) := by
  have hdigits := numeral_length_le (n := n.natAbs) (k := 10) (by decide) (by omega)
  refine ⟨rfl, ?_, parseSigned_signedText n⟩
  rw [signedText]
  split
  · rw [List.length_append, List.length_singleton]
    omega
  · rw [List.length_append, List.length_nil]
    omega

theorem signedDecimal_eq (hlo : -2 ^ 31 < n) (hhi : n < 2 ^ 31) :
    signedDecimal n = signedText n := by
  rw [signedDecimal, signedText]
  by_cases hn : n < 0
  · have habs : u64 (int32 (-n) % 2 ^ 64).toNat = n.natAbs := by
      rw [int32_of_bounds (by omega) (by omega), u64]
      omega
    rw [if_pos hn, if_pos hn, printNum_eq, habs]
    rfl
  · have habs : u64 n.toNat = n.natAbs := by
      rw [u64]
      omega
    rw [if_neg hn, if_neg hn, printNum_eq, habs]
    rfl

/-- The least `int` is its own negation, and is extended to 64 bits with its sign. -/
theorem signedDecimal_least :
    signedDecimal (-2 ^ 31) = byte '-' :: numeral 10 (2 ^ 64 - 2 ^ 31) := by
  have hneg : u64 (int32 (- -2 ^ 31) % 2 ^ 64).toNat = 2 ^ 64 - 2 ^ 31 := by decide
  rw [signedDecimal, if_pos (by decide), printNum_eq, hneg]

theorem not_printsSigned_least : ¬ PrintsSigned (-2 ^ 31) (signedDecimal (-2 ^ 31)) := by
  intro h
  have hparse := h.parse
  rw [signedDecimal_least, parseSigned, if_pos rfl,
    evaluate_numeral (by decide) (by decide)] at hparse
  omega

theorem vPrintFmt_signed (m : Memory) (ap : Args) (w : BitVec 32) (fmt : List UInt8) :
    vPrintFmt m (byte '%' :: byte 'd' :: fmt) (ap.push [w.toNat]) =
      (vPrintFmt m fmt ap).map (signedDecimal w.toInt ++ ·) := by
  have hword : int32 ((ap.push [w.toNat] 0 : ℕ) : ℤ) = w.toInt :=
    (BitVec.toInt_eq_toNat_bmod w).symm
  have hrest : (ap.push [w.toNat]).rest 1 = ap := Args.rest_push [w.toNat] ap
  rw [vPrintFmt_convert (c := .signed) rfl, convert, hword, hrest]
  rfl

/-- `%d` prints every `int` as a signed decimal number, except the least one. The library of the
user programs has the same code. -/
theorem vPrintFmt_signed_iff (m : Memory) (ap : Args) (w : BitVec 32) :
    (∃ text, PrintsSigned w.toInt text ∧ ∀ fmt,
      vPrintFmt m (byte '%' :: byte 'd' :: fmt) (ap.push [w.toNat]) =
        (vPrintFmt m fmt ap).map (text ++ ·)) ↔ w.toInt ≠ -2 ^ 31 := by
  have hlo := BitVec.le_toInt w
  have hhi := BitVec.toInt_lt (x := w)
  constructor
  · rintro ⟨text, hprints, hfmt⟩ hleast
    have hnil := hfmt []
    rw [vPrintFmt_signed, hleast] at hnil
    simp only [vPrintFmt, Option.map_some, List.append_nil, Option.some.injEq] at hnil
    rw [hleast, ← hnil] at hprints
    exact not_printsSigned_least hprints
  · intro hne
    refine ⟨signedText w.toInt, printsSigned_signedText hlo hhi, fun fmt ↦ ?_⟩
    rw [vPrintFmt_signed, signedDecimal_eq (by omega) hhi]

/-- The text of the least `int` is that of a number of 64 bits. -/
theorem vPrintFmt_least : ¬ ∀ (m : Memory) (ap : Args) (w : BitVec 32),
    ∃ text, PrintsSigned w.toInt text ∧
      vPrintFmt m [byte '%', byte 'd'] (ap.push [w.toNat]) = some text := by
  intro h
  obtain ⟨text, hprints, hfmt⟩ := h (fun _ ↦ 0) (fun _ ↦ 0) (BitVec.intMin 32)
  have hleast : (BitVec.intMin 32).toInt = -2 ^ 31 := by decide
  rw [vPrintFmt_signed, hleast] at hfmt
  simp only [vPrintFmt, Option.map_some, List.append_nil, Option.some.injEq] at hfmt
  rw [hleast, ← hfmt] at hprints
  exact not_printsSigned_least hprints

end StormOS.Printf
