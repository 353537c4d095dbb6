import StormOS.Machine

namespace StormOS.Division

open Machine

def u64 (x : ℕ) : ℕ := x % 2 ^ 64

def doubling (rem b d : ℕ) : ℕ × ℕ :=
  if 0 < b ∧ b < 2 ^ 63 ∧ b < rem then doubling rem (u64 (b + b)) (u64 (d + d)) else (b, d)
termination_by rem - b
decreasing_by simp only [u64]; omega

def halving (rem b res d : ℕ) : ℕ × ℕ :=
  let rem' := if rem ≥ b then rem - b else rem
  let res' := if rem ≥ b then u64 (res + d) else res
  if d / 2 ≠ 0 then halving rem' (b / 2) res' (d / 2) else (res', rem')
termination_by d
decreasing_by omega

/-- The quotient that the function leaves in `*n`, and the rest that it returns. -/
def divideAndMod64by32 (n base : ℕ) : ℕ × ℕ :=
  let high := n / 2 ^ 32
  let res := if high ≥ base then high / base * 2 ^ 32 else 0
  let rem := if high ≥ base then n - u32 (high / base * base) * 2 ^ 32 else n
  let (b, d) := doubling rem base 1
  let (res, rem) := halving rem b res d
  (res, u32 rem)

def divide64by32 (a b : ℕ) : ℕ := (divideAndMod64by32 a b).1

def modulo64by32 (a b : ℕ) : ℕ := (divideAndMod64by32 a b).2

variable {n base rem res d k : ℕ}

/-- The first loop ends with a multiple of the divisor that is more than half the rest. -/
theorem doubling_spec (k : ℕ) (hbase : 0 < base) (hb : base * 2 ^ k < 2 ^ 64)
    (hrem : rem < 2 ^ 64) :
    ∃ k', doubling rem (base * 2 ^ k) (2 ^ k) = (base * 2 ^ k', 2 ^ k') ∧
      rem < 2 * (base * 2 ^ k') := by
  have hpos : 0 < base * 2 ^ k := Nat.mul_pos hbase (Nat.two_pow_pos k)
  rw [doubling]
  split
  · rename_i hgo
    have hb' : base * 2 ^ (k + 1) = base * 2 ^ k + base * 2 ^ k := by
      rw [Nat.pow_succ, ← Nat.mul_assoc]
      omega
    have hd : 2 ^ k ≤ base * 2 ^ k := Nat.le_mul_of_pos_left _ hbase
    have hd' : 2 ^ (k + 1) = 2 ^ k + 2 ^ k := by rw [Nat.pow_succ]; omega
    have hu : u64 (base * 2 ^ k + base * 2 ^ k) = base * 2 ^ (k + 1) := by
      rw [hb']
      exact Nat.mod_eq_of_lt (by omega)
    have hu' : u64 (2 ^ k + 2 ^ k) = 2 ^ (k + 1) := by
      rw [hd']
      exact Nat.mod_eq_of_lt (by omega)
    rw [hu, hu']
    exact doubling_spec (k + 1) hbase (by omega) hrem
  · exact ⟨k, rfl, by omega⟩
termination_by rem - base * 2 ^ k
decreasing_by
  rw [Nat.pow_succ, ← Nat.mul_assoc]
  omega

/-- One round of the second loop, with what has been subtracted and what is left making up `n`. -/
theorem halving_step (hbase : 0 < base) (hn : n < 2 ^ 64) (hinv : n = base * res + rem)
    (hrem : rem < 2 * (base * 2 ^ k)) :
    ∃ rem' res', n = base * res' + rem' ∧ rem' < base * 2 ^ k ∧
      halving rem (base * 2 ^ k) res (2 ^ k) =
        if 2 ^ k / 2 ≠ 0 then halving rem' (base * 2 ^ k / 2) res' (2 ^ k / 2) else (res', rem') := by
  rw [halving]
  by_cases hge : rem ≥ base * 2 ^ k
  · have hsum : base * (res + 2 ^ k) = base * res + base * 2 ^ k := Nat.mul_add ..
    have hle : res + 2 ^ k ≤ base * (res + 2 ^ k) := Nat.le_mul_of_pos_left _ hbase
    have hu : u64 (res + 2 ^ k) = res + 2 ^ k := Nat.mod_eq_of_lt (by omega)
    refine ⟨rem - base * 2 ^ k, res + 2 ^ k, by omega, by omega, ?_⟩
    rw [if_pos hge, if_pos hge, hu]
  · refine ⟨rem, res, hinv, by omega, ?_⟩
    rw [if_neg hge, if_neg hge]

theorem halving_spec (hbase : 0 < base) (hn : n < 2 ^ 64) (hinv : n = base * res + rem)
    (hrem : rem < 2 * (base * 2 ^ k)) :
    halving rem (base * 2 ^ k) res (2 ^ k) = (n / base, n % base) := by
  induction k generalizing rem res with
  | zero =>
    obtain ⟨rem', res', hinv', hlt, hstep⟩ := halving_step hbase hn hinv hrem
    rw [Nat.pow_zero, Nat.mul_one] at hlt
    rw [hstep, if_neg (by decide), hinv', Nat.mul_add_div hbase, Nat.div_eq_of_lt hlt,
      Nat.mul_add_mod, Nat.mod_eq_of_lt hlt, Nat.add_zero]
  | succ k ih =>
    obtain ⟨rem', res', hinv', hlt, hstep⟩ := halving_step hbase hn hinv hrem
    have hpow : 2 ^ (k + 1) / 2 = 2 ^ k := by omega
    have hbase' : base * 2 ^ (k + 1) = 2 * (base * 2 ^ k) := by
      rw [Nat.pow_succ, ← Nat.mul_assoc, Nat.mul_comm]
    have hhalf : base * 2 ^ (k + 1) / 2 = base * 2 ^ k := by omega
    have hne : 2 ^ k ≠ 0 := (Nat.two_pow_pos k).ne'
    rw [hstep, hpow, hhalf, if_pos hne]
    exact ih hinv' (hbase' ▸ hlt)

/-- The function divides, for every divisor of 32 bits. -/
theorem divideAndMod64by32_eq (hn : n < 2 ^ 64) (hbase : 0 < base) (hbase' : base < 2 ^ 32) :
    divideAndMod64by32 n base = (n / base, n % base) := by
  obtain ⟨res, rem, hres, hrem, hinv⟩ : ∃ res rem,
      (if n / 2 ^ 32 ≥ base then n / 2 ^ 32 / base * 2 ^ 32 else 0) = res ∧
      (if n / 2 ^ 32 ≥ base then n - u32 (n / 2 ^ 32 / base * base) * 2 ^ 32 else n) = rem ∧
      n = base * res + rem := by
    by_cases hge : n / 2 ^ 32 ≥ base
    · have hle : n / 2 ^ 32 / base * base ≤ n / 2 ^ 32 := Nat.div_mul_le_self _ _
      have hu : u32 (n / 2 ^ 32 / base * base) = n / 2 ^ 32 / base * base :=
        u32_of_lt (by omega)
      have hmul : base * (n / 2 ^ 32 / base * 2 ^ 32) = n / 2 ^ 32 / base * base * 2 ^ 32 := by
        rw [← Nat.mul_assoc, Nat.mul_comm base]
      refine ⟨_, _, if_pos hge, if_pos hge, ?_⟩
      rw [hu, hmul]
      omega
    · exact ⟨0, n, if_neg hge, if_neg hge, by omega⟩
  have hrem' : rem < 2 ^ 64 := by omega
  obtain ⟨k, hk, hlt⟩ := doubling_spec 0 hbase (by omega) hrem'
  rw [Nat.pow_zero, Nat.mul_one] at hk
  have hmod := Nat.mod_lt n hbase
  rw [divideAndMod64by32]
  dsimp only
  rw [hres, hrem, hk]
  dsimp only
  rw [halving_spec hbase hn hinv hlt]
  exact congrArg (n / base, ·) (u32_of_lt (hmod.trans hbase'))

theorem divide64by32_eq (hn : n < 2 ^ 64) (hbase : 0 < base) (hbase' : base < 2 ^ 32) :
    divide64by32 n base = n / base := by
  rw [divide64by32, divideAndMod64by32_eq hn hbase hbase']

theorem modulo64by32_eq (hn : n < 2 ^ 64) (hbase : 0 < base) (hbase' : base < 2 ^ 32) :
    modulo64by32 n base = n % base := by
  rw [modulo64by32, divideAndMod64by32_eq hn hbase hbase']

end StormOS.Division
