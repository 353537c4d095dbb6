import StormOS.Library.Bytes
import StormOS.Library.Loops
import Mathlib.Data.Nat.Bitwise
import Mathlib.Algebra.Order.Ring.Int

namespace StormOS.Machine

open Library.Bytes Library.Loops

/-- The value left in a `uint32` by an expression over the natural numbers. -/
def u32 (x : ℕ) : ℕ := x % 2 ^ 32

/-- The value left in an `int`, in two's complement. -/
def int32 (x : ℤ) : ℤ := Int.bmod x (2 ^ 32)

def uint32OfInt (x : ℤ) : ℕ := (x % 2 ^ 32).toNat

abbrev pageSize : ℕ := 4096
abbrev memUserLo : ℕ := 0x40000000
abbrev memUserLoPI : ℕ := memUserLo / pageSize
abbrev memUserHi : ℕ := 0xF0000000
abbrev memUserHiPI : ℕ := memUserHi / pageSize
abbrev maxProcs : ℕ := 64

def roundDown (a b : ℕ) : ℕ := a - a % b

def roundUp (a b : ℕ) : ℕ := roundDown (u32 (a + b - 1)) b

def memSet (m : Memory) (dst : ℕ) (value : UInt8) (size : ℕ) : Memory :=
  forUpTo (fun i m ↦ store8 m (u32 (dst + i)) value) size m

/-- The bytes move one at a time in increasing order, whatever the overlap. -/
def memCopy (m : Memory) (dst src size : ℕ) : Memory :=
  forUpTo (fun i m ↦ store8 m (u32 (dst + i)) (m (u32 (src + i)))) size m

theorem u32_lt (x : ℕ) : u32 x < 2 ^ 32 := Nat.mod_lt _ (by decide)

theorem u32_of_lt {x : ℕ} (h : x < 2 ^ 32) : u32 x = x := Nat.mod_eq_of_lt h

theorem int32_of_bounds {x : ℤ} (h : 0 ≤ x) (h' : x < 2 ^ 31) : int32 x = x :=
  Int.bmod_eq_of_le (by omega) (by omega)

theorem uint32OfInt_natCast {n : ℕ} (h : n < 2 ^ 32) : uint32OfInt n = n := by
  simp only [uint32OfInt]
  omega

theorem roundDown_le (a b : ℕ) : roundDown a b ≤ a := Nat.sub_le _ _

theorem roundDown_page (a : ℕ) : roundDown a pageSize = a / 4096 * 4096 := by
  simp only [roundDown, pageSize]
  omega

theorem roundUp_page {a : ℕ} (h : a + 4095 < 2 ^ 32) :
    roundUp a pageSize = (a + 4095) / 4096 * 4096 := by
  have hs : a + pageSize - 1 = a + 4095 := rfl
  rw [roundUp, hs, u32_of_lt h, roundDown_page]

/-- The page-frame part of a page-directory or page-table entry. -/
theorem land_frameMask {a : ℕ} (h : a < 2 ^ 32) : a &&& 0xfffff000 = a / 4096 * 4096 := by
  have hm : 0xfffff000 = (2 ^ 20 - 1) <<< 12 := by decide
  have ha : a / 4096 * 4096 = (a >>> 12) <<< 12 := by
    rw [Nat.shiftLeft_eq, Nat.shiftRight_eq_div_pow]
  rw [hm, ha]
  apply Nat.eq_of_testBit_eq
  intro i
  rw [Nat.testBit_and, Nat.testBit_shiftLeft, Nat.testBit_shiftLeft, Nat.testBit_shiftRight,
    Nat.testBit_two_pow_sub_one]
  by_cases hi : i ≥ 12
  · by_cases hb : i - 12 < 20
    · rw [Nat.add_sub_cancel' hi]
      simp [hi, hb]
    · have hf : a.testBit i = false :=
        Nat.testBit_lt_two_pow (h.trans_le (Nat.pow_le_pow_right (by decide) (by omega)))
      rw [Nat.add_sub_cancel' hi]
      simp [hf]
  · simp [hi]

section Frame

variable {m : Memory} {dst src size x : ℕ}

theorem memSet_apply (h : dst + size ≤ 2 ^ 32) (value : UInt8) (x : ℕ) :
    memSet m dst value size x = if dst ≤ x ∧ x < dst + size then value else m x := by
  refine forUpTo_invariant (I := fun i (m' : Memory) ↦
    m' x = if dst ≤ x ∧ x < dst + i then value else m x) size ?_ ?_
  · rw [if_neg (by omega)]
  · intro i m' hi hm'
    rw [u32_of_lt (by omega)]
    by_cases hx : x = dst + i
    · rw [hx, store8_self, if_pos (by omega)]
    · rw [store8_of_ne hx, hm']
      exact if_congr (by omega) rfl rfl

/-- A copy downwards, or from a source that the destination does not overlap. -/
theorem memCopy_apply (hd : dst + size ≤ 2 ^ 32) (hs : src + size ≤ 2 ^ 32)
    (h : dst ≤ src ∨ src + size ≤ dst) (x : ℕ) :
    memCopy m dst src size x = if dst ≤ x ∧ x < dst + size then m (src + (x - dst)) else m x := by
  have hcopy := forUpTo_invariant
    (f := fun i m ↦ store8 m (u32 (dst + i)) (m (u32 (src + i)))) (s := m)
    (I := fun i m' ↦ ∀ y, m' y = if dst ≤ y ∧ y < dst + i then m (src + (y - dst)) else m y)
    size ?_ ?_
  · exact hcopy x
  · intro y
    rw [if_neg (by omega)]
  · intro i m' hi hm' y
    rw [u32_of_lt (by omega), u32_of_lt (by omega)]
    by_cases hy : y = dst + i
    · rw [hy, store8_self, if_pos (by omega), hm', if_neg (by omega), Nat.add_sub_cancel_left]
    · rw [store8_of_ne hy, hm']
      exact if_congr (by omega) rfl rfl

theorem memCopy_of_outside (hd : dst + size ≤ 2 ^ 32) (hx : x < dst ∨ dst + size ≤ x) :
    memCopy m dst src size x = m x := by
  refine forUpTo_invariant (I := fun _ (m' : Memory) ↦ m' x = m x) size rfl ?_
  intro i m' hi hm'
  rw [u32_of_lt (x := dst + i) (by omega), store8_of_ne (by omega), hm']

end Frame

end StormOS.Machine
