import Mathlib.Algebra.Group.Nat.Defs
import Mathlib.Logic.Function.Basic

namespace StormOS.Library.Bytes

abbrev Memory := ℕ → UInt8

def load16 (m : Memory) (a : ℕ) : ℕ := (m a).toNat + 256 * (m (a + 1)).toNat

def load32 (m : Memory) (a : ℕ) : ℕ := load16 m a + 65536 * load16 m (a + 2)

def store8 (m : Memory) (a : ℕ) (v : UInt8) : Memory := Function.update m a v

def store32 (m : Memory) (a v : ℕ) : Memory := fun x ↦
  if a ≤ x ∧ x < a + 4 then UInt8.ofNat (v / 256 ^ (x - a)) else m x

/-- Agreement of two memories on the addresses in `[lo, hi)`. -/
def AgreeOn (m m' : Memory) (lo hi : ℕ) : Prop := ∀ x, lo ≤ x → x < hi → m' x = m x

theorem load16_lt (m : Memory) (a : ℕ) : load16 m a < 2 ^ 16 := by
  have h₀ := (m a).toNat_lt
  have h₁ := (m (a + 1)).toNat_lt
  simp only [load16]
  omega

theorem load32_lt (m : Memory) (a : ℕ) : load32 m a < 2 ^ 32 := by
  have h₀ := load16_lt m a
  have h₁ := load16_lt m (a + 2)
  simp only [load32]
  omega

theorem load32_congr {m m' : Memory} {a : ℕ} (h : ∀ x, a ≤ x → x < a + 4 → m' x = m x) :
    load32 m' a = load32 m a := by
  simp only [load32, load16, Nat.add_assoc]
  rw [h a, h (a + 1), h (a + 2), h (a + (2 + 1))] <;> omega

theorem AgreeOn.load32 {m m' : Memory} {lo hi a : ℕ} (h : AgreeOn m m' lo hi) (ha : lo ≤ a)
    (hb : a + 4 ≤ hi) : Bytes.load32 m' a = Bytes.load32 m a :=
  load32_congr (fun x h₁ h₂ ↦ h x (by omega) (by omega))

theorem AgreeOn.refl (m : Memory) (lo hi : ℕ) : AgreeOn m m lo hi := fun _ _ _ ↦ rfl

theorem AgreeOn.trans {m₀ m₁ m₂ : Memory} {lo hi : ℕ} (h : AgreeOn m₀ m₁ lo hi)
    (h' : AgreeOn m₁ m₂ lo hi) : AgreeOn m₀ m₂ lo hi :=
  fun x hl hh ↦ (h' x hl hh).trans (h x hl hh)

theorem AgreeOn.mono {m m' : Memory} {lo hi lo' hi' : ℕ} (h : AgreeOn m m' lo hi)
    (hl : lo ≤ lo') (hh : hi' ≤ hi) : AgreeOn m m' lo' hi' :=
  fun x h₁ h₂ ↦ h x (by omega) (by omega)

theorem store32_of_outside {m : Memory} {a v x : ℕ} (h : x < a ∨ a + 4 ≤ x) :
    store32 m a v x = m x := by
  rw [store32, if_neg (by omega)]

theorem store8_of_ne {m : Memory} {a x : ℕ} {v : UInt8} (h : x ≠ a) : store8 m a v x = m x := by
  rw [store8, Function.update_of_ne h]

@[simp] theorem store8_self (m : Memory) (a : ℕ) (v : UInt8) : store8 m a v a = v := by
  rw [store8, Function.update_self]

theorem load32_store32_self (m : Memory) (a : ℕ) {v : ℕ} (hv : v < 2 ^ 32) :
    load32 (store32 m a v) a = v := by
  have h (k : ℕ) (hk : k < 4) : (store32 m a v (a + k)).toNat = v / 256 ^ k % 256 := by
    rw [store32, if_pos (by omega), Nat.add_sub_cancel_left, UInt8.toNat_ofNat']
  have h₀ := h 0 (by omega)
  have h₁ := h 1 (by omega)
  have h₂ := h 2 (by omega)
  have h₃ := h 3 (by omega)
  simp only [Nat.add_zero] at h₀
  simp only [load32, load16, Nat.add_assoc, h₀, h₁, h₂, h₃]
  omega

theorem load32_store32_of_disjoint {m : Memory} {a b v : ℕ} (h : b + 4 ≤ a ∨ a + 4 ≤ b) :
    load32 (store32 m a v) b = load32 m b :=
  load32_congr (fun _ _ _ ↦ store32_of_outside (by omega))

end StormOS.Library.Bytes
