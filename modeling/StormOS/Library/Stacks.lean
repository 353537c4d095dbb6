import StormOS.Library.Bytes
import Mathlib.Data.List.Basic
import Mathlib.Algebra.Order.Ring.Nat

namespace StormOS.Library.Stacks

open Bytes

/-- The words that a stack growing downwards holds from address `a` on, the last one pushed
first. -/
def StackAt (m : Memory) : ℕ → List UInt32 → Prop
  | _, [] => True
  | a, w :: ws => load32 m a = w.toNat ∧ StackAt m (a + 4) ws

variable {m m' : Memory} {a : ℕ} {w : UInt32} {ws : List UInt32}

theorem StackAt.congr (h : StackAt m a ws)
    (hm : ∀ x, a ≤ x → x < a + 4 * ws.length → m' x = m x) : StackAt m' a ws := by
  induction ws generalizing a with
  | nil => trivial
  | cons w ws ih =>
    rw [List.length_cons] at hm
    exact ⟨(load32_congr fun x hx hx' ↦ hm x hx (by omega)).trans h.1,
      ih h.2 fun x hx hx' ↦ hm x (by omega) (by omega)⟩

/-- A push writes the word below all others. -/
theorem StackAt.push (h : StackAt m (a + 4) ws) (w : UInt32) :
    StackAt (store32 m a w.toNat) a (w :: ws) :=
  ⟨load32_store32_self m a w.toNat_lt,
    h.congr fun _ hx _ ↦ store32_of_outside (.inr hx)⟩

end StormOS.Library.Stacks
