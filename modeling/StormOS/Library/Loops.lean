import Mathlib.Data.Nat.Notation
import Mathlib.Data.List.Basic
import Mathlib.Order.Defs.LinearOrder
import Mathlib.Algebra.Order.Group.Nat

namespace StormOS.Library.Loops

variable {σ : Type}

/-- A counting loop as a state transformer: `f i` runs for `i = 0, …, n - 1`. -/
def forUpTo (f : ℕ → σ → σ) : ℕ → σ → σ
  | 0, s => s
  | n + 1, s => f n (forUpTo f n s)

@[simp] theorem forUpTo_zero (f : ℕ → σ → σ) (s : σ) : forUpTo f 0 s = s := rfl

theorem forUpTo_succ (f : ℕ → σ → σ) (n : ℕ) (s : σ) :
    forUpTo f (n + 1) s = f n (forUpTo f n s) := rfl

/-- The invariant may mention the counter. -/
theorem forUpTo_invariant {f : ℕ → σ → σ} {I : ℕ → σ → Prop} {s : σ} (n : ℕ) (h : I 0 s)
    (hstep : ∀ i t, i < n → I i t → I (i + 1) (f i t)) : I n (forUpTo f n s) := by
  induction n with
  | zero => exact h
  | succ n ih =>
    have hn := ih (fun i t hi ↦ hstep i t (by omega))
    exact hstep n _ (by omega) hn

/-- A loop on one state is the image of a loop on another. -/
theorem forUpTo_map {τ : Type} {f : ℕ → σ → σ} {g : ℕ → τ → τ} (v : σ → τ)
    (h : ∀ i s, v (f i s) = g i (v s)) (n : ℕ) (s : σ) :
    v (forUpTo f n s) = forUpTo g n (v s) := by
  induction n with
  | zero => rfl
  | succ n ih => rw [forUpTo_succ, forUpTo_succ, h, ih]

/-- A loop that overwrites its state now and then ends with what was written last. -/
theorem foldl_range_last {f : σ → ℕ → σ} {C : ℕ → Prop} [DecidablePred C] {v : ℕ → σ} {n j : ℕ}
    (s : σ) (hf : ∀ s, ∀ i < n, f s i = if C i then v i else s) (hj : j < n) (hC : C j)
    (hlast : ∀ i, j < i → i < n → ¬ C i) : (List.range n).foldl f s = v j := by
  induction n with
  | zero => omega
  | succ n ih =>
    rw [List.range_succ, List.foldl_append, List.foldl_cons, List.foldl_nil, hf _ n (by omega)]
    by_cases he : j = n
    · rw [← he, if_pos hC]
    · rw [if_neg (hlast n (by omega) (by omega))]
      exact ih (fun s i hi ↦ hf s i (by omega)) (by omega) (fun i hi hn ↦ hlast i hi (by omega))

/-- An early-exit search: the first index of `[a, b)` that satisfies `p`. -/
def scan (p : ℕ → Bool) (a b : ℕ) : Option ℕ :=
  if a < b then if p a then some a else scan p (a + 1) b else none
termination_by b - a

variable {p : ℕ → Bool} {a b x : ℕ}

theorem scan_eq_none : scan p a b = none ↔ ∀ x, a ≤ x → x < b → p x = false := by
  fun_induction scan p a b with
  | case1 a hlt hp => simpa using ⟨a, le_rfl, hlt, hp⟩
  | case2 a hlt hp ih =>
    rw [ih]
    refine ⟨fun h x ha hb ↦ ?_, fun h x ha hb ↦ h x (by omega) hb⟩
    rcases ha.eq_or_lt with rfl | ha
    · exact Bool.not_eq_true _ ▸ hp
    · exact h x ha hb
  | case3 a hlt => exact ⟨fun _ x ha hb ↦ absurd (ha.trans_lt hb) hlt, fun _ ↦ rfl⟩

theorem scan_eq_some (h : scan p a b = some x) :
    a ≤ x ∧ x < b ∧ p x = true ∧ ∀ y, a ≤ y → y < x → p y = false := by
  fun_induction scan p a b with
  | case1 a hlt hp =>
    rw [Option.some.injEq] at h
    subst h
    exact ⟨le_rfl, hlt, hp, fun y ha hy ↦ absurd hy (not_lt.mpr ha)⟩
  | case2 a hlt hp ih =>
    obtain ⟨ha, hb, hx, hfirst⟩ := ih h
    refine ⟨by omega, hb, hx, fun y hy hyx ↦ ?_⟩
    rcases hy.eq_or_lt with rfl | hy
    · exact Bool.not_eq_true _ ▸ hp
    · exact hfirst y hy hyx
  | case3 a hlt => cases h

theorem scan_mem (h : scan p a b = some x) : a ≤ x ∧ x < b :=
  ⟨(scan_eq_some h).1, (scan_eq_some h).2.1⟩

theorem scan_holds (h : scan p a b = some x) : p x = true := (scan_eq_some h).2.2.1

theorem scan_le {y : ℕ} (h : scan p a b = some x) (ha : a ≤ y) (hy : p y = true) : x ≤ y := by
  by_contra hlt
  rw [(scan_eq_some h).2.2.2 y ha (not_le.mp hlt)] at hy
  cases hy

theorem scan_of_first (ha : a ≤ x) (hb : x < b) (hx : p x = true)
    (hfirst : ∀ y, a ≤ y → y < x → p y = false) : scan p a b = some x := by
  cases h : scan p a b with
  | none =>
    rw [scan_eq_none.mp h x ha hb] at hx
    cases hx
  | some z =>
    obtain ⟨haz, _, hz, hzfirst⟩ := scan_eq_some h
    rcases lt_trichotomy z x with hlt | rfl | hlt
    · rw [hfirst z haz hlt] at hz
      cases hz
    · rfl
    · rw [hzfirst x ha hlt] at hx
      cases hx

end StormOS.Library.Loops
