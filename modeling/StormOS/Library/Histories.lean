import StormOS.Library.Runs
import Mathlib.Logic.Function.Basic

namespace StormOS.Library.Histories

open Runs

variable {σ α κ β : Type} [DecidableEq κ]

/-- The value that the last writing step of a run puts at `k`. -/
def lastWrite (S : System σ α) (writes : σ → α → Option (κ × β)) (k : κ) : σ → List α → Option β
  | _, [] => none
  | s, a :: as =>
    (lastWrite S writes k (S.step s a) as).or
      ((writes s a).bind fun w ↦ if w.1 = k then some w.2 else none)

variable {S : System σ α} {writes : σ → α → Option (κ × β)} {view : σ → κ → Option β}
  {I : σ → Prop} {Q : σ → α → Prop} {s : σ} {as : List α} {k : κ} {v : β}

/-- What a step may do to a key that shows a value: write there itself, or leave it alone. -/
def Faithful (S : System σ α) (writes : σ → α → Option (κ × β)) (view : σ → κ → Option β) (k : κ)
    (s : σ) (a : α) : Prop :=
  ∀ v, view s k = some v → view (S.step s a) k =
    some (((writes s a).bind fun w ↦ if w.1 = k then some w.2 else none).getD v)

/-- When every step is faithful, a key shows the last value written there, or else what it showed
at first. -/
theorem view_final (h : S.Along Q s as) (hs : I s) (hI : ∀ s a, I s → Q s a → I (S.step s a))
    (hstep : ∀ s a, I s → Q s a → Faithful S writes view k s a) (hv : view s k = some v) :
    view (S.final s as) k = some ((lastWrite S writes k s as).getD v) := by
  induction as generalizing s v with
  | nil => exact hv
  | cons a as ih =>
    have hnext := hstep s a hs h.1 v hv
    have hrest := ih h.2 (hI s a hs h.1) hnext
    rw [System.final_cons, hrest, lastWrite]
    cases hlast : lastWrite S writes k (S.step s a) as with
    | none => rfl
    | some w => rfl

end StormOS.Library.Histories
