import Mathlib.Data.List.Basic

namespace StormOS.Library.Runs

/-- A deterministic transition system. `enabled` states when an action may be taken. -/
structure System (σ α : Type) where
  enabled : σ → α → Prop
  step : σ → α → σ

variable {σ α : Type} (S : System σ α)

namespace System

/-- The state that a list of actions leads to. -/
def final (s : σ) (as : List α) : σ := as.foldl S.step s

/-- `Q` holds of every step of the run. -/
def Along (Q : σ → α → Prop) : σ → List α → Prop
  | _, [] => True
  | s, a :: as => Q s a ∧ Along Q (S.step s a) as

/-- `P` holds of every state that the run visits, the first and the last included. -/
def Throughout (P : σ → Prop) : σ → List α → Prop
  | s, [] => P s
  | s, a :: as => P s ∧ Throughout P (S.step s a) as

abbrev Legal : σ → List α → Prop := S.Along S.enabled

@[simp] theorem final_nil (s : σ) : S.final s [] = s := rfl

@[simp] theorem final_cons (s : σ) (a : α) (as : List α) :
    S.final s (a :: as) = S.final (S.step s a) as := rfl

@[simp] theorem along_nil (Q : σ → α → Prop) (s : σ) : S.Along Q s [] := trivial

@[simp] theorem along_cons {Q : σ → α → Prop} {s : σ} {a : α} {as : List α} :
    S.Along Q s (a :: as) ↔ Q s a ∧ S.Along Q (S.step s a) as := Iff.rfl

instance decidableAlong (Q : σ → α → Prop) [∀ s a, Decidable (Q s a)] (s : σ) :
    (as : List α) → Decidable (S.Along Q s as)
  | [] => .isTrue trivial
  | a :: as =>
    have := decidableAlong Q (S.step s a) as
    inferInstanceAs (Decidable (Q s a ∧ S.Along Q (S.step s a) as))

variable {S} {Q R : σ → α → Prop} {P : σ → Prop} {s : σ} {as bs : List α}

theorem Along.and (h : S.Along Q s as) (h' : S.Along R s as) :
    S.Along (fun s a ↦ Q s a ∧ R s a) s as := by
  induction as generalizing s with
  | nil => trivial
  | cons a as ih => exact ⟨⟨h.1, h'.1⟩, ih h.2 h'.2⟩

theorem along_append : S.Along Q s (as ++ bs) ↔ S.Along Q s as ∧ S.Along Q (S.final s as) bs := by
  induction as generalizing s with
  | nil => simp
  | cons a as ih => simp only [List.cons_append, along_cons, ih, final_cons, and_assoc]

/-- An invariant that steps satisfying `Q` preserve holds at the end of the run. -/
theorem Along.final (h : S.Along Q s as) (hs : P s)
    (hstep : ∀ s a, P s → Q s a → P (S.step s a)) : P (S.final s as) := by
  induction as generalizing s with
  | nil => exact hs
  | cons a as ih => exact ih h.2 (hstep s a hs h.1)

/-- An invariant that steps satisfying `Q` preserve holds all through the run. -/
theorem Along.throughout (h : S.Along Q s as) (hs : P s)
    (hstep : ∀ s a, P s → Q s a → P (S.step s a)) : S.Throughout P s as := by
  induction as generalizing s with
  | nil => exact hs
  | cons a as ih => exact ⟨hs, ih h.2 (hstep s a hs h.1)⟩

theorem Along.along (h : S.Along Q s as) (hs : P s)
    (hstep : ∀ s a, P s → Q s a → P (S.step s a)) (hR : ∀ s a, P s → Q s a → R s a) :
    S.Along R s as := by
  induction as generalizing s with
  | nil => trivial
  | cons a as ih => exact ⟨hR s a hs h.1, ih h.2 (hstep s a hs h.1)⟩

theorem Along.congr {R' : σ → α → Prop} (h : S.Along Q s as) (hs : P s)
    (hstep : ∀ s a, P s → Q s a → P (S.step s a))
    (hR : ∀ s a, P s → Q s a → (R s a ↔ R' s a)) : S.Along R s as ↔ S.Along R' s as := by
  induction as generalizing s with
  | nil => exact Iff.rfl
  | cons a as ih => exact and_congr (hR s a hs h.1) (ih h.2 (hstep s a hs h.1))

theorem Throughout.head (h : S.Throughout P s as) : P s := by
  cases as with
  | nil => exact h
  | cons a as => exact h.1

theorem Throughout.along_step (h : S.Throughout P s as) :
    S.Along (fun s a ↦ P (S.step s a)) s as := by
  induction as generalizing s with
  | nil => trivial
  | cons a as ih => exact ⟨h.2.head, ih h.2⟩

/-- Where a step keeps `P` exactly when it meets a condition, a run keeps it exactly when all its
steps meet the condition. -/
theorem throughout_iff_along {E : σ → α → Prop} {I : σ → Prop} (h : S.Along E s as) (hI : I s)
    (hP : P s) (hstep : ∀ s a, I s → E s a → I (S.step s a))
    (hiff : ∀ s a, I s → P s → E s a → (P (S.step s a) ↔ Q s a)) :
    S.Throughout P s as ↔ S.Along Q s as := by
  induction as generalizing s with
  | nil => exact iff_of_true hP trivial
  | cons a as ih =>
    have hhead := hiff s a hI hP h.1
    constructor
    · intro ht
      have hnext := ht.2.head
      exact ⟨hhead.mp hnext, (ih h.2 (hstep s a hI h.1) hnext).mp ht.2⟩
    · intro ha
      have hnext := hhead.mpr ha.1
      exact ⟨hP, (ih h.2 (hstep s a hI h.1) hnext).mpr ha.2⟩

theorem Throughout.mono {P' : σ → Prop} (h : S.Throughout P s as) (hP : ∀ s, P s → P' s) :
    S.Throughout P' s as := by
  induction as generalizing s with
  | nil => exact hP s h
  | cons a as ih => exact ⟨hP s h.1, ih h.2⟩

end System

end StormOS.Library.Runs
