import Mathlib.Logic.Function.Basic
import Mathlib.Data.List.Induction
import Mathlib.Data.List.Nodup

namespace StormOS.Library.LinkedQueue

open Function

variable {ι : Type}

/-- The nodes of `l` in order, linked both ways, between the outside neighbours `before` and
`after`. -/
def Segment (next prev : ι → ι) : ι → List ι → ι → Prop
  | _, [], _ => True
  | before, a :: l, after => prev a = before ∧ next a = l.headD after ∧ Segment next prev a l after

variable {next prev next' prev' : ι → ι} {before after : ι} {l l' : List ι} {a : ι}

theorem segment_append :
    Segment next prev before (l ++ l') after ↔
      Segment next prev before l (l'.headD after) ∧
        Segment next prev (l.getLastD before) l' after := by
  induction l generalizing before with
  | nil => simp [Segment]
  | cons a l ih =>
    have hhead : (l ++ l').headD after = l.headD (l'.headD after) := by
      cases l with
      | nil => rfl
      | cons b l => rfl
    simp only [List.cons_append, Segment, ih, hhead, List.getLastD_cons, and_assoc]

theorem Segment.congr (h : Segment next prev before l after) (hn : ∀ x ∈ l, next' x = next x)
    (hp : ∀ x ∈ l, prev' x = prev x) : Segment next' prev' before l after := by
  induction l generalizing before with
  | nil => trivial
  | cons a l ih =>
    obtain ⟨ha, hb, hl⟩ := h
    refine ⟨(hp a (by simp)).trans ha, (hn a (by simp)).trans hb, ih hl ?_ ?_⟩
    · exact fun x hx ↦ hn x (List.mem_cons_of_mem a hx)
    · exact fun x hx ↦ hp x (List.mem_cons_of_mem a hx)

/-- The first node and the links determine a segment that ends at a node outside it. -/
theorem Segment.unique {before' : ι} (h : Segment next prev before l after)
    (h' : Segment next prev before' l' after) (hl : after ∉ l) (hl' : after ∉ l')
    (hh : l.headD after = l'.headD after) : l = l' := by
  induction l generalizing before before' l' with
  | nil =>
    cases l' with
    | nil => rfl
    | cons b l' => exact absurd (List.mem_cons.mpr (.inl hh)) hl'
  | cons a l ih =>
    cases l' with
    | nil => exact absurd (List.mem_cons.mpr (.inl hh.symm)) hl
    | cons b l' =>
      have hab : a = b := hh
      subst hab
      have ht := ih h.2.2 h'.2.2 (List.not_mem_of_not_mem_cons hl)
        (List.not_mem_of_not_mem_cons hl') (h.2.1.symm.trans h'.2.1)
      rw [ht]

variable [DecidableEq ι]

theorem Segment.update_next (h : Segment next prev before l after) (ha : a ∉ l) (v : ι) :
    Segment (update next a v) prev before l after :=
  h.congr (fun _ hx ↦ update_of_ne (ne_of_mem_of_not_mem hx ha) _ _) (fun _ _ ↦ rfl)

theorem Segment.update_prev (h : Segment next prev before l after) (ha : a ∉ l) (v : ι) :
    Segment next (update prev a v) before l after :=
  h.congr (fun _ _ ↦ rfl) (fun _ hx ↦ update_of_ne (ne_of_mem_of_not_mem hx ha) _ _)

/-- Redirecting the last node changes what the segment leads to. -/
theorem Segment.relink_after (h : Segment next prev before (l ++ [a]) after) (ha : a ∉ l) (v : ι) :
    Segment (update next a v) prev before (l ++ [a]) v := by
  rw [segment_append] at h ⊢
  exact ⟨h.1.update_next ha v, h.2.1, by simp, trivial⟩

theorem Segment.relink_before (h : Segment next prev before (a :: l) after) (ha : a ∉ l) (v : ι) :
    Segment next (update prev a v) v (a :: l) after :=
  ⟨by simp, h.2.1, h.2.2.update_prev ha v⟩

/-- The nodes met on the way along `link` from `a` to `stop`, at most `fuel` of them. -/
def trail (link : ι → ι) (stop : ι) : ℕ → ι → List ι
  | 0, _ => []
  | fuel + 1, a => if a = stop then [] else a :: trail link stop fuel (link a)

variable {fuel : ℕ}

theorem Segment.trail_next (h : Segment next prev before l after) (ha : after ∉ l)
    (hf : l.length ≤ fuel) : trail next after fuel (l.headD after) = l := by
  induction l generalizing before fuel with
  | nil =>
    cases fuel with
    | zero => rfl
    | succ fuel => exact if_pos rfl
  | cons b l ih =>
    cases fuel with
    | zero => cases hf
    | succ fuel =>
      obtain ⟨hb, hal⟩ := not_or.mp (mt List.mem_cons.mpr ha)
      rw [List.headD_cons, trail, if_neg (Ne.symm hb), h.2.1,
        ih h.2.2 hal (Nat.le_of_succ_le_succ hf)]

theorem Segment.trail_prev (h : Segment next prev before l after) (hb : before ∉ l)
    (hf : l.length ≤ fuel) : trail prev before fuel (l.getLastD before) = l.reverse := by
  induction l using List.reverseRecOn generalizing after fuel with
  | nil =>
    cases fuel with
    | zero => rfl
    | succ fuel => exact if_pos rfl
  | append_singleton l a ih =>
    rw [List.length_append, List.length_singleton] at hf
    cases fuel with
    | zero => cases hf
    | succ fuel =>
      obtain ⟨hl, ha, _⟩ := segment_append.mp h
      rw [List.mem_append, List.mem_singleton, not_or] at hb
      rw [List.getLastD_concat, trail, if_neg (Ne.symm hb.2), ha,
        ih hl hb.1 (Nat.le_of_succ_le_succ hf), List.reverse_append, List.reverse_singleton,
        List.singleton_append]

end StormOS.Library.LinkedQueue
