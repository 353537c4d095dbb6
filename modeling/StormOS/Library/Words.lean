import Mathlib.Data.List.TakeWhile

namespace StormOS.Library.Words

variable {α : Type} {p : α → Bool} {ch : α} {str w : List α}

/-- The maximal runs of elements that are not breaks. -/
def words (p : α → Bool) (str : List α) : List (List α) :=
  (str.splitOnP p).filter fun w ↦ !w.isEmpty

theorem words_nil : words p [] = [] := rfl

theorem words_cons (h : p ch) : words p (ch :: str) = words p str := by
  rw [words, List.splitOnP_cons_eq_if_modifyHead, if_pos h]
  rfl

/-- A run that is followed by a break or by nothing is a word. -/
theorem words_run (hw : w ≠ []) (h : ∀ ch ∈ w, p ch = false) (hend : ∀ ch ∈ str.head?, p ch) :
    words p (w ++ str) = w :: words p str := by
  cases str with
  | nil =>
    rw [List.append_nil, words, List.splitOnP_eq_singleton h, words_nil]
    simp [hw]
  | cons ch str =>
    have hch : p ch := hend ch rfl
    rw [words, List.splitOnP_append_cons_of_forall_mem h ch hch, words_cons hch]
    simp [hw, words]

theorem head_dropWhile (p : α → Bool) (str : List α) :
    ∀ ch ∈ (str.dropWhile p).head?, p ch = false := by
  intro ch hch
  have hnot := List.head?_dropWhile_not p str
  rw [hch] at hnot
  exact hnot

theorem takeWhile_ne_nil (hne : str ≠ []) (hhead : ∀ ch ∈ str.head?, p ch = false) :
    str.takeWhile (fun ch ↦ !p ch) ≠ [] := by
  cases str with
  | nil => exact absurd rfl hne
  | cons ch str => simp [hhead ch rfl]

theorem words_takeWhile (hne : str ≠ []) (hhead : ∀ ch ∈ str.head?, p ch = false) :
    words p str = str.takeWhile (fun ch ↦ !p ch) ::
      words p (str.dropWhile fun ch ↦ !p ch) := by
  have hw := takeWhile_ne_nil hne hhead
  have hrun : ∀ ch ∈ str.takeWhile (fun ch ↦ !p ch), p ch = false := by
    intro ch hch
    simpa using List.mem_takeWhile_imp hch
  have hend : ∀ ch ∈ (str.dropWhile fun ch ↦ !p ch).head?, p ch := by
    intro ch hch
    simpa using head_dropWhile _ _ ch hch
  rw [← words_run hw hrun hend, List.takeWhile_append_dropWhile]

end StormOS.Library.Words
