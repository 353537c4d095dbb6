import Mathlib.Logic.Function.Basic
import Mathlib.Data.List.Basic

namespace StormOS.Library.RingBuffer

open Function

variable {α β : Type}

def next (n i : ℕ) : ℕ := if i + 1 = n then 0 else i + 1

def place (n i k : ℕ) : ℕ := if i + k < n then i + k else i + k - n

/-- From position `r` up to position `w`, the ring holds a list. One place always stays free. -/
structure Holds (n : ℕ) (buf : ℕ → α) (r w : ℕ) (l : List α) : Prop where
  read : r < n
  room : l.length < n
  write : w = place n r l.length
  get : ∀ k (h : k < l.length), buf (place n r k) = l[k]

variable {n r w i k : ℕ} {buf : ℕ → α} {x : α} {l : List α}

theorem place_zero (hi : i < n) : place n i 0 = i := by
  rw [place, if_pos (by omega), Nat.add_zero]

theorem next_place (hi : i < n) (hk : k < n) : next n (place n i k) = place n i (k + 1) := by
  rw [next, place, place]
  split <;> split <;> split <;> omega

theorem place_next (hk : k + 1 < n) : place n (next n i) k = place n i (k + 1) := by
  rw [next, place, place]
  split <;> split <;> split <;> omega

theorem place_ne {j : ℕ} (hj : j < k) (hk : k < n) : place n i j ≠ place n i k := by
  rw [place, place]
  split <;> split <;> omega

theorem holds_nil (hr : r < n) (buf : ℕ → α) : Holds n buf r r [] where
  read := hr
  room := Nat.zero_lt_of_lt hr
  write := (place_zero hr).symm
  get _ h := absurd h (Nat.not_lt_zero _)

/-- The positions meet only when the ring is empty. -/
theorem Holds.eq_iff (h : Holds n buf r w l) : r = w ↔ l = [] := by
  have hread := h.read
  have hroom := h.room
  rw [h.write, ← List.length_eq_zero_iff]
  constructor
  · intro he
    by_contra hne
    have hplace := place_ne (i := r) (Nat.pos_of_ne_zero hne) hroom
    rw [place_zero hread] at hplace
    exact hplace he
  · intro he
    rw [he, place_zero hread]

theorem Holds.push (h : Holds n buf r w l) (hroom : l.length + 1 < n) (x : α) :
    Holds n (update buf w x) r (next n w) (l ++ [x]) where
  read := h.read
  room := by
    rw [List.length_append, List.length_singleton]
    exact hroom
  write := by
    rw [h.write, next_place h.read h.room, List.length_append, List.length_singleton]
  get k hk := by
    rw [List.length_append, List.length_singleton] at hk
    rcases Nat.lt_succ_iff_lt_or_eq.mp hk with hlt | rfl
    · rw [List.getElem_append_left hlt, h.write, update_of_ne (place_ne hlt h.room)]
      exact h.get k hlt
    · rw [List.getElem_append_right (Nat.le_refl _), List.getElem_singleton, h.write, update_self]

theorem Holds.head (h : Holds n buf r w (x :: l)) : buf r = x := by
  have hget := h.get 0 (Nat.succ_pos _)
  rwa [place_zero h.read] at hget

theorem Holds.pop (h : Holds n buf r w (x :: l)) : Holds n buf (next n r) w l where
  read := by
    have hread := h.read
    rw [next]
    split <;> omega
  room := Nat.lt_of_succ_lt h.room
  write := by
    have hroom := h.room
    rw [h.write, List.length_cons, place_next hroom]
  get k hk := by
    have hroom := h.room
    rw [List.length_cons] at hroom
    rw [place_next (by omega)]
    exact h.get (k + 1) (Nat.succ_lt_succ hk)

end StormOS.Library.RingBuffer
