import StormOS.Library.Bytes
import Mathlib.Data.List.Basic

namespace StormOS.Library.Strings

open Bytes

/-- The bytes of `str` stand at `a`, none of them a NUL, with a NUL behind them. -/
def StringAt (m : Memory) : ℕ → List UInt8 → Prop
  | a, [] => m a = 0
  | a, ch :: str => m a = ch ∧ ch ≠ 0 ∧ StringAt m (a + 1) str

instance (m : Memory) : ∀ a str, Decidable (StringAt m a str)
  | a, [] => inferInstanceAs (Decidable (m a = 0))
  | a, ch :: str =>
    have : Decidable (StringAt m (a + 1) str) := instDecidableStringAt m (a + 1) str
    inferInstanceAs (Decidable (m a = ch ∧ ch ≠ 0 ∧ StringAt m (a + 1) str))

variable {m m' : Memory} {a i : ℕ} {str : List UInt8}

theorem StringAt.congr (h : StringAt m a str) (hm : ∀ x, a ≤ x → x ≤ a + str.length → m' x = m x) :
    StringAt m' a str := by
  induction str generalizing a with
  | nil => exact (hm a (Nat.le_refl _) (Nat.le_add_right _ _)).trans h
  | cons ch str ih =>
    obtain ⟨hch, hne, hrest⟩ := h
    rw [List.length_cons] at hm
    exact ⟨(hm a (Nat.le_refl _) (Nat.le_add_right _ _)).trans hch, hne,
      ih hrest fun x hx hx' ↦ hm x (by omega) (by omega)⟩

theorem stringAt_of_bytes (h : ∀ i (hi : i < str.length), m (a + i) = str[i]) (hstr : 0 ∉ str)
    (hnul : m (a + str.length) = 0) : StringAt m a str := by
  induction str generalizing a with
  | nil => exact hnul
  | cons ch str ih =>
    obtain ⟨hch, hstr⟩ := not_or.mp (mt List.mem_cons.mpr hstr)
    refine ⟨h 0 (Nat.succ_pos _), Ne.symm hch, ih (fun i hi ↦ ?_) hstr ?_⟩
    · rw [Nat.add_assoc, Nat.add_comm 1]
      exact h (i + 1) (Nat.succ_lt_succ hi)
    · rw [Nat.add_assoc, Nat.add_comm 1]
      exact hnul

theorem stringAt_iff : StringAt m a str ↔
    (∀ i (hi : i < str.length), m (a + i) = str[i]) ∧ 0 ∉ str ∧ m (a + str.length) = 0 := by
  refine ⟨fun h ↦ ?_, fun ⟨hbytes, hstr, hnul⟩ ↦ stringAt_of_bytes hbytes hstr hnul⟩
  induction str generalizing a with
  | nil => exact ⟨fun i hi ↦ absurd hi (Nat.not_lt_zero i), List.not_mem_nil, h⟩
  | cons ch str ih =>
    obtain ⟨hch, hne, hrest⟩ := h
    obtain ⟨hbytes, hstr, hnul⟩ := ih hrest
    refine ⟨fun i hi ↦ ?_, ?_, ?_⟩
    · cases i with
      | zero => exact hch
      | succ i =>
        have hbyte := hbytes i (Nat.lt_of_succ_lt_succ hi)
        rw [Nat.add_assoc, Nat.add_comm 1] at hbyte
        exact hbyte
    · rw [List.mem_cons, not_or]
      exact ⟨Ne.symm hne, hstr⟩
    · rw [← hnul, Nat.add_assoc, Nat.add_comm 1, List.length_cons]

theorem StringAt.dropWhile (p : UInt8 → Bool) (h : StringAt m a str) :
    StringAt m (a + (str.takeWhile p).length) (str.dropWhile p) := by
  induction str generalizing a with
  | nil => exact h
  | cons ch str ih =>
    cases hp : p ch with
    | false =>
      rw [List.takeWhile_cons_of_neg (by simp [hp]), List.dropWhile_cons_of_neg (by simp [hp])]
      exact h
    | true =>
      rw [List.takeWhile_cons_of_pos hp, List.dropWhile_cons_of_pos hp, List.length_cons,
        Nat.add_comm (str.takeWhile p).length, ← Nat.add_assoc]
      exact ih h.2.2

/-- The front of a string is a string when a NUL is put behind it. -/
theorem StringAt.takeWhile (p : UInt8 → Bool) (h : StringAt m a str)
    (hm : ∀ x, a ≤ x → x < a + (str.takeWhile p).length → m' x = m x)
    (hnul : m' (a + (str.takeWhile p).length) = 0) : StringAt m' a (str.takeWhile p) := by
  induction str generalizing a with
  | nil => exact hnul
  | cons ch str ih =>
    cases hp : p ch with
    | false =>
      rw [List.takeWhile_cons_of_neg (by simp [hp])] at hnul ⊢
      exact hnul
    | true =>
      rw [List.takeWhile_cons_of_pos hp, List.length_cons] at hm hnul
      rw [List.takeWhile_cons_of_pos hp]
      have hlast : a + 1 + (str.takeWhile p).length = a + ((str.takeWhile p).length + 1) := by omega
      exact ⟨(hm a (Nat.le_refl _) (by omega)).trans h.1, h.2.1,
        ih h.2.2 (fun x hx hx' ↦ hm x (by omega) (by omega)) (hlast ▸ hnul)⟩

/-- The characters at `a` up to the first NUL, and the addresses at which they are read. -/
def readString (m : Memory) : ℕ → ℕ → Option (List UInt8 × List ℕ)
  | 0, _ => none
  | fuel + 1, a =>
    if m a = 0 then some ([], [a])
    else (readString m fuel (a + 1)).map fun (str, reads) ↦ (m a :: str, a :: reads)

theorem StringAt.readString {fuel : ℕ} (h : StringAt m a str) (hfuel : str.length < fuel) :
    ∃ reads, Strings.readString m fuel a = some (str, reads) ∧
      ∀ x ∈ reads, a ≤ x ∧ x ≤ a + str.length := by
  induction str generalizing a fuel with
  | nil =>
    obtain ⟨fuel, rfl⟩ := Nat.exists_eq_add_one_of_ne_zero (Nat.ne_zero_of_lt hfuel)
    refine ⟨[a], ?_, by simp⟩
    rw [Strings.readString]
    exact if_pos h
  | cons ch str ih =>
    obtain ⟨rfl, hne, hrest⟩ := h
    obtain ⟨fuel, rfl⟩ := Nat.exists_eq_add_one_of_ne_zero (Nat.ne_zero_of_lt hfuel)
    obtain ⟨reads, hread, hreads⟩ := ih hrest (Nat.lt_of_succ_lt_succ hfuel)
    refine ⟨a :: reads, ?_, ?_⟩
    · rw [Strings.readString, if_neg hne, hread]
      rfl
    · intro x hx
      rw [List.length_cons]
      rcases List.mem_cons.mp hx with rfl | hx
      · omega
      · have hx' := hreads x hx
        omega

/-- A character is put behind those that an array begins with. -/
theorem update_append {buf : ℤ → UInt8} {n : ℤ} (hn : n = str.length)
    (h : ∀ i (h : i < str.length), buf i = str[i]) (ch : UInt8) :
    ∀ i (h : i < (str ++ [ch]).length), Function.update buf n ch i = (str ++ [ch])[i] := by
  intro i hi
  rw [List.length_append, List.length_singleton] at hi
  rcases Nat.lt_succ_iff_lt_or_eq.mp hi with hlt | rfl
  · rw [List.getElem_append_left hlt, ← h i hlt]
    exact Function.update_of_ne (by omega) _ _
  · rw [List.getElem_append_right (Nat.le_refl _), List.getElem_singleton, ← hn]
    exact Function.update_self _ _ _

end StormOS.Library.Strings
