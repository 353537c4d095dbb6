import StormOS.FormatText
import StormOS.Syscall

namespace StormOS.Syscall

open Library.Bytes Machine Printf

theorem length_drop_lt {str : List UInt8} (h : str ≠ []) {n : ℕ} (hn : 0 < n) :
    (str.drop n).length < str.length := by
  have hpos : 0 < str.length := List.length_pos_of_ne_nil h
  rw [List.length_drop]
  omega

def pieces (str : List UInt8) : List (List UInt8) :=
  if h : str = [] then []
  else
    have : (str.drop 4095).length < str.length := length_drop_lt h (by decide)
    str.take 4095 :: pieces (str.drop 4095)
termination_by str.length
decreasing_by exact this

variable {stack : ℕ → Args} {str fmt : List UInt8} {cs : List (List UInt8)}

theorem pieces_nil : pieces [] = [] := by rw [pieces, dif_pos rfl]

theorem pieces_cons (h : str ≠ []) : pieces str = str.take 4095 :: pieces (str.drop 4095) := by
  rw [pieces, dif_neg h]

theorem pieces_flatten (str : List UInt8) : (pieces str).flatten = str := by
  fun_induction pieces str with
  | case1 => rfl
  | case2 str _ _ ih => rw [List.flatten_cons, ih, List.take_append_drop]

theorem mem_pieces_no_nul (hnul : 0 ∉ str) (c : List UInt8) (hc : c ∈ pieces str) : 0 ∉ c := by
  intro h0
  rw [← pieces_flatten str] at hnul
  exact hnul (List.mem_flatten.mpr ⟨c, hc, h0⟩)

/-- The escape sequences with a meaning are all cut in two by the ends of the pieces. -/
def EscapesSplit (str : List UInt8) : Prop :=
  ∀ i, (h : i + 1 < str.length) → str[i] = byte '%' → (conversion str[i + 1]).isSome →
    i % 4095 = 4094

theorem literal_iff : Literal fmt ↔ ∀ i, (h : i + 1 < fmt.length) →
    ¬ (fmt[i] = byte '%' ∧ (conversion fmt[i + 1]).isSome) :=
  List.isChain_iff_getElem

theorem escapesSplit_iff (str : List UInt8) :
    EscapesSplit str ↔ ∀ c ∈ pieces str, Literal c := by
  fun_induction pieces str with
  | case1 => simp [EscapesSplit]
  | case2 str hne _ ih =>
    rw [List.forall_mem_cons, ← ih]
    constructor
    · intro h
      refine ⟨literal_iff.mpr fun i hi hesc ↦ ?_, fun i hi hch hconv ↦ ?_⟩
      · rw [List.length_take] at hi
        rw [List.getElem_take, List.getElem_take] at hesc
        have hmod := h i (by omega) hesc.1 hesc.2
        omega
      · rw [List.length_drop] at hi
        rw [List.getElem_drop] at hch hconv
        have hmod := h (4095 + i) (by omega) hch hconv
        omega
    · rintro ⟨htake, hdrop⟩ i hi hch hconv
      by_cases hlt : i < 4095
      · by_contra hmod
        apply literal_iff.mp htake i (by rw [List.length_take]; omega)
        rw [List.getElem_take, List.getElem_take]
        exact ⟨hch, hconv⟩
      · obtain ⟨j, rfl⟩ := Nat.exists_eq_add_of_le (not_lt.mp hlt)
        have hmod := hdrop j (by rw [List.length_drop]; omega)
          (by rwa [List.getElem_drop]) (by rwa [List.getElem_drop])
        omega

/-- With this stack every piece prints as `out` says, whatever the memory. -/
def Answers (out : List UInt8 → List UInt8) : (ℕ → Args) → List (List UInt8) → Prop
  | _, [] => True
  | stack, c :: cs => (∀ m, vPrintFmt m c (stack 0) = some (out c)) ∧ 0 ∉ out c ∧
    Answers out (fun i ↦ stack (i + 1)) cs

theorem answers_literal (h : ∀ c ∈ cs, Literal c) (hnul : ∀ c ∈ cs, 0 ∉ c) :
    Answers id stack cs := by
  induction cs generalizing stack with
  | nil => trivial
  | cons c cs ih =>
    obtain ⟨hc, hcs⟩ := List.forall_mem_cons.mp h
    obtain ⟨hc', hcs'⟩ := List.forall_mem_cons.mp hnul
    exact ⟨fun _ ↦ vPrintFmt_literal hc, hc', ih hcs hcs'⟩

theorem answers_sample (hnul : ∀ c ∈ cs, 0 ∉ c) :
    Answers (fun c ↦ (sample c).2) (fun i ↦ (sample (cs.getD i [])).1) cs := by
  induction cs with
  | nil => trivial
  | cons c cs ih =>
    obtain ⟨hc, hcs⟩ := List.forall_mem_cons.mp hnul
    exact ⟨fun m ↦ vPrintFmt_sample m c, sample_no_nul hc, ih hcs⟩

/-- The samples print something else than the pieces when these have an escape sequence. -/
theorem flatMap_sample_ne (n : ℕ) (h : 0 < n ∨ ∃ c ∈ cs, ¬ Literal c) :
    cs.flatMap (fun c ↦ (sample c).2) ≠ List.replicate n (byte '%') ++ cs.flatten := by
  induction cs generalizing n with
  | nil =>
    have hn : 0 < n := h.resolve_right (by simp)
    intro he
    have hlen := congrArg List.length he
    simp at hlen
    omega
  | cons c cs ih =>
    rw [List.flatMap_cons, List.flatten_cons]
    by_cases hahead : 0 < n ∨ ¬ Literal c
    · exact sample_append_ne (fun n hn ↦ ih n (.inl hn)) n hahead
    · obtain ⟨hn, hc⟩ := not_or.mp hahead
      rw [not_not] at hc
      obtain rfl : n = 0 := by omega
      have hrest : ∃ c' ∈ cs, ¬ Literal c' := by
        obtain ⟨c', hmem, hc'⟩ := h.resolve_left hn
        rcases List.mem_cons.mp hmem with rfl | hmem
        · exact absurd hc hc'
        · exact ⟨c', hmem, hc'⟩
      have hsame : (sample c).2 = c := by
        have hprint := vPrintFmt_sample (fun _ ↦ 0) c
        rw [vPrintFmt_literal hc, Option.some.injEq] at hprint
        exact hprint.symm
      rw [hsame]
      exact fun he ↦ ih 0 (.inr hrest) (List.append_cancel_left he)

end StormOS.Syscall
