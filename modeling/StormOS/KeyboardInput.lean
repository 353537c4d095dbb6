import StormOS.Keyboard
import StormOS.Syscall
import StormOS.Library.RingBuffer
import StormOS.Library.Runs

namespace StormOS.Keyboard

open Library.RingBuffer Library.Runs Machine Printf Syscall

/-- The values of `KeyboardGetData` for the bytes that the port has, up to the one that says that
there are no more. -/
def readAll (flags : Flags) : List UInt8 → Flags × List ℤ
  | [] => (flags, [])
  | data :: bytes =>
    let r := keyboardGetData flags (some data)
    if r.value = -1 then (r.flags, [])
    else
      let rest := readAll r.flags bytes
      (rest.1, r.value :: rest.2)

/-- The driver, with the values other than 0 that the keyboard has returned, the results that
`GetChar` has taken from the ring, and what the last call did. -/
structure Input where
  console : Console
  flags : Flags
  typed : List ℤ
  taken : List ℤ
  took : Bool
  result : ℤ

def nonzero (keys : List ℤ) : List ℤ := keys.filter (· ≠ 0)

/-- A call of `GetChar` while the port has these bytes. -/
def Input.call (s : Input) (bytes : List UInt8) : Input :=
  let keys := (readAll s.flags bytes).2
  let polled := keys.foldl consoleInput s.console
  let r := getChar s.console keys
  { console := r.1
    flags := (readAll s.flags bytes).1
    typed := s.typed ++ nonzero keys
    taken := if polled.readPos ≠ polled.writePos then s.taken ++ [r.2] else s.taken
    took := polled.readPos ≠ polled.writePos
    result := r.2 }

def Input.unread (s : Input) (bytes : List UInt8) : List ℤ :=
  s.typed.drop s.taken.length ++ nonzero (readAll s.flags bytes).2

/-- The ring never holds more than it can. -/
def calls : System Input (List UInt8) where
  enabled s bytes := (s.unread bytes).length ≤ consoleBufferSize - 1
  step := Input.call

def start : Input := ⟨⟨fun _ ↦ 0, 0, 0⟩, 0, [], [], false, 0⟩

/-- What has been taken are the first values, and a call takes nothing only if nothing is left. -/
structure Delivered (s : Input) : Prop where
  taken : s.taken <+: s.typed
  idle : s.took = false → s.result = 0 ∧ s.taken.length = s.typed.length

/-- The oldest value that is unread has seven bits. -/
def Narrow (s : Input) (bytes : List UInt8) : Prop := ∀ v ∈ (s.unread bytes).head?, v < 0x80

def element (v : ℤ) : UInt8 := UInt8.ofNat (uint32OfInt v)

structure Queued (s : Input) : Prop where
  count : s.taken.length ≤ s.typed.length
  values : ∀ v ∈ s.typed, 0 < v ∧ v < 256
  ring : Holds consoleBufferSize s.console.buf s.console.readPos s.console.writePos
    ((s.typed.drop s.taken.length).map element)
  idle : s.took = false → s.result = 0 ∧ s.taken.length = s.typed.length

variable {c : Console} {s : Input} {bytes : List UInt8} {keys : List ℤ} {l : List UInt8}
  {flags : Flags} {v : ℤ}

theorem readAll_bounds (flags : Flags) (bytes : List UInt8) :
    ∀ v ∈ nonzero (readAll flags bytes).2, 0 < v ∧ v < 256 := by
  induction bytes generalizing flags with
  | nil => exact fun v hv ↦ absurd hv List.not_mem_nil
  | cons data bytes ih =>
    intro v hv
    obtain ⟨hlo, hhi⟩ := keyboardGetData_bounds flags data
    rw [readAll] at hv
    dsimp only at hv
    rw [if_neg (by omega), nonzero, List.mem_filter, List.mem_cons] at hv
    obtain ⟨rfl | hv, hne⟩ := hv
    · simp only [ne_eq, decide_not, Bool.not_eq_true', decide_eq_false_iff_not] at hne
      omega
    · exact ih _ v (List.mem_filter.mpr ⟨hv, hne⟩)

theorem consoleInput_zero (c : Console) : consoleInput c 0 = c := if_pos rfl

theorem consoleInput_holds
    (h : Holds consoleBufferSize c.buf c.readPos c.writePos l)
    (hroom : l.length + 1 < consoleBufferSize) (hv : v ≠ 0) :
    Holds consoleBufferSize (consoleInput c v).buf (consoleInput c v).readPos
      (consoleInput c v).writePos (l ++ [element v]) := by
  rw [consoleInput, if_neg hv]
  exact h.push hroom (element v)

theorem polled_holds (h : Holds consoleBufferSize c.buf c.readPos c.writePos l)
    (hroom : l.length + (nonzero keys).length < consoleBufferSize) :
    Holds consoleBufferSize (keys.foldl consoleInput c).buf (keys.foldl consoleInput c).readPos
      (keys.foldl consoleInput c).writePos (l ++ (nonzero keys).map element) := by
  induction keys generalizing c l with
  | nil => rwa [nonzero, List.filter_nil, List.map_nil, List.append_nil]
  | cons v keys ih =>
    by_cases hv : v = 0
    · have hskip : nonzero (v :: keys) = nonzero keys := List.filter_cons_of_neg (by simp [hv])
      rw [hskip] at hroom ⊢
      rw [List.foldl_cons, hv, consoleInput_zero]
      exact ih h hroom
    · have hkeep : nonzero (v :: keys) = v :: nonzero keys := List.filter_cons_of_pos (by simp [hv])
      rw [hkeep, List.length_cons] at hroom
      have hlen : (l ++ [element v]).length + (nonzero keys).length < consoleBufferSize := by
        rw [List.length_append, List.length_singleton]
        omega
      have hrest := ih (consoleInput_holds h (by omega) hv) hlen
      rw [hkeep, List.map_cons, List.append_cons]
      exact hrest

theorem intOfChar_element (hlo : 0 < v) (hhi : v < 256) : intOfChar (element v) = v ↔ v < 0x80 := by
  have hu : uint32OfInt v = v.toNat := congrArg Int.toNat (Int.emod_eq_of_lt hlo.le (by omega))
  have hchar : ((element v).toNat : ℤ) = v := by
    rw [element, hu, UInt8.toNat_ofNat', Nat.mod_eq_of_lt (by omega)]
    exact Int.toNat_of_nonneg hlo.le
  have hint : intOfChar (element v) = Int.bmod v 256 := congrArg (Int.bmod · 256) hchar
  rw [hint, Int.bmod_def]
  split
  · omega
  · omega

theorem queued_start : Queued start where
  count := Nat.le_refl _
  values v hv := absurd hv List.not_mem_nil
  ring := holds_nil (by decide) _
  idle _ := ⟨rfl, rfl⟩

theorem delivered_start : Delivered start := ⟨List.prefix_rfl, fun _ ↦ ⟨rfl, rfl⟩⟩

theorem typed_drop (h : Queued s) (bytes : List UInt8) :
    (s.call bytes).typed.drop s.taken.length = s.unread bytes :=
  List.drop_append_of_le_length h.count

theorem typed_bounds (h : Queued s) (bytes : List UInt8) :
    ∀ v ∈ (s.call bytes).typed, 0 < v ∧ v < 256 := by
  intro v hv
  rcases List.mem_append.mp hv with hv | hv
  · exact h.values v hv
  · exact readAll_bounds _ _ v hv

theorem polled_ring (h : Queued s) (hroom : (s.unread bytes).length ≤ consoleBufferSize - 1) :
    Holds consoleBufferSize ((readAll s.flags bytes).2.foldl consoleInput s.console).buf
      ((readAll s.flags bytes).2.foldl consoleInput s.console).readPos
      ((readAll s.flags bytes).2.foldl consoleInput s.console).writePos
      ((s.unread bytes).map element) := by
  rw [Input.unread, List.map_append]
  apply polled_holds h.ring
  rw [Input.unread, List.length_append] at hroom
  rw [List.length_map]
  exact Nat.lt_of_le_pred (by decide) hroom

theorem getChar_nil
    (h : (keys.foldl consoleInput c).readPos = (keys.foldl consoleInput c).writePos) :
    getChar c keys = (keys.foldl consoleInput c, 0) := by
  rw [getChar]
  exact if_neg (not_not.mpr h)

theorem getChar_cons {x : UInt8} (h : Holds consoleBufferSize (keys.foldl consoleInput c).buf
      (keys.foldl consoleInput c).readPos (keys.foldl consoleInput c).writePos (x :: l)) :
    (getChar c keys).2 = intOfChar x ∧
      Holds consoleBufferSize (getChar c keys).1.buf (getChar c keys).1.readPos
        (getChar c keys).1.writePos l := by
  have hne := mt h.eq_iff.mp (List.cons_ne_nil x l)
  have hget : getChar c keys = ({ keys.foldl consoleInput c with
      readPos := next consoleBufferSize (keys.foldl consoleInput c).readPos },
      intOfChar ((keys.foldl consoleInput c).buf (keys.foldl consoleInput c).readPos)) := if_pos hne
  rw [hget]
  refine ⟨?_, h.pop⟩
  dsimp only
  rw [h.head]

inductive Taken (s : Input) (bytes : List UInt8) : Prop
  | nothing (unread : s.unread bytes = []) (taken : (s.call bytes).taken = s.taken)
    (result : (s.call bytes).result = 0)
    (ring : Holds consoleBufferSize (s.call bytes).console.buf (s.call bytes).console.readPos
      (s.call bytes).console.writePos [])
  | oldest (v : ℤ) (rest : List ℤ) (unread : s.unread bytes = v :: rest)
    (taken : (s.call bytes).taken = s.taken ++ [intOfChar (element v)])
    (took : (s.call bytes).took = true)
    (ring : Holds consoleBufferSize (s.call bytes).console.buf (s.call bytes).console.readPos
      (s.call bytes).console.writePos (rest.map element))

theorem call_taken (h : Queued s) (hroom : (s.unread bytes).length ≤ consoleBufferSize - 1) :
    Taken s bytes := by
  have hring := polled_ring h hroom
  cases hunread : s.unread bytes with
  | nil =>
    rw [hunread] at hring
    have heq := hring.eq_iff.mpr rfl
    have hget := getChar_nil heq
    refine .nothing hunread (if_neg (not_not.mpr heq)) (congrArg Prod.snd hget) ?_
    rw [Input.call]
    dsimp only
    rw [hget]
    exact hring
  | cons v rest =>
    rw [hunread, List.map_cons] at hring
    have hne := mt hring.eq_iff.mp (List.cons_ne_nil _ _)
    obtain ⟨hresult, hrest⟩ := getChar_cons hring
    refine .oldest v rest hunread ?_ (decide_eq_true hne) hrest
    rw [← hresult]
    exact if_pos hne

theorem queued_call (h : Queued s) (hroom : (s.unread bytes).length ≤ consoleBufferSize - 1) :
    Queued (s.call bytes) := by
  have hdrop := typed_drop h bytes
  have hvalues := typed_bounds h bytes
  cases call_taken h hroom with
  | nothing hunread htaken hresult hring =>
    have hlen : (s.call bytes).taken.length = (s.call bytes).typed.length := by
      have hle := List.drop_eq_nil_iff.mp (hdrop.trans hunread)
      have hcount := h.count
      rw [htaken]
      refine Nat.le_antisymm (hcount.trans ?_) hle
      exact (List.prefix_append _ _).length_le
    refine ⟨hlen.le, hvalues, ?_, fun _ ↦ ⟨hresult, hlen⟩⟩
    rwa [htaken, hdrop, hunread]
  | oldest v rest hunread htaken htook hring =>
    have htyped : (s.call bytes).typed.drop (s.taken.length + 1) = rest := by
      rw [← List.drop_drop, hdrop, hunread]
      rfl
    refine ⟨?_, hvalues, ?_, fun hidle ↦ absurd (htook.symm.trans hidle) (by decide)⟩
    · have hpos : 0 < ((s.call bytes).typed.drop s.taken.length).length := by
        rw [hdrop, hunread]
        exact Nat.succ_pos _
      rw [List.length_drop] at hpos
      rw [htaken, List.length_append, List.length_singleton]
      omega
    · rwa [htaken, List.length_append, List.length_singleton, htyped]

theorem delivered_call_iff (h : Queued s) (hd : Delivered s)
    (hroom : (s.unread bytes).length ≤ consoleBufferSize - 1) :
    Delivered (s.call bytes) ↔ Narrow s bytes := by
  have hidle := (queued_call h hroom).idle
  have hprefix : s.taken <+: (s.call bytes).typed := hd.taken.trans (List.prefix_append _ _)
  cases call_taken h hroom with
  | nothing hunread htaken _ _ =>
    refine iff_of_true ⟨by rwa [htaken], hidle⟩ ?_
    rw [Narrow, hunread]
    exact fun v hv ↦ absurd hv (by simp)
  | oldest v rest hunread htaken _ _ =>
    have htyped : (s.call bytes).typed = s.taken ++ v :: rest := by
      rw [← hunread, ← typed_drop h bytes]
      exact List.prefix_iff_eq_append.mp hprefix |>.symm
    have hv : v ∈ (s.call bytes).typed := by
      rw [htyped]
      exact List.mem_append_right _ List.mem_cons_self
    obtain ⟨hlo, hhi⟩ := typed_bounds h bytes v hv
    have hnarrow : Narrow s bytes ↔ v < 0x80 := by
      rw [Narrow, hunread, List.head?_cons]
      exact ⟨fun hn ↦ hn v rfl, fun hlt w hw ↦ (Option.some.inj hw) ▸ hlt⟩
    rw [hnarrow, ← intOfChar_element hlo hhi]
    constructor
    · intro hdelivered
      have htaken' := hdelivered.taken
      rw [htaken, htyped, List.prefix_append_right_inj, List.cons_prefix_cons] at htaken'
      exact htaken'.1
    · intro heq
      refine ⟨?_, hidle⟩
      rw [htaken, htyped, List.prefix_append_right_inj, List.cons_prefix_cons]
      exact ⟨heq, List.nil_prefix⟩

/-- The results of `GetChar` are the values of the keyboard as long as it takes only values of
seven bits. -/
theorem delivered_iff (as : List (List UInt8)) (h : calls.Legal start as) :
    calls.Throughout Delivered start as ↔ calls.Along Narrow start as :=
  System.throughout_iff_along h queued_start delivered_start
    (fun _ _ hq hroom ↦ queued_call hq hroom) fun _ _ hq hd hroom ↦ delivered_call_iff hq hd hroom

theorem delivered_iff_letter :
    calls.Throughout Delivered start [[0x1E], []] ↔ calls.Along Narrow start [[0x1E], []] :=
  delivered_iff [[0x1E], []]
    ⟨show (start.unread [0x1E]).length ≤ 511 by decide,
      show ((start.call [0x1E]).unread []).length ≤ 511 by decide, trivial⟩

/-- The arrow up is the value 0xE2, and comes back negative. -/
theorem not_delivered_up :
    ¬ ∀ as, calls.Legal start as → calls.Throughout Delivered start as := by
  intro h
  have hroom : (start.unread [0xE0, 0x48]).length ≤ 511 := by decide
  have hup := (h [[0xE0, 0x48]] ⟨hroom, trivial⟩).2
  have htyped : (start.call [0xE0, 0x48]).typed = [0xE2] := by decide
  have htaken : (start.call [0xE0, 0x48]).taken = [-30] := by decide
  have hprefix : (start.call [0xE0, 0x48]).taken <+: (start.call [0xE0, 0x48]).typed := hup.taken
  rw [htyped, htaken] at hprefix
  exact absurd hprefix (by decide)

end StormOS.Keyboard
