import StormOS.Keyboard
import StormOS.Library.Runs
import Mathlib.Algebra.Ring.Parity

namespace StormOS.Keyboard

open Library.Runs Function

/-- A key has the number that the tables have for it. The keys with the prefix 0xE0 come last. -/
abbrev Key := UInt8

inductive Event
  | press (key : Key)
  | release (key : Key)

def Event.bytes : Event → List UInt8
  | .press key => if key < 0x80 then [key] else [0xE0, key &&& 0x7F]
  | .release key => if key < 0x80 then [key ||| 0x80] else [0xE0, key]

def scan (flags : Flags) (bytes : List UInt8) : Flags :=
  bytes.foldl (fun flags data ↦ (keyboardGetData flags (some data)).flags) flags

/-- The flags of the driver, the keys that are held, and the presses so far. -/
structure Board where
  flags : Flags
  held : Key → Bool
  presses : List Key

def Board.event (s : Board) (e : Event) : Board :=
  let flags := scan s.flags e.bytes
  match e with
  | .press key => ⟨flags, update s.held key true, s.presses ++ [key]⟩
  | .release key => ⟨flags, update s.held key false, s.presses⟩

def events : System Board Event where
  enabled s
    | .press key => s.held key = false
    | .release key => s.held key = true
  step := Board.event

def released : Board := ⟨0, fun _ ↦ false, []⟩

abbrev Has (flags f : Flags) : Prop := flags &&& f ≠ 0

/-- The flags tell which modifiers are held, and how often the locks have been pressed. -/
structure Follows (s : Board) : Prop where
  modifiers : ∀ f ∈ [shift, ctl, alt],
    Has s.flags f ↔ ∃ key, s.held key = true ∧ Has (shiftcode key) f
  escape : ¬ Has s.flags e0Esc
  locks : ∀ f ∈ [capsLock, numLock, scrollLock],
    Has s.flags f ↔ Odd (s.presses.countP fun key ↦ togglecode key &&& f ≠ 0)

/-- No other key of the same modifier is held when a key is released. Two of the numbers have the
prefix itself as the byte of the release. -/
def Alone (s : Board) : Event → Prop
  | .press _ => True
  | .release key => key ≠ 0x60 ∧ key ≠ 0xE0 ∧
    ∀ other ≠ key, s.held other = true → ¬ Has (shiftcode other) (shiftcode key)

variable {flags f g : Flags} {s : Board} {key : Key} {i j : ℕ}

theorem flag_bit (hj : j < 32) (i : ℕ) : (1#32 <<< j).getLsbD i = decide (j = i) := by
  rw [← BitVec.twoPow_eq, BitVec.getLsbD_twoPow, decide_eq_true hj, Bool.true_and]

theorem has_iff : Has flags f ↔ ∃ i, flags.getLsbD i = true ∧ f.getLsbD i = true := by
  constructor
  · intro h
    by_contra hnone
    refine h (BitVec.eq_of_getLsbD_eq fun i _ ↦ ?_)
    have hzero : (0 : Flags).getLsbD i = false := BitVec.getLsbD_zero
    rw [BitVec.getLsbD_and, hzero, Bool.and_eq_false_iff]
    by_contra hboth
    simp only [not_or, Bool.not_eq_false] at hboth
    exact hnone ⟨i, hboth⟩
  · rintro ⟨i, hflags, hf⟩ h
    have hbit := congrArg (·.getLsbD i) h
    simp [hflags, hf] at hbit

theorem has_flag (hj : j < 32) : Has flags (1#32 <<< j) ↔ flags.getLsbD j = true := by
  rw [has_iff]
  simp only [flag_bit hj, decide_eq_true_eq]
  exact ⟨fun ⟨i, hi, he⟩ ↦ he ▸ hi, fun h ↦ ⟨j, h, rfl⟩⟩

theorem zero_bit (i : ℕ) : (0 : Flags).getLsbD i = false := BitVec.getLsbD_zero

theorem shiftcode_bit (hi : 3 ≤ i) (key : Key) : (shiftcode key).getLsbD i = false := by
  have hctl : ctl.getLsbD i = false := by rw [flag_bit (by decide), decide_eq_false (by omega)]
  have hshift : shift.getLsbD i = false := by rw [flag_bit (by decide), decide_eq_false (by omega)]
  have halt : alt.getLsbD i = false := by rw [flag_bit (by decide), decide_eq_false (by omega)]
  simp only [shiftcode, apply_ite (BitVec.getLsbD · i), hctl, hshift, halt, zero_bit, ite_self]

theorem togglecode_bit (hi : i < 3 ∨ 6 ≤ i) (key : Key) : (togglecode key).getLsbD i = false := by
  have hcaps : capsLock.getLsbD i = false := by
    rw [flag_bit (by decide), decide_eq_false (by omega)]
  have hnum : numLock.getLsbD i = false := by rw [flag_bit (by decide), decide_eq_false (by omega)]
  have hscroll : scrollLock.getLsbD i = false := by
    rw [flag_bit (by decide), decide_eq_false (by omega)]
  simp only [togglecode, apply_ite (BitVec.getLsbD · i), hcaps, hnum, hscroll, zero_bit, ite_self]

theorem forall_byte {P : UInt8 → Prop} (h : ∀ n < 256, P (UInt8.ofNat n)) (b : UInt8) : P b := by
  have hb := h b.toNat b.toNat_lt
  rwa [UInt8.ofNat_toNat] at hb

theorem low_byte : ∀ b : UInt8, b < 0x80 → b &&& 0x80 = 0 ∧ b ≠ 0xE0 ∧ (b ||| 0x80) &&& 0x80 ≠ 0 ∧
    (b ||| 0x80) &&& 0x7F = b ∧ (b ||| 0x80 = 0xE0 ↔ b = 0x60) :=
  forall_byte (by decide +kernel)

theorem high_byte : ∀ b : UInt8, ¬ b < 0x80 → (b &&& 0x7F) &&& 0x80 = 0 ∧ b &&& 0x7F ≠ 0xE0 ∧
    (b &&& 0x7F) ||| 0x80 = b ∧ b &&& 0x80 ≠ 0 :=
  forall_byte (by decide +kernel)

theorem escape_bit (i : ℕ) : e0Esc.getLsbD i = decide (6 = i) := flag_bit (by decide) i

theorem escaped (flags : Flags) : Has (flags ||| e0Esc) e0Esc := by
  rw [has_flag (by decide), BitVec.getLsbD_or, escape_bit, decide_eq_true rfl, Bool.or_true]

theorem clear_escape (h : ¬ Has flags e0Esc) (hg : ∀ i, 6 ≠ i → g.getLsbD i = flags.getLsbD i)
    (f : Flags) : g &&& ~~~(f ||| e0Esc) = flags &&& ~~~f := by
  rw [has_flag (by decide), Bool.not_eq_true] at h
  apply BitVec.eq_of_getLsbD_eq
  intro i hi
  simp only [BitVec.getLsbD_and, BitVec.getLsbD_or, BitVec.getLsbD_not, escape_bit,
    decide_eq_true hi, Bool.true_and]
  by_cases hi6 : 6 = i
  · rw [decide_eq_true hi6, ← hi6, h, Bool.or_true, Bool.not_true, Bool.and_false, Bool.false_and]
  · rw [decide_eq_false hi6, Bool.or_false, hg i hi6]

theorem unescape (h : ¬ Has flags e0Esc) (f : Flags) :
    (flags ||| e0Esc) &&& ~~~(f ||| e0Esc) = flags &&& ~~~f := by
  refine clear_escape h (fun i hi ↦ ?_) f
  rw [BitVec.getLsbD_or, escape_bit, decide_eq_false hi, Bool.or_false]

section Bytes

variable {data : UInt8}

theorem read_release (flags : Flags) (hdata : data ≠ 0xE0) (hhigh : data &&& 0x80 ≠ 0) :
    (keyboardGetData flags (some data)).flags = flags &&&
      ~~~(shiftcode (if flags &&& e0Esc ≠ 0 then data else data &&& 0x7F) ||| e0Esc) := by
  rw [keyboardGetData, if_neg hdata, if_pos hhigh]

theorem read_press (hdata : data ≠ 0xE0) (hlow : data &&& 0x80 = 0) (h : ¬ Has flags e0Esc) :
    (keyboardGetData flags (some data)).flags =
      (flags ||| shiftcode data) ^^^ togglecode data := by
  rw [keyboardGetData, if_neg hdata, if_neg (not_not.mpr hlow), if_neg h]
  rfl

theorem read_escaped (hdata : data ≠ 0xE0) (hlow : data &&& 0x80 = 0) (h : Has flags e0Esc) :
    (keyboardGetData flags (some data)).flags =
      ((flags &&& ~~~e0Esc) ||| shiftcode (data ||| 0x80)) ^^^ togglecode (data ||| 0x80) := by
  rw [keyboardGetData, if_neg hdata, if_neg (not_not.mpr hlow), if_pos h]
  rfl

theorem scan_press (h : ¬ Has flags e0Esc) (key : Key) :
    scan flags (Event.press key).bytes = (flags ||| shiftcode key) ^^^ togglecode key := by
  rw [Event.bytes]
  by_cases hlow : key < 0x80
  · obtain ⟨hbit, hne, -⟩ := low_byte key hlow
    rw [if_pos hlow]
    exact read_press hne hbit h
  · obtain ⟨hbit, hne, hkey, -⟩ := high_byte key hlow
    have hclear : (flags ||| e0Esc) &&& ~~~e0Esc = flags :=
      (unescape h 0).trans BitVec.and_allOnes
    have hread := read_escaped hne hbit (escaped flags)
    rw [hkey, hclear] at hread
    rw [if_neg hlow]
    exact hread

theorem scan_release (h : ¬ Has flags e0Esc) (hkey : key ≠ 0x60) (hkey' : key ≠ 0xE0) :
    scan flags (Event.release key).bytes = flags &&& ~~~shiftcode key := by
  rw [Event.bytes]
  by_cases hlow : key < 0x80
  · obtain ⟨-, -, hbit, hmask, hprefix⟩ := low_byte key hlow
    have hread := read_release flags (mt hprefix.mp hkey) hbit
    rw [if_neg h, hmask, clear_escape h fun _ _ ↦ rfl] at hread
    rw [if_pos hlow]
    exact hread
  · obtain ⟨-, -, -, hbit⟩ := high_byte key hlow
    have hread := read_release (flags ||| e0Esc) hkey' hbit
    rw [if_pos (escaped flags), unescape h] at hread
    rw [if_neg hlow]
    exact hread

/-- The byte of the release is taken for the prefix. -/
theorem scan_release_escape (flags : Flags) (hkey : key = 0x60 ∨ key = 0xE0) :
    Has (scan flags (Event.release key).bytes) e0Esc := by
  rcases hkey with rfl | rfl
  · exact escaped flags
  · exact escaped (flags ||| e0Esc)

end Bytes

theorem press_bit (h : ¬ Has flags e0Esc) (key : Key) (i : ℕ) :
    (scan flags (Event.press key).bytes).getLsbD i =
      ((flags.getLsbD i || (shiftcode key).getLsbD i) ^^ (togglecode key).getLsbD i) := by
  rw [scan_press h, BitVec.getLsbD_xor, BitVec.getLsbD_or]

theorem release_bit (h : ¬ Has flags e0Esc) (hkey : key ≠ 0x60) (hkey' : key ≠ 0xE0) (hi : i < 32) :
    (scan flags (Event.release key).bytes).getLsbD i =
      (flags.getLsbD i && !(shiftcode key).getLsbD i) := by
  rw [scan_release h hkey hkey', BitVec.getLsbD_and, BitVec.getLsbD_not, decide_eq_true hi,
    Bool.true_and]

/-- The same, bit by bit. -/
structure Tracks (s : Board) : Prop where
  modifiers : ∀ i < 3, s.flags.getLsbD i = true ↔
    ∃ key, s.held key = true ∧ (shiftcode key).getLsbD i = true
  escape : ¬ Has s.flags e0Esc
  locks : ∀ i, 3 ≤ i → i < 6 →
    (s.flags.getLsbD i = true ↔ Odd (s.presses.countP fun key ↦ (togglecode key).getLsbD i))

theorem follows_iff (s : Board) : Follows s ↔ Tracks s := by
  have hmodifier (i : ℕ) (hi : i < 32) : (Has s.flags (1#32 <<< i) ↔
      ∃ key, s.held key = true ∧ Has (shiftcode key) (1#32 <<< i)) ↔
        (s.flags.getLsbD i = true ↔
          ∃ key, s.held key = true ∧ (shiftcode key).getLsbD i = true) := by
    simp only [has_flag hi]
  have hlock (i : ℕ) (hi : i < 32) : (Has s.flags (1#32 <<< i) ↔
      Odd (s.presses.countP fun key ↦ togglecode key &&& 1#32 <<< i ≠ 0)) ↔
        (s.flags.getLsbD i = true ↔
          Odd (s.presses.countP fun key ↦ (togglecode key).getLsbD i)) := by
    have hp : (fun key ↦ decide (togglecode key &&& 1#32 <<< i ≠ 0)) =
        fun key ↦ (togglecode key).getLsbD i := by
      funext key
      rw [Bool.eq_iff_iff, decide_eq_true_iff]
      exact has_flag hi
    rw [hp, has_flag hi]
  have hmodifiers : ∀ i < 3, (1#32 <<< i) ∈ [shift, ctl, alt] := by decide
  have hlocks : ∀ i < 6, 3 ≤ i → (1#32 <<< i) ∈ [capsLock, numLock, scrollLock] := by decide
  constructor
  · intro h
    refine ⟨fun i hi ↦ ?_, h.escape, fun i hi hi' ↦ ?_⟩
    · rw [← hmodifier i (by omega)]
      exact h.modifiers _ (hmodifiers i hi)
    · rw [← hlock i (by omega)]
      exact h.locks _ (hlocks i hi' hi)
  · intro h
    refine ⟨fun f hf ↦ ?_, h.escape, fun f hf ↦ ?_⟩
    · simp only [List.mem_cons, List.not_mem_nil, or_false] at hf
      rcases hf with rfl | rfl | rfl
      · exact (hmodifier 0 (by decide)).mpr (h.modifiers 0 (by decide))
      · exact (hmodifier 1 (by decide)).mpr (h.modifiers 1 (by decide))
      · exact (hmodifier 2 (by decide)).mpr (h.modifiers 2 (by decide))
    · simp only [List.mem_cons, List.not_mem_nil, or_false] at hf
      rcases hf with rfl | rfl | rfl
      · exact (hlock 3 (by decide)).mpr (h.locks 3 (by decide) (by decide))
      · exact (hlock 4 (by decide)).mpr (h.locks 4 (by decide) (by decide))
      · exact (hlock 5 (by decide)).mpr (h.locks 5 (by decide) (by decide))

theorem held_press (s : Board) (key : Key) (i : ℕ) :
    (∃ other, update s.held key true other = true ∧ (shiftcode other).getLsbD i = true) ↔
      (∃ other, s.held other = true ∧ (shiftcode other).getLsbD i = true) ∨
        (shiftcode key).getLsbD i = true := by
  constructor
  · rintro ⟨other, hheld, hbit⟩
    by_cases he : other = key
    · exact .inr (he ▸ hbit)
    · rw [update_of_ne he] at hheld
      exact .inl ⟨other, hheld, hbit⟩
  · rintro (⟨other, hheld, hbit⟩ | hbit)
    · by_cases he : other = key
      · exact ⟨key, update_self _ _ _, he ▸ hbit⟩
      · exact ⟨other, by rwa [update_of_ne he], hbit⟩
    · exact ⟨key, update_self _ _ _, hbit⟩

theorem tracks_press (h : Tracks s) (key : Key) : Tracks (s.event (.press key)) where
  modifiers i hi := by
    have hbit := press_bit h.escape key i
    rw [togglecode_bit (.inl hi), Bool.xor_false] at hbit
    rw [Board.event, hbit, Bool.or_eq_true, h.modifiers i hi]
    exact (held_press s key i).symm
  escape := by
    have hesc := h.escape
    rw [has_flag (by decide), Bool.not_eq_true] at hesc ⊢
    apply (press_bit h.escape key 6).trans
    rw [hesc, shiftcode_bit (by decide), togglecode_bit (.inr (by decide))]
    rfl
  locks i hi hi' := by
    have hbit := press_bit h.escape key i
    rw [shiftcode_bit hi, Bool.or_false] at hbit
    rw [Board.event, hbit]
    dsimp only
    rw [List.countP_append, List.countP_singleton]
    have hold := h.locks i hi hi'
    cases htoggle : (togglecode key).getLsbD i with
    | false => simpa using hold
    | true =>
      rw [if_pos rfl, Nat.odd_add_one, ← hold]
      simp

theorem held_release {s : Board} {key : Key} (i : ℕ) :
    (∃ other, update s.held key false other = true ∧ (shiftcode other).getLsbD i = true) ↔
      ∃ other ≠ key, s.held other = true ∧ (shiftcode other).getLsbD i = true := by
  constructor
  · rintro ⟨other, hheld, hbit⟩
    have hne : other ≠ key := by
      rintro rfl
      rw [update_self] at hheld
      exact Bool.noConfusion hheld
    rw [update_of_ne hne] at hheld
    exact ⟨other, hne, hheld, hbit⟩
  · rintro ⟨other, hne, hheld, hbit⟩
    exact ⟨other, by rwa [update_of_ne hne], hbit⟩

/-- A release clears the flag of its modifier, whatever else is held. -/
theorem tracks_release (h : Tracks s) (hkey : key ≠ 0x60) (hkey' : key ≠ 0xE0) :
    Tracks (s.event (.release key)) ↔
      ∀ other ≠ key, s.held other = true → ¬ Has (shiftcode other) (shiftcode key) := by
  have hbit (i : ℕ) (hi : i < 32) := release_bit h.escape hkey hkey' hi
  constructor
  · intro hs other hne hheld hhas
    obtain ⟨i, hother, hsame⟩ := has_iff.mp hhas
    have hi : i < 3 := by
      by_contra hi
      rw [shiftcode_bit (not_lt.mp hi)] at hother
      exact Bool.noConfusion hother
    have hset := (hs.modifiers i hi).mpr ((held_release i).mpr ⟨other, hne, hheld, hother⟩)
    rw [Board.event, hbit i (by omega), hsame, Bool.not_true, Bool.and_false] at hset
    exact Bool.noConfusion hset
  · intro halone
    refine ⟨fun i hi ↦ ?_, ?_, fun i hi hi' ↦ ?_⟩
    · rw [Board.event, hbit i (by omega), Bool.and_eq_true, Bool.not_eq_true', h.modifiers i hi]
      refine Iff.trans ⟨?_, ?_⟩ (held_release i).symm
      · rintro ⟨⟨other, hheld, hother⟩, hclear⟩
        refine ⟨other, ?_, hheld, hother⟩
        rintro rfl
        exact Bool.noConfusion (hother.symm.trans hclear)
      · rintro ⟨other, hne, hheld, hother⟩
        refine ⟨⟨other, hheld, hother⟩, ?_⟩
        by_contra hset
        rw [Bool.not_eq_false] at hset
        exact halone other hne hheld (has_iff.mpr ⟨i, hother, hset⟩)
    · have hesc := h.escape
      rw [has_flag (by decide), Bool.not_eq_true] at hesc ⊢
      apply (hbit 6 (by decide)).trans
      rw [hesc, Bool.false_and]
    · rw [Board.event, hbit i (by omega), shiftcode_bit hi, Bool.not_false, Bool.and_true]
      exact h.locks i hi hi'

theorem tracks_event (h : Tracks s) (e : Event) : Tracks (s.event e) ↔ Alone s e := by
  cases e with
  | press key => exact iff_of_true (tracks_press h key) trivial
  | release key =>
    by_cases hkey : key = 0x60 ∨ key = 0xE0
    · refine iff_of_false (fun hs ↦ hs.escape (scan_release_escape s.flags hkey)) fun ha ↦ ?_
      exact hkey.elim ha.1 ha.2.1
    · obtain ⟨hkey, hkey'⟩ := not_or.mp hkey
      rw [tracks_release h hkey hkey']
      exact ⟨fun hr ↦ ⟨hkey, hkey', hr⟩, fun ha ↦ ha.2.2⟩

theorem follows_released : Follows released where
  modifiers _ _ := iff_of_false (fun h ↦ h BitVec.zero_and) fun ⟨_, hheld, _⟩ ↦
    Bool.noConfusion hheld
  escape h := h BitVec.zero_and
  locks _ _ := iff_of_false (fun h ↦ h BitVec.zero_and) Nat.not_odd_zero

/-- The flags follow the keys exactly as long as every key is released alone. -/
theorem follows_iff_alone (es : List Event) (h : events.Legal released es) :
    events.Throughout Follows released es ↔ events.Along Alone released es := by
  refine System.throughout_iff_along (I := fun _ ↦ True) h trivial follows_released
    (fun _ _ _ _ ↦ trivial) fun s e _ hs _ ↦ ?_
  rw [follows_iff]
  exact tracks_event ((follows_iff s).mp hs) e

theorem follows_iff_alone_shift :
    events.Throughout Follows released [.press 0x2A, .release 0x2A] ↔
      events.Along Alone released [.press 0x2A, .release 0x2A] :=
  follows_iff_alone [.press 0x2A, .release 0x2A] ⟨rfl, rfl, trivial⟩

/-- Both shift keys are pressed, and one of them is released. -/
theorem not_follows_both : ¬ ∀ es, events.Legal released es →
    events.Throughout Follows released es := by
  intro h
  have hrun := h [.press 0x2A, .press 0x36, .release 0x2A] ⟨rfl, rfl, rfl, trivial⟩
  have hlast := hrun.2.2.2
  have hheld : ∃ key, ((((released.event (.press 0x2A)).event (.press 0x36)).event
      (.release 0x2A)).held key) = true ∧ Has (shiftcode key) shift :=
    ⟨0x36, by decide, by decide⟩
  exact absurd ((hlast.modifiers shift (by decide)).mpr hheld) (by decide)

end StormOS.Keyboard
