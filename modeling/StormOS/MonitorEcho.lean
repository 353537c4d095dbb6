import StormOS.ConsoleRefinement
import StormOS.FormatText
import StormOS.Library.Runs

namespace StormOS.Monitor

open Library.Runs Library.Terminals Terminal Console Printf Function

/-- The console and the line that the monitor is reading. Of the specification are the terminal
that the console shows, and the place on it behind the prompt. -/
structure Session where
  console : Console.State
  buf : ℕ → UInt8
  index : ℤ
  screen : TextScreen
  prompt : ℕ

section Model

variable (font : UInt8 → ℕ → UInt8) (reverseBits : UInt8 → UInt8) (color : ℕ)

def putCalls (s : Console.State) (calls : List (UInt8 × ℕ)) : Console.State :=
  calls.foldl (fun s x ↦ putChar font reverseBits s x.1 x.2) s

def echo (s : Console.State) (ch : UInt8) : Console.State :=
  (vPrintf (fun _ ↦ 0) color [byte '%', byte 'c'] fun _ ↦ ch.toNat).elim s fun r ↦
    putCalls font reverseBits s r.1

/-- A round of `MonitorRun` with a key that does not end the line. -/
def Session.key (s : Session) (ch : UInt8) : Session :=
  let t : Session :=
    { s with
      console := echo font reverseBits color s.console ch
      screen := put s.screen (ch, color)
      prompt := if ch = 8 then s.prompt else s.prompt - s.screen.scrolled }
  if ch = 8 then { t with index := if s.index - 1 < 0 then 0 else s.index - 1 }
  else if s.index < (consoleBufferSize : ℤ) - 1 then
    { t with buf := update s.buf s.index.toNat ch, index := s.index + 1 }
  else t

/-- The keys are printable characters and backspaces. -/
def keys : System Session UInt8 where
  enabled _ ch := ch = 8 ∨ 0x20 ≤ ch ∧ ch ≤ 0x7E
  step := Session.key font reverseBits color

/-- `Printf("> ")`, after anything that has been printed since the screen was cleared. -/
def prompted (c0 : ℕ) (s : Console.State) (before : List (UInt8 × ℕ)) (buf : ℕ → UInt8) : Session :=
  let calls := before ++ [(byte '>', color), (byte ' ', color)]
  { console := putCalls font reverseBits
      (resetCursor { s with screen := Screen.clearScreen s.screen c0 }) calls
    buf := buf
    index := 0
    screen := calls.foldl put cleared
    prompt := (calls.foldl put cleared).pos }

/-- From behind the prompt up to the cursor the screen shows the line. -/
structure Echoed (c0 : ℕ) (s : Session) : Prop where
  shows : Shows font reverseBits c0 s.console s.screen
  prompt : 2 ≤ s.prompt ∧ s.screen.cell (s.prompt - 2) = cellOf (byte '>') color ∧
    s.screen.cell (s.prompt - 1) = cellOf (byte ' ') color
  cursor : (s.screen.pos : ℤ) = s.prompt + s.index
  text : ∀ i : ℕ, i < s.index → s.screen.cell (s.prompt + i) = cellOf (s.buf i) color

end Model

/-- A backspace finds the line empty just when the cursor is at the left margin, and a character
finds room in the buffer. -/
def Clean (s : Session) (ch : UInt8) : Prop :=
  if ch = 8 then s.index = 0 ↔ s.console.col = 0 else s.index < (consoleBufferSize : ℤ) - 1

variable {font : UInt8 → ℕ → UInt8} {reverseBits : UInt8 → UInt8} {color c0 : ℕ} {s : Session}
  {ch : UInt8}

structure Sane (font : UInt8 → ℕ → UInt8) (reverseBits : UInt8 → UInt8) (c0 : ℕ) (s : Session) :
    Prop where
  shows : Shows font reverseBits c0 s.console s.screen
  blank : s.screen.BlankFrom .blank
  index : 0 ≤ s.index ∧ s.index ≤ 511

theorem vPrintf_char (color : ℕ) (m : Library.Bytes.Memory) (h : ch ≠ 0) :
    ∃ count, vPrintf m color [byte '%', byte 'c'] (fun _ ↦ ch.toNat) =
      some ([(ch, color)], count) := by
  have hchar : vPrintFmt m [byte '%', byte 'c'] (fun _ ↦ ch.toNat) = some [ch] := by
    rw [vPrintFmt_convert (c := .char) rfl, convert, UInt8.ofNat_toNat]
    rfl
  exact vPrintf_eq color hchar (by simpa using h.symm)

theorem echo_eq (s : Console.State) (h : ch ≠ 0) :
    echo font reverseBits color s ch = putChar font reverseBits s ch color := by
  obtain ⟨count, hcalls⟩ := vPrintf_char color (fun _ ↦ 0) h
  rw [echo, hcalls]
  rfl

theorem isKey_ne (h : ch = 8 ∨ 0x20 ≤ ch ∧ ch ≤ 0x7E) : ch ≠ 0 ∧ ch ≠ 10 := by
  rcases h with rfl | ⟨hlo, -⟩
  · decide
  · refine ⟨?_, ?_⟩
    · rintro rfl
      exact absurd hlo (by decide)
    · rintro rfl
      exact absurd hlo (by decide)

theorem put_backspace (t : TextScreen) (color : ℕ) : put t (8, color) = t.backspace .blank := rfl

theorem put_char (t : TextScreen) (h8 : ch ≠ 8) (h10 : ch ≠ 10) :
    put t (ch, color) = t.place .blank (cellOf ch color) := by
  rw [put, if_neg h10, if_neg h8]

theorem key_index (s : Session) (h : 0 ≤ s.index ∧ s.index ≤ 511) (ch : UInt8) :
    0 ≤ (s.key font reverseBits color ch).index ∧
      (s.key font reverseBits color ch).index ≤ 511 := by
  rw [Session.key]
  split
  · dsimp only
    split <;> omega
  · split
    · next hlt =>
      have hlt : s.index < 511 := hlt
      dsimp only
      omega
    · exact h

theorem key_console (s : Session) (ch : UInt8) : (s.key font reverseBits color ch).console =
    echo font reverseBits color s.console ch := by
  rw [Session.key]
  split
  · rfl
  · split <;> rfl

variable (font reverseBits color) in
theorem key_screen (s : Session) (ch : UInt8) :
    (s.key font reverseBits color ch).screen = put s.screen (ch, color) := by
  rw [Session.key]
  split
  · rfl
  · split <;> rfl

variable (font reverseBits color) in
theorem key_prompt (s : Session) (ch : UInt8) : (s.key font reverseBits color ch).prompt =
    if ch = 8 then s.prompt else s.prompt - s.screen.scrolled := by
  rw [Session.key]
  split
  · rfl
  · split <;> rfl

variable (color) in
theorem sane_key (h : Sane font reverseBits c0 s) (hch : ch = 8 ∨ 0x20 ≤ ch ∧ ch ≤ 0x7E) :
    Sane font reverseBits c0 (s.key font reverseBits color ch) := by
  obtain ⟨hshows, hblank⟩ := h.shows.putChar h.blank (ch, color)
  refine ⟨?_, ?_, key_index s h.index ch⟩
  · rw [key_console, key_screen, echo_eq _ (isKey_ne hch).1]
    exact hshows
  · rw [key_screen]
    exact hblank

theorem scrolled_cases (t : TextScreen) :
    t.scrolled = 0 ∨ t.scrolled = 80 ∧ t.pos = 4799 := by
  rw [Terminal.scrolled]
  split
  · next hlast =>
    have hrow : t.row = 59 := Nat.succ_injective hlast.1
    have hcol : t.col = 79 := Nat.succ_injective hlast.2
    refine .inr ⟨rfl, ?_⟩
    rw [pos, hrow, hcol]
    rfl
  · exact .inl rfl

/-- A line that fits in the buffer is too short to scroll its prompt away. -/
theorem Echoed.scrolled (h : Echoed font reverseBits color c0 s) (hindex : s.index ≤ 511) :
    s.screen.scrolled = 0 ∨ s.screen.scrolled + 2 ≤ s.prompt := by
  have hcursor := h.cursor
  rcases scrolled_cases s.screen with hzero | ⟨hrow, hpos⟩
  · exact .inl hzero
  · exact .inr (by omega)

theorem echoed_backspace (hs : Sane font reverseBits c0 s)
    (h : Echoed font reverseBits color c0 s) :
    Echoed font reverseBits color c0 (s.key font reverseBits color 8) ↔ Clean s 8 := by
  obtain ⟨hprompt, hgreater, hspace⟩ := h.prompt
  have hcursor := h.cursor
  have hindex := hs.index.1
  have hcol : s.console.col = 0 ↔ s.screen.col = 0 := by rw [hs.shows.col, Nat.cast_eq_zero]
  have hpos := backspace_pos Cell.blank s.screen
  have hkey : (s.key font reverseBits color 8).index = if s.index - 1 < 0 then 0 else s.index - 1 :=
    rfl
  rw [Clean, if_pos rfl, hcol]
  constructor
  · intro h'
    have hcursor' := h'.cursor
    rw [key_screen, put_backspace, hpos, key_prompt, if_pos rfl, hkey] at hcursor'
    split at hcursor' <;> split at hcursor' <;> omega
  · intro hclean
    have hshows := (sane_key color hs (.inl rfl)).shows
    have hcell (k : ℕ) (hk : k < (s.screen.backspace Cell.blank).pos) :
        (s.screen.backspace Cell.blank).cell k = s.screen.cell k := by
      rw [backspace_cell, if_neg (Nat.ne_of_lt hk)]
    have hline : ((s.screen.backspace Cell.blank).pos : ℤ) =
        s.prompt + if s.index - 1 < 0 then 0 else s.index - 1 := by
      rw [hpos]
      split <;> split <;> omega
    refine ⟨hshows, ?_, ?_, fun i hi ↦ ?_⟩
    · rw [key_screen, put_backspace, key_prompt, if_pos rfl]
      have hle : s.prompt ≤ (s.screen.backspace Cell.blank).pos := by
        split at hline <;> omega
      rw [hcell _ (by omega), hcell _ (by omega)]
      exact h.prompt
    · rw [key_screen, put_backspace, key_prompt, if_pos rfl, hkey]
      exact hline
    · rw [hkey] at hi
      rw [key_screen, put_backspace, key_prompt, if_pos rfl, hcell _ (by omega)]
      apply h.text i
      split at hi <;> omega

variable (font reverseBits color) in
theorem key_char (h8 : ch ≠ 8) (s : Session) :
    (s.key font reverseBits color ch).index = (if s.index < 511 then s.index + 1 else s.index) ∧
      (s.key font reverseBits color ch).buf =
        if s.index < 511 then update s.buf s.index.toNat ch else s.buf := by
  rw [Session.key, if_neg h8]
  by_cases hroom : s.index < 511
  · have hlt : s.index < (consoleBufferSize : ℤ) - 1 := hroom
    rw [if_pos hlt, if_pos hroom, if_pos hroom]
    exact ⟨rfl, rfl⟩
  · have hlt : ¬ s.index < (consoleBufferSize : ℤ) - 1 := hroom
    rw [if_neg hlt, if_neg hroom, if_neg hroom]
    exact ⟨rfl, rfl⟩

theorem echoed_char (hs : Sane font reverseBits c0 s) (h : Echoed font reverseBits color c0 s)
    (hch : 0x20 ≤ ch ∧ ch ≤ 0x7E) :
    Echoed font reverseBits color c0 (s.key font reverseBits color ch) ↔ Clean s ch := by
  have hkey : ch = 8 ∨ 0x20 ≤ ch ∧ ch ≤ 0x7E := .inr hch
  have h8 : ch ≠ 8 := by
    rintro rfl
    exact absurd hch.1 (by decide)
  obtain ⟨hprompt, hgreater, hspace⟩ := h.prompt
  obtain ⟨hindex, hbuf⟩ := key_char font reverseBits color h8 s
  have hcursor := h.cursor
  have hnonneg := hs.index.1
  have hscroll := h.scrolled hs.index.2
  have hpos := place_pos Cell.blank s.screen (cellOf ch color)
  have hscreen := key_screen font reverseBits color s ch
  have hprompt' := key_prompt font reverseBits color s ch
  rw [put_char _ h8 (isKey_ne hkey).2] at hscreen
  rw [if_neg h8] at hprompt'
  have hclean : Clean s ch ↔ s.index < 511 := by
    rw [Clean, if_neg h8]
    rfl
  rw [hclean]
  constructor
  · intro h'
    have hcursor' := h'.cursor
    rw [hscreen, hprompt', hindex] at hcursor'
    by_contra hfull
    rw [if_neg hfull] at hcursor'
    omega
  · intro hroom
    rw [if_pos hroom] at hindex hbuf
    -- below the cursor the cells have only moved with the prompt
    have hcell (k : ℕ) (hk : k + s.screen.scrolled ≤ s.screen.pos) :
        (s.screen.place Cell.blank (cellOf ch color)).cell k =
          if k + s.screen.scrolled = s.screen.pos then cellOf ch color
          else s.screen.cell (k + s.screen.scrolled) :=
      place_cell _ (hk.trans_lt s.screen.pos_lt)
    refine ⟨(sane_key color hs hkey).shows, ?_, ?_, fun i hi ↦ ?_⟩
    · have hsecond : s.prompt - s.screen.scrolled - 2 + s.screen.scrolled = s.prompt - 2 := by omega
      have hfirst : s.prompt - s.screen.scrolled - 1 + s.screen.scrolled = s.prompt - 1 := by omega
      rw [hscreen, hprompt', hcell _ (by omega), hcell _ (by omega), hsecond, hfirst,
        if_neg (by omega), if_neg (by omega)]
      exact ⟨by omega, hgreater, hspace⟩
    · rw [hscreen, hprompt', hindex]
      omega
    · rw [hindex] at hi
      have hplace : s.prompt - s.screen.scrolled + i + s.screen.scrolled = s.prompt + i := by omega
      rw [hscreen, hprompt', hbuf, hcell _ (by omega), hplace]
      by_cases hlast : (i : ℤ) = s.index
      · have hnat : i = s.index.toNat := by omega
        rw [if_pos (by omega), ← hnat, update_self]
      · rw [if_neg (by omega), update_of_ne (by omega)]
        exact h.text i (by omega)

theorem sane_prompted (color c0 : ℕ) (s : Console.State) (before : List (UInt8 × ℕ))
    (buf : ℕ → UInt8) :
    Sane font reverseBits c0 (prompted font reverseBits color c0 s before buf) := by
  obtain ⟨hshows, hblank⟩ := shows_run font reverseBits c0 s
    (before ++ [(byte '>', color), (byte ' ', color)])
  exact ⟨hshows, hblank, le_rfl, show (0 : ℤ) ≤ 511 by decide⟩

theorem echoed_prompted (color c0 : ℕ) (s : Console.State) (before : List (UInt8 × ℕ))
    (buf : ℕ → UInt8) :
    Echoed font reverseBits color c0 (prompted font reverseBits color c0 s before buf) := by
  obtain ⟨t, ht⟩ : ∃ t, t = before.foldl put cleared := ⟨_, rfl⟩
  obtain ⟨t', ht'⟩ : ∃ t', t' = t.place Cell.blank (cellOf (byte '>') color) := ⟨_, rfl⟩
  have hscreen : (prompted font reverseBits color c0 s before buf).screen =
      t'.place Cell.blank (cellOf (byte ' ') color) := by
    have hrun : (before ++ [(byte '>', color), (byte ' ', color)]).foldl put cleared =
        put (put t (byte '>', color)) (byte ' ', color) := by
      rw [List.foldl_append, ← ht]
      rfl
    rw [prompted, hrun, put_char t (by decide) (by decide), put_char _ (by decide) (by decide),
      ← ht']
  have hpos := place_pos Cell.blank t (cellOf (byte '>') color)
  have hpos' := place_pos Cell.blank t' (cellOf (byte ' ') color)
  have hlt := t.pos_lt
  have hlt' := t'.pos_lt
  have hcases := scrolled_cases t
  have hcases' := scrolled_cases t'
  have hgreater (k : ℕ) (hk : k + t.scrolled = t.pos) : t'.cell k = cellOf (byte '>') color := by
    rw [ht', place_cell _ (by omega), if_pos hk]
  rw [← ht'] at hpos
  refine ⟨(sane_prompted color c0 s before buf).shows, ?_, (add_zero _).symm, fun i hi ↦ ?_⟩
  · have hprompt : (prompted font reverseBits color c0 s before buf).prompt =
        (t'.place Cell.blank (cellOf (byte ' ') color)).pos := by
      rw [← hscreen]
      rfl
    rw [hprompt, hscreen]
    refine ⟨by omega, ?_, ?_⟩
    · rw [place_cell _ (by omega), if_neg (by omega)]
      exact hgreater _ (by omega)
    · rw [place_cell _ (by omega), if_pos (by omega)]
  · exact absurd hi (not_lt.mpr (Int.natCast_nonneg i))

variable (font reverseBits) in
/-- The screen shows the line that `RunCommand` will receive exactly as long as no backspace
deletes from the screen only or from the buffer only and the buffer is not full. -/
theorem echoed_iff (color c0 : ℕ) (s : Console.State) (before : List (UInt8 × ℕ))
    (buf : ℕ → UInt8) (chs : List UInt8) (h : (keys font reverseBits color).Legal
      (prompted font reverseBits color c0 s before buf) chs) :
    (keys font reverseBits color).Throughout (Echoed font reverseBits color c0)
        (prompted font reverseBits color c0 s before buf) chs ↔
      (keys font reverseBits color).Along Clean
        (prompted font reverseBits color c0 s before buf) chs := by
  refine System.throughout_iff_along h (sane_prompted color c0 s before buf)
    (echoed_prompted color c0 s before buf) (fun _ _ hs hch ↦ sane_key color hs hch)
    fun s ch hs he hch ↦ ?_
  rcases hch with rfl | hch
  · exact echoed_backspace hs he
  · exact echoed_char hs he hch

def blankConsole : Console.State := ⟨⟨fun _ ↦ 0, 0⟩, 0, 0⟩

theorem echoed_iff_letter :
    (keys (fun _ _ ↦ 0) id 15).Throughout (Echoed (fun _ _ ↦ 0) id 15 1)
        (prompted (fun _ _ ↦ 0) id 15 1 blankConsole [] fun _ ↦ 0) [byte 'a', 8] ↔
      (keys (fun _ _ ↦ 0) id 15).Along Clean
        (prompted (fun _ _ ↦ 0) id 15 1 blankConsole [] fun _ ↦ 0) [byte 'a', 8] :=
  echoed_iff (fun _ _ ↦ 0) id 15 1 blankConsole [] (fun _ ↦ 0) [byte 'a', 8]
    ⟨.inr ⟨by decide, by decide⟩, .inl rfl, trivial⟩

/-- A backspace behind the prompt deletes from the prompt. -/
theorem not_echoed_prompt :
    ¬ ∀ (font : UInt8 → ℕ → UInt8) (reverseBits : UInt8 → UInt8) (color c0 : ℕ) (s : Console.State)
      (before : List (UInt8 × ℕ)) (buf : ℕ → UInt8) (chs : List UInt8),
      (keys font reverseBits color).Legal (prompted font reverseBits color c0 s before buf) chs →
        (keys font reverseBits color).Throughout (Echoed font reverseBits color c0)
          (prompted font reverseBits color c0 s before buf) chs := by
  intro h
  have hrun := h (fun _ _ ↦ 0) id 15 1 blankConsole [] (fun _ ↦ 0) [8] ⟨.inl rfl, trivial⟩
  have hclean := (echoed_backspace (sane_prompted 15 1 blankConsole [] fun _ ↦ 0)
    (echoed_prompted 15 1 blankConsole [] fun _ ↦ 0)).mp hrun.2
  have hsane : Sane (fun _ _ ↦ 0) id 1
      (prompted (fun _ _ ↦ 0) id 15 1 blankConsole [] fun _ ↦ 0) := sane_prompted _ _ _ _ _
  have hcol := hsane.shows.col
  rw [Clean, if_pos rfl] at hclean
  rw [hclean.mp rfl] at hcol
  exact absurd hcol (by decide)

end StormOS.Monitor
