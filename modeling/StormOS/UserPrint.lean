import StormOS.PrintBuffer
import StormOS.PutStr

namespace StormOS.UserPrint

open Library.Bytes Library.Strings Machine VirtualMemory UserCopy Interrupt Syscall Isolation
open Printf (byte conversion Literal int32_int32_succ)

abbrev printBufferSize : ℕ := 512

/-- `struct PrintBuf` of the user library, with the elements of its array that have been written and
the bytes that each call of `SysPutStr` passes to the kernel. -/
structure PrintBuf where
  index : ℤ
  count : ℤ
  buf : ℤ → UInt8
  writes : List ℤ
  requests : List (List UInt8)

def PrintBuf.write (b : PrintBuf) (ch : UInt8) : PrintBuf :=
  { b with buf := Function.update b.buf b.index ch, writes := b.writes ++ [b.index] }

/-- `PutStr(buf->buf, buf->index, color)`. -/
def PrintBuf.putStr (b : PrintBuf) : PrintBuf :=
  { b with requests := b.requests ++ [(List.range b.index.toNat).map fun i : ℕ ↦ b.buf i] }

def PrintBuf.append (b : PrintBuf) (ch : UInt8) : PrintBuf :=
  { b.write ch with index := int32 (b.index + 1) }

def PrintBuf.flush (b : PrintBuf) : PrintBuf := { (b.write 0).putStr with index := 0 }

def printfPutCh (b : PrintBuf) (ch : UInt8) : PrintBuf :=
  let b := b.append ch
  let b := if b.index ≥ (printBufferSize : ℤ) - 1 then b.flush else b
  { b with count := int32 (b.count + 1) }

/-- `VPrintf` with the characters of `VPrintFmt`, and what the array held before. -/
def vPrintf (buf : ℤ → UInt8) (chars : List UInt8) : PrintBuf :=
  ((chars.foldl printfPutCh ⟨0, 0, buf, [], []⟩).write 0).putStr

/-- The array holds what is still to be passed on. -/
structure Buffered (b : PrintBuf) (pending chars : List UInt8) : Prop where
  index : b.index = pending.length
  room : pending.length < 511
  array : ∀ i (h : i < pending.length), b.buf i = pending[i]
  full : ∀ r ∈ b.requests, r.length = 511
  passed : b.requests.flatten ++ pending = chars
  count : b.count = int32 chars.length
  writes : ∀ i ∈ b.writes, 0 ≤ i ∧ i < printBufferSize

variable {b : PrintBuf} {pending chars str last : List UInt8} {ch : UInt8}

theorem buffered_nil (buf : ℤ → UInt8) : Buffered ⟨0, 0, buf, [], []⟩ [] [] where
  index := rfl
  room := by decide
  array _ h := absurd h (Nat.not_lt_zero _)
  full _ h := absurd h List.not_mem_nil
  passed := rfl
  count := rfl
  writes _ h := absurd h List.not_mem_nil

theorem write_writes (hindex : b.index = pending.length) (hroom : pending.length < 512)
    (h : ∀ i ∈ b.writes, 0 ≤ i ∧ i < printBufferSize) (ch : UInt8) :
    ∀ i ∈ (b.write ch).writes, 0 ≤ i ∧ i < printBufferSize := by
  intro i hi
  rcases List.mem_append.mp hi with hi | hi
  · exact h i hi
  · rw [List.mem_singleton.mp hi, hindex]
    simp only [printBufferSize]
    omega

/-- The terminating NUL lies behind the bytes that are passed on. -/
theorem write_putStr (hindex : b.index = pending.length)
    (harray : ∀ i (h : i < pending.length), b.buf i = pending[i]) :
    (b.write 0).putStr = { b.write 0 with requests := b.requests ++ [pending] } := by
  have hbytes : (List.range (b.write 0).index.toNat).map (fun i : ℕ ↦ (b.write 0).buf i) =
      pending := by
    have hlen : (b.write 0).index.toNat = pending.length := by
      change b.index.toNat = pending.length
      rw [hindex, Int.toNat_natCast]
    apply List.ext_getElem
    · rw [List.length_map, List.length_range, hlen]
    · intro i _ hi
      rw [List.getElem_map, List.getElem_range]
      have hi' : i < (pending ++ [0]).length := by rw [List.length_append]; omega
      have hbyte : (b.write 0).buf i = (pending ++ [0])[i] := update_append hindex harray 0 i hi'
      rw [hbyte, List.getElem_append_left hi]
  rw [PrintBuf.putStr, hbytes]
  rfl

theorem printfPutCh_buffered (h : Buffered b pending chars) (ch : UInt8) :
    ∃ pending', Buffered (printfPutCh b ch) pending' (chars ++ [ch]) := by
  have hroom := h.room
  have hlen : (pending ++ [ch]).length = pending.length + 1 := by
    rw [List.length_append, List.length_singleton]
  have hindex : int32 (b.index + 1) = (pending ++ [ch]).length := by
    rw [hlen, h.index, int32_of_bounds (by omega) (by omega), Nat.cast_succ]
  have harray := update_append h.index h.array ch
  have hcount : int32 (b.count + 1) = int32 ((chars ++ [ch]).length : ℕ) := by
    rw [h.count, int32_int32_succ, List.length_append, List.length_singleton]
  have hwrites := write_writes h.index (by omega) h.writes ch
  rw [printfPutCh]
  by_cases hfull : (b.append ch).index ≥ (printBufferSize : ℤ) - 1
  · have hput := write_putStr (b := b.append ch) hindex harray
    have hlast : (pending ++ [ch]).length = 511 := by
      have hge : int32 (b.index + 1) ≥ (printBufferSize : ℤ) - 1 := hfull
      rw [hindex] at hge
      simp only [printBufferSize] at hge
      omega
    rw [if_pos hfull, PrintBuf.flush, hput]
    refine ⟨[], rfl, by decide, fun _ hi ↦ absurd hi (Nat.not_lt_zero _), fun r hr ↦ ?_, ?_, hcount,
      write_writes (b := b.append ch) hindex (by omega) hwrites 0⟩
    · rcases List.mem_append.mp hr with hr | hr
      · exact h.full r hr
      · rw [List.mem_singleton.mp hr]
        exact hlast
    · rw [List.append_nil, ← h.passed, List.append_assoc]
      exact List.flatten_append.trans (congrArg _ List.flatten_singleton)
  · rw [if_neg hfull]
    refine ⟨pending ++ [ch], hindex, ?_, harray, h.full, ?_, hcount, hwrites⟩
    · have hlt : ¬ int32 (b.index + 1) ≥ (printBufferSize : ℤ) - 1 := hfull
      rw [hindex] at hlt
      simp only [printBufferSize] at hlt
      omega
    · rw [← h.passed, List.append_assoc]
      rfl

theorem foldl_buffered (h : Buffered b pending chars) (more : List UInt8) :
    ∃ pending', Buffered (more.foldl printfPutCh b) pending' (chars ++ more) := by
  induction more generalizing b pending chars with
  | nil => exact ⟨pending, by rwa [List.append_nil]⟩
  | cons ch more ih =>
    obtain ⟨pending', h'⟩ := printfPutCh_buffered h ch
    rw [List.append_cons]
    exact ih h'

/-- The characters are passed on in requests of 511, and the rest in a last one. -/
def PassedOn (requests : List (List UInt8)) (chars : List UInt8) : Prop :=
  ∃ full last, requests = full ++ [last] ∧ (∀ r ∈ full, r.length = 511) ∧ last.length < 511 ∧
    full.flatten ++ last = chars

/-- All characters are passed on, the array is never left, and the value returned is the number of
characters. -/
theorem vPrintf_spec (buf : ℤ → UInt8) (chars : List UInt8) :
    PassedOn (vPrintf buf chars).requests chars ∧
      (∀ i ∈ (vPrintf buf chars).writes, 0 ≤ i ∧ i < printBufferSize) ∧
      (vPrintf buf chars).count = int32 chars.length := by
  obtain ⟨last, h⟩ := foldl_buffered (buffered_nil buf) chars
  have hroom := h.room
  rw [List.nil_append] at h
  rw [vPrintf, write_putStr h.index h.array]
  exact ⟨⟨_, last, rfl, h.full, hroom, h.passed⟩, write_writes h.index (by omega) h.writes 0,
    h.count⟩

/-- Every escape sequence is cut in two by the end of a request. -/
def EscapesCut (str : List UInt8) : Prop :=
  ∀ i, (hi : i < str.length) → (hnext : i + 1 < str.length) → str[i] = byte '%' →
    (conversion str[i + 1]).isSome → i % 511 = 510

theorem escapesCut_last (h : last.length < 511) : EscapesCut last ↔ Literal last := by
  rw [literal_iff]
  constructor
  · intro hcut i hi hesc
    have hmod := hcut i (by omega) hi hesc.1 hesc.2
    omega
  · intro hlit i _ hi hch hconv
    exact absurd ⟨hch, hconv⟩ (hlit i hi)

theorem escapesCut_append (hch : str.length = 511) (rest : List UInt8) :
    EscapesCut (str ++ rest) ↔ Literal str ∧ EscapesCut rest := by
  have hlen : (str ++ rest).length = 511 + rest.length := by rw [List.length_append, hch]
  have hright : ∀ j, (h : j < rest.length) → (str ++ rest)[511 + j] = rest[j] := by
    intro j hj
    rw [List.getElem_append_right (by omega)]
    simp only [hch, Nat.add_sub_cancel_left]
  rw [literal_iff]
  constructor
  · intro h
    refine ⟨fun i hi hesc ↦ ?_, fun i _ hi hpct hconv ↦ ?_⟩
    · have hmod := h i (by omega) (by omega) (by rw [List.getElem_append_left (by omega)]; exact hesc.1)
        (by rw [List.getElem_append_left (by omega)]; exact hesc.2)
      omega
    · have hmod := h (511 + i) (by omega) (by omega) (by rw [hright]; exact hpct)
        (by simp only [Nat.add_assoc, hright _ hi]; exact hconv)
      omega
  · rintro ⟨hlit, hcut⟩ i _ hi hpct hconv
    by_cases hlt : i < 511
    · by_contra hmod
      rw [List.getElem_append_left (by omega)] at hpct
      rw [List.getElem_append_left (by omega)] at hconv
      exact hlit i (by omega) ⟨hpct, hconv⟩
    · obtain ⟨j, rfl⟩ := Nat.exists_eq_add_of_le (not_lt.mp hlt)
      rw [hright j (by omega)] at hpct
      simp only [Nat.add_assoc, hright (j + 1) (by omega)] at hconv
      have hmod := hcut j (by omega) (by omega) hpct hconv
      omega

/-- The text is split so that no request holds a whole escape sequence. -/
theorem escapesCut_iff {full : List (List UInt8)} (hfull : ∀ r ∈ full, r.length = 511)
    (hlast : last.length < 511) :
    EscapesCut (full.flatten ++ last) ↔ ∀ r ∈ full ++ [last], Literal r := by
  induction full with
  | nil =>
    rw [List.flatten_nil, List.nil_append, List.nil_append, escapesCut_last hlast]
    exact List.forall_mem_singleton.symm
  | cons r full ih =>
    rw [List.flatten_cons, List.append_assoc, List.cons_append, List.forall_mem_cons,
      escapesCut_append (hfull r List.mem_cons_self),
      ih fun r hr ↦ hfull r (List.mem_cons_of_mem _ hr)]

/-- The kernel state and the frame of a system call whose string is `r`. -/
structure Passes (L : Layout) (pid : ℕ) (k : Kernel) (tf : TrapFrame) (r : List UInt8) : Prop where
  isolated : Isolated L k.vm
  mapped : UserMapped k.vm pid tf.regs.ebx.toNat tf.regs.ecx.toNat
  bytes : userBytes k.vm pid tf.regs.ebx.toNat tf.regs.ecx.toNat = r

theorem pieces_short (hne : str ≠ []) (hlen : str.length ≤ 4095) : pieces str = [str] := by
  rw [pieces_cons hne, List.take_of_length_le hlen, List.drop_of_length_le hlen, pieces_nil]

section Kernel

variable {L : Layout} {B : Buffers} {pid : ℕ} {k : Kernel} {tf : TrapFrame} {r : List UInt8}
  (hpid : 1 ≤ pid ∧ pid < maxProcs) (hB : B.sysBuf + maxProcs * pageSize ≤ L.pageDirIdentity ∨
    L.pageDirIdentity + 4096 * 1024 ≤ B.sysBuf)

include hpid hB

/-- The kernel takes a request of the library for the text of a format. -/
theorem printsExactly_iff_literal (h : Passes L pid k tf r) (hnul : 0 ∉ r)
    (hlen : r.length ≤ 4095) : PrintsExactly B pid k tf ↔ Literal r := by
  obtain ⟨hs, hmapped, rfl⟩ := h
  constructor
  · intro hexact
    by_contra hlit
    have hne : userBytes k.vm pid tf.regs.ebx.toNat tf.regs.ecx.toNat ≠ [] := by
      intro hnil
      rw [hnil] at hlit
      exact hlit List.isChain_nil
    refine not_printsExactly hs hpid hB hmapped hnul ?_ hlit hexact
    rw [pieces_short hne hlen]
    exact List.mem_singleton_self _
  · intro hlit stack
    have hall : ∀ c ∈ pieces (userBytes k.vm pid tf.regs.ebx.toNat tf.regs.ecx.toNat),
        Literal c := by
      intro c hc
      by_cases hnil : userBytes k.vm pid tf.regs.ebx.toNat tf.regs.ecx.toNat = []
      · rw [hnil, pieces_nil] at hc
        exact absurd hc List.not_mem_nil
      · rw [pieces_short hnil hlen] at hc
        rwa [List.mem_singleton.mp hc]
    obtain ⟨k', hresult, hscreen⟩ := sysPutStr_result hs hpid hB hmapped hnul
      (answers_literal hall (mem_pieces_no_nul hnul) : Answers id stack _)
    refine ⟨k', hresult, ?_⟩
    rw [hscreen, List.flatMap_id, pieces_flatten]

end Kernel

theorem mem_requests (hnul : 0 ∉ chars) (buf : ℤ → UInt8) {r : List UInt8}
    (hr : r ∈ (vPrintf buf chars).requests) : 0 ∉ r ∧ r.length ≤ 4095 := by
  obtain ⟨⟨full, last, hrequests, hfull, hlast, hpassed⟩, -⟩ := vPrintf_spec buf chars
  rw [hrequests] at hr
  rcases List.mem_append.mp hr with hr | hr
  · have hlen := hfull r hr
    refine ⟨fun h0 ↦ hnul ?_, by omega⟩
    rw [← hpassed]
    exact List.mem_append_left _ (List.mem_flatten_of_mem hr h0)
  · rw [List.mem_singleton.mp hr]
    refine ⟨fun h0 ↦ hnul ?_, by omega⟩
    rw [← hpassed]
    exact List.mem_append_right _ h0

/-- What a user program prints is passed on whole, and reaches the screen as it is exactly when each
escape sequence in it is cut in two by the buffer of the library, in whatever kernel states its
requests are served. -/
theorem user_print_exact_iff (L : Layout) (B : Buffers) (pid : ℕ)
    (hpid : 1 ≤ pid ∧ pid < maxProcs) (hB : B.sysBuf + maxProcs * pageSize ≤ L.pageDirIdentity ∨
      L.pageDirIdentity + 4096 * 1024 ≤ B.sysBuf) (buf : ℤ → UInt8) (chars : List UInt8)
    (hnul : 0 ∉ chars) (k : ℕ → Kernel) (tf : ℕ → TrapFrame)
    (hpass : ∀ i, (h : i < (vPrintf buf chars).requests.length) →
      Passes L pid (k i) (tf i) (vPrintf buf chars).requests[i]) :
    PassedOn (vPrintf buf chars).requests chars ∧
      ((∀ i < (vPrintf buf chars).requests.length, PrintsExactly B pid (k i) (tf i)) ↔
        EscapesCut chars) := by
  have hspec := (vPrintf_spec buf chars).1
  obtain ⟨full, last, hrequests, hfull, hlast, hpassed⟩ := hspec
  have hserved : ∀ i, (h : i < (vPrintf buf chars).requests.length) →
      (PrintsExactly B pid (k i) (tf i) ↔ Literal (vPrintf buf chars).requests[i]) := by
    intro i hi
    obtain ⟨h0, hlen⟩ := mem_requests hnul buf (List.getElem_mem hi)
    exact printsExactly_iff_literal hpid hB (hpass i hi) h0 hlen
  have hcut : EscapesCut chars ↔ ∀ r ∈ (vPrintf buf chars).requests, Literal r := by
    rw [hrequests, ← escapesCut_iff hfull hlast, hpassed]
  refine ⟨⟨full, last, hrequests, hfull, hlast, hpassed⟩, ?_⟩
  rw [hcut, List.forall_mem_iff_getElem]
  exact forall₂_congr hserved

/-- The end of the first request falls between `%` and `d`. -/
def cutText : List UInt8 := List.replicate 510 (byte 'a') ++ [byte '%', byte 'd']

theorem cutText_length : cutText.length = 512 := by
  rw [cutText, List.length_append, List.length_replicate]
  rfl

theorem cutText_no_nul : 0 ∉ cutText := by
  intro h0
  rcases List.mem_append.mp h0 with h0 | h0
  · exact absurd (List.eq_of_mem_replicate h0) (by decide)
  · exact absurd h0 (by decide)

theorem escapesCut_cutText : EscapesCut cutText := by
  intro i hi hnext hch _
  have hlen := cutText_length
  by_contra hmod
  have hletter : cutText[i] = byte 'a' := by
    simp only [cutText]
    rw [List.getElem_append_left (by rw [List.length_replicate]; omega), List.getElem_replicate]
  exact absurd (hletter.symm.trans hch) (by decide)

theorem requests_cutText {requests : List (List UInt8)} (h : PassedOn requests cutText) :
    requests.length = 2 ∧ ∀ r ∈ requests, 0 < r.length ∧ r.length ≤ 511 := by
  obtain ⟨full, last, rfl, hfull, hlast, hpassed⟩ := h
  have hlen := congrArg List.length hpassed
  rw [cutText_length, List.length_append] at hlen
  rcases full with _ | ⟨r, _ | ⟨r', full⟩⟩
  · rw [List.flatten_nil, List.length_nil] at hlen
    omega
  · have hr := hfull r List.mem_cons_self
    rw [List.flatten_singleton] at hlen
    refine ⟨rfl, fun r' hr' ↦ ?_⟩
    rcases List.mem_append.mp hr' with hr' | hr'
    · rw [List.mem_singleton.mp hr']
      omega
    · rw [List.mem_singleton.mp hr']
      omega
  · have hr := hfull r List.mem_cons_self
    have hr' := hfull r' (List.mem_cons_of_mem r List.mem_cons_self)
    rw [List.flatten_cons, List.flatten_cons, List.length_append, List.length_append] at hlen
    omega

theorem user_print_exact_cut :
    let requests := (vPrintf (fun _ ↦ 0) cutText).requests
    requests.length = 2 ∧ ∀ i < 2, PrintsExactly lowBuffers 1 (writtenKernel (requests.getD i []))
      (printFrame (requests.getD i [])) := by
  have hpassed := (vPrintf_spec (fun _ ↦ 0) cutText).1
  have hiff := user_print_exact_iff AddressSpaces.lowLayout lowBuffers 1 (by decide)
    lowBuffers_beside (fun _ ↦ 0) cutText cutText_no_nul
  generalize (vPrintf (fun _ ↦ 0) cutText).requests = requests at hpassed hiff ⊢
  obtain ⟨hlen, hrequests⟩ := requests_cutText hpassed
  have hexact := (hiff (fun i ↦ writtenKernel (requests.getD i []))
    (fun i ↦ printFrame (requests.getD i [])) ?_).2.mpr escapesCut_cutText
  · exact ⟨hlen, fun i hi ↦ hexact i (by omega)⟩
  · intro i hi
    obtain ⟨hpos, hle⟩ := hrequests _ (List.getElem_mem hi)
    rw [List.getD_eq_getElem _ _ hi]
    obtain ⟨hs, hmapped, hbytes⟩ := writtenKernel_spec requests[i] hpos (by omega)
    exact ⟨hs, hmapped, hbytes⟩

end StormOS.UserPrint
