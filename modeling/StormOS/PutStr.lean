import StormOS.CopyIn
import StormOS.Pieces
import StormOS.SyscallReads
import StormOS.AddressSpaces

namespace StormOS.Syscall

open Library.Bytes Library.Loops Library.Strings
open PhysicalMemory hiding State
open Machine VirtualMemory UserCopy Printf Interrupt Isolation AddressSpaces

variable {L : Layout} {b : Buffers} {s : State} {k : Kernel} {tf : TrapFrame}
  {stack : ℕ → Args} {out : List UInt8 → List UInt8} {str : List UInt8}
  {pid len remain curPos : ℕ}

theorem kernelBuffer_ofProc (hpid : pid < 64)
    (hb : b.sysBuf + maxProcs * pageSize ≤ L.pageDirIdentity ∨
      L.pageDirIdentity + 4096 * 1024 ≤ b.sysBuf) :
    KernelBuffer L (b.ofProc pid) 4096 := by
  have hk := b.kernel
  simp only [maxProcs, pageSize, memUserLo] at hk hb
  constructor
  · simp only [Buffers.ofProc, pageSize, memUserLo]
    omega
  · simp only [Buffers.ofProc, pageSize]
    omega

theorem cString_eq {m : Memory} {a : ℕ} (hend : a + str.length < 2 ^ 32)
    (hstr : ∀ i, (h : i < str.length) → m (a + i) = str[i]) (hnul : 0 ∉ str)
    (hzero : m (a + str.length) = 0) : cString m a = some str := by
  refine cString_of_stringAt (stringAt_of_bytes (fun i hi ↦ ?_) hnul ?_)
  · rw [u32_of_lt (by omega)]
    exact hstr i hi
  · rw [u32_of_lt (by omega)]
    exact hzero

/-- One round of the loop, on mapped memory: the piece is copied and printed. -/
theorem putStrLoop_step (color : ℕ) (hs : Isolated L k.vm) (hpid : 1 ≤ pid ∧ pid < 64)
    (hk : KernelBuffer L (b.ofProc pid) 4096) (h : UserMapped k.vm pid curPos remain)
    (h0 : remain ≠ 0) {n : ℕ} (hn : nBytes remain = n)
    (hnul : 0 ∉ userBytes k.vm pid curPos remain) {text : List UInt8}
    (hprint : ∀ m, vPrintFmt m (userBytes k.vm pid curPos n) (stack 0) = some text)
    (htext : 0 ∉ text) :
    ∃ vm, Isolated L vm ∧ UserMapped vm pid (curPos + n) (remain - n) ∧
      userBytes vm pid (curPos + n) (remain - n) =
        userBytes k.vm pid (curPos + n) (remain - n) ∧
      (putStrLoop b pid color k stack remain curPos).result =
        (putStrLoop b pid color { k with vm := vm, screen := k.screen ++ text.map (·, color) }
          (fun i ↦ stack (i + 1)) (remain - n) (curPos + n)).result := by
  have hmin := nBytes_eq remain
  have hle : n ≤ remain := by omega
  have hkernel := hk.kernel
  have hrange := h.range
  simp only [memUserLo, memUserHi] at hkernel hrange
  have hka : KernelBuffer L (b.ofProc pid) n :=
    ⟨by simp only [memUserLo]; omega, by have hb := hk.beside; omega⟩
  obtain ⟨hstate, hcopied⟩ := ptCopyIn_mapped hs hpid (h.take hle) hka
  obtain ⟨m, hm⟩ : ∃ m, store8 (copyMemory k.vm pid curPos (b.ofProc pid) n)
    (b.ofProc pid + n) 0 = m := ⟨_, rfl⟩
  have hout (x : ℕ) (hx : x < b.ofProc pid ∨ b.ofProc pid + 4096 ≤ x) : m x = k.vm.memory x := by
    rw [← hm, store8_of_ne (by omega), copyMemory_of_outside (by omega)]
  have hstr : cString m (b.ofProc pid) = some (userBytes k.vm pid curPos n) := by
    have hlen : (userBytes k.vm pid curPos n).length = n := by simp [userBytes]
    refine cString_eq (by omega) (fun i hi ↦ ?_) ?_ ?_
    · rw [hlen] at hi
      rw [← hm, store8_of_ne (by omega), copyMemory_of_mem (by omega)]
      simp [userBytes]
    · have htake := userBytes_take k.vm pid curPos remain n
      rw [Nat.min_eq_left hle] at htake
      exact fun hmem ↦ hnul (List.mem_of_mem_take (htake ▸ hmem))
    · rw [hlen, ← hm, store8_self]
  obtain ⟨count, hprintf⟩ := vPrintf_eq color (hprint m) htext
  have hmapped := (h.drop hle).write hs hpid hk hout
  refine ⟨{ k.vm with memory := m }, hs.write (hk.tablesAgree hs hout), hmapped, ?_, ?_⟩
  · apply List.map_congr_left
    intro i hi
    exact ((h.drop hle).undisturbed hs hpid hk).byte hout (List.mem_range.mp hi)
  · rw [putStrLoop, if_neg h0]
    dsimp only
    rw [hn, hstate, hcopied, if_neg (not_not.mpr rfl)]
    dsimp only
    rw [hm, printfColor, hstr, Option.bind_some, hprintf]
    dsimp only
    rw [u32_of_lt (by omega)]

theorem pieces_userBytes (h0 : remain ≠ 0) {n : ℕ} (hn : nBytes remain = n) :
    pieces (userBytes s pid len remain) = userBytes s pid len n ::
      pieces (userBytes s pid (len + n) (remain - n)) := by
  have hmin := nBytes_eq remain
  have hlen : (userBytes s pid len remain).length = remain := by simp [userBytes]
  have hne : userBytes s pid len remain ≠ [] := by
    intro he
    rw [he] at hlen
    exact h0 hlen.symm
  have htake : min 4095 remain = n := by omega
  have hdrop : (userBytes s pid len remain).drop 4095 =
      userBytes s pid (len + n) (remain - n) := by
    by_cases hge : 4095 ≤ remain
    · have hn' : n = 4095 := by omega
      rw [hn', userBytes_drop _ _ _ hge]
    · have hn' : remain - n = 0 := by omega
      rw [hn', List.drop_eq_nil_of_le (by omega)]
      rfl
  rw [pieces_cons hne, userBytes_take, htake, hdrop]

/-- The loop prints what the stack makes of the pieces, and succeeds. -/
theorem putStrLoop_result (color : ℕ) (hs : Isolated L k.vm) (hpid : 1 ≤ pid ∧ pid < 64)
    (hk : KernelBuffer L (b.ofProc pid) 4096) (h : UserMapped k.vm pid curPos remain)
    (hnul : 0 ∉ userBytes k.vm pid curPos remain)
    (hanswers : Answers out stack (pieces (userBytes k.vm pid curPos remain))) :
    ∃ k', (putStrLoop b pid color k stack remain curPos).result = some (k', eSucc) ∧
      k'.screen = k.screen ++
        ((pieces (userBytes k.vm pid curPos remain)).flatMap out).map (·, color) := by
  induction remain using Nat.strong_induction_on generalizing k stack curPos with
  | _ remain ih =>
    by_cases h0 : remain = 0
    · subst h0
      have hempty : userBytes k.vm pid curPos 0 = [] := rfl
      refine ⟨k, by rw [putStrLoop_zero], ?_⟩
      rw [hempty, pieces_nil]
      simp
    · obtain ⟨n, hn⟩ : ∃ n, nBytes remain = n := ⟨_, rfl⟩
      have hmin := nBytes_eq remain
      rw [pieces_userBytes h0 hn] at hanswers ⊢
      obtain ⟨hprint, htext, hrest⟩ := hanswers
      obtain ⟨vm, hvm, hmapped, hbytes, hstep⟩ :=
        putStrLoop_step color hs hpid hk h h0 hn hnul hprint htext
      have hdrop := userBytes_drop k.vm pid curPos (show n ≤ remain by omega)
      have hnul' : 0 ∉ userBytes vm pid (curPos + n) (remain - n) := by
        rw [hbytes, ← hdrop]
        exact fun hmem ↦ hnul (List.mem_of_mem_drop hmem)
      rw [← hbytes] at hrest ⊢
      obtain ⟨k', hresult, hscreen⟩ := ih (remain - n) (by omega)
        (k := { k with
          vm := vm
          screen := k.screen ++ (out (userBytes k.vm pid curPos n)).map (·, color) })
        hvm hmapped hnul' hrest
      refine ⟨k', hstep.trans hresult, ?_⟩
      rw [hscreen, List.flatMap_cons, List.map_append, List.append_assoc]

/-- The call succeeds and gives the bytes of the string to `PutChar`, in order, whatever the words
are that `PrintfColor` finds on the stack. -/
def PrintsExactly (b : Buffers) (pid : ℕ) (k : Kernel) (tf : TrapFrame) : Prop :=
  ∀ stack, ∃ k', (sysPutStr b pid k tf stack).result = some (k', setErrNo tf eSucc) ∧
    k'.screen.map Prod.fst = k.screen.map Prod.fst ++
      userBytes k.vm pid tf.regs.ebx.toNat tf.regs.ecx.toNat

section String

variable (hs : Isolated L k.vm) (hpid : 1 ≤ pid ∧ pid < maxProcs)
  (hb : b.sysBuf + maxProcs * pageSize ≤ L.pageDirIdentity ∨
    L.pageDirIdentity + 4096 * 1024 ≤ b.sysBuf)
  (h : UserMapped k.vm pid tf.regs.ebx.toNat tf.regs.ecx.toNat)
  (hnul : 0 ∉ userBytes k.vm pid tf.regs.ebx.toNat tf.regs.ecx.toNat)

include hs hpid hb h hnul

theorem sysPutStr_result (hanswers : Answers out stack
      (pieces (userBytes k.vm pid tf.regs.ebx.toNat tf.regs.ecx.toNat))) :
    ∃ k', (sysPutStr b pid k tf stack).result = some (k', setErrNo tf eSucc) ∧
      k'.screen.map Prod.fst = k.screen.map Prod.fst ++
        (pieces (userBytes k.vm pid tf.regs.ebx.toNat tf.regs.ecx.toNat)).flatMap out := by
  obtain ⟨k', hresult, hscreen⟩ := putStrLoop_result tf.regs.edx.toNat hs hpid
    (kernelBuffer_ofProc hpid.2 hb) h hnul hanswers
  have hrange := h.range
  have hacc : memUserLo ≤ tf.regs.ebx.toNat ∧
      u32 (tf.regs.ebx.toNat + tf.regs.ecx.toNat) ≤ memUserHi := by
    rw [u32_of_lt (hrange.2.trans_lt (by decide))]
    exact hrange
  refine ⟨k', ?_, ?_⟩
  · rw [sysPutStr]
    dsimp only
    rw [if_neg (not_not.mpr hacc), hresult]
    rfl
  · rw [hscreen, List.map_append, List.map_map]
    exact congrArg (k.screen.map Prod.fst ++ ·) (List.map_id _)

/-- With an escape sequence in a piece there is a stack with which something else is printed. -/
theorem not_printsExactly {c : List UInt8}
    (hc : c ∈ pieces (userBytes k.vm pid tf.regs.ebx.toNat tf.regs.ecx.toNat))
    (hlit : ¬ Literal c) : ¬ PrintsExactly b pid k tf := by
  intro hexact
  obtain ⟨k', hresult, hscreen⟩ := sysPutStr_result hs hpid hb h hnul
    (answers_sample (mem_pieces_no_nul hnul))
  obtain ⟨k'', hresult', hscreen'⟩ := hexact _
  rw [hresult, Option.some.injEq] at hresult'
  obtain ⟨rfl, _⟩ := Prod.mk.inj hresult'
  rw [hscreen'] at hscreen
  refine flatMap_sample_ne 0 (.inr ⟨c, hc, hlit⟩) ?_
  rw [pieces_flatten]
  exact (List.append_cancel_left hscreen).symm

/-- A string is printed exactly when the ends of the pieces cut all its escape sequences. -/
theorem sysPutStr_printsExactly_iff : PrintsExactly b pid k tf ↔
    EscapesSplit (userBytes k.vm pid tf.regs.ebx.toNat tf.regs.ecx.toNat) := by
  rw [escapesSplit_iff]
  constructor
  · intro hexact c hc
    by_contra hlit
    exact not_printsExactly hs hpid hb h hnul hc hlit hexact
  · intro hlit stack
    have hanswers : Answers id stack
        (pieces (userBytes k.vm pid tf.regs.ebx.toNat tf.regs.ecx.toNat)) :=
      answers_literal hlit (mem_pieces_no_nul hnul)
    obtain ⟨k', hresult, hscreen⟩ := sysPutStr_result hs hpid hb h hnul hanswers
    refine ⟨k', hresult, ?_⟩
    rw [hscreen, List.flatMap_id, pieces_flatten]

end String

def writtenMachine (text : List UInt8) : State :=
  let s := (allocPage bootedMachine 1 0x40000000 7).1
  place s (physicalAddr s 1 0x40000000) text

def writtenKernel (text : List UInt8) : Kernel := { bootedKernel with vm := writtenMachine text }

theorem writtenMachine_spec {text : List UInt8} (hpos : 0 < text.length)
    (hlen : text.length ≤ 4096) :
    Isolated lowLayout (writtenMachine text) ∧
      UserMapped (writtenMachine text) 1 0x40000000 text.length ∧
      userBytes (writtenMachine text) 1 0x40000000 text.length = text := by
  have hs : Isolated lowLayout bootedMachine := start_isolated ..
  have hafford : Affords bootedMachine.physical 1 4 :=
    start_affords lowLayout (fun _ ↦ 0) (fun _ _ ↦ 0) (by decide)
  obtain ⟨s', page, result, ha, hs', hmap, -⟩ := hs.maps_afforded userTable_first
    (by decide : 7 < 4096) (hafford.mono ((cost_le _ _ _).trans (by decide)))
  have hmapped : UserMapped s' 1 0x40000000 text.length :=
    (mapsPage_userMapped hmap (by decide) (by decide) (by decide) (by decide)).take hlen
  rw [writtenMachine, ha]
  exact place_userBytes hs' (by decide) hmapped hpos (by omega)

def printFrame (text : List UInt8) : TrapFrame :=
  callFrame 0 0x40000000 (UInt32.ofNat text.length) 15

theorem writtenKernel_spec (text : List UInt8) (hpos : 0 < text.length)
    (hlen : text.length ≤ 4096) :
    Isolated lowLayout (writtenKernel text).vm ∧
      UserMapped (writtenKernel text).vm 1 (printFrame text).regs.ebx.toNat
        (printFrame text).regs.ecx.toNat ∧
      userBytes (writtenKernel text).vm 1 (printFrame text).regs.ebx.toNat
        (printFrame text).regs.ecx.toNat = text := by
  have hvm : (writtenKernel text).vm = writtenMachine text := by rw [writtenKernel]
  have hebx : (printFrame text).regs.ebx.toNat = 0x40000000 := rfl
  have hecx : (printFrame text).regs.ecx.toNat = text.length := by
    have hofNat : (printFrame text).regs.ecx = UInt32.ofNat text.length := rfl
    rw [hofNat, UInt32.toNat_ofNat', Nat.mod_eq_of_lt (by omega)]
  rw [hvm, hebx, hecx]
  exact writtenMachine_spec hpos hlen

theorem lowBuffers_beside : lowBuffers.sysBuf + maxProcs * pageSize ≤ lowLayout.pageDirIdentity ∨
    lowLayout.pageDirIdentity + 4096 * 1024 ≤ lowBuffers.sysBuf := .inr (by decide)

/-- A `%` without a meaning, and one that the end of the first piece cuts off. -/
def splitText : List UInt8 :=
  byte '%' :: byte '!' :: (List.replicate 4092 (byte 'a') ++ [byte '%', byte 'd'])

theorem splitText_length : splitText.length = 4096 := by
  rw [splitText, List.length_cons, List.length_cons, List.length_append, List.length_replicate]
  rfl

theorem splitText_no_nul : 0 ∉ splitText := by
  intro h0
  rw [splitText, List.mem_cons, List.mem_cons, List.mem_append] at h0
  rcases h0 with h0 | h0 | h0 | h0
  · exact absurd h0 (by decide)
  · exact absurd h0 (by decide)
  · exact absurd (List.eq_of_mem_replicate h0) (by decide)
  · exact absurd h0 (by decide)

theorem escapesSplit_splitText : EscapesSplit splitText := by
  intro i hi hch hconv
  have hlen := splitText_length
  rcases i with _ | _ | i
  · cases hconv
  · exact absurd (show byte '!' = byte '%' from hch) (by decide)
  · by_contra hmod
    have hletter : splitText[i + 2] = byte 'a' := by
      simp only [splitText, List.getElem_cons_succ]
      rw [List.getElem_append_left (by rw [List.length_replicate]; omega), List.getElem_replicate]
    exact absurd (hletter.symm.trans hch) (by decide)

theorem sysPutStr_printsExactly_percent :
    PrintsExactly lowBuffers 1 (writtenKernel splitText) (printFrame splitText) := by
  have hlen := splitText_length
  obtain ⟨hs, hmapped, hbytes⟩ := writtenKernel_spec splitText (by omega) (by omega)
  refine (sysPutStr_printsExactly_iff hs (by decide) lowBuffers_beside hmapped ?_).mpr ?_
  · rw [hbytes]
    exact splitText_no_nul
  · rw [hbytes]
    exact escapesSplit_splitText

theorem sysPutStr_two_percents : ¬ ∀ (L : Layout) (b : Buffers) (k : Kernel) (pid : ℕ)
    (tf : TrapFrame), Isolated L k.vm → (1 ≤ pid ∧ pid < maxProcs) →
    (b.sysBuf + maxProcs * pageSize ≤ L.pageDirIdentity ∨
      L.pageDirIdentity + 4096 * 1024 ≤ b.sysBuf) →
    UserMapped k.vm pid tf.regs.ebx.toNat tf.regs.ecx.toNat →
    0 ∉ userBytes k.vm pid tf.regs.ebx.toNat tf.regs.ecx.toNat → PrintsExactly b pid k tf := by
  intro hall
  obtain ⟨hs, hmapped, hbytes⟩ :=
    writtenKernel_spec [byte '%', byte '%'] (by decide) (by decide)
  have hnul : 0 ∉ userBytes (writtenKernel [byte '%', byte '%']).vm 1
      (printFrame [byte '%', byte '%']).regs.ebx.toNat
      (printFrame [byte '%', byte '%']).regs.ecx.toNat := by
    rw [hbytes]
    decide
  refine not_printsExactly (c := [byte '%', byte '%']) hs (by decide) lowBuffers_beside hmapped
    hnul ?_ ?_ (hall _ _ _ _ _ hs (by decide) lowBuffers_beside hmapped hnul)
  · rw [hbytes, pieces_cons (by decide)]
    exact List.mem_cons_self ..
  · rw [Literal, List.isChain_cons_cons]
    exact fun h ↦ h.1 ⟨rfl, rfl⟩

end StormOS.Syscall
