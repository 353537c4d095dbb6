import StormOS.CopySteps

namespace StormOS.UserCopy

open Library.Bytes
open PhysicalMemory hiding State
open Machine VirtualMemory Isolation

/-- The later state has the bytes `b` in the `len` bytes of process memory from `va` on. Everything
else that a process had mapped is as it was, and so is kernel memory. -/
structure Filled (L : Layout) (s t : State) (pid va len : ℕ) (b : ℕ → UInt8) : Prop
    extends Kept s t where
  isolated : Isolated L t
  mapped : ∀ k < len, Present (getPageTableEntryByVA t pid (va + k))
  bytes : ∀ k < len, t.memory (physicalAddr t pid (va + k)) = b k
  kernel : ∀ x, ¬ OnUserPage s x → t.memory x = s.memory x
  others : ∀ i w, UserTable i (vaPdeIndex w) → Present (getPageTableEntryByVA s i w) →
    ¬ (i = pid ∧ va ≤ w ∧ w < va + len) →
      t.memory (physicalAddr s i w) = s.memory (physicalAddr s i w)

/-- What an access writes to a chunk of process memory, given that kernel memory is as in `s`. -/
def Fills (access : Memory → ℕ → ℕ → ℕ → Memory) (s : State) (b : ℕ → UInt8) (total : ℕ) : Prop :=
  ∀ m pa copied size x, pa + size ≤ 2 ^ 32 → copied + size ≤ total →
    (∀ y, ¬ OnUserPage s y → m y = s.memory y) →
    (∀ y, pa ≤ y → y < pa + size → OnUserPage s y) →
      access m pa copied size x =
        if pa ≤ x ∧ x < pa + size then b (copied + (x - pa)) else m x

variable {L : Layout} {access : Memory → ℕ → ℕ → ℕ → Memory} {s s' t : State} {b : ℕ → UInt8}
  {c : UInt8} {pid va kva len copied total n : ℕ}

theorem Fills.kept (h : Fills access s b total) (hk : Kept s t)
    (hm : ∀ x, ¬ OnUserPage s x → t.memory x = s.memory x) : Fills access t b total := by
  intro m pa copied size x hpa hc hkernel huser
  refine h m pa copied size x hpa hc (fun y hy ↦ ?_)
    fun y hy hy' ↦ hk.onUserPage.mp (huser y hy hy')
  exact (hkernel y fun hu ↦ hy (hk.onUserPage.mp hu)).trans (hm y hy)

theorem outAccess_fills (hk : KernelRegion s kva len) :
    Fills (outAccess kva) s (fun k ↦ s.memory (kva + k)) len := by
  intro m pa copied size x hpa hc hkernel huser
  have hbelow := hk.below
  simp only [memUserHi] at hbelow
  have hsrc : u32 (kva + copied) = kva + copied := u32_of_lt (by omega)
  rw [outAccess, hsrc]
  by_cases h0 : size = 0
  · subst h0
    rw [memCopy, Library.Loops.forUpTo_zero, if_neg (by omega)]
  · have hapart : pa + size ≤ kva + copied ∨ kva + copied + size ≤ pa := by
      by_contra hmeet
      -- the higher of the two starting points would be a byte of both
      exact hk.apart (max pa (kva + copied)) (by omega) (by omega)
        (huser _ (by omega) (by omega))
    rw [memCopy_apply hpa (by omega) (by omega)]
    by_cases hx : pa ≤ x ∧ x < pa + size
    · rw [if_pos hx, if_pos hx, Nat.add_assoc]
      exact hkernel _ (hk.apart _ (by omega) (by omega))
    · rw [if_neg hx, if_neg hx]

theorem setAccess_fills (c : UInt8) (s : State) (len : ℕ) :
    Fills (setAccess c) s (fun _ ↦ c) len :=
  fun _ _ _ _ x hpa _ _ _ ↦ memSet_apply hpa c x

theorem Filled.refl (h : Isolated L s) (pid va : ℕ) (b : ℕ → UInt8) : Filled L s s pid va 0 b where
  toKept := Kept.refl s
  isolated := h
  mapped k hk := absurd hk (Nat.not_lt_zero k)
  bytes k hk := absurd hk (Nat.not_lt_zero k)
  kernel _ _ := rfl
  others _ _ _ _ _ := rfl

/-- A range is filled by filling a first part and then the rest. -/
theorem Filled.append (hlo : memUserLo ≤ va) (hhi : va + len ≤ memUserHi)
    (hpid : 1 ≤ pid ∧ pid < maxProcs) (hn : n ≤ len) (h : Filled L s s' pid va n b)
    (h' : Filled L s' t pid (va + n) (len - n) fun k ↦ b (n + k)) : Filled L s t pid va len b := by
  have huser (k : ℕ) (hk : k < n) : UserTable pid (vaPdeIndex (va + k)) := by
    simp only [memUserLo, memUserHi] at hlo hhi
    exact (userTable_iff hpid).mpr (by omega)
  have hsplit (k : ℕ) (hk : ¬ k < n) : va + k = va + n + (k - n) := by omega
  refine ⟨h.toKept.trans h'.toKept, h'.isolated, fun k hk ↦ ?_, fun k hk ↦ ?_, fun x hx ↦ ?_,
    fun i w hu hp hout ↦ ?_⟩
  · by_cases hkn : k < n
    · exact h'.present (huser k hkn) (h.mapped k hkn)
    · rw [hsplit k hkn]
      exact h'.mapped (k - n) (by omega)
  · by_cases hkn : k < n
    · rw [h'.physicalAddr (huser k hkn) (h.mapped k hkn), ← h.bytes k hkn]
      exact h'.others pid (va + k) (huser k hkn) (h.mapped k hkn) (by omega)
    · rw [hsplit k hkn, h'.bytes (k - n) (by omega), Nat.add_sub_cancel' (by omega)]
  · exact (h'.kernel x fun hu ↦ hx (h.onUserPage.mp hu)).trans (h.kernel x hx)
  · have hfirst := h.others i w hu hp (by omega)
    have hsecond := h'.others i w hu (h.present hu hp) (by omega)
    rw [h.physicalAddr hu hp] at hsecond
    exact hsecond.trans hfirst

theorem translate_isolated (h : Isolated L s) (hu : UserTable pid (vaPdeIndex va))
    (hg : Gets s pid va) :
    Isolated L (translate s pid va).1 ∧
      ∀ x, ¬ OnUserPage s x → (translate s pid va).1.memory x = s.memory x := by
  by_cases hp : Present (getPageTableEntryByVA s pid va)
  · rw [translate_of_present hp]
    exact ⟨h, fun _ _ ↦ rfl⟩
  · obtain ⟨hiso, page, _, hspends⟩ := h.allocPage_spends hu (by decide) (hg.resolve_left hp)
    rw [translate_of_not_present hp]
    exact ⟨hiso, hspends.outside⟩

theorem advance_filled (hacc : Tame access s total) (hfill : Fills access s b total)
    (h : Isolated L s) (hpid : 1 ≤ pid ∧ pid < maxProcs) (hlo : memUserLo ≤ va)
    (hhi : va + len ≤ memUserHi) (htotal : copied + len ≤ total) (h0 : len ≠ 0)
    (hres : CanReserve s pid va len) :
    Filled L s (advance access s pid va len copied) pid va (chunk va len)
      fun k ↦ b (copied + k) := by
  obtain ⟨hsize, hadv, _⟩ := advance_spec hacc h.userSide hpid hlo hhi htotal h0 hres
  have hle := chunk_le va len
  have hpage := chunk_page va len
  have hu : UserTable pid (vaPdeIndex va) := by
    simp only [memUserLo, memUserHi] at hlo hhi
    exact (userTable_iff hpid).mpr (by omega)
  have hg := ((canReserve_step h0).mp hres).1
  obtain ⟨hside, hgain, hpa⟩ := translate_gains h.userSide hu hg
  obtain ⟨hiso, hkernel⟩ := translate_isolated h hu hg
  obtain ⟨r, hr⟩ : ∃ r, translate s pid va = r := ⟨_, rfl⟩
  rw [hr] at hsize hadv hside hgain hpa hiso hkernel
  obtain ⟨f, hf, ha⟩ := physicalAddr_of_present hu hgain.mapped
  obtain ⟨hup, _, hperm⟩ := hiso.owned _ _ hf
  have hb := hup.bounds
  have hmem (x : ℕ) : (advance access s pid va len copied).memory x =
      if r.2 ≤ x ∧ x < r.2 + chunk va len then b (copied + (x - r.2)) else r.1.memory x := by
    have hadvance : (advance access s pid va len copied).memory =
        access r.1.memory r.2 copied (chunk va len) := by rw [advance, hr, hsize]
    rw [hadvance]
    refine hfill _ _ _ _ x hadv.bound (by omega) hkernel fun y hy hy' ↦ hgain.onUserPage.mp ?_
    have hyf : y / 4096 = f := by omega
    rwa [OnUserPage, hyf]
  have hstate : advance access s pid va len copied =
      { r.1 with memory := (advance access s pid va len copied).memory } := by
    rw [advance, hr]
  refine ⟨hadv.toKept, ?_, hadv.mapped, fun k hk ↦ ?_, fun x hx ↦ ?_, fun i w hw hp hout ↦ ?_⟩
  · rw [hstate]
    exact hiso.write (tablesAgree_of_page hiso hf fun x hx ↦ by rw [hmem, if_neg (by omega)])
  · rw [hadv.place k hk, hmem, if_pos (by omega), Nat.add_sub_cancel_left]
  · rw [hmem, if_neg]
    · exact hkernel x hx
    · intro hin
      have hxf : x / 4096 = f := by omega
      exact hx (hgain.onUserPage.mp (by rwa [OnUserPage, hxf]))
  · rw [hmem, if_neg]
    · exact hgain.data i w hw hp
    · intro hin
      have hplace := hgain.physicalAddr hw hp
      obtain ⟨g, _, _, hga⟩ := hside.frame hw (hgain.present hw hp)
      obtain ⟨rfl, hwpage⟩ := hside.exclusive hw (hgain.present hw hp) hu hgain.mapped (by omega)
      exact hout ⟨rfl, by omega, by omega⟩

/-- A transfer to process memory fills the range, page by page. -/
theorem walk_filled (hacc : Tame access s total) (hfill : Fills access s b total)
    (h : Isolated L s) (hpid : 1 ≤ pid ∧ pid < maxProcs) (hlo : memUserLo ≤ va)
    (hhi : va + len ≤ memUserHi) (htotal : copied + len ≤ total)
    (hres : CanReserve s pid va len) :
    Filled L s (walk access s pid va len copied).state pid va len fun k ↦ b (copied + k) := by
  induction len using Nat.strong_induction_on generalizing s va copied with
  | _ len ih =>
    by_cases h0 : len = 0
    · subst h0
      rw [walk_zero]
      exact Filled.refl h pid va _
    · obtain ⟨hsize, hadv, hrest⟩ :=
        advance_spec hacc h.userSide hpid hlo hhi htotal h0 hres
      have hfirst := advance_filled hacc hfill h hpid hlo hhi htotal h0 hres
      have hle := chunk_le va len
      have hpos := chunk_pos va h0
      have hnext : va + chunk va len < 2 ^ 32 := by
        simp only [memUserHi] at hhi
        omega
      have hlater := ih (len - chunk va len) (by omega) (hacc.kept hadv.toKept)
        (hfill.kept hadv.toKept hfirst.kernel) hfirst.isolated (by omega) (by omega)
        (show copied + chunk va len + (len - chunk va len) ≤ total by omega) hrest
      rw [walk_advance h0 hsize hnext]
      apply Filled.append hlo hhi hpid hle hfirst
      simpa only [Nat.add_assoc] using hlater

theorem undisturbed_region (h : UserSide L s) (hpid : 1 ≤ pid ∧ pid < maxProcs)
    (hlo : memUserLo ≤ va) (hhi : va + len ≤ memUserHi)
    (hp : ∀ k < len, Present (getPageTableEntryByVA s pid (va + k)))
    (hk : KernelRegion s kva total) : Undisturbed s pid va len kva (kva + total) := by
  have huser (k : ℕ) (hk : k < len) : UserTable pid (vaPdeIndex (va + k)) := by
    simp only [memUserLo, memUserHi] at hlo hhi
    exact (userTable_iff hpid).mpr (by omega)
  refine ⟨hp, fun k hkl ↦ physicalAddr_lt h (huser k hkl) (hp k hkl), fun k hkl ↦ ?_,
    fun m hm k hkl ↦ ?_⟩
  · obtain ⟨f, _, hf, ha⟩ := h.frame (huser k hkl) (hp k hkl)
    by_contra hin
    apply hk.apart (physicalAddr s pid (va + k)) (by omega) (by omega)
    have hpage : physicalAddr s pid (va + k) / 4096 = f := by omega
    rwa [OnUserPage, hpage]
  · refine h.translation_kernelWrite (fun x hx ↦ hm x ?_) (huser k hkl)
    by_contra hin
    exact hk.apart x (by omega) (by omega) hx

structure Holds (s : State) (pid va len : ℕ) (b : ℕ → UInt8) : Prop where
  mapped : ∀ k < len, Present (getPageTableEntryByVA s pid (va + k))
  bytes : ∀ k < len, s.memory (physicalAddr s pid (va + k)) = b k

/-- What processes had mapped stays where it was, and outside the range it stays what it was. -/
structure Spares (s t : State) (pid va len : ℕ) : Prop where
  translation : ∀ i w, UserTable i (vaPdeIndex w) → Present (getPageTableEntryByVA s i w) →
    getPageTableEntryByVA t i w = getPageTableEntryByVA s i w
  bytes : ∀ i w, UserTable i (vaPdeIndex w) → Present (getPageTableEntryByVA s i w) →
    ¬ (i = pid ∧ va ≤ w ∧ w < va + len) →
      t.memory (physicalAddr t i w) = s.memory (physicalAddr s i w)

theorem Filled.holds (h : Filled L s t pid va len b) : Holds t pid va len b := ⟨h.mapped, h.bytes⟩

theorem Filled.spares (h : Filled L s t pid va len b) : Spares s t pid va len :=
  ⟨h.translation, fun i w hu hp hout ↦ by rw [h.physicalAddr hu hp, h.others i w hu hp hout]⟩

theorem ptCopyIn_region (h : UserSide L s) (hpid : 1 ≤ pid ∧ pid < maxProcs)
    (hlo : memUserLo ≤ va) (hhi : va + len ≤ memUserHi)
    (hp : ∀ k < len, Present (getPageTableEntryByVA s pid (va + k)))
    (hk : KernelRegion s kva len) :
    (ptCopyIn s pid va kva len).copied = len ∧
      (ptCopyIn s pid va kva len).state = { s with memory := copyMemory s pid va kva len } := by
  have hbelow := hk.below
  simp only [memUserHi] at hhi hbelow
  rw [ptCopyIn_eq hlo hhi hk.below, walk_copied]
  exact ⟨Nat.zero_add len, (undisturbed_region h hpid hlo hhi hp hk).walk_copyIn (by omega)
    (by omega) (by omega)⟩

theorem copyMemory_spares (h : UserSide L s) (hk : KernelRegion s kva len) :
    Spares s { s with memory := copyMemory s pid va kva len } pid va len := by
  have hm (x : ℕ) (hx : OnUserPage s x) : copyMemory s pid va kva len x = s.memory x :=
    copyMemory_of_outside fun hin ↦ hk.apart x hin.1 hin.2 hx
  refine ⟨fun i w hu _ ↦ h.translation_kernelWrite hm hu, fun i w hu hp _ ↦ ?_⟩
  obtain ⟨f, _, hf, ha⟩ := h.frame hu hp
  have hpage : physicalAddr s i w / 4096 = f := by omega
  rw [physicalAddr, h.translation_kernelWrite hm hu]
  exact hm (physicalAddr s i w) (by rwa [OnUserPage, hpage])

/-- The three transfers are correct: bytes copied out to a process can be copied in again, a range
can be set, and nothing else that processes have mapped changes. -/
theorem transfers_correct (L : Layout) (s : State) (pid uva kva kva' len : ℕ) (c : UInt8)
    (h : Isolated L s) (hpid : 1 ≤ pid ∧ pid < maxProcs) (hlo : memUserLo ≤ uva)
    (hhi : uva + len ≤ memUserHi) (hk : KernelRegion s kva len) (hk' : KernelRegion s kva' len)
    (hres : CanReserve s pid uva len) :
    let t := ptCopyOut s kva pid uva len
    let u := ptCopyIn t.state pid uva kva' len
    let v := ptMemSet s pid uva c len
    (t.copied = len ∧ Holds t.state pid uva len (fun k ↦ s.memory (kva + k)) ∧
      (∀ k < len, t.state.memory (kva + k) = s.memory (kva + k)) ∧
      Spares s t.state pid uva len) ∧
    (u.copied = len ∧ (∀ k < len, u.state.memory (kva' + k) = s.memory (kva + k)) ∧
      Spares t.state u.state pid uva len) ∧
    (v.copied = len ∧ Holds v.state pid uva len (fun _ ↦ c) ∧ Spares s v.state pid uva len) := by
  intro t u v
  have hout : Filled L s t.state pid uva len fun k ↦ s.memory (kva + k) := by
    have hwalk := walk_filled (outAccess_tame kva s len) (outAccess_fills hk) h hpid hlo hhi
      (show 0 + len ≤ len by omega) hres
    simpa only [t, ptCopyOut_eq hlo hhi hk.below, Nat.zero_add] using hwalk
  have hset : Filled L s v.state pid uva len fun _ ↦ c :=
    walk_filled (setAccess_tame c s len) (setAccess_fills c s len) h hpid hlo hhi
      (show 0 + len ≤ len by omega) hres
  have hregion : KernelRegion t.state kva' len :=
    ⟨hk'.below, fun x hx hx' hu ↦ hk'.apart x hx hx' (hout.onUserPage.mp hu)⟩
  obtain ⟨hcopied, hstate⟩ :=
    ptCopyIn_region hout.isolated.userSide hpid hlo hhi hout.mapped hregion
  have hu : u.state = { t.state with memory := copyMemory t.state pid uva kva' len } := hstate
  refine ⟨⟨?_, hout.holds, fun k hkl ↦ ?_, hout.spares⟩, ⟨hcopied, fun k hkl ↦ ?_, ?_⟩,
    ⟨?_, hset.holds, hset.spares⟩⟩
  · simp only [t, ptCopyOut_eq hlo hhi hk.below, walk_copied, Nat.zero_add]
  · exact hout.kernel _ (hk.apart _ (by omega) (by omega))
  · rw [hu]
    dsimp only
    rw [copyMemory_of_mem (by omega), Nat.add_sub_cancel_left, hout.bytes k hkl]
  · rw [hu]
    exact copyMemory_spares hout.isolated.userSide hregion
  · simp only [v, ptMemSet, walk_copied, Nat.zero_add]

/-- A range of eight bytes over the end of a page. -/
theorem transfers_correct_across :
    let s := pagesFor 4
    let t := ptCopyOut s 0x1000 1 0x40000FFC 8
    let u := ptCopyIn t.state 1 0x40000FFC 0x2000 8
    let v := ptMemSet s 1 0x40000FFC 7 8
    (t.copied = 8 ∧ Holds t.state 1 0x40000FFC 8 (fun k ↦ s.memory (0x1000 + k)) ∧
      (∀ k < 8, t.state.memory (0x1000 + k) = s.memory (0x1000 + k)) ∧
      Spares s t.state 1 0x40000FFC 8) ∧
    (u.copied = 8 ∧ (∀ k < 8, u.state.memory (0x2000 + k) = s.memory (0x1000 + k)) ∧
      Spares t.state u.state 1 0x40000FFC 8) ∧
    (v.copied = 8 ∧ Holds v.state 1 0x40000FFC 8 (fun _ ↦ 7) ∧ Spares s v.state 1 0x40000FFC 8) := by
  have h := (pagesFor_guarded 4).toIsolated
  have hres : CanReserve (pagesFor 4) 1 0x40000FFC 8 :=
    canReserve_of_affords (n := 2) h (by decide) (by decide) (by decide) (by decide)
      (AddressSpaces.start_affords _ _ _ (by decide))
  exact transfers_correct AddressSpaces.lowLayout (pagesFor 4) 1 0x40000FFC 0x1000 0x2000 8 7 h
    (by decide) (by decide) (by decide) (pagesFor_region 4 (by decide))
    (pagesFor_region 4 (by decide)) hres

end StormOS.UserCopy
