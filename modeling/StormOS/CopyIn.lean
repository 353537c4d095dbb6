import StormOS.UserCopy
import StormOS.Translation

namespace StormOS.UserCopy

open Library.Bytes
open PhysicalMemory hiding State
open Machine VirtualMemory Isolation

variable {L : Layout} {s : State} {pid va va' len kva copied i : ℕ}

/-- The `len` bytes from `va` on are mapped user memory of the process. -/
structure UserMapped (s : State) (pid va len : ℕ) : Prop where
  range : memUserLo ≤ va ∧ va + len ≤ memUserHi
  present : ∀ i < len, Present (getPageTableEntryByVA s pid (va + i))

/-- A region of kernel memory that the identity map does not reach into. -/
structure KernelBuffer (L : Layout) (kva size : ℕ) : Prop where
  kernel : kva + size ≤ memUserLo
  beside : kva + size ≤ L.pageDirIdentity ∨ L.pageDirIdentity + 4096 * 1024 ≤ kva

theorem translation_page (h : va / 4096 = va' / 4096) :
    getPageTableEntryByVA s i va = getPageTableEntryByVA s i va' := by
  have hpde : vaPdeIndex va = vaPdeIndex va' := by
    rw [vaPdeIndex_eq, vaPdeIndex_eq]
    omega
  have hpte : vaPteIndex va = vaPteIndex va' := by rw [vaPteIndex_eq, vaPteIndex_eq, h]
  rw [getPageTableEntryByVA, getPageTableEntryByVA, hpde, hpte]

theorem physicalAddr_page (h : va / 4096 = va' / 4096) (hle : va ≤ va') :
    physicalAddr s i va' = physicalAddr s i va + (va' - va) := by
  rw [physicalAddr, physicalAddr, translation_page h]
  simp only [pageSize]
  omega

theorem UserMapped.physicalAddr (h : UserMapped s pid va len) (hs : Isolated L s)
    (hpid : 1 ≤ pid ∧ pid < 64) (hi : i < len) :
    ∃ f, UserPage f ∧ Isolation.physicalAddr s pid (va + i) = f * 4096 + (va + i) % 4096 := by
  have hrange := h.range
  simp only [memUserLo, memUserHi] at hrange
  obtain ⟨f, hf, ha⟩ := physicalAddr_of_present ((userTable_iff hpid).mpr (by omega))
    (h.present i hi)
  exact ⟨f, (hs.owned _ _ hf).1, ha⟩

/-- Kernel memory beside the identity map holds no page table. -/
theorem KernelBuffer.tablesAgree (h : KernelBuffer L kva len) (hs : Isolated L s) {m : Memory}
    (hm : ∀ x, x < kva ∨ kva + len ≤ x → m x = s.memory x) : TablesAgree L s m := by
  have hk := h.kernel
  have hbeside := h.beside
  simp only [memUserLo] at hk
  refine ⟨fun x hx hx' ↦ hm x (by omega), fun i j f hf x hx hx' ↦ hm x ?_⟩
  have hb := (hs.owned _ _ hf).1.bounds
  omega

section Outside

variable {m : Memory} (hs : Isolated L s) (hpid : 1 ≤ pid ∧ pid < 64) (hk : KernelBuffer L kva i)
  (hm : ∀ x, x < kva ∨ kva + i ≤ x → m x = s.memory x) (h : UserMapped s pid va len)

include hs hpid hk hm h

/-- Writes to a kernel buffer leave the translation of mapped memory alone. -/
theorem UserMapped.translation {j : ℕ} (hj : j < len) :
    getPageTableEntryByVA { s with memory := m } pid (va + j) =
      getPageTableEntryByVA s pid (va + j) := by
  have hrange := h.range
  simp only [memUserLo, memUserHi] at hrange
  exact translation_write hs (hk.tablesAgree hs hm) hpid.2 (by omega)

theorem UserMapped.write : UserMapped { s with memory := m } pid va len := by
  refine ⟨h.range, fun j hj ↦ ?_⟩
  rw [h.translation hs hpid hk hm hj]
  exact h.present j hj

end Outside

theorem UserMapped.drop (h : UserMapped s pid va len) {n : ℕ} (hn : n ≤ len) :
    UserMapped s pid (va + n) (len - n) := by
  have hrange := h.range
  refine ⟨⟨hrange.1.trans (Nat.le_add_right _ _), by omega⟩, fun j hj ↦ ?_⟩
  rw [Nat.add_assoc]
  exact h.present (n + j) (by omega)

theorem UserMapped.take (h : UserMapped s pid va len) {n : ℕ} (hn : n ≤ len) :
    UserMapped s pid va n := by
  have hrange := h.range
  exact ⟨⟨hrange.1, by omega⟩, fun j hj ↦ h.present j (by omega)⟩

def copyMemory (s : State) (pid va dst len : ℕ) : Memory := fun x ↦
  if dst ≤ x ∧ x < dst + len then s.memory (Isolation.physicalAddr s pid (va + (x - dst)))
  else s.memory x

theorem copyMemory_of_mem {dst x : ℕ} (hx : dst ≤ x ∧ x < dst + len) :
    copyMemory s pid va dst len x =
      s.memory (Isolation.physicalAddr s pid (va + (x - dst))) := if_pos hx

theorem copyMemory_of_outside {dst x : ℕ} (hx : ¬ (dst ≤ x ∧ x < dst + len)) :
    copyMemory s pid va dst len x = s.memory x := if_neg hx

/-- The `len` bytes from `va` on are mapped, and no write to `[lo, hi)` changes them or where they
are. -/
structure Undisturbed (s : State) (pid va len lo hi : ℕ) : Prop where
  present : ∀ k < len, Present (getPageTableEntryByVA s pid (va + k))
  bound : ∀ k < len, Isolation.physicalAddr s pid (va + k) < 2 ^ 32
  apart : ∀ k < len, Isolation.physicalAddr s pid (va + k) < lo ∨
    hi ≤ Isolation.physicalAddr s pid (va + k)
  translation : ∀ m : Memory, (∀ x, x < lo ∨ hi ≤ x → m x = s.memory x) → ∀ k < len,
    getPageTableEntryByVA { s with memory := m } pid (va + k) =
      getPageTableEntryByVA s pid (va + k)

section Undisturbed

variable {lo hi n dst : ℕ} {m : Memory}

theorem Undisturbed.physicalAddr_write (h : Undisturbed s pid va len lo hi)
    (hm : ∀ x, x < lo ∨ hi ≤ x → m x = s.memory x) {k : ℕ} (hk : k < len) :
    Isolation.physicalAddr { s with memory := m } pid (va + k) =
      Isolation.physicalAddr s pid (va + k) := by
  rw [Isolation.physicalAddr, Isolation.physicalAddr, h.translation m hm k hk]

theorem Undisturbed.write (h : Undisturbed s pid va len lo hi)
    (hm : ∀ x, x < lo ∨ hi ≤ x → m x = s.memory x) :
    Undisturbed { s with memory := m } pid va len lo hi where
  present k hk := by
    rw [h.translation m hm k hk]
    exact h.present k hk
  bound k hk := by
    rw [h.physicalAddr_write hm hk]
    exact h.bound k hk
  apart k hk := by
    rw [h.physicalAddr_write hm hk]
    exact h.apart k hk
  translation m' hm' k hk := by
    rw [h.translation m hm k hk]
    exact h.translation m' (fun x hx ↦ (hm' x hx).trans (hm x hx)) k hk

theorem Undisturbed.drop (h : Undisturbed s pid va len lo hi) (hn : n ≤ len) :
    Undisturbed s pid (va + n) (len - n) lo hi where
  present k hk := Nat.add_assoc va n k ▸ h.present (n + k) (by omega)
  bound k hk := Nat.add_assoc va n k ▸ h.bound (n + k) (by omega)
  apart k hk := Nat.add_assoc va n k ▸ h.apart (n + k) (by omega)
  translation m hm k hk := Nat.add_assoc va n k ▸ h.translation m hm (n + k) (by omega)

theorem Undisturbed.byte (h : Undisturbed s pid va len lo hi)
    (hm : ∀ x, x < lo ∨ hi ≤ x → m x = s.memory x) {k : ℕ} (hk : k < len) :
    m (Isolation.physicalAddr { s with memory := m } pid (va + k)) =
      s.memory (Isolation.physicalAddr s pid (va + k)) := by
  rw [h.physicalAddr_write hm hk]
  exact hm _ (h.apart k hk)

theorem Undisturbed.translate (h : Undisturbed s pid va len lo hi) (hlen : len ≠ 0) :
    translate s pid va = (s, Isolation.physicalAddr s pid va) := by
  have hp : getPageTableEntryByVA s pid va &&& pteP ≠ 0 := h.present 0 (Nat.pos_of_ne_zero hlen)
  have hb : Isolation.physicalAddr s pid va < 2 ^ 32 := h.bound 0 (Nat.pos_of_ne_zero hlen)
  rw [UserCopy.translate]
  dsimp only
  rw [if_neg hp]
  exact congrArg (s, ·) (u32_of_lt hb)

theorem Undisturbed.memCopy_chunk (h : Undisturbed s pid va len lo hi) (hlo : lo ≤ dst)
    (hhi : dst + n ≤ hi) (htop : hi ≤ 2 ^ 32) (hn : n ≤ len) (hpos : 0 < n)
    (hpage : va % 4096 + n ≤ 4096) :
    memCopy s.memory (u32 dst) (Isolation.physicalAddr s pid va) n = copyMemory s pid va dst n := by
  have hplace (k : ℕ) (hk : k < n) :
      Isolation.physicalAddr s pid (va + k) = Isolation.physicalAddr s pid va + k := by
    rw [physicalAddr_page (show va / 4096 = (va + k) / 4096 by omega) (by omega),
      Nat.add_sub_cancel_left]
  have hapart : dst + n ≤ Isolation.physicalAddr s pid va ∨
      Isolation.physicalAddr s pid va + n ≤ dst := by
    by_contra hmeet
    -- the higher of the two starting points is a byte of both
    have h0 := h.apart 0 (by omega)
    rw [Nat.add_zero] at h0
    have hk := h.apart (dst - Isolation.physicalAddr s pid va)
    rw [hplace _ (by omega)] at hk
    omega
  have hlast := h.bound (n - 1) (by omega)
  rw [hplace _ (by omega)] at hlast
  funext x
  rw [u32_of_lt (by omega), memCopy_apply (by omega) (by omega) (by omega), copyMemory]
  by_cases hx : dst ≤ x ∧ x < dst + n
  · rw [if_pos hx, if_pos hx, hplace _ (by omega)]
  · rw [if_neg hx, if_neg hx]

/-- A copy that goes on after a first chunk amounts to one copy. -/
theorem Undisturbed.copyMemory_add (h : Undisturbed s pid va len lo hi) (hlo : lo ≤ dst)
    (hhi : dst + n ≤ hi) (hn : n ≤ len) :
    copyMemory { s with memory := copyMemory s pid va dst n } pid (va + n) (dst + n) (len - n) =
      copyMemory s pid va dst len := by
  funext x
  by_cases hx : dst + n ≤ x ∧ x < dst + len
  · have hva : va + n + (x - (dst + n)) = va + (x - dst) := by omega
    have hin : dst ≤ x ∧ x < dst + len := by omega
    rw [copyMemory_of_mem (by omega), copyMemory_of_mem hin, hva]
    exact h.byte (fun y hy ↦ copyMemory_of_outside (by omega)) (by omega)
  · rw [copyMemory_of_outside (by omega)]
    dsimp only
    by_cases hx' : dst ≤ x ∧ x < dst + n
    · rw [copyMemory_of_mem hx', copyMemory_of_mem (by omega)]
    · rw [copyMemory_of_outside hx', copyMemory_of_outside (by omega)]

theorem Undisturbed.walk_copyIn (h : Undisturbed s pid va len kva hi) (htop : hi ≤ 2 ^ 32)
    (hva : va + len < 2 ^ 32) (hsize : kva + copied + len ≤ hi) :
    (walk (fun m pa copied size ↦ memCopy m (u32 (kva + copied)) pa size) s pid va len
      copied).state = { s with memory := copyMemory s pid va (kva + copied) len } := by
  induction len using Nat.strong_induction_on generalizing s va copied with
  | _ len ih =>
    by_cases h0 : len = 0
    · subst h0
      have hm : copyMemory s pid va (kva + copied) 0 = s.memory :=
        funext fun x ↦ if_neg (by omega)
      rw [walk_zero, hm]
    · obtain ⟨n, hn⟩ : ∃ n, chunk (Isolation.physicalAddr s pid va) len = n := ⟨_, rfl⟩
      have hoff : Isolation.physicalAddr s pid va % 4096 = va % 4096 := by
        have htr := translate_offset s pid va
        rwa [h.translate h0] at htr
      have hle : n ≤ len := hn ▸ chunk_le _ len
      have hpos : 0 < n := hn ▸ chunk_pos _ h0
      have hpage : va % 4096 + n ≤ 4096 := by
        rw [← hoff, ← hn]
        exact chunk_page _ len
      have hm (x : ℕ) (hx : x < kva ∨ hi ≤ x) :
          copyMemory s pid va (kva + copied) n x = s.memory x := copyMemory_of_outside (by omega)
      have hnext : u32 (va + n) = va + n := u32_of_lt (by omega)
      rw [walk_step h0, h.translate h0]
      dsimp only
      rw [hn, h.memCopy_chunk (by omega) (by omega) htop hle hpos hpage, hnext,
        ih (len - n) (by omega) ((h.drop hle).write hm) (by omega) (by omega)]
      dsimp only
      rw [← Nat.add_assoc, h.copyMemory_add (by omega) (by omega) hle]

end Undisturbed

theorem UserMapped.undisturbed (hs : Isolated L s) (hpid : 1 ≤ pid ∧ pid < 64)
    (h : UserMapped s pid va len) (hk : KernelBuffer L kva i) :
    Undisturbed s pid va len kva (kva + i) := by
  have hkernel := hk.kernel
  simp only [memUserLo] at hkernel
  refine ⟨h.present, fun k hk' ↦ ?_, fun k hk' ↦ ?_, fun m hm k hk' ↦
    h.translation hs hpid hk hm hk'⟩
  · obtain ⟨f, hf, ha⟩ := h.physicalAddr hs hpid hk'
    have hb := hf.bounds
    omega
  · obtain ⟨f, hf, ha⟩ := h.physicalAddr hs hpid hk'
    have hb := hf.bounds
    omega

theorem ptCopyIn_mapped (hs : Isolated L s) (hpid : 1 ≤ pid ∧ pid < 64)
    (h : UserMapped s pid va len) (hk : KernelBuffer L kva len) :
    (ptCopyIn s pid va kva len).state = { s with memory := copyMemory s pid va kva len } ∧
      (ptCopyIn s pid va kva len).copied = len := by
  have hrange := h.range
  have hkernel := hk.kernel
  simp only [memUserLo, memUserHi] at hrange hkernel
  have hva : u32 (va + len) = va + len := u32_of_lt (by omega)
  have hkva : u32 (kva + len) = kva + len := u32_of_lt (by omega)
  have hacc : memUserLo ≤ va ∧ u32 (va + len) ≤ memUserHi := by
    rw [hva]
    exact h.range
  have hkacc : ¬ u32 (kva + len) > memUserHi := by
    rw [hkva]
    simp only [memUserHi]
    omega
  rw [ptCopyIn, if_neg (not_not.mpr hacc), if_neg hkacc, walk_copied,
    (h.undisturbed hs hpid hk).walk_copyIn (by omega) (by omega) (by omega)]
  exact ⟨rfl, zero_add len⟩

def userBytes (s : State) (pid va len : ℕ) : List UInt8 :=
  (List.range len).map fun i ↦ s.memory (Isolation.physicalAddr s pid (va + i))

theorem userBytes_take (s : State) (pid va len n : ℕ) :
    (userBytes s pid va len).take n = userBytes s pid va (min n len) := by
  rw [userBytes, userBytes, ← List.map_take, List.take_range]

theorem userBytes_drop (s : State) (pid va : ℕ) {n : ℕ} (hn : n ≤ len) :
    (userBytes s pid va len).drop n = userBytes s pid (va + n) (len - n) := by
  obtain ⟨m, rfl⟩ := Nat.exists_eq_add_of_le hn
  rw [userBytes, userBytes, List.range_add, List.map_append, List.map_map,
    List.drop_left' (by simp), Nat.add_sub_cancel_left]
  apply List.map_congr_left
  intro i _
  rw [Function.comp, Nat.add_assoc]

theorem mapsPage_userMapped {s' : State} {perm page : ℕ} (h : MapsPage s s' pid va perm page)
    (hpid : pid < 64) (hva : va % 4096 = 0) (hrange : 0x40000000 ≤ va ∧ va < 0xF0000000)
    (hodd : perm % 2 = 1) : UserMapped s' pid va 4096 := by
  refine ⟨?_, fun i hi ↦ ?_⟩
  · simp only [memUserLo, memUserHi]
    omega
  · rw [h.translation pid hpid _ (by omega), if_pos ⟨rfl, by omega⟩, present_iff]
    omega

theorem place_userBytes {bytes : List UInt8} (hs : Isolated L s) (hpid : 1 ≤ pid ∧ pid < 64)
    (h : UserMapped s pid va bytes.length) (hpos : 0 < bytes.length)
    (hpage : va % 4096 + bytes.length ≤ 4096) :
    Isolated L (place s (Isolation.physicalAddr s pid va) bytes) ∧
      UserMapped (place s (Isolation.physicalAddr s pid va) bytes) pid va bytes.length ∧
      userBytes (place s (Isolation.physicalAddr s pid va) bytes) pid va bytes.length = bytes := by
  have hrange := h.range
  simp only [memUserLo, memUserHi] at hrange
  have hpresent := h.present 0 hpos
  rw [Nat.add_zero] at hpresent
  obtain ⟨f, hf, ha⟩ := physicalAddr_of_present ((userTable_iff hpid).mpr (by omega)) hpresent
  have htables : TablesAgree L s (place s (Isolation.physicalAddr s pid va) bytes).memory :=
    tablesAgree_of_page hs hf fun x hx ↦ if_neg (by omega)
  have htrans (i : ℕ) (hi : i < bytes.length) :
      getPageTableEntryByVA (place s (Isolation.physicalAddr s pid va) bytes) pid (va + i) =
        getPageTableEntryByVA s pid (va + i) :=
    translation_write hs htables hpid.2 (by omega)
  refine ⟨hs.write htables, ⟨h.range, fun i hi ↦ htrans i hi ▸ h.present i hi⟩, ?_⟩
  apply List.ext_getElem (by simp [userBytes])
  intro i _ hi
  have haddr : Isolation.physicalAddr (place s (Isolation.physicalAddr s pid va) bytes) pid
      (va + i) = Isolation.physicalAddr s pid va + i := by
    rw [Isolation.physicalAddr, htrans i hi]
    have hstep := physicalAddr_page (s := s) (i := pid)
      (show va / 4096 = (va + i) / 4096 by omega) (by omega)
    rw [Isolation.physicalAddr] at hstep
    rw [hstep, Nat.add_sub_cancel_left]
  simp only [userBytes, List.getElem_map, List.getElem_range]
  rw [haddr, place_byte hi]

end StormOS.UserCopy
