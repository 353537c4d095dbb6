import StormOS.PhysicalMemory

namespace StormOS.Boot

open Library.Bytes Library.Loops Machine PhysicalMemory

def u16 (x : ℕ) : ℕ := x % 2 ^ 16

abbrev smapSig : ℕ := 0x534D4150

abbrev smapSpace : ℕ := 0xc00

/-- Where the linker put the memory map. It is reached with registers of 16 bits. -/
structure Layout where
  smap : ℕ
  segment : smap + smapSpace ≤ 2 ^ 16

structure Descriptor where
  baseAddr : UInt64
  length : UInt64
  type : UInt32

/-- The registers and the flag after a call of the BIOS, and the descriptor that it has written. -/
structure Reply where
  carry : Bool
  eax : ℕ
  ebx : ℕ
  descriptor : Descriptor

/-- The memory and the register `di`, with the first place and the size of every write. -/
structure Machine16 where
  m : Memory
  di : ℕ
  writes : List (ℕ × ℕ)

def Machine16.movl (s : Machine16) (a v : ℕ) : Machine16 :=
  { s with m := store32 s.m a v, writes := s.writes ++ [(a, 4)] }

def putDescriptor (m : Memory) (a : ℕ) (d : Descriptor) : Memory :=
  let m := store32 m a (d.baseAddr.toNat % 2 ^ 32)
  let m := store32 m (a + 4) (d.baseAddr.toNat / 2 ^ 32)
  let m := store32 m (a + 8) (d.length.toNat % 2 ^ 32)
  let m := store32 m (a + 12) (d.length.toNat / 2 ^ 32)
  store32 m (a + 16) d.type.toNat

def Machine16.bios (s : Machine16) (d : Descriptor) : Machine16 :=
  { s with m := putDescriptor s.m s.di d, writes := s.writes ++ [(s.di, 20)] }

def Machine16.clear (s : Machine16) (n : ℕ) : Machine16 :=
  { m := forUpTo (fun i m ↦ store8 m (u16 (s.di + i)) 0) n s.m
    di := u16 (s.di + n)
    writes := s.writes ++ (List.range n).map fun i ↦ (u16 (s.di + i), 1) }

/-- How the detection ends: it is done, it has printed that it failed, or the BIOS has not
returned. -/
inductive Detected
  | done (s : Machine16)
  | failed
  | waiting

/-- The loop `e820`, with the replies of the BIOS. -/
def e820 (s : Machine16) : List Reply → Detected
  | [] => .waiting
  | r :: rs =>
    let s := s.bios r.descriptor
    if r.carry then .failed
    else if r.eax ≠ smapSig then .failed
    else
      let s := s.movl (u16 (s.di + 2 ^ 16 - 4)) 20
      let s := { s with di := u16 (s.di + 24) }
      if r.ebx = 0 then .done (s.clear 20) else e820 s rs

/-- The BIOS gives these descriptors, the last one with `ebx` zero. -/
def Replies : List Descriptor → List Reply → Prop
  | d :: ds, r :: rs =>
    r.carry = false ∧ r.eax = smapSig ∧ r.descriptor = d ∧ (r.ebx = 0 ↔ ds = []) ∧
      (ds ≠ [] → Replies ds rs)
  | _, _ => False

def load64 (m : Memory) (a : ℕ) : ℕ := load32 m a + 2 ^ 32 * load32 m (a + 4)

def readSMAP (m : Memory) (p : ℕ) : SMAP where
  size := UInt32.ofNat (load32 m p)
  baseAddr := UInt64.ofNat (load64 m (p + 4))
  length := UInt64.ofNat (load64 m (p + 12))
  type := UInt32.ofNat (load32 m (p + 20))

abbrev sizeofSMAP : ℕ := 24

/-- The structures that the scan of `PhysicalMemoryInit` visits. -/
def visited (m : Memory) : ℕ → ℕ → Option (List SMAP)
  | 0, _ => none
  | fuel + 1, p =>
    let e := readSMAP m p
    if e.baseAddr ≠ 0 ∨ e.length ≠ 0 ∨ e.type ≠ 0 then
      (visited m fuel (p + sizeofSMAP)).map (e :: ·)
    else some []

def pageReservedAt (m : Memory) (pgStart pgEnd : ℕ) : ℕ → ℕ → Option Bool
  | 0, _ => none
  | fuel + 1, p =>
    let e := readSMAP m p
    if e.baseAddr ≠ 0 ∨ e.length ≠ 0 ∨ e.type ≠ 0 then
      let start := u32 e.baseAddr.toNat
      let stop := u32 (start + u32 e.length.toNat)
      if pgStart ≥ start ∧ pgEnd ≤ stop ∧ e.type = 1 then some false
      else pageReservedAt m pgStart pgEnd fuel (p + sizeofSMAP)
    else some true

def Descriptor.entry (d : Descriptor) : SMAP := ⟨20, d.baseAddr, d.length, d.type⟩

def Descriptor.IsEnd (d : Descriptor) : Prop := d.baseAddr = 0 ∧ d.length = 0 ∧ d.type = 0

instance (d : Descriptor) : Decidable d.IsEnd :=
  inferInstanceAs (Decidable (d.baseAddr = 0 ∧ d.length = 0 ∧ d.type = 0))

variable {m m' : Memory} {p a fuel : ℕ} {d : Descriptor} {ds : List Descriptor} {rs : List Reply}
  {s : Machine16}

/-- For a page, the kernel does what it would do with a list of the structures. -/
theorem pageReservedAt_eq {es : List SMAP} (pgStart pgEnd : ℕ) (h : visited m fuel p = some es) :
    pageReservedAt m pgStart pgEnd fuel p = some (pageReserved pgStart pgEnd es) := by
  induction fuel generalizing p es with
  | zero => cases h
  | succ fuel ih =>
    rw [visited] at h
    rw [pageReservedAt]
    dsimp only at h ⊢
    split at h
    · next hentry =>
      obtain ⟨es', hrest, rfl⟩ := Option.map_eq_some_iff.mp h
      rw [if_pos hentry, pageReserved, if_pos hentry]
      dsimp only
      split
      · rfl
      · exact ih hrest
    · next hentry =>
      obtain rfl := Option.some.inj h
      rw [if_neg hentry]
      rfl

theorem load64_congr (h : ∀ x, a ≤ x → x < a + 8 → m' x = m x) : load64 m' a = load64 m a := by
  rw [load64, load64, load32_congr fun x hx hx' ↦ h x hx (by omega),
    load32_congr fun x hx hx' ↦ h x (by omega) (by omega)]

theorem readSMAP_congr (h : ∀ x, p ≤ x → x < p + 24 → m' x = m x) :
    readSMAP m' p = readSMAP m p := by
  rw [readSMAP, readSMAP, load32_congr fun x hx hx' ↦ h x hx (by omega),
    load64_congr fun x hx hx' ↦ h x (by omega) (by omega),
    load64_congr fun x hx hx' ↦ h x (by omega) (by omega),
    load32_congr fun x hx hx' ↦ h x (by omega) (by omega)]

theorem putDescriptor_of_outside {x : ℕ} (h : x < a ∨ a + 20 ≤ x) :
    putDescriptor m a d x = m x := by
  rw [putDescriptor, store32_of_outside (by omega), store32_of_outside (by omega),
    store32_of_outside (by omega), store32_of_outside (by omega), store32_of_outside (by omega)]

theorem load32_putDescriptor (m : Memory) (a : ℕ) (d : Descriptor) :
    load64 (putDescriptor m a d) a = d.baseAddr.toNat ∧
      load64 (putDescriptor m a d) (a + 8) = d.length.toNat ∧
      load32 (putDescriptor m a d) (a + 16) = d.type.toNat := by
  have hbase := d.baseAddr.toNat_lt
  have hlength := d.length.toNat_lt
  have htype := d.type.toNat_lt
  simp only [load64, putDescriptor]
  refine ⟨?_, ?_, load32_store32_self _ _ htype⟩
  · rw [load32_store32_of_disjoint (by omega), load32_store32_of_disjoint (by omega),
      load32_store32_of_disjoint (by omega), load32_store32_of_disjoint (by omega),
      load32_store32_self _ _ (by omega), load32_store32_of_disjoint (by omega),
      load32_store32_of_disjoint (by omega), load32_store32_of_disjoint (by omega),
      load32_store32_self _ _ (by omega)]
    omega
  · rw [load32_store32_of_disjoint (by omega), load32_store32_of_disjoint (by omega),
      load32_store32_self _ _ (by omega), load32_store32_of_disjoint (by omega), Nat.add_assoc,
      load32_store32_self _ _ (by omega)]
    omega

theorem readSMAP_put (m : Memory) (p : ℕ) (d : Descriptor) :
    readSMAP (store32 (putDescriptor m (p + 4) d) p 20) p = d.entry := by
  obtain ⟨hbase, hlength, htype⟩ := load32_putDescriptor m (p + 4) d
  rw [readSMAP, load32_store32_self _ _ (by decide),
    load64_congr fun x hx _ ↦ store32_of_outside (.inr (by omega)), hbase,
    load64_congr fun x hx _ ↦ store32_of_outside (.inr (by omega)), hlength,
    load32_store32_of_disjoint (by omega), htype, UInt64.ofNat_toNat, UInt64.ofNat_toNat,
    UInt32.ofNat_toNat]
  rfl

theorem load32_zero (h : ∀ x, a ≤ x → x < a + 4 → m x = 0) : load32 m a = 0 := by
  rw [load32, load16, load16, h a (by omega) (by omega), h (a + 1) (by omega) (by omega),
    h (a + 2) (by omega) (by omega), h (a + 2 + 1) (by omega) (by omega)]
  rfl

theorem load64_zero (h : ∀ x, a ≤ x → x < a + 8 → m x = 0) : load64 m a = 0 := by
  rw [load64, load32_zero fun x hx hx' ↦ h x hx (by omega),
    load32_zero fun x hx hx' ↦ h x (by omega) (by omega), Nat.mul_zero]

theorem visited_end (h : ∀ x, p + 4 ≤ x → x < p + 24 → m x = 0) :
    visited m (fuel + 1) p = some [] := by
  have hbase : (readSMAP m p).baseAddr = 0 :=
    congrArg UInt64.ofNat (load64_zero fun x hx hx' ↦ h x hx (by omega))
  have hlength : (readSMAP m p).length = 0 :=
    congrArg UInt64.ofNat (load64_zero fun x hx hx' ↦ h x (by omega) (by omega))
  have htype : (readSMAP m p).type = 0 :=
    congrArg UInt32.ofNat (load32_zero fun x hx hx' ↦ h x (by omega) (by omega))
  rw [visited]
  exact if_neg (by simp [hbase, hlength, htype])

theorem visited_entry (h : readSMAP m p = d.entry) (hd : ¬ d.IsEnd) :
    visited m (fuel + 1) p = (visited m fuel (p + 24)).map (d.entry :: ·) := by
  have hne : d.baseAddr ≠ 0 ∨ d.length ≠ 0 ∨ d.type ≠ 0 := by
    rwa [Descriptor.IsEnd, not_and_or, not_and_or] at hd
  rw [visited, h]
  exact if_pos hne

theorem clear_m (s : Machine16) (n : ℕ) (hn : s.di + n ≤ 2 ^ 16) (x : ℕ) :
    (s.clear n).m x = if s.di ≤ x ∧ x < s.di + n then 0 else s.m x := by
  refine forUpTo_invariant (f := fun i m ↦ store8 m (u16 (s.di + i)) 0) (s := s.m)
    (I := fun k m' ↦ m' x = if s.di ≤ x ∧ x < s.di + k then 0 else s.m x) n ?_ ?_
  · rw [if_neg (by omega)]
  · intro k m' hk hm'
    have hplace : u16 (s.di + k) = s.di + k := Nat.mod_eq_of_lt (by omega)
    rw [hplace]
    by_cases hx : x = s.di + k
    · rw [hx, store8_self, if_pos (by omega)]
    · rw [store8_of_ne hx, hm']
      exact if_congr (by omega) rfl rfl

def Machine16.stored (s : Machine16) (d : Descriptor) (p : ℕ) : Machine16 where
  m := store32 (putDescriptor s.m (p + 4) d) p 20
  di := p + 28
  writes := s.writes ++ [(p + 4, 20)] ++ [(p, 4)]

theorem e820_cons {r : Reply} (hdi : s.di = p + 4) (hp : p + 48 ≤ 2 ^ 16) (hcarry : r.carry = false)
    (heax : r.eax = smapSig) :
    e820 s (r :: rs) = if r.ebx = 0 then .done ((s.stored r.descriptor p).clear 20)
      else e820 (s.stored r.descriptor p) rs := by
  have hbios : (s.bios r.descriptor).di = p + 4 := hdi
  have hsize : u16 ((s.bios r.descriptor).di + 2 ^ 16 - 4) = p := by
    rw [hbios, u16]
    omega
  have hstored : { (s.bios r.descriptor).movl p 20 with di := u16 (s.di + 24) } =
      s.stored r.descriptor p := by
    rw [Machine16.movl, Machine16.bios, Machine16.stored, hdi, u16, Nat.mod_eq_of_lt (by omega)]
  rw [e820]
  dsimp only
  rw [hcarry, if_neg Bool.false_ne_true, heax, if_neg (not_not.mpr rfl), hsize, ← hstored]
  rfl

theorem stored_m_of_outside {x : ℕ} (s : Machine16) (d : Descriptor) (h : x < p ∨ p + 24 ≤ x) :
    (s.stored d p).m x = s.m x := by
  rw [Machine16.stored]
  dsimp only
  rw [store32_of_outside (by omega), putDescriptor_of_outside (by omega)]

structure Mapped (p : ℕ) (ds : List Descriptor) (s t : Machine16) : Prop where
  before : ∀ x < p, t.m x = s.m x
  visited : ∀ fuel, ds.length < fuel → visited t.m fuel p = some (ds.map Descriptor.entry)
  writes : ∀ w ∈ t.writes, w ∈ s.writes ∨ p ≤ w.1 ∧ w.1 + w.2 ≤ p + 24 * (ds.length + 1)

theorem mapped_last (s : Machine16) (hp : p + 48 ≤ 2 ^ 16) (hd : ¬ d.IsEnd) :
    Mapped p [d] s ((s.stored d p).clear 20) where
  before x hx := by
    rw [clear_m _ _ hp, if_neg (by simp only [Machine16.stored]; omega),
      stored_m_of_outside s d (.inl hx)]
  visited fuel hfuel := by
    obtain ⟨fuel, rfl⟩ := Nat.exists_eq_add_of_le' (show 2 ≤ fuel from hfuel)
    have hentry : readSMAP ((s.stored d p).clear 20).m p = d.entry := by
      rw [readSMAP_congr (m := (s.stored d p).m) fun x hx hx' ↦ ?_]
      · exact readSMAP_put s.m p d
      · rw [clear_m _ _ hp, if_neg (by simp only [Machine16.stored]; omega)]
    have hzero : ∀ x, p + 24 + 4 ≤ x → x < p + 24 + 24 → ((s.stored d p).clear 20).m x = 0 := by
      intro x hx hx'
      rw [clear_m _ _ hp, if_pos (by simp only [Machine16.stored]; omega)]
    rw [visited_entry hentry hd, visited_end hzero]
    rfl
  writes w hw := by
    rcases List.mem_append.mp hw with hw | hw
    · rcases List.mem_append.mp hw with hw | hw
      · rcases List.mem_append.mp hw with hw | hw
        · exact .inl hw
        · rw [List.mem_singleton.mp hw, List.length_singleton]
          exact .inr (by omega)
      · rw [List.mem_singleton.mp hw, List.length_singleton]
        exact .inr (by omega)
    · obtain ⟨i, hi, rfl⟩ := List.mem_map.mp hw
      have hlt := List.mem_range.mp hi
      have hplace : u16 ((s.stored d p).di + i) = p + 28 + i := Nat.mod_eq_of_lt (by
        simp only [Machine16.stored]
        omega)
      rw [hplace, List.length_singleton]
      exact .inr (by omega)

theorem mapped_cons (s : Machine16) {t : Machine16} (hd : ¬ d.IsEnd)
    (h : Mapped (p + 24) ds (s.stored d p) t) : Mapped p (d :: ds) s t where
  before x hx := (h.before x (by omega)).trans (stored_m_of_outside s d (.inl hx))
  visited fuel hfuel := by
    obtain ⟨fuel, rfl⟩ := Nat.exists_eq_add_one_of_ne_zero (Nat.ne_zero_of_lt hfuel)
    have hentry : readSMAP t.m p = d.entry :=
      (readSMAP_congr fun x _ hx' ↦ h.before x hx').trans (readSMAP_put s.m p d)
    rw [visited_entry hentry hd, h.visited fuel (Nat.lt_of_succ_lt_succ hfuel)]
    rfl
  writes w hw := by
    rw [List.length_cons]
    rcases h.writes w hw with hw | hw
    · rcases List.mem_append.mp hw with hw | hw
      · rcases List.mem_append.mp hw with hw | hw
        · exact .inl hw
        · rw [List.mem_singleton.mp hw]
          exact .inr (by omega)
      · rw [List.mem_singleton.mp hw]
        exact .inr (by omega)
    · exact .inr (by omega)

theorem e820_mapped (hrs : Replies ds rs) (hend : ∀ d ∈ ds, ¬ d.IsEnd) (hdi : s.di = p + 4)
    (hp : p + 24 * (ds.length + 1) ≤ 2 ^ 16) : ∃ t, e820 s rs = .done t ∧ Mapped p ds s t := by
  induction ds generalizing s p rs with
  | nil => exact absurd hrs not_false
  | cons d ds ih =>
    cases rs with
    | nil => exact absurd hrs not_false
    | cons r rs =>
      obtain ⟨hcarry, heax, rfl, hebx, hrest⟩ := hrs
      have hd := hend _ List.mem_cons_self
      rw [List.length_cons] at hp
      rw [e820_cons hdi (by omega) hcarry heax]
      by_cases hlast : ds = []
      · rw [if_pos (hebx.mpr hlast), hlast]
        exact ⟨_, rfl, mapped_last s (by omega) hd⟩
      · rw [if_neg (mt hebx.mp hlast)]
        obtain ⟨t, hrun, hmapped⟩ := ih (s := s.stored r.descriptor p) (p := p + 24) (hrest hlast)
          (fun d hd ↦ hend d (List.mem_cons_of_mem _ hd)) rfl (by omega)
        exact ⟨t, hrun, mapped_cons s hd hmapped⟩

/-- The scan of `PhysicalMemoryInit` visits what the BIOS has told, in its order, and the loop
writes within the space of the map. -/
theorem e820_visited (l : Layout) (m : Memory) (hn : ds.length ≤ 127) (hrs : Replies ds rs)
    (hend : ∀ d ∈ ds, ¬ d.IsEnd) :
    ∃ t, e820 ⟨m, l.smap + 4, []⟩ rs = .done t ∧
      (∀ fuel, ds.length < fuel → visited t.m fuel l.smap = some (ds.map Descriptor.entry)) ∧
      ∀ w ∈ t.writes, l.smap ≤ w.1 ∧ w.1 + w.2 ≤ l.smap + smapSpace := by
  have hsegment := l.segment
  simp only [smapSpace] at hsegment ⊢
  obtain ⟨t, hrun, hmapped⟩ := e820_mapped (s := ⟨m, l.smap + 4, []⟩) hrs hend rfl (by omega)
  refine ⟨t, hrun, hmapped.visited, fun w hw ↦ ?_⟩
  have hwrite := (hmapped.writes w hw).resolve_left List.not_mem_nil
  omega

def ranges : List Descriptor := [⟨0, 0x9FC00, 1⟩, ⟨0x100000, 0x7EE0000, 1⟩]

def answers : List Reply := [⟨false, smapSig, 24, ⟨0, 0x9FC00, 1⟩⟩,
  ⟨false, smapSig, 0, ⟨0x100000, 0x7EE0000, 1⟩⟩]

theorem e820_visited_ranges :
    ∃ t, e820 ⟨fun _ ↦ 7, 0x8004, []⟩ answers = .done t ∧
      (∀ fuel, 2 < fuel → visited t.m fuel 0x8000 =
        some [⟨20, 0, 0x9FC00, 1⟩, ⟨20, 0x100000, 0x7EE0000, 1⟩]) ∧
      ∀ w ∈ t.writes, 0x8000 ≤ w.1 ∧ w.1 + w.2 ≤ 0x8C00 :=
  e820_visited ⟨0x8000, by decide⟩ (fun _ ↦ 7) (show ranges.length ≤ 127 by decide)
    (show Replies ranges answers from
      ⟨rfl, rfl, rfl, by decide, fun _ ↦ ⟨rfl, rfl, rfl, by decide, fun h ↦ absurd rfl h⟩⟩)
    (by decide)

end StormOS.Boot
