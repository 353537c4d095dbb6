import StormOS.FormatText
import StormOS.Library.Strings
import StormOS.Library.Words

namespace StormOS.Monitor

open Library.Bytes Library.Strings Library.Words Printf

abbrev maxArgs : ℕ := 16

def whitespace : List UInt8 := [byte '\t', byte '\r', byte '\n', byte ' ']

def stringFindChar : List UInt8 → UInt8 → Option ℕ
  | [], _ => none
  | ch :: str, c => if ch = c then some 0 else (stringFindChar str c).map (· + 1)

/-- The comparison of the string at an address with a constant one, and the addresses it reads. -/
def stringCmp (m : Memory) : ℕ → List UInt8 → ℤ × List ℕ
  | a, [] => ((m a).toNat, [a])
  | a, ch :: str =>
    if m a ≠ 0 ∧ m a = ch then
      let (d, reads) := stringCmp m (a + 1) str
      (d, a :: reads)
    else ((m a).toNat - ch.toNat, [a])

inductive Command
  | help
  | textColor
  | user
  deriving DecidableEq

def Command.name : Command → List UInt8
  | .help => [byte 'h', byte 'e', byte 'l', byte 'p']
  | .textColor => "textcolor".toList.map byte
  | .user => [byte 'u', byte 's', byte 'e', byte 'r']

def commands : List Command := [.help, .textColor, .user]

inductive Outcome
  | empty
  | tooMany
  | invoke (c : Command) (argc : ℕ)
  | unknown (name : List UInt8)

/-- The memory and the local array `argv`, with the addresses of the memory and the elements of the
array that have been accessed. -/
structure Parse where
  m : Memory
  argv : ℕ → ℕ
  accesses : List ℕ
  slots : List ℕ

def Parse.access (s : Parse) (xs : List ℕ) : Parse := { s with accesses := s.accesses ++ xs }

/-- What is read through `argv[0]`. -/
def Parse.readName (s : Parse) (xs : List ℕ) : Parse :=
  { s with accesses := s.accesses ++ xs, slots := s.slots ++ [0] }

def isSpace (ch : UInt8) : Bool := (stringFindChar whitespace ch).isSome

def lookup (fuel : ℕ) (s : Parse) (argc : ℕ) : List Command → Option (Parse × Outcome)
  | [] =>
    (readString s.m fuel (s.argv 0)).map fun (name, reads) ↦
      (s.readName reads, .unknown name)
  | c :: cs =>
    let cmp := stringCmp s.m (s.argv 0) c.name
    let s := s.readName cmp.2
    if cmp.1 = 0 then some (s, .invoke c argc) else lookup fuel s argc cs

variable {m : Memory} {s t u : Parse} {a buf fuel argc : ℕ} {ch : UInt8} {str name : List UInt8}

structure Confined (buf n : ℕ) (s t : Parse) : Prop where
  memory : ∀ x, x < buf ∨ buf + n ≤ x → t.m x = s.m x
  accesses : ∀ x ∈ t.accesses, x ∈ s.accesses ∨ buf ≤ x ∧ x ≤ buf + n
  slots : ∀ i ∈ t.slots, i ∈ s.slots ∨ i < maxArgs

theorem Confined.trans {k n : ℕ} (h : Confined buf (k + n) s t)
    (h' : Confined (buf + k) n t u) : Confined buf (k + n) s u where
  memory x hx := (h'.memory x (by omega)).trans (h.memory x hx)
  accesses x hx := by
    rcases h'.accesses x hx with hx | hx
    · exact h.accesses x hx
    · exact .inr (by omega)
  slots i hi := by
    rcases h'.slots i hi with hi | hi
    · exact h.slots i hi
    · exact .inr hi

theorem Confined.mono {k n : ℕ} (h : Confined buf k s t) (hk : k ≤ n) : Confined buf n s t where
  memory x hx := h.memory x (by omega)
  accesses x hx := (h.accesses x hx).imp_right fun hx ↦ by omega
  slots := h.slots

structure Inside (m : Memory) (lo hi p : ℕ) (w : List UInt8) : Prop where
  lower : lo ≤ p
  upper : p + w.length ≤ hi
  string : StringAt m p w

def ArgvAt (m : Memory) (argv : ℕ → ℕ) (lo hi : ℕ) : ℕ → List (List UInt8) → Prop
  | _, [] => True
  | i, w :: ws => Inside m lo hi (argv i) w ∧ ArgvAt m argv lo hi (i + 1) ws

variable {argv : ℕ → ℕ} {ws : List (List UInt8)} {lo hi i : ℕ}

theorem ArgvAt.mono {lo' hi' : ℕ} (h : ArgvAt m argv lo hi i ws) (hlo : lo' ≤ lo)
    (hhi : hi ≤ hi') : ArgvAt m argv lo' hi' i ws := by
  induction ws generalizing i with
  | nil => trivial
  | cons w ws ih =>
    obtain ⟨⟨hlower, hupper, hstring⟩, hrest⟩ := h
    exact ⟨⟨hlo.trans hlower, hupper.trans hhi, hstring⟩, ih hrest⟩

theorem ArgvAt.get (h : ArgvAt m argv lo hi i ws) {k : ℕ} (hk : k < ws.length) :
    Inside m lo hi (argv (i + k)) ws[k] := by
  induction ws generalizing i k with
  | nil => exact absurd hk (Nat.not_lt_zero _)
  | cons w ws ih =>
    cases k with
    | zero => exact h.1
    | succ k =>
      have hrest := ih h.2 (Nat.lt_of_succ_lt_succ hk)
      rwa [Nat.add_assoc, Nat.add_comm 1] at hrest

theorem ArgvAt.congr {argv' : ℕ → ℕ} (h : ArgvAt m argv lo hi i ws)
    (hargv : ∀ k, i ≤ k → k < i + ws.length → argv' k = argv k) : ArgvAt m argv' lo hi i ws := by
  induction ws generalizing i with
  | nil => trivial
  | cons w ws ih =>
    rw [List.length_cons] at hargv
    refine ⟨?_, ih h.2 fun k hk hk' ↦ hargv k (by omega) (by omega)⟩
    rw [hargv i (Nat.le_refl _) (by omega)]
    exact h.1

/-- What the outer loop leaves: the words, and NULs where they end. -/
structure Split (buf argc : ℕ) (str : List UInt8) (s t : Parse) : Prop where
  confined : Confined buf str.length s t
  earlier : ∀ i < argc, t.argv i = s.argv i
  cleared : (∀ ch ∈ str.head?, isSpace ch) → t.m buf = 0
  argvAt : argc + (words isSpace str).length < maxArgs →
    ArgvAt t.m t.argv buf (buf + str.length) argc (words isSpace str)

def count (argc : ℕ) (ws : List (List UInt8)) : Option ℕ :=
  if argc + ws.length < maxArgs then some (argc + ws.length) else none

theorem Confined.refl (buf n : ℕ) (s : Parse) : Confined buf n s s :=
  ⟨fun _ _ ↦ rfl, fun _ hx ↦ .inl hx, fun _ hi ↦ .inl hi⟩

theorem Split.nil (argc : ℕ) (h : s.m buf = 0) : Split buf argc [] s s :=
  ⟨.refl _ _ _, fun _ _ ↦ rfl, fun _ ↦ h, fun _ ↦ trivial⟩

theorem Split.tooMany (hne : str ≠ []) (hhead : ∀ ch ∈ str.head?, isSpace ch = false)
    (hargc : maxArgs ≤ argc + 1) : Split buf argc str s s where
  confined := .refl _ _ _
  earlier _ _ := rfl
  cleared hspace := by
    cases str with
    | nil => exact absurd rfl hne
    | cons ch str => exact Bool.noConfusion ((hhead ch rfl).symm.trans (hspace ch rfl))
  argvAt hlt := by
    rw [words_takeWhile hne hhead, List.length_cons] at hlt
    omega

theorem Inside.confined {n : ℕ} {reads : List ℕ} (h : Inside s.m buf (buf + n) (s.argv 0) name)
    (hreads : ∀ x ∈ reads, s.argv 0 ≤ x ∧ x ≤ s.argv 0 + name.length) :
    Confined buf n s (s.readName reads) := by
  have hlower := h.lower
  have hupper := h.upper
  refine ⟨fun _ _ ↦ rfl, fun x hx ↦ ?_, fun i hi ↦ ?_⟩
  · apply (List.mem_append.mp hx).imp_right
    intro hx
    have hx' := hreads x hx
    omega
  · apply (List.mem_append.mp hi).imp_right
    intro hi
    rw [List.mem_singleton.mp hi]
    decide

end StormOS.Monitor
