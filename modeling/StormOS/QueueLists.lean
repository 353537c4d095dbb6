import StormOS.Scheduler

namespace StormOS.ThreadQueue

open Library.LinkedQueue Library.Runs Machine Threads Function

def contents (s : State) (q : ℕ) : List ℕ :=
  trail (next s) maxProcs maxProcs (s.threadQueues q).head

def contentsBack (s : State) (q : ℕ) : List ℕ :=
  trail (prev s) maxProcs maxProcs (s.threadQueues q).tail

inductive Operation
  | enqueue (q t : ℕ)
  | dequeue (q : ℕ)
  | remove (q t : ℕ)

def perform (s : State) : Operation → State
  | .enqueue q t => tqEnqueue s q t
  | .dequeue q => (tqDequeue s q).1
  | .remove q t => tqRemove s q t

/-- A thread is in at most one queue: it is enqueued only when it is in none, and removed only
from the queue that it is in. -/
def queues : System State Operation where
  enabled s
    | .enqueue q t => q ≤ maxProcs ∧ t < maxProcs ∧ ∀ q' ≤ maxProcs, t ∉ contents s q'
    | .dequeue q => q ≤ maxProcs
    | .remove q t => q ≤ maxProcs ∧ t < maxProcs ∧ t ∈ contents s q
  step := perform

/-- The links of every queue spell out one finite list in both directions, and no thread is in
two of the lists. -/
structure SpellLists (s : State) : Prop where
  queue : ∀ q ≤ maxProcs, Queue s q (contents s q)
  back : ∀ q ≤ maxProcs, contentsBack s q = (contents s q).reverse
  disjoint : ∀ q ≤ maxProcs, ∀ q' ≤ maxProcs, q ≠ q' → (contents s q).Disjoint (contents s q')

/-- The operation does to the list of queue `q` what `l'` says, and nothing to the others. -/
def Becomes (s s' : State) (q : ℕ) (l' : List ℕ) : Prop :=
  contents s' q = l' ∧ ∀ q' ≤ maxProcs, q' ≠ q → contents s' q' = contents s q'

/-- The operations are those of first-in first-out lists. -/
def ServesInOrder (s : State) : Operation → Prop
  | .enqueue q t => Becomes s (tqEnqueue s q t) q (contents s q ++ [t])
  | .dequeue q =>
    match contents s q with
    | [] => tqDequeue s q = (s, maxProcs)
    | t :: l => (tqDequeue s q).2 = t ∧ Becomes s (tqDequeue s q).1 q l
  | .remove q t => Becomes s (tqRemove s q t) q ((contents s q).erase t)

variable {s s' : State} {q q' t : ℕ} {l l' : List ℕ}

theorem length_le_of_ids (hn : l.Nodup) (hids : ∀ i ∈ l, i < maxProcs) : l.length ≤ maxProcs := by
  have hsub : l ⊆ List.range maxProcs := fun i hi ↦ List.mem_range.mpr (hids i hi)
  have hlen := (hn.subperm hsub).length_le
  rwa [List.length_range] at hlen

theorem Queue.contents_eq (h : Queue s q l) : contents s q = l := by
  rw [contents, h.head]
  exact h.linked.trail_next (fun hm ↦ (h.ids _ hm).ne rfl) (length_le_of_ids h.nodup h.ids)

theorem Queue.contentsBack_eq (h : Queue s q l) : contentsBack s q = l.reverse := by
  rw [contentsBack, h.tail]
  exact h.linked.trail_prev (fun hm ↦ (h.ids _ hm).ne rfl) (length_le_of_ids h.nodup h.ids)

theorem Queue.frame (h : Queue s q' l') (he : s'.threadQueues q' = s.threadQueues q')
    (hl : ∀ i ∈ l', next s' i = next s i ∧ prev s' i = prev s i) : Queue s' q' l' :=
  ⟨by rw [he, h.head], by rw [he, h.tail],
    h.linked.congr (fun i hi ↦ (hl i hi).1) (fun i hi ↦ (hl i hi).2), h.nodup, h.ids⟩

theorem getLastD_mem {d : ℕ} (h : l.getLastD d ≠ d) : l.getLastD d ∈ l := by
  rcases List.eq_nil_or_concat l with rfl | ⟨l, a, rfl⟩
  · exact absurd rfl h
  · simp

theorem headD_mem {d : ℕ} (h : l.headD d ≠ d) : l.headD d ∈ l := by
  cases l with
  | nil => exact absurd rfl h
  | cons a l => simp

def SameLinks (s s' : State) (i : ℕ) : Prop := next s' i = next s i ∧ prev s' i = prev s i

section Links

variable {i : ℕ} (hi : i ∉ l)

include hi

/-- An operation on a queue writes the links of its threads only, and of the thread that enters
it. -/
theorem Queue.enqueue_links (h : Queue s q l) (hit : i ≠ t) : SameLinks s (tqEnqueue s q t) i := by
  unfold tqEnqueue SameLinks
  dsimp only
  split
  · simp [hit]
  · rename_i htail
    rw [h.tail] at htail
    have hit' : i ≠ l.getLastD maxProcs := fun he ↦ hi (he ▸ getLastD_mem htail)
    rw [← h.tail] at hit'
    simp [hit, hit']

theorem Queue.dequeue_links (h : Queue s q l) : SameLinks s (tqDequeue s q).1 i := by
  unfold tqDequeue SameLinks
  dsimp only
  split
  · rename_i hhead
    rw [h.head] at hhead ⊢
    have hih : i ≠ l.headD maxProcs := fun he ↦ hi (he ▸ headD_mem hhead)
    cases l with
    | nil => exact absurd rfl hhead
    | cons a l =>
      have hnext : (s.tcbs a).next = l.headD maxProcs := h.linked.2.1
      rw [List.headD_cons] at hih ⊢
      rw [hnext]
      split
      · simp [hih]
      · rename_i hn
        have hin : i ≠ l.headD maxProcs :=
          fun he ↦ hi (List.mem_cons_of_mem a (he ▸ headD_mem hn))
        simp only [next_setPrev, next_setHead, next_setNext, prev_setPrev, prev_setHead,
          prev_setNext]
        exact ⟨update_of_ne hih _ _, update_of_ne hin _ _⟩
  · exact ⟨rfl, rfl⟩

theorem Queue.remove_links (h : Queue s q l) (ht : t ∈ l) : SameLinks s (tqRemove s q t) i := by
  obtain ⟨m, m', rfl⟩ := List.append_of_mem ht
  obtain ⟨_, hprev, hnext, _⟩ := segment_append.mp h.linked
  have hit : i ≠ t := fun he ↦ hi (he ▸ ht)
  simp only [List.mem_append, List.mem_cons, not_or] at hi
  have hp : (s.tcbs t).prev = m.getLastD maxProcs := hprev
  have hn : (s.tcbs t).next = m'.headD maxProcs := hnext
  have hip : m.getLastD maxProcs ≠ maxProcs → i ≠ m.getLastD maxProcs :=
    fun hne he ↦ hi.1 (he ▸ getLastD_mem hne)
  have hin : m'.headD maxProcs ≠ maxProcs → i ≠ m'.headD maxProcs :=
    fun hne he ↦ hi.2.2 (he ▸ headD_mem hne)
  unfold tqRemove SameLinks
  dsimp only
  rw [hp, hn]
  by_cases hp' : m.getLastD maxProcs = maxProcs
  · rw [if_pos hp']
    by_cases hn' : m'.headD maxProcs = maxProcs
    · rw [if_pos hn']
      simp [hit]
    · rw [if_neg hn']
      simp only [next_setPrev, next_setHead, next_setNext, prev_setPrev, prev_setHead,
        prev_setNext]
      exact ⟨update_of_ne hit _ _, by rw [update_of_ne (hin hn'), update_of_ne hit]⟩
  · rw [if_neg hp']
    by_cases hn' : m'.headD maxProcs = maxProcs
    · rw [if_pos hn']
      simp only [next_setTail, next_setPrev, next_setNext, prev_setTail, prev_setPrev,
        prev_setNext]
      exact ⟨by rw [update_of_ne (hip hp'), update_of_ne hit], update_of_ne hit _ _⟩
    · rw [if_neg hn']
      simp only [next_setPrev, next_setNext, prev_setPrev, prev_setNext]
      exact ⟨by rw [update_of_ne (hip hp'), update_of_ne hit],
        by rw [update_of_ne (hin hn'), update_of_ne hit]⟩

end Links

/-- What it takes for an operation on queue `q` to keep the lists apart. -/
theorem SpellLists.becomes (h : SpellLists s) (hq : q ≤ maxProcs) (hq' : Queue s' q l')
    (hrel : Relinked q s s') (hlinks : ∀ i ∉ contents s q, i ≠ t → SameLinks s s' i)
    (hl' : ∀ i ∈ l', i ∈ contents s q ∨ i = t)
    (ht : ∀ q' ≤ maxProcs, q' ≠ q → t ∉ contents s q') : SpellLists s' ∧ Becomes s s' q l' := by
  have hother (p : ℕ) (hp : p ≤ maxProcs) (hne : p ≠ q) : Queue s' p (contents s p) := by
    refine (h.queue p hp).frame (hrel.queues p hne) fun i hi ↦ hlinks i ?_ ?_
    · exact h.disjoint p hp q hq hne hi
    · exact ne_of_mem_of_not_mem hi (ht p hp hne)
  have hown : contents s' q = l' := hq'.contents_eq
  have hkept (p : ℕ) (hp : p ≤ maxProcs) (hne : p ≠ q) : contents s' p = contents s p :=
    (hother p hp hne).contents_eq
  have hapart (p : ℕ) (hp : p ≤ maxProcs) (hne : p ≠ q) :
      (contents s' q).Disjoint (contents s' p) := by
    rw [hown, hkept p hp hne]
    intro i hi hip
    rcases hl' i hi with hi | rfl
    · exact h.disjoint p hp q hq hne hip hi
    · exact ht p hp hne hip
  have hqueue (p : ℕ) (hp : p ≤ maxProcs) : Queue s' p (contents s' p) := by
    by_cases hne : p = q
    · rwa [hne, hown]
    · rw [hkept p hp hne]
      exact hother p hp hne
  refine ⟨⟨hqueue, fun p hp ↦ (hqueue p hp).contentsBack_eq, ?_⟩, hown, hkept⟩
  intro p hp p' hp' hne
  by_cases hpq : p = q
  · subst hpq
    exact hapart p' hp' hne.symm
  · by_cases hpq' : p' = q
    · subst hpq'
      exact (hapart p hp hne).symm
    · rw [hkept p hp hpq, hkept p' hp' hpq']
      exact h.disjoint p hp p' hp' hne

theorem SpellLists.enqueue (h : SpellLists s) (he : queues.enabled s (.enqueue q t)) :
    SpellLists (tqEnqueue s q t) ∧ ServesInOrder s (.enqueue q t) := by
  obtain ⟨hq, ht, hnone⟩ := he
  have hqueue := h.queue q hq
  refine h.becomes hq (hqueue.enqueue (hnone q hq) ht) (tqEnqueue_relinked s q t)
    (fun i hi hit ↦ hqueue.enqueue_links hi hit) (fun i hi ↦ ?_) (fun p hp _ ↦ hnone p hp)
  simpa using hi

theorem SpellLists.dequeue (h : SpellLists s) (hq : q ≤ maxProcs) :
    SpellLists (tqDequeue s q).1 ∧ ServesInOrder s (.dequeue q) := by
  have hqueue := h.queue q hq
  simp only [ServesInOrder]
  cases hl : contents s q with
  | nil =>
    rw [hl] at hqueue
    have hhead : (s.threadQueues q).head = maxProcs := hqueue.head
    have hs : tqDequeue s q = (s, maxProcs) := by rw [tqDequeue, hhead, if_neg (by simp)]
    rw [hs]
    exact ⟨h, rfl⟩
  | cons a l =>
    have hmem : a ∈ contents s q := by simp [hl]
    have hout (p : ℕ) (hp : p ≤ maxProcs) (hne : p ≠ q) : a ∉ contents s p :=
      h.disjoint q hq p hp hne.symm hmem
    have hlinks (i : ℕ) (hi : i ∉ contents s q) (_ : i ≠ a) := hqueue.dequeue_links hi
    rw [hl] at hqueue
    obtain ⟨hq', ha⟩ := hqueue.dequeue
    obtain ⟨hs, hb⟩ := h.becomes hq hq' (tqDequeue_relinked s q) hlinks
      (fun i hi ↦ .inl (by rw [hl]; exact List.mem_cons_of_mem a hi)) hout
    exact ⟨hs, ha, hb⟩

theorem SpellLists.remove (h : SpellLists s) (he : queues.enabled s (.remove q t)) :
    SpellLists (tqRemove s q t) ∧ ServesInOrder s (.remove q t) := by
  obtain ⟨hq, _, ht⟩ := he
  have hqueue := h.queue q hq
  have hout (p : ℕ) (hp : p ≤ maxProcs) (hne : p ≠ q) : t ∉ contents s p :=
    h.disjoint q hq p hp hne.symm ht
  obtain ⟨m, m', hl⟩ := List.append_of_mem ht
  have htm : t ∉ m := by
    have hn := hqueue.nodup
    rw [hl, List.nodup_append] at hn
    exact fun hm ↦ hn.2.2 t hm t (by simp) rfl
  have herase : (contents s q).erase t = m ++ m' := by
    rw [hl, List.erase_append_right _ htm, List.erase_cons_head]
  have hq' : Queue (tqRemove s q t) q (m ++ m') := by
    rw [hl] at hqueue
    exact hqueue.remove
  simp only [ServesInOrder, herase]
  refine h.becomes hq hq' (tqRemove_relinked s q t)
    (fun i hi _ ↦ hqueue.remove_links hi ht) (fun i hi ↦ .inl ?_) hout
  rw [← herase] at hi
  exact List.mem_of_mem_erase hi

theorem SpellLists.step (h : SpellLists s) {a : Operation} (he : queues.enabled s a) :
    SpellLists (queues.step s a) ∧ ServesInOrder s a := by
  cases a with
  | enqueue q t => exact h.enqueue he
  | dequeue q => exact h.dequeue he
  | remove q t => exact h.remove he

theorem threadInit_spellLists (s : State) : SpellLists (threadInit s) := by
  have hq (q : ℕ) (hq : q ≤ maxProcs) : Queue (threadInit s) q [] := by
    have hends := (Scheduler.threadInit_spec s).2.2 q (Nat.lt_succ_of_le hq)
    exact ⟨by rw [hends]; rfl, by rw [hends]; rfl, trivial, List.nodup_nil, by simp⟩
  refine ⟨fun q hle ↦ ?_, fun q hle ↦ ?_, fun q hle q' hle' _ ↦ ?_⟩
  · rw [(hq q hle).contents_eq]
    exact hq q hle
  · rw [(hq q hle).contentsBack_eq, (hq q hle).contents_eq]
  · rw [(hq q hle).contents_eq]
    exact List.disjoint_nil_left _

/-- The queues are first-in first-out lists in every run that keeps to the rule that a thread is
in at most one queue. -/
theorem queues_fifo (s : State) (run : List Operation) (hlegal : queues.Legal (threadInit s) run) :
    queues.Throughout SpellLists (threadInit s) run ∧
      queues.Along ServesInOrder (threadInit s) run :=
  ⟨hlegal.throughout (threadInit_spellLists s) fun _ _ h he ↦ (h.step he).1,
    hlegal.along (threadInit_spellLists s) (fun _ _ h he ↦ (h.step he).1)
      fun _ _ h he ↦ (h.step he).2⟩

instance (s : State) (a : Operation) : Decidable (queues.enabled s a) :=
  match a with
  | .enqueue q t => inferInstanceAs
      (Decidable (q ≤ maxProcs ∧ t < maxProcs ∧ ∀ q' ≤ maxProcs, t ∉ contents s q'))
  | .dequeue q => inferInstanceAs (Decidable (q ≤ maxProcs))
  | .remove q t => inferInstanceAs (Decidable (q ≤ maxProcs ∧ t < maxProcs ∧ t ∈ contents s q))

abbrev sampleRun : List Operation := [.enqueue 64 1, .enqueue 64 2, .remove 64 1, .dequeue 64]

theorem queues_fifo_sampleRun :
    queues.Throughout SpellLists (threadInit (loaded 0)) sampleRun ∧
      queues.Along ServesInOrder (threadInit (loaded 0)) sampleRun :=
  queues_fifo (loaded 0) sampleRun (by decide +kernel)

end StormOS.ThreadQueue
