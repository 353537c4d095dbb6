import StormOS.Library.LinkedQueue
import StormOS.Threads

namespace StormOS.ThreadQueue

open Library.LinkedQueue Machine Threads Function

def next (s : State) (i : ℕ) : ℕ := (s.tcbs i).next

def prev (s : State) (i : ℕ) : ℕ := (s.tcbs i).prev

def stateOf (s : State) (i : ℕ) : ThreadState := (s.tcbs i).state

/-- Queue `q` holds the threads of `l`, in order. -/
structure Queue (s : State) (q : ℕ) (l : List ℕ) : Prop where
  head : (s.threadQueues q).head = l.headD maxProcs
  tail : (s.threadQueues q).tail = l.getLastD maxProcs
  linked : Segment (next s) (prev s) maxProcs l maxProcs
  nodup : l.Nodup
  ids : ∀ i ∈ l, i < maxProcs

section Fields

variable (s : State) (i v : ℕ) (st : ThreadState)

@[simp] theorem next_setNext : next (setNext s i v) = update (next s) i v := by
  funext j
  by_cases h : j = i
  · simp [next, setNext, h]
  · simp [next, setNext, h]

@[simp] theorem next_setPrev : next (setPrev s i v) = next s := by
  funext j
  by_cases h : j = i
  · simp [next, setPrev, h]
  · simp [next, setPrev, h]

@[simp] theorem next_setState : next (setState s i st) = next s := by
  funext j
  by_cases h : j = i
  · simp [next, setState, h]
  · simp [next, setState, h]

@[simp] theorem prev_setPrev : prev (setPrev s i v) = update (prev s) i v := by
  funext j
  by_cases h : j = i
  · simp [prev, setPrev, h]
  · simp [prev, setPrev, h]

@[simp] theorem prev_setNext : prev (setNext s i v) = prev s := by
  funext j
  by_cases h : j = i
  · simp [prev, setNext, h]
  · simp [prev, setNext, h]

@[simp] theorem prev_setState : prev (setState s i st) = prev s := by
  funext j
  by_cases h : j = i
  · simp [prev, setState, h]
  · simp [prev, setState, h]

@[simp] theorem stateOf_setState : stateOf (setState s i st) = update (stateOf s) i st := by
  funext j
  by_cases h : j = i
  · simp [stateOf, setState, h]
  · simp [stateOf, setState, h]

@[simp] theorem stateOf_setNext : stateOf (setNext s i v) = stateOf s := by
  funext j
  by_cases h : j = i
  · simp [stateOf, setNext, h]
  · simp [stateOf, setNext, h]

@[simp] theorem stateOf_setPrev : stateOf (setPrev s i v) = stateOf s := by
  funext j
  by_cases h : j = i
  · simp [stateOf, setPrev, h]
  · simp [stateOf, setPrev, h]

@[simp] theorem next_setHead : next (setHead s i v) = next s := rfl

@[simp] theorem next_setTail : next (setTail s i v) = next s := rfl

@[simp] theorem prev_setHead : prev (setHead s i v) = prev s := rfl

@[simp] theorem prev_setTail : prev (setTail s i v) = prev s := rfl

@[simp] theorem threadQueues_setHead : (setHead s i v).threadQueues =
    update s.threadQueues i { s.threadQueues i with head := v } := rfl

@[simp] theorem threadQueues_setTail : (setTail s i v).threadQueues =
    update s.threadQueues i { s.threadQueues i with tail := v } := rfl

@[simp] theorem threadQueues_setNext : (setNext s i v).threadQueues = s.threadQueues := rfl

@[simp] theorem threadQueues_setPrev : (setPrev s i v).threadQueues = s.threadQueues := rfl

@[simp] theorem threadQueues_setState : (setState s i st).threadQueues = s.threadQueues := rfl

end Fields

/-- The difference between the states is confined to links and to the ends of queue `q`. -/
structure Relinked (q : ℕ) (s s' : State) : Prop where
  states : stateOf s' = stateOf s
  queues : ∀ q', q' ≠ q → s'.threadQueues q' = s.threadQueues q'
  current : s'.currentID = s.currentID
  kernel : s'.kernelContexts = s.kernelContexts
  user : s'.userContexts = s.userContexts
  stackBase : s'.procStacks = s.procStacks

variable {s s' s'' : State} {q a : ℕ} {l l' : List ℕ}

theorem Relinked.trans (h : Relinked q s s') (h' : Relinked q s' s'') : Relinked q s s'' where
  states := h'.states.trans h.states
  queues q' hq := (h'.queues q' hq).trans (h.queues q' hq)
  current := h'.current.trans h.current
  kernel := h'.kernel.trans h.kernel
  user := h'.user.trans h.user
  stackBase := h'.stackBase.trans h.stackBase

theorem relinked_setNext (s : State) (q i v : ℕ) : Relinked q s (setNext s i v) :=
  ⟨by simp, fun _ _ ↦ rfl, rfl, rfl, rfl, rfl⟩

theorem relinked_setPrev (s : State) (q i v : ℕ) : Relinked q s (setPrev s i v) :=
  ⟨by simp, fun _ _ ↦ rfl, rfl, rfl, rfl, rfl⟩

theorem relinked_setHead (s : State) (q v : ℕ) : Relinked q s (setHead s q v) :=
  ⟨rfl, fun q' hq ↦ by simp [hq], rfl, rfl, rfl, rfl⟩

theorem relinked_setTail (s : State) (q v : ℕ) : Relinked q s (setTail s q v) :=
  ⟨rfl, fun q' hq ↦ by simp [hq], rfl, rfl, rfl, rfl⟩

theorem tqEnqueue_relinked (s : State) (q a : ℕ) : Relinked q s (tqEnqueue s q a) := by
  unfold tqEnqueue
  dsimp only
  split
  · exact (((relinked_setHead s q a).trans (relinked_setTail _ q a)).trans
      (relinked_setNext _ q a _)).trans (relinked_setPrev _ q a _)
  · exact (((relinked_setNext s q _ a).trans (relinked_setPrev _ q a _)).trans
      (relinked_setNext _ q a _)).trans (relinked_setTail _ q a)

theorem tqDequeue_relinked (s : State) (q : ℕ) : Relinked q s (tqDequeue s q).1 := by
  unfold tqDequeue
  dsimp only
  split
  · have h := (relinked_setNext s q (s.threadQueues q).head maxProcs).trans
      (relinked_setHead _ q (s.tcbs (s.threadQueues q).head).next)
    dsimp only
    split
    · exact h.trans (relinked_setTail _ q _)
    · exact h.trans (relinked_setPrev _ q _ _)
  · exact ⟨rfl, fun _ _ ↦ rfl, rfl, rfl, rfl, rfl⟩

theorem tqRemove_relinked (s : State) (q a : ℕ) : Relinked q s (tqRemove s q a) := by
  have h := (relinked_setPrev s q a maxProcs).trans (relinked_setNext _ q a maxProcs)
  have hfirst (s' : State) (h' : Relinked q s s') :
      Relinked q s (if (s.tcbs a).prev = maxProcs then setHead s' q (s.tcbs a).next
        else setNext s' (s.tcbs a).prev (s.tcbs a).next) := by
    split
    · exact h'.trans (relinked_setHead _ q _)
    · exact h'.trans (relinked_setNext _ q _ _)
  unfold tqRemove
  dsimp only
  by_cases hn : (s.tcbs a).next = maxProcs
  · rw [if_pos hn]
    exact (hfirst _ h).trans (relinked_setTail _ q _)
  · rw [if_neg hn]
    exact (hfirst _ h).trans (relinked_setPrev _ q _ _)

theorem Queue.setState (h : Queue s q l) (i : ℕ) (st : ThreadState) :
    Queue (setState s i st) q l :=
  ⟨h.head, h.tail, by simpa using h.linked, h.nodup, h.ids⟩

theorem Queue.nil_of_eq (h : Queue s q []) (he : s'.threadQueues q = s.threadQueues q) :
    Queue s' q [] :=
  ⟨by rw [he, h.head], by rw [he, h.tail], trivial, List.nodup_nil, by simp⟩

theorem Queue.unique (h : Queue s q l) (h' : Queue s q l') : l = l' :=
  h.linked.unique h'.linked (fun hm ↦ (h.ids _ hm).ne rfl) (fun hm ↦ (h'.ids _ hm).ne rfl)
    (h.head.symm.trans h'.head)

theorem Queue.enqueue (h : Queue s q l) (ha : a ∉ l) (hlt : a < maxProcs) :
    Queue (tqEnqueue s q a) q (l ++ [a]) := by
  have hids : ∀ i ∈ l ++ [a], i < maxProcs := by
    intro i hi
    rcases List.mem_append.mp hi with hi | hi
    · exact h.ids i hi
    · rwa [List.mem_singleton.mp hi]
  have hnodup : (l ++ [a]).Nodup := by
    rw [List.nodup_append]
    exact ⟨h.nodup, List.nodup_singleton a,
      fun x hx y hy ↦ by rw [List.mem_singleton.mp hy]; exact ne_of_mem_of_not_mem hx ha⟩
  rcases List.eq_nil_or_concat l with rfl | ⟨l, t, rfl⟩
  · have ht : (s.threadQueues q).tail = maxProcs := h.tail
    rw [tqEnqueue, if_pos ht]
    exact ⟨by simp, by simp, by simp [Segment], hnodup, hids⟩
  · have ht : (s.threadQueues q).tail = t := by simpa using h.tail
    have htl := (h.ids t (by simp)).ne
    have htn : t ∉ l := by
      have hn := h.nodup
      simp only [List.concat_eq_append, List.nodup_append] at hn
      exact fun hm ↦ hn.2.2 t hm t (by simp) rfl
    rw [tqEnqueue, ht, if_neg htl]
    refine ⟨?_, by simp, ?_, hnodup, hids⟩
    · have hh := h.head
      cases l with
      | nil => simpa using hh
      | cons b l => simpa using hh
    · have hl := h.linked
      rw [List.concat_eq_append] at hl ha
      simp only [next_setTail, next_setNext, next_setPrev, prev_setTail, prev_setNext,
        prev_setPrev, List.concat_eq_append]
      rw [segment_append]
      exact ⟨((hl.relink_after htn a).update_next ha _).update_prev ha _, by simp, by simp,
        trivial⟩

theorem Queue.dequeue (h : Queue s q (a :: l)) :
    Queue (tqDequeue s q).1 q l ∧ (tqDequeue s q).2 = a := by
  have hhead : (s.threadQueues q).head = a := h.head
  have hne : a ≠ maxProcs := (h.ids a (by simp)).ne
  obtain ⟨hal, hl⟩ := List.nodup_cons.mp h.nodup
  have hnext : (s.tcbs a).next = l.headD maxProcs := h.linked.2.1
  have hids : ∀ i ∈ l, i < maxProcs := fun i hi ↦ h.ids i (List.mem_cons_of_mem a hi)
  have hseg : Segment (update (next s) a maxProcs) (prev s) a l maxProcs :=
    h.linked.2.2.update_next hal _
  rw [tqDequeue, hhead, if_pos hne, hnext]
  refine ⟨?_, rfl⟩
  dsimp only
  cases l with
  | nil => exact ⟨by simp, by simp, trivial, hl, hids⟩
  | cons b l =>
    have hb : b ≠ maxProcs := (hids b (by simp)).ne
    simp only [List.headD_cons, hb, if_false]
    refine ⟨by simp, ?_, ?_, hl, hids⟩
    · have ht := h.tail
      simpa using ht
    · simp only [next_setPrev, next_setHead, next_setNext, prev_setPrev, prev_setHead,
        prev_setNext]
      exact hseg.relink_before (List.nodup_cons.mp hl).1 _

/-- `TQRemove` splices a thread out wherever it stands. -/
theorem Queue.remove (h : Queue s q (l ++ a :: l')) : Queue (tqRemove s q a) q (l ++ l') := by
  obtain ⟨hfirst, hprev, hnext, hlast⟩ := segment_append.mp h.linked
  obtain ⟨hnl, hnal', hdisj⟩ := List.nodup_append.mp h.nodup
  obtain ⟨hal', hnl'⟩ := List.nodup_cons.mp hnal'
  have hal : a ∉ l := fun hm ↦ hdisj a hm a (by simp) rfl
  have hids : ∀ i ∈ l ++ l', i < maxProcs := by
    intro i hi
    apply h.ids i
    simp only [List.mem_append, List.mem_cons] at hi ⊢
    tauto
  have hnodup : (l ++ l').Nodup :=
    List.nodup_append.mpr ⟨hnl, hnl', fun x hx y hy ↦ hdisj x hx y (List.mem_cons_of_mem a hy)⟩
  have hp : (s.tcbs a).prev = l.getLastD maxProcs := hprev
  have hn : (s.tcbs a).next = l'.headD maxProcs := hnext
  -- what the two cuts leave of the links before and behind the thread
  have hfirst' : Segment (update (next s) a maxProcs) (update (prev s) a maxProcs) maxProcs l a :=
    (hfirst.update_next hal _).update_prev hal _
  have hlast' : Segment (update (next s) a maxProcs) (update (prev s) a maxProcs) a l' maxProcs :=
    (hlast.update_next hal' _).update_prev hal' _
  have hhead := h.head
  have htail := h.tail
  rcases List.eq_nil_or_concat l with rfl | ⟨m, t, rfl⟩
  · have hp' : (s.tcbs a).prev = maxProcs := hp
    cases l' with
    | nil =>
      rw [tqRemove, hp', hn]
      exact ⟨by simp, by simp, trivial, hnodup, hids⟩
    | cons b l' =>
      have hb : b ≠ maxProcs := (hids b (by simp)).ne
      have hn' : (s.tcbs a).next = b := hn
      simp only [tqRemove, hp', hn', if_true, hb, if_false]
      refine ⟨by simp, by simpa using htail, ?_, hnodup, hids⟩
      simp only [next_setPrev, next_setHead, next_setNext, prev_setPrev, prev_setHead,
        prev_setNext]
      exact hlast'.relink_before (List.nodup_cons.mp hnl').1 _
  · rw [List.concat_eq_append] at *
    have ht : t ≠ maxProcs := (hids t (by simp)).ne
    have htm : t ∉ m := fun hm ↦ (List.nodup_append.mp hnl).2.2 t hm t (by simp) rfl
    have hp' : (s.tcbs a).prev = t := by simpa using hp
    have hfront (rest : List ℕ) : (m ++ [t] ++ rest).headD maxProcs = (m ++ [t]).headD a := by
      cases m with
      | nil => rfl
      | cons b m => rfl
    cases l' with
    | nil =>
      have hn' : (s.tcbs a).next = maxProcs := hn
      simp only [tqRemove, hp', hn', if_true, ht, if_false]
      refine ⟨?_, by simp, ?_, hnodup, hids⟩
      · rw [hfront, ← hfront [a], ← hhead]
        simp
      · simp only [next_setTail, next_setNext, next_setPrev, prev_setTail, prev_setNext,
          prev_setPrev, List.append_nil]
        exact hfirst'.relink_after htm _
    | cons b l' =>
      have hb : b ≠ maxProcs := (hids b (by simp)).ne
      have hn' : (s.tcbs a).next = b := hn
      have hbl : b ∉ m ++ [t] := fun hm ↦ hdisj b hm b (by simp) rfl
      have htl : t ∉ b :: l' := fun hm ↦ hdisj t (by simp) t (List.mem_cons_of_mem a hm) rfl
      simp only [tqRemove, hp', hn', ht, hb, if_false]
      refine ⟨?_, ?_, ?_, hnodup, hids⟩
      · rw [hfront, ← hfront (a :: b :: l'), ← hhead]
        simp
      · simpa using htail
      · simp only [next_setNext, next_setPrev, prev_setNext, prev_setPrev]
        rw [segment_append]
        refine ⟨(hfirst'.relink_after htm b).update_prev hbl _, ?_⟩
        rw [List.getLastD_concat]
        exact (hlast'.update_next htl _).relink_before (List.nodup_cons.mp hnl').1 _

end StormOS.ThreadQueue
