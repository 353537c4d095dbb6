import StormOS.InterruptWindow
import Mathlib.Data.Prod.Lex
import Mathlib.Logic.Relation

namespace StormOS.ProcessStart

open Library.Runs Machine Interrupt Syscall Elf Threads Trap Function

abbrev Reaches (call : Call) : Config → Config → Prop :=
  Relation.ReflTransGen fun c c' ↦ next call c = some c'

/-- Every statement comes closer to user mode, by its place in the source, the program headers
that are left, and the pages or the fields that are left. -/
def Pc.rank : Pc → ℕ ×ₗ ℕ ×ₗ ℕ
  | .containerSplit => toLex (16, toLex (0, 0))
  | .setEip => toLex (15, toLex (0, 0))
  | .setEsp => toLex (14, toLex (0, 0))
  | .setReady => toLex (13, toLex (0, 0))
  | .enqueue => toLex (12, toLex (0, 0))
  | .elfLoad => toLex (11, toLex (0, 0))
  | .segment ph eph => toLex (10, toLex (2 * (eph - ph), 0))
  | .page ph eph _ _ eva va _ => toLex (10, toLex (2 * (eph - (ph + proghdrSize)) + 1, eva - va))
  | .fields fs => toLex (9, toLex (0, fs.length))
  | .saveCurrent => toLex (8, toLex (0, 0))
  | .remove => toLex (7, toLex (0, 0))
  | .setRun => toLex (6, toLex (0, 0))
  | .setCurrent => toLex (5, toLex (0, 0))
  | .contextSwitch => toLex (4, toLex (0, 0))
  | .switchTSS => toLex (3, toLex (0, 0))
  | .setPageDirectory => toLex (2, toLex (0, 0))
  | .trapReturn => toLex (1, toLex (0, 0))
  | .user _ => toLex (0, toLex (0, 0))
  | .elsewhere => toLex (0, toLex (0, 0))

/-- What `ForceRunProcess` relies on: the kernel context of the process that is created starts
at `ProcessStartUser`, and is not the one that `ContextSwitch` saves to. -/
def Prepared (call : Call) (c : Config) : Prop :=
  let entry := (c.processor.threads.kernelContexts c.pid).eip = call.processStartUser
  match c.pc with
  | .containerSplit => True
  | .setEip => True
  | .remove => entry ∧ c.curid ≠ c.pid
  | .setRun => entry ∧ c.curid ≠ c.pid
  | .setCurrent => entry ∧ c.curid ≠ c.pid
  | .contextSwitch => entry ∧ c.curid ≠ c.pid
  | .switchTSS => True
  | .setPageDirectory => True
  | .trapReturn => True
  | .user _ => True
  | .elsewhere => False
  | _ => entry

variable {b : Buffers} {call : Call} {c c' : Config} {a : Event} {f : TrapFrame}
  {run : List Event}

theorem rank_lt_of_fst {n m : ℕ} {x y : ℕ ×ₗ ℕ} (h : n < m) :
    (toLex (n, x) : ℕ ×ₗ ℕ ×ₗ ℕ) < toLex (m, y) :=
  Prod.Lex.toLex_lt_toLex.mpr (.inl h)

theorem rank_lt_of_snd {n m m' k k' : ℕ} (h : m < m') :
    (toLex (n, toLex (m, k)) : ℕ ×ₗ ℕ ×ₗ ℕ) < toLex (n, toLex (m', k')) :=
  Prod.Lex.toLex_lt_toLex.mpr (.inr ⟨rfl, Prod.Lex.toLex_lt_toLex.mpr (.inl h)⟩)

theorem rank_lt_of_thd {n m k k' : ℕ} (h : k < k') :
    (toLex (n, toLex (m, k)) : ℕ ×ₗ ℕ ×ₗ ℕ) < toLex (n, toLex (m, k')) :=
  Prod.Lex.toLex_lt_toLex.mpr (.inr ⟨rfl, Prod.Lex.toLex_lt_toLex.mpr (.inr ⟨rfl, h⟩)⟩)

theorem rank_next (hn : next call c = some c') : c'.pc.rank < c.pc.rank := by
  obtain ⟨p, pid, curid, pc⟩ := c
  cases pc with
  | elfLoad =>
    obtain ⟨_, rfl⟩ := next_elfLoad hn
    exact rank_lt_of_fst (by decide)
  | segment ph eph =>
    obtain ⟨hlt, _, rfl⟩ | ⟨hlt, _, rfl⟩ | ⟨_, rfl⟩ := next_segment hn
    · exact rank_lt_of_snd (by simp only [proghdrSize]; omega)
    · exact rank_lt_of_snd (by simp only [proghdrSize]; omega)
    · exact rank_lt_of_fst (by decide)
  | page ph eph perm zva eva va fa =>
    obtain ⟨hlt, vm, _, rfl⟩ | ⟨_, rfl⟩ := next_page hn
    · exact rank_lt_of_thd (by simp only [pageSize]; omega)
    · exact rank_lt_of_snd (by omega)
  | fields fs =>
    obtain ⟨rfl, rfl⟩ | ⟨f, rest, tf, rfl, _, rfl⟩ := next_fields hn
    · exact rank_lt_of_fst (by decide)
    · exact rank_lt_of_thd (Nat.lt_succ_self _)
  | contextSwitch =>
    obtain rfl := Option.some.inj hn
    dsimp only [Config.goTo]
    split
    · exact rank_lt_of_fst (by decide)
    · exact rank_lt_of_fst (by decide)
  | user tf => cases hn
  | elsewhere => cases hn
  | _ =>
    obtain rfl := Option.some.inj hn
    exact rank_lt_of_fst (by decide)

theorem Prepared.next (h : Prepared call c) (hn : next call c = some c')
    (hpid : c.pc = .saveCurrent → c.pid ≠ c.processor.threads.currentID) : Prepared call c' := by
  obtain ⟨p, pid, curid, pc⟩ := c
  cases pc with
  | setEip =>
    obtain rfl := Option.some.inj hn
    change (update p.threads.kernelContexts pid _ pid).eip = call.processStartUser
    rw [update_self]
  | setEsp =>
    obtain rfl := Option.some.inj hn
    change (update p.threads.kernelContexts pid _ pid).eip = call.processStartUser
    rw [update_self]
    exact h
  | enqueue =>
    obtain rfl := Option.some.inj hn
    have hrel := ThreadQueue.tqEnqueue_relinked p.threads maxProcs pid
    exact (congrArg (fun k : ℕ → KernelContext ↦ (k pid).eip) hrel.kernel).trans h
  | elfLoad =>
    obtain ⟨_, rfl⟩ := next_elfLoad hn
    exact h
  | segment ph eph => obtain ⟨_, _, rfl⟩ | ⟨_, _, rfl⟩ | ⟨_, rfl⟩ := next_segment hn <;> exact h
  | page ph eph perm zva eva va fa =>
    obtain ⟨_, vm, _, rfl⟩ | ⟨_, rfl⟩ := next_page hn <;> exact h
  | fields fs => obtain ⟨rfl, rfl⟩ | ⟨f, rest, tf, rfl, _, rfl⟩ := next_fields hn <;> exact h
  | saveCurrent =>
    obtain rfl := Option.some.inj hn
    exact ⟨h, (hpid rfl).symm⟩
  | remove =>
    obtain rfl := Option.some.inj hn
    have hrel := ThreadQueue.tqRemove_relinked p.threads maxProcs pid
    exact ⟨(congrArg (fun k : ℕ → KernelContext ↦ (k pid).eip) hrel.kernel).trans h.1, h.2⟩
  | contextSwitch =>
    obtain ⟨hentry, hne⟩ := h
    obtain rfl := Option.some.inj hn
    have heip : (Threads.contextSwitch p.threads.kernelContexts curid pid call.live).2.eip =
        call.processStartUser := by
      change (update p.threads.kernelContexts curid call.live pid).eip = _
      rwa [update_of_ne hne.symm]
    simp only [Config.goTo, if_pos heip]
    trivial
  | user tf => cases hn
  | elsewhere => cases hn
  | _ =>
    obtain rfl := Option.some.inj hn
    exact h

theorem Creating.isSome (h : Creating call (some f) c) : (ProcessStart.next call c).isSome := by
  obtain ⟨vm, hvm, hassign⟩ := Option.bind_eq_some_iff.mp h.building
  obtain ⟨p, pid, curid, pc⟩ := c
  cases pc with
  | elfLoad =>
    obtain ⟨hmagic, hndx, htype⟩ := accepted_of_elfLoad hvm
    simp only [ProcessStart.next]
    rw [if_neg (not_not.mpr hmagic), if_neg hndx, if_neg (not_not.mpr htype)]
    rfl
  | segment ph eph =>
    simp only [ProcessStart.next]
    split
    · split
      · rfl
      · rfl
    · rfl
  | page ph eph perm zva eva va fa =>
    simp only [ProcessStart.next]
    split
    · rename_i hlt
      rw [memoryToCome_page, loadPages, if_pos hlt, Option.bind_assoc] at hvm
      obtain ⟨vm', hvm', _⟩ := Option.bind_eq_some_iff.mp hvm
      rw [hvm']
      rfl
    · rfl
  | fields fs =>
    cases fs with
    | nil => rfl
    | cons g fs =>
      obtain rfl := Option.some.inj hvm
      have hcons : (g.assign p.kernel.vm.memory call.elfAddr (p.threads.userContexts pid)).bind
          (assignAll p.kernel.vm.memory call.elfAddr fs) = some f := hassign
      obtain ⟨tf, htf, _⟩ := Option.bind_eq_some_iff.mp hcons
      simp only [ProcessStart.next, htf]
      rfl
  | contextSwitch | switchTSS | setPageDirectory | trapReturn | user | elsewhere => cases h.phase
  | _ => rfl

theorem isSome_of_handOver (h : c.pc.phase = .handOver) : (next call c).isSome := by
  obtain ⟨p, pid, curid, pc⟩ := c
  cases pc with
  | contextSwitch | switchTSS | setPageDirectory | trapReturn => rfl
  | _ => cases h

/-- `CreateProcess` is bound to return, or has returned, and the process to be entered. -/
structure Underway (call : Call) (f : TrapFrame) (c : Config) : Prop where
  phase : Creating call (some f) c ∨ Enters (fun _ ↦ True) c
  prepared : Prepared call c

theorem Underway.next (h : Underway call f c) (hn : ProcessStart.next call c = some c') :
    Underway call f c' := by
  constructor
  · rcases h.phase with hc | he
    · exact (hc.next hn).imp_right fun he ↦ he.mono fun _ _ ↦ trivial
    · exact .inr (he.next hn)
  · apply h.prepared.next hn
    intro hpc
    obtain ⟨p, pid, curid, pc⟩ := c
    obtain rfl : pc = .saveCurrent := hpc
    rcases h.phase with hc | he
    · exact hc.child
    · cases he with
      | handOver hphase => cases hphase
      | user tf hpc => cases hpc
      | elsewhere hpc => cases hpc

theorem Underway.step (h : Underway call f c) (ha : (path b call).enabled c a) :
    Underway call f ((path b call).step c a) := by
  cases a with
  | step =>
    obtain ⟨c', hc'⟩ := Option.isSome_iff_exists.mp ha
    rw [path_step_next hc']
    exact h.next hc'
  | interrupt e tf =>
    have hstep : interrupted b e c tf = some ((path b call).step c (.interrupt e tf)) :=
      path_step_interrupt ha.2.1
    constructor
    · rcases h.phase with hc | he
      · exact .inl (hc.interrupted ha.2.1 hstep)
      · exact .inr (he.interrupted ha.1 ha.2.1 trivial hstep)
    · obtain ⟨n, hn⟩ := interrupted_eq ha.2.1 b e c
      rw [← Option.some.inj (hn.symm.trans hstep)]
      exact h.prepared

theorem Underway.reaches (h : Underway call f c) :
    ∃ c' tf, Reaches call c c' ∧ c'.pc = .user tf := by
  obtain ⟨r, hr⟩ : ∃ r, c.pc.rank = r := ⟨_, rfl⟩
  induction r using WellFoundedLT.induction generalizing c with
  | ind r ih =>
    have hnext (hsome : (ProcessStart.next call c).isSome) :
        ∃ c' tf, Reaches call c c' ∧ c'.pc = .user tf := by
      obtain ⟨c₁, hc₁⟩ := Option.isSome_iff_exists.mp hsome
      obtain ⟨c', tf, hreach, hpc⟩ := ih c₁.pc.rank (hr ▸ rank_next hc₁) (h.next hc₁) rfl
      exact ⟨c', tf, .head hc₁ hreach, hpc⟩
    rcases h.phase with hc | he
    · exact hnext hc.isSome
    · cases he with
      | handOver hphase => exact hnext (isSome_of_handOver hphase)
      | user tf hpc => exact ⟨c, tf, .refl, hpc⟩
      | elsewhere hpc =>
        have hprep := h.prepared
        simp only [Prepared, hpc] at hprep

theorem legal_of_reaches (h : Reaches call c c') : ∃ n,
    (path b call).Legal c (List.replicate n .step) ∧
      (path b call).final c (List.replicate n .step) = c' := by
  induction h using Relation.ReflTransGen.head_induction_on with
  | refl => exact ⟨0, trivial, rfl⟩
  | head hn _ ih =>
    obtain ⟨n, hlegal, hfinal⟩ := ih
    refine ⟨n + 1, ⟨?_, ?_⟩, ?_⟩
    · exact Option.isSome_iff_exists.mpr ⟨_, hn⟩
    · rw [path_step_next hn]
      exact hlegal
    · change (path b call).final ((path b call).step _ .step) _ = _
      rw [path_step_next hn]
      exact hfinal

/-- Interrupts do not keep the path from its end: it can always be finished. -/
theorem trapReturn_reached (h : Underway call f c) (hlegal : (path b call).Legal c run) :
    ∃ n tf, (path b call).Legal c (run ++ List.replicate n .step) ∧
      ((path b call).final c (run ++ List.replicate n .step)).pc = .user tf := by
  have hunderway := hlegal.final h fun _ _ h ha ↦ h.step ha
  obtain ⟨c', tf, hreach, hpc⟩ := hunderway.reaches
  obtain ⟨n, hn, hfinal⟩ := legal_of_reaches (b := b) hreach
  refine ⟨n, tf, System.along_append.mpr ⟨hlegal, hn⟩, ?_⟩
  rw [System.final, List.foldl_append]
  change ((path b call).final ((path b call).final c run) _).pc = _
  rw [hfinal, hpc]

end StormOS.ProcessStart
