import QDesktopSearch.Lib.Machine
import QDesktopSearch.Model.Removal

/-!
# When `removeIndex` deadlocks

* `deadlocked_iff`: the deadlock is the worker in its emission under the wait loop, and it
  is for good (`deadlocked_forever`).
* `removal_deadlocks_iff`: it is reached exactly from calls that catch the worker between
  its last check before the emission and the reply.
* `removal_ends`: otherwise the worker stops by itself, after at most `rank` steps.
* `onQuit_progress`: `onQuit`, which processes events, does not deadlock.
-/

namespace QDesktopSearch

open Machine

namespace Position

variable {p : Position} {b : Bool}

/-- The worker will emit, or has emitted, with no check of the interruption before the reply. -/
def Committed (p : Position) : Prop := p = smallFile ∨ p = emitMeta ∨ p = awaiting

instance : Decidable p.Committed := inferInstanceAs (Decidable (_ ∨ _ ∨ _))

/-- The worker can go on by itself, except in its emission and at its end. -/
theorem next_ne_nil (h₁ : p ≠ awaiting) (h₂ : p ≠ stopped) : p.next b ≠ [] := by
  cases p <;> cases b <;> first | contradiction | decide

/-- **An interrupted worker does not commit itself to an emission.** -/
theorem not_committed_next (hp : ¬p.Committed) : ∀ p' ∈ p.next true, ¬p'.Committed := by
  revert hp
  cases p <;> decide

/-- An upper bound on the steps that an interrupted worker still takes. -/
def rank : Position → ℕ
  | stopped => 0
  | finishIndexing => 1
  | idxCheck | optCheck | delCheck | optAgainCheck | waitCheck => 2
  | openIndex | dirCheck | opt | wait => 3
  | added | dir | optAgain => 4
  | fileCheck1 | fileCheck2 | fileCheck3 | index | deleted => 5
  | ownIndex | isIndexed | enrichMetaContents | delDocsCheck => 6
  | entry | awaiting | bigFile | delDocs => 7
  | emitMeta | scanCheck1 | scanCheck2 => 8
  | smallFile | scan => 9

theorem rank_next : ∀ p' ∈ p.next true, p'.rank < p.rank := by
  cases p <;> decide

end Position

namespace Threads

variable {s s' : Threads} {e : Event} {o : Unit}

/-- The GUI thread is in the wait loop and the worker can take no step. -/
structure Deadlocked (s : Threads) : Prop where
  waiting : s.gui = .waiting
  running : s.worker ≠ .stopped
  stuck : ∀ p, s.step (.worker p) = none

/-- `removeIndex` requests the interruption at a moment when the worker is not committed to
an emission. -/
def Clear (s : Threads) (e : Event) : Prop := e = .requestInterruption → ¬s.worker.Committed

/-! ## One step -/

/-- The steps of the two threads, one by one. -/
inductive Step (s : Threads) : Event → Threads → Prop where
  | worker {p : Position} (hp : p ∈ s.worker.next s.isInterruptionRequested) :
      Step s (.worker p) { s with worker := p, posted := s.posted || p == .awaiting }
  | processEvents (hg : s.gui.processes = true) (hp : s.posted = true) :
      Step s .processEvents { s with worker := .enrichMetaContents, posted := false }
  | removeIndex (hg : s.gui = .eventLoop) : Step s .removeIndex { s with gui := .removeIndex }
  | requestInterruption (hg : s.gui = .removeIndex) :
      Step s .requestInterruption { s with gui := .waiting, isInterruptionRequested := true }
  | msleep (hg : s.gui = .waiting) (hw : s.worker ≠ .stopped) : Step s .isRunning s
  | removed (hg : s.gui = .waiting) (hw : s.worker = .stopped) : Step s .isRunning { s with gui := .removed }
  | onQuit (hg : s.gui = .eventLoop) : Step s .onQuit { s with gui := .onQuit, isInterruptionRequested := true }

theorem step_iff : s.step e = some (s', o) ↔ Step s e s' := by
  constructor
  · intro hs
    cases e with
    | worker p =>
      simp only [step, List.contains_eq_mem, decide_eq_true_eq, Option.ite_none_right_eq_some] at hs
      obtain ⟨hp, hs⟩ := hs
      cases hs
      exact .worker hp
    | processEvents =>
      simp only [step, Bool.and_eq_true, Option.ite_none_right_eq_some] at hs
      obtain ⟨⟨hg, hp⟩, hs⟩ := hs
      cases hs
      exact .processEvents hg hp
    | removeIndex =>
      simp only [step, Option.ite_none_right_eq_some] at hs
      obtain ⟨hg, hs⟩ := hs
      cases hs
      exact .removeIndex hg
    | requestInterruption =>
      simp only [step, Option.ite_none_right_eq_some] at hs
      obtain ⟨hg, hs⟩ := hs
      cases hs
      exact .requestInterruption hg
    | isRunning =>
      simp only [step, Option.ite_none_right_eq_some] at hs
      obtain ⟨hg, hs⟩ := hs
      split at hs
      · rename_i hw
        cases hs
        exact .removed hg hw
      · rename_i hw
        cases hs
        exact .msleep hg hw
    | onQuit =>
      simp only [step, Option.ite_none_right_eq_some] at hs
      obtain ⟨hg, hs⟩ := hs
      cases hs
      exact .onQuit hg
  · intro hs
    cases hs with
    | worker hp => simp [step, hp]
    | processEvents hg hp => simp [step, hg, hp]
    | removeIndex hg => simp [step, hg]
    | requestInterruption hg => simp [step, hg]
    | msleep hg hw => simp [step, hg, hw]
    | removed hg hw => simp [step, hg, hw]
    | onQuit hg => simp [step, hg]

/-! ## Invariants -/

/-- The event is in the queue exactly while the worker waits for it. -/
def Posted (s : Threads) : Prop := s.posted = true ↔ s.worker = .awaiting

theorem Posted.step (h : Posted s) (hs : s.step e = some (s', o)) : Posted s' := by
  cases step_iff.1 hs with
  | worker hp =>
    rename_i p
    -- the worker moves, so nothing is in the queue
    have hnot : s.posted = false := by
      rw [Bool.eq_false_iff]
      intro hposted
      rw [h.1 hposted] at hp
      exact absurd hp List.not_mem_nil
    simp [Posted, hnot]
  | processEvents hg hp => simp [Posted]
  | removeIndex hg => exact h
  | requestInterruption hg => exact h
  | msleep hg hw => exact h
  | removed hg hw => exact h
  | onQuit hg => exact h

/-- In the wait loop the worker is interrupted and not committed to an emission. -/
def Ending (s : Threads) : Prop :=
  s.gui = .waiting → s.isInterruptionRequested = true ∧ ¬s.worker.Committed

theorem Ending.step (h : Ending s) (hc : s.Clear e) (hs : s.step e = some (s', o)) : Ending s' := by
  intro hg'
  cases step_iff.1 hs with
  | worker hp =>
    obtain ⟨hreq, hnot⟩ := h hg'
    rw [hreq] at hp
    exact ⟨hreq, Position.not_committed_next hnot _ hp⟩
  | processEvents hg hp =>
    -- the wait loop does not process events
    change s.gui = .waiting at hg'
    rw [hg'] at hg
    exact absurd hg (by decide)
  | removeIndex hg => exact absurd hg' (by simp)
  | requestInterruption hg => exact ⟨rfl, hc rfl⟩
  | msleep hg hw => exact h hg'
  | removed hg hw => exact absurd hg' (by simp)
  | onQuit hg => exact absurd hg' (by simp)

/-! ## Deadlocks -/

/-- **The deadlock** is the worker in its emission under the wait loop. -/
theorem deadlocked_iff : Deadlocked s ↔ s.gui = .waiting ∧ s.worker = .awaiting := by
  constructor
  · intro h
    refine ⟨h.waiting, ?_⟩
    by_contra hne
    have hnext := Position.next_ne_nil (b := s.isInterruptionRequested) hne h.running
    obtain ⟨p, hp⟩ := List.exists_mem_of_ne_nil _ hnext
    have hstep := step_iff (o := ()).2 (Step.worker hp)
    rw [h.stuck p] at hstep
    exact absurd hstep (by simp)
  · rintro ⟨hg, hw⟩
    refine ⟨hg, by rw [hw]; decide, fun p => ?_⟩
    simp [step, hw, Position.next]

/-- It is for good. -/
theorem deadlocked_forever (h : Deadlocked s) {es : List Event} {os : List Unit}
    (hrun : run step s es = some (s', os)) : Deadlocked s' := by
  refine run_invariant (I := Deadlocked) (fun s e s' o h hs => ?_) h hrun
  have hg := h.waiting
  cases step_iff.1 hs with
  | worker hp =>
    rw [h.stuck] at hs
    exact absurd hs (by simp)
  | processEvents hg' hp => rw [hg] at hg'; exact absurd hg' (by decide)
  | removeIndex hg' => rw [hg] at hg'; exact absurd hg' (by decide)
  | requestInterruption hg' => rw [hg] at hg'; exact absurd hg' (by decide)
  | msleep hg' hw => exact h
  | removed hg' hw => exact absurd hw h.running
  | onQuit hg' => rw [hg] at hg'; exact absurd hg' (by decide)

theorem Ending.not_deadlocked (h : Ending s) : ¬Deadlocked s := by
  intro hd
  obtain ⟨hg, hw⟩ := deadlocked_iff.1 hd
  exact (h hg).2 (Or.inr (Or.inr hw))

/-- Once `removeIndex` waits, no other call requests an interruption. -/
theorem Ending.persists (h : Ending s) (hg : s.gui = .waiting) {es : List Event} {os : List Unit}
    (hrun : run Threads.step s es = some (s', os)) : Ending s' := by
  have hI : Ending s ∧ (s.gui = .waiting ∨ s.gui = .removed) := ⟨h, Or.inl hg⟩
  refine (run_invariant (I := fun s => Ending s ∧ (s.gui = .waiting ∨ s.gui = .removed))
    (fun s e s' o h hs => ?_) hI hrun).1
  obtain ⟨h, hg⟩ := h
  have hnot : s.gui ≠ .eventLoop ∧ s.gui ≠ .removeIndex := by
    rcases hg with hg | hg <;> rw [hg] <;> decide
  have hclear : s.Clear e := by
    rintro rfl
    cases step_iff.1 hs with
    | requestInterruption hg' => exact absurd hg' hnot.2
  refine ⟨h.step hclear hs, ?_⟩
  cases step_iff.1 hs with
  | worker hp => exact hg
  | processEvents hg' hp => exact hg
  | removeIndex hg' => exact absurd hg' hnot.1
  | requestInterruption hg' => exact absurd hg' hnot.2
  | msleep hg' hw => exact hg
  | removed hg' hw => exact Or.inr rfl
  | onQuit hg' => exact absurd hg' hnot.1

/-- A committed worker goes on to its emission, whatever the GUI thread waits for. -/
theorem committed_deadlocks (hg : s.gui = .waiting) (hw : s.worker.Committed) :
    ∃ es s' os, run step s es = some (s', os) ∧ Deadlocked s' := by
  obtain ⟨gui, worker, requested, posted⟩ := s
  change gui = .waiting at hg
  subst hg
  rcases hw with hw | hw | hw
  · change worker = .smallFile at hw
    subst hw
    exact ⟨[.worker .emitMeta, .worker .awaiting], _, _, rfl, deadlocked_iff.2 ⟨rfl, rfl⟩⟩
  · change worker = .emitMeta at hw
    subst hw
    exact ⟨[.worker .awaiting], _, _, rfl, deadlocked_iff.2 ⟨rfl, rfl⟩⟩
  · exact ⟨[], _, _, rfl, deadlocked_iff.2 ⟨rfl, hw⟩⟩

/-- **When `removeIndex` deadlocks, exactly.** A run in which every `removeIndex` requests
the interruption while the worker is not committed to an emission reaches no deadlock; and
from each call, some continuation deadlocks exactly if the worker is committed to one. -/
theorem removal_deadlocks_iff {es : List Event} {os : List Unit} (hrun : run step start es = some (s, os)) :
    (Meets step Clear start es → ¬Deadlocked s) ∧
      (s.gui = .removeIndex → ((∃ es' s' os', run step s (.requestInterruption :: es') = some (s', os') ∧
        Deadlocked s') ↔ s.worker.Committed)) := by
  constructor
  · -- no deadlock under the invariant `Ending`, which the calls keep while they are `Clear`
    intro hC
    have h0 : Ending start := fun hg => absurd hg (by decide)
    exact (run_invariant_meets (fun s e s' o h hc hs => h.step hc hs) hC h0 hrun).not_deadlocked
  · intro hg
    have hreq := step_iff (o := ()).2 (Step.requestInterruption hg)
    constructor
    · -- an uncommitted worker stays so until it stops
      rintro ⟨es', s', os', hrun', hd⟩
      obtain ⟨t, o, os₁, ht, hrest, -⟩ := run_cons_some.1 hrun'
      rw [hreq, Option.some.injEq, Prod.mk.injEq] at ht
      obtain ⟨rfl, -⟩ := ht
      by_contra hno
      have hend : Ending { s with gui := .waiting, isInterruptionRequested := true } := by
        intro _; exact ⟨rfl, hno⟩
      exact (Ending.persists hend rfl hrest).not_deadlocked hd
    · intro hw
      obtain ⟨es', s', os', hrest, hd⟩ :=
        committed_deadlocks (s := { s with gui := .waiting, isInterruptionRequested := true }) rfl hw
      exact ⟨es', s', _, run_cons_some.2 ⟨_, _, os', hreq, hrest, rfl⟩, hd⟩

/-- Called while the worker looks the next file up, `removeIndex` comes before the check. -/
theorem removal_deadlocks_iff_sample :
    let es : List Event := [.worker .openIndex, .worker .idxCheck, .worker .dir, .worker .dirCheck, .worker .entry,
      .worker .ownIndex, .worker .fileCheck1, .worker .isIndexed, .worker .fileCheck2, .removeIndex]
    let s : Threads := ⟨.removeIndex, .fileCheck2, false, false⟩
    (Meets step Clear start es → ¬Deadlocked s) ∧
      (s.gui = .removeIndex → ((∃ es' s' os', run step s (.requestInterruption :: es') = some (s', os') ∧
        Deadlocked s') ↔ s.worker.Committed)) := by
  intro es s
  have hrun : run step start es = some (s, List.replicate 10 ()) := by decide +kernel
  exact removal_deadlocks_iff hrun

/-- Called one step later, it does not: the file is small, the worker emits, and both
threads wait. -/
theorem removal_deadlocks :
    ∃ s os, run step start [.worker .openIndex, .worker .idxCheck, .worker .dir, .worker .dirCheck, .worker .entry,
      .worker .ownIndex, .worker .fileCheck1, .worker .isIndexed, .worker .fileCheck2, .removeIndex,
      .worker .smallFile, .requestInterruption, .worker .emitMeta, .worker .awaiting, .isRunning] = some (s, os) ∧
      Deadlocked s := by
  refine ⟨⟨.waiting, .awaiting, true, true⟩, List.replicate 15 (), by decide +kernel, ?_⟩
  exact deadlocked_iff.2 ⟨rfl, rfl⟩

/-! ## The end of a removal -/

/-- **A removal that does not deadlock ends**: the worker stops by itself, after at most
`rank` steps of its own. -/
theorem removal_ends {s : Threads} (h : Ending s) (hg : s.gui = .waiting) :
    ∃ (ps : List Position) (s' : Threads) (os : List Unit), ps.length ≤ s.worker.rank ∧
      run step s (ps.map .worker) = some (s', os) ∧ s'.gui = .waiting ∧ s'.worker = .stopped := by
  by_cases hw : s.worker = .stopped
  · exact ⟨[], s, [], Nat.zero_le _, rfl, hg, hw⟩
  · obtain ⟨hreq, hnot⟩ := h hg
    have hne : s.worker ≠ .awaiting := fun hw => hnot (Or.inr (Or.inr hw))
    obtain ⟨p, hp⟩ := List.exists_mem_of_ne_nil _ (Position.next_ne_nil (b := s.isInterruptionRequested) hne hw)
    have hstep := step_iff (o := ()).2 (Step.worker hp)
    have hlt : p.rank < s.worker.rank := Position.rank_next p (hreq ▸ hp)
    have hclear : s.Clear (.worker p) := fun he => absurd he (by simp)
    obtain ⟨ps, s', os, hlen, hrun, hend⟩ := removal_ends (h.step hclear hstep) hg
    refine ⟨p :: ps, s', () :: os, ?_, run_cons_some.2 ⟨_, _, os, hstep, hrun, rfl⟩, hend⟩
    change ps.length ≤ p.rank at hlen
    rw [List.length_cons]
    omega
termination_by s.worker.rank

/-- **`onQuit` does not deadlock**: the worker has stopped, or it goes on, or the GUI thread
answers it. -/
theorem onQuit_progress {es : List Event} {os : List Unit} (hrun : run step start es = some (s, os))
    (hg : s.gui = .onQuit) : s.worker = .stopped ∨ (∃ p s', s.step (.worker p) = some (s', ())) ∨
      ∃ s', s.step .processEvents = some (s', ()) := by
  have h0 : Posted start := by unfold Posted; decide
  have hposted : Posted s := run_invariant (fun s e s' o h hs => h.step hs) h0 hrun
  by_cases hw : s.worker = .awaiting
  · right; right
    exact ⟨_, step_iff.2 (Step.processEvents (by rw [hg]; rfl) (hposted.2 hw))⟩
  · by_cases hs : s.worker = .stopped
    · exact Or.inl hs
    · right; left
      obtain ⟨p, hp⟩ := List.exists_mem_of_ne_nil _ (Position.next_ne_nil (b := s.isInterruptionRequested) hw hs)
      exact ⟨p, _, step_iff.2 (Step.worker hp)⟩

end Threads

end QDesktopSearch
