import QDesktopSearch.Lib.Machine
import QDesktopSearch.Model.Application
import QDesktopSearch.Proof.Session

/-!
# Indexes that the GUI opens or asks

* `Follows`: the trace tells which index directories hold an index and which workers have
  an indexer; every event keeps this (`Follows.step`).
* `open_before_use`: in a run, every `search`, `fields` and `getIdxInfo` finds what it needs
  exactly if before each of them `openIndex` has run for all it opens or asks, with no
  `removeIndex` and no `close` since.
-/

namespace QDesktopSearch

open Machine

variable {E : Env}

/-- The effect takes the index directory away. -/
def Effect.Deletes (Q : Qt) (dir : QString) : Effect → Prop
  | .deleted sAbsDirIdx kept => (below Q sAbsDirIdx dir && !kept dir) = true
  | _ => False

/-- `openIndex` has run on the directory, or it held an index from the start; and no
`removeIndex` has taken it away since. -/
def IndexMade (E : Env) (disk : Disk) (trace : List Effect) (dir : QString) : Prop :=
  ((disk dir).isSome = true ∧ Never (Effect.Deletes E.qt dir) trace) ∨
    Since (· = .opened dir) (Effect.Deletes E.qt dir) trace

/-- `openIndex` of the worker has set `m_pLucyIndexer`, and no `close` has deleted it since. -/
def IndexerMade (trace : List Effect) (pThread : IndexerThread) : Prop :=
  Since (· = .allocated pThread) (· = .closed pThread) trace

namespace App

variable {disk : Disk} {x x' : App} {t : IndexerThread} {dir : QString}

/-- What the program has on disk and in memory is what the trace tells. -/
structure Follows (E : Env) (disk : Disk) (x : App) : Prop where
  disk : ∀ dir, (x.disk dir).isSome = true ↔ IndexMade E disk x.trace dir
  phase : ∀ t, (x.phase t).pLucyIndexer = true ↔ IndexerMade x.trace t

theorem Follows.start : Follows E disk (start disk) where
  disk dir := by
    simp only [App.start, IndexMade, never_nil, not_since_nil, and_true, or_false]
  phase t := by
    simp only [App.start, IndexerMade, not_since_nil, Phase.pLucyIndexer, Bool.false_eq_true]

/-! ## One more effect -/

theorem indexMade_concat {trace : List Effect} {e : Effect} : IndexMade E disk (trace ++ [e]) dir ↔
    e = .opened dir ∨ (IndexMade E disk trace dir ∧ ¬e.Deletes E.qt dir) := by
  rw [IndexMade, never_concat, since_concat, IndexMade]
  tauto

theorem indexerMade_concat {trace : List Effect} {e : Effect} : IndexerMade (trace ++ [e]) t ↔
    e = .allocated t ∨ (IndexerMade trace t ∧ e ≠ .closed t) := since_concat

/-- Only the registry changes. -/
theorem Follows.indexer (h : Follows E disk x) {indexer : Indexer} : Follows E disk { x with indexer := indexer } :=
  ⟨h.disk, h.phase⟩

/-- **A worker's step keeps what the trace tells.** -/
theorem Follows.setPhase (h : Follows E disk x) {phase : Phase} {disk' : Disk} {effects : List Effect}
    (hdisk : ∀ dir, (disk' dir).isSome = true ↔ IndexMade E disk (x.trace ++ effects) dir)
    (hself : phase.pLucyIndexer = true ↔ IndexerMade (x.trace ++ effects) t)
    (hother : ∀ s, s ≠ t → (IndexerMade (x.trace ++ effects) s ↔ IndexerMade x.trace s)) :
    Follows E disk (x.setPhase t phase disk' effects) := by
  refine ⟨hdisk, fun s => ?_⟩
  show (Function.update x.phase t phase s).pLucyIndexer = true ↔ _
  by_cases hs : s = t
  · subst hs
    rw [Function.update_self]
    exact hself
  · rw [Function.update_of_ne hs, h.phase]
    exact (hother s hs).symm

theorem Follows.workerStep (h : Follows E disk x) {ws : WorkerStep} (hs : x.workerStep E t ws = some x') :
    Follows E disk x' := by
  have hphase := h.phase t
  unfold App.workerStep at hs
  dsimp only at hs
  split at hs
  · -- `doWork`: nothing happens to an index or an indexer
    rename_i hp
    rw [Option.some.injEq] at hs
    rw [← hs]
    rw [hp] at hphase
    refine h.setPhase ?_ ?_ ?_
    · rw [List.append_nil]; exact h.disk
    · rw [List.append_nil]; exact hphase
    · simp
  · -- `newLucyindexer`: only this worker gets an indexer
    rename_i hp
    rw [Option.some.injEq] at hs
    rw [← hs]
    refine h.setPhase (fun dir => ?_) ?_ (fun s hst => ?_)
    · rw [indexMade_concat, h.disk]
      simp [Effect.Deletes]
    · rw [indexerMade_concat]
      simp [Phase.pLucyIndexer]
    · rw [indexerMade_concat]
      have : t ≠ s := Ne.symm hst
      simp [this]
  · -- `openIndex`: its directory holds an index from now on
    rename_i hp
    obtain ⟨l, -, rfl⟩ := Option.map_eq_some_iff.1 hs
    rw [hp] at hphase
    refine h.setPhase (fun dir => ?_) ?_ (fun s hst => ?_)
    · rw [indexMade_concat]
      by_cases hd : dir = sDirIndex E t.sDir2Index
      · subst hd
        simp
      · have hd' : sDirIndex E t.sDir2Index ≠ dir := Ne.symm hd
        rw [Function.update_of_ne hd, h.disk]
        simp [Effect.Deletes, hd']
    · rw [indexerMade_concat, ← hphase]
      simp [Phase.pLucyIndexer]
    · rw [indexerMade_concat]
      simp
  · -- `close`: its commit makes no index where the directory was removed
    rename_i l hp
    obtain ⟨si, -, rfl⟩ := Option.map_eq_some_iff.1 hs
    refine h.setPhase (fun dir => ?_) ?_ (fun s hst => ?_)
    · rw [indexMade_concat, ← h.disk]
      by_cases hd : dir = sDirIndex E t.sDir2Index
      · subst hd
        simp [Disk.commit, Effect.Deletes]
      · rw [Disk.commit, Function.update_of_ne hd]
        simp [Effect.Deletes]
    · rw [indexerMade_concat]
      simp [Phase.pLucyIndexer]
    · rw [indexerMade_concat]
      have : t ≠ s := Ne.symm hst
      simp [this]
  · exact absurd hs (by simp)

theorem Follows.removeIndex (h : Follows E disk x) {d : QString} {kept : QString → Bool}
    (hs : x.removeIndex E d kept = some x') : Follows E disk x' := by
  unfold App.removeIndex at hs
  split at hs
  · exact absurd hs (by simp)
  · rw [Option.some.injEq] at hs
    rw [← hs]
    exact h.indexer
  · split at hs
    · rw [Option.some.injEq] at hs
      rw [← hs]
      constructor
      · -- just what `removeRecursively` takes away
        intro dir
        dsimp only
        rw [indexMade_concat, ← h.disk, Disk.removeRecursively]
        split
        · rename_i hdel
          simp [Effect.Deletes, hdel]
        · rename_i hdel
          simp [Effect.Deletes, hdel]
      · intro t
        dsimp only
        rw [indexerMade_concat, ← h.phase]
        simp
    · exact absurd hs (by simp)

/-! ## What the GUI needs -/

/-- Before the event, `openIndex` has run for all it opens or asks. -/
def Ready (E : Env) (disk : Disk) (x : App) : Event → Prop
  | .search lpSearchinputs => lpSearchinputs ≠ [] →
      ∀ key ∈ x.indexer.searched, IndexMade E disk x.trace (sDirIndex E key)
  | .fields sDirs2Index => ∀ sDir2Index ∈ splitSkipEmpty (QChar.ofChar '|') sDirs2Index,
      IndexMade E disk x.trace (idxDir4Dir2Index E sDir2Index)
  | .getIdxInfo sDir2Index true => ∀ t, x.indexer.pWorkers[sDir2Index]? = some (some t) → IndexerMade x.trace t
  | _ => True

theorem openReaders_done {dirs : List QString} (h : Follows E disk x) :
    x.openReaders dirs = .done ↔ ∀ dir ∈ dirs, IndexMade E disk x.trace dir := by
  unfold openReaders
  split
  · rename_i hall
    rw [List.all_eq_true] at hall
    exact ⟨fun _ dir hd => (h.disk dir).1 (hall dir hd), fun _ => rfl⟩
  · rename_i hall
    rw [List.all_eq_true] at hall
    constructor
    · intro hne; exact absurd hne (by simp)
    · intro hmade
      exact absurd (fun dir hd => (h.disk dir).2 (hmade dir hd)) hall

/-- The thread that `getIdxInfo` asks is the one under the key. -/
theorem getIdxInfo_asks {y indexer : Indexer} {d : QString} {value : Option IndexerThread}
    (h : y.getIdxInfo d true = some (indexer, value)) : ∀ t, y.pWorkers[d]? = some (some t) ↔ value = some t := by
  intro t
  simp only [Indexer.getIdxInfo, Bool.not_true, Bool.false_eq_true, if_false, QMap.subscript] at h
  cases hk : y.pWorkers[d]? with
  | none =>
    simp only [hk, Option.some.injEq, Prod.mk.injEq] at h
    simp [← h.2]
  | some v =>
    cases v with
    | none =>
      simp only [hk, Option.some.injEq, Prod.mk.injEq] at h
      simp [← h.2]
    | some s =>
      simp only [hk, Indexer.deref, Option.map_eq_some_iff, Option.filter_eq_some_iff, Prod.mk.injEq] at h
      obtain ⟨a, ⟨hs, -⟩, -, hv⟩ := h
      rw [← hv, ← hs, Option.some.injEq]

theorem Follows.getIdxInfo (h : Follows E disk x) {d : QString} {b : Bool} {o : Outcome}
    (hs : x.getIdxInfo d b = some (x', o)) :
    Follows E disk x' ∧ (o = .done ↔ Ready E disk x (.getIdxInfo d b)) := by
  obtain ⟨⟨indexer, value⟩, hinfo, hr⟩ := Option.map_eq_some_iff.1 hs
  cases b with
  | false =>
    simp only [Indexer.getIdxInfo, Bool.not_false, if_true, Option.some.injEq, Prod.mk.injEq] at hinfo
    obtain ⟨rfl, rfl⟩ := hinfo
    simp only [Prod.mk.injEq] at hr
    rw [← hr.1, ← hr.2]
    exact ⟨h.indexer, by simp [Ready]⟩
  | true =>
    have hasks := getIdxInfo_asks hinfo
    cases value with
    | none =>
      -- no thread under the key, so nobody is asked
      simp only [Prod.mk.injEq] at hr
      rw [← hr.1, ← hr.2]
      exact ⟨h.indexer, by simp [Ready, hasks]⟩
    | some t =>
      simp only [Prod.mk.injEq] at hr
      rw [← hr.1, ← hr.2]
      refine ⟨h.indexer, ?_⟩
      rw [Ready]
      simp only [hasks, Option.some.injEq, forall_eq', ← h.phase]
      cases (x.phase t).pLucyIndexer <;> simp

/-- **The step lemma**: an event keeps what the trace tells, and finds what it needs exactly
if it is ready. -/
theorem Follows.step (h : Follows E disk x) {e : Event} {o : Outcome} (hs : x.step E e = some (x', o)) :
    Follows E disk x' ∧ (o = .done ↔ Ready E disk x e) := by
  cases e with
  | init exists_ sDirs2Index =>
    simp only [App.step, Option.some.injEq, Prod.mk.injEq] at hs
    rw [← hs.1, ← hs.2]
    exact ⟨h.indexer, by simp [Ready]⟩
  | add exists_ d =>
    simp only [App.step, Option.some.injEq, Prod.mk.injEq] at hs
    rw [← hs.1, ← hs.2]
    exact ⟨h.indexer, by simp [Ready]⟩
  | removeIndex d kept =>
    obtain ⟨y, hy, hr⟩ := Option.map_eq_some_iff.1 hs
    rw [Prod.mk.injEq] at hr
    rw [← hr.1, ← hr.2]
    exact ⟨h.removeIndex hy, by simp [Ready]⟩
  | getIdxInfo d b => exact h.getIdxInfo hs
  | search lpSearchinputs =>
    simp only [App.step, Option.some.injEq, Prod.mk.injEq] at hs
    rw [← hs.1, ← hs.2]
    refine ⟨h, ?_⟩
    by_cases hin : lpSearchinputs = []
    · simp [hin, Ready]
    · rw [if_neg hin, openReaders_done h, searchedDirs, List.forall_mem_map]
      exact ⟨fun hall _ => hall, fun hall => hall hin⟩
  | fields sDirs2Index =>
    simp only [App.step, Option.some.injEq, Prod.mk.injEq] at hs
    rw [← hs.1, ← hs.2]
    refine ⟨h, ?_⟩
    rw [openReaders_done h, fieldsDirs, List.forall_mem_map]
    exact Iff.rfl
  | worker t ws =>
    simp only [App.step] at hs
    split at hs
    · obtain ⟨y, hy, hr⟩ := Option.map_eq_some_iff.1 hs
      rw [Prod.mk.injEq] at hr
      rw [← hr.1, ← hr.2]
      exact ⟨h.workerStep hy, by simp [Ready]⟩
    · exact absurd hs (by simp)

/-- **Open before use, exactly.** In a run, every `search` and `fields` finds an index in
each directory it opens and every `getIdxInfo` a worker with an indexer, exactly if before
each of them `openIndex` has run for all it opens or asks, with nothing undone since. -/
theorem open_before_use {es : List Event} {os : List Outcome}
    (hrun : run (step E) (start disk) es = some (x, os)) :
    (∀ o ∈ os, o = .done) ↔ Meets (step E) (Ready E disk) (start disk) es :=
  outputs_iff (fun _ _ _ _ hI hs => hI.step hs) Follows.start hrun

/-- A root that is added, opened, asked and searched, and searched again after its worker
has stopped. -/
theorem open_before_use_sample :
    let d := qs "/d"
    let es : List Event := [.add (fun _ => true) d, .worker ⟨0, d, d⟩ .doWork, .worker ⟨0, d, d⟩ .newLucyindexer,
      .getIdxInfo d true, .worker ⟨0, d, d⟩ .openIndex, .search [(qs "a", qs "text")], .fields d,
      .worker ⟨0, d, d⟩ .close, .search [(qs "a", qs "text")]]
    ∃ x os, run (step sampleEnv) (start fun _ => none) es = some (x, os) ∧
      ((∀ o ∈ os, o = .done) ↔ Meets (step sampleEnv) (Ready sampleEnv fun _ => none) (start fun _ => none) es) := by
  intro d es
  have hsome : (run (step sampleEnv) (start fun _ => none) es).isSome = true := by decide +kernel
  obtain ⟨⟨x, os⟩, hrun⟩ := Option.isSome_iff_exists.1 hsome
  exact ⟨x, os, hrun, open_before_use hrun⟩

/-- Searched or asked before its worker has opened the index, a root has none; asked after
its worker has stopped, it has no indexer; and a configured directory that does not exist
never gets an index, which `fields` opens all the same. -/
theorem opens_missing :
    let d := qs "/d"
    let outcomes := fun es => (run (step sampleEnv) (start fun _ => none) es).map (·.2)
    outcomes [.add (fun _ => true) d, .search [(qs "a", qs "text")]] = some [.done, .exception] ∧
      outcomes [.init (fun _ => false) (qs "/gone"), .fields (qs "/gone")] = some [.done, .exception] ∧
      outcomes [.add (fun _ => true) d, .getIdxInfo d true] = some [.done, .nullptr] ∧
      outcomes [.add (fun _ => true) d, .worker ⟨0, d, d⟩ .doWork, .worker ⟨0, d, d⟩ .newLucyindexer,
        .worker ⟨0, d, d⟩ .openIndex, .worker ⟨0, d, d⟩ .close, .getIdxInfo d true] =
          some [.done, .done, .done, .done, .done, .nullptr] := by
  decide +kernel

end App

end QDesktopSearch
