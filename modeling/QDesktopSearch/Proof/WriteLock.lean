import QDesktopSearch.Lib.Machine
import QDesktopSearch.Model.WriteLock
import QDesktopSearch.Proof.Session

/-!
# When `write.lock` is there

The calls of every operation take the lock from where the modifier before has it to where
the modifier after has it (`replay_call`); so in every state of a run the calls that are
left lead to the modifier's lock (`Inv`), and a file that is there is the worker's own.
`write_lock_kept_iff`: the file is there whenever the lock is held, exactly if no search
comes while it is held.
-/

namespace QDesktopSearch

variable {D T : Type*} {P : Engine D T}

/-! ## What the calls of an operation come to -/

/-- The lock after the calls; nothing where a call is out of place. -/
def replay : Bool → List LockCall → Option Bool
  | hasLock, [] => some hasLock
  | hasLock, .obtain :: calls => if hasLock then none else replay true calls
  | hasLock, .release :: calls => if hasLock then replay false calls else none
  | hasLock, .clearLock :: calls => if hasLock then none else replay false calls

theorem replay_append {calls calls' : List LockCall} {b b' : Bool} (h : replay b calls = some b') :
    replay b (calls ++ calls') = replay b' calls' := by
  induction calls generalizing b with
  | nil =>
    rw [replay, Option.some.injEq] at h
    rw [h, List.nil_append]
  | cons call calls ih =>
    cases call <;> simp only [replay, List.cons_append, Option.ite_none_right_eq_some, Option.ite_none_left_eq_some] at h ⊢
    · rw [if_neg h.1, ih h.2]
    · rw [if_pos h.1, ih h.2]
    · rw [if_neg h.1, ih h.2]

namespace IndexReader

theorem replay_commit (r : IndexReader D) : replay r.hasChanges r.commitLock = some false := by
  unfold commitLock
  cases h : r.hasChanges <;> rfl

theorem replay_acquire (r : IndexReader D) : replay r.hasChanges r.acquireWriteLock = some true := by
  unfold acquireWriteLock
  cases h : r.hasChanges <;> rfl

theorem hasChanges_commit (r : IndexReader D) : r.commit.hasChanges = false := by
  unfold commit
  split
  · rfl
  · rename_i h
    simpa using h

theorem hasChanges_foldl_delete (r : IndexReader D) (docs : List ℕ) :
    (docs.foldl delete r).hasChanges = (r.hasChanges || !docs.isEmpty) := by
  induction docs generalizing r with
  | nil => simp
  | cons n docs ih =>
    rw [List.foldl_cons, ih]
    simp [delete]

theorem replay_deleteDocuments (r : IndexReader D) (t : T) :
    replay r.hasChanges (r.deleteDocumentsLock P t) = some (r.deleteDocuments P t).1.hasChanges := by
  rw [deleteDocuments, hasChanges_foldl_delete, deleteDocumentsLock]
  by_cases h : r.termDocs P t = []
  · rw [if_pos h, h]
    simp [replay]
  · rw [if_neg h, replay_acquire]
    simp [h]

end IndexReader

namespace IndexModifier

theorem replay_createIndexWriter (m : IndexModifier D) : replay m.locked m.createIndexWriterLock = some true := by
  cases m with
  | writer w => rfl
  | reader r =>
    rw [locked, createIndexWriterLock, replay_append r.replay_commit]
    rfl

theorem replay_createIndexReader (m : IndexModifier D) :
    replay m.locked m.createIndexReaderLock = some (m.createIndexReader P).hasChanges := by
  cases m <;> rfl

theorem replay_flush (m : IndexModifier D) : replay m.locked m.flushLock = some (m.flush P).locked := by
  cases m with
  | writer w => rfl
  | reader r => exact r.replay_commit

theorem replay_close (m : IndexModifier D) : replay m.locked m.closeLock = some false := by
  cases m with
  | writer w => rfl
  | reader r => exact r.replay_commit

end IndexModifier

namespace QIndexModifier

theorem replay_flush (m : QIndexModifier D) :
    replay m.base.locked (m.flushLock P) = some (m.flush P).base.locked := by
  unfold flushLock flush
  split
  · -- the reader, the commit, and the flush of the reader
    have hreader := m.base.replay_createIndexReader (P := P)
    have hcommit := (m.base.createIndexReader P).replay_commit
    rw [List.append_assoc, replay_append hreader]
    change replay (m.base.createIndexReader P).hasChanges ((m.base.createIndexReader P).commitLock ++ _) = _
    rw [replay_append hcommit]
    have hflush := IndexModifier.replay_flush (P := P) (.reader (m.base.createIndexReader P).commit)
    rw [IndexModifier.locked, IndexReader.hasChanges_commit] at hflush
    exact hflush
  · exact m.base.replay_flush

/-- **The calls of an operation** lead from the modifier's lock before it to that after it. -/
theorem replay_call {m m' : QIndexModifier D} {c : ModifierCall D T} (h : m.call P c = some m') :
    replay m.base.locked (m.callLock P c) = some m'.base.locked := by
  have hreader := m.base.replay_createIndexReader (P := P)
  cases c with
  | getIndexReader | termDocs t =>
    rw [call, Option.some.injEq] at h
    rw [← h]
    exact hreader
  | deleteDocuments t =>
    rw [call, Option.some.injEq] at h
    rw [← h, callLock, IndexModifier.deleteDocumentsLock, replay_append hreader, IndexReader.replay_deleteDocuments]
    rfl
  | deleteDocument docNum =>
    rw [call, deleteDocument, IndexModifier.deleteDocument, IndexReader.deleteDocument] at h
    split at h
    · rw [Option.map_some, Option.map_some, Option.some.injEq] at h
      rw [← h, callLock, IndexModifier.deleteDocumentLock, replay_append hreader, IndexReader.replay_acquire]
      rfl
    · exact absurd h (by simp)
  | flush =>
    rw [call, Option.some.injEq] at h
    rw [← h]
    exact m.replay_flush
  | addDocument doc =>
    rw [call, Option.some.injEq] at h
    rw [← h]
    exact m.base.replay_createIndexWriter
  | docCount =>
    rw [call, Option.some.injEq] at h
    rw [← h]
    rfl

/-- A modifier starts with a writer. -/
theorem replay_init {dir : Directory D} {create : Bool} {m : QIndexModifier D} (h : init dir create = some m) :
    replay false (IndexWriter.initLock create) = some m.base.locked := by
  rw [init, IndexModifier.init, Option.map_map, Option.map_eq_some_iff] at h
  obtain ⟨w, -, rfl⟩ := h
  cases create <;> rfl

end QIndexModifier

/-! ## Runs -/

namespace LockState

/-- The calls that are left lead to the modifier's lock, and a file is the worker's own
unless no modifier has been open yet. -/
structure Inv (s : LockState D) : Prop where
  replays : replay s.hasLock s.todo = some (s.pIndexWriter.any fun m => m.base.locked)
  own : s.fileExists = true → s.hasLock = true ∨ (s.pIndexWriter = none ∧ s.todo = [])

theorem inv_start (fileExists : Bool) : Inv (start fileExists : LockState D) := ⟨rfl, fun _ => Or.inr ⟨rfl, rfl⟩⟩

/-- What a step can do. -/
theorem step_cases {s s' : LockState D} {e : Event D T} {o : Unit} (h : step P s e = some (s', o)) :
    (∃ dir m, e = .openIndex dir ∧ s.pIndexWriter = none ∧ s.todo = [] ∧ QIndexModifier.init dir dir.isNone = some m ∧
      s' = ⟨some m, s.hasLock, false, IndexWriter.initLock dir.isNone⟩) ∨
    (∃ c m m', e = .call c ∧ s.todo = [] ∧ s.pIndexWriter = some m ∧ m.call P c = some m' ∧
      s' = ⟨some m', s.hasLock, s.fileExists, m.callLock P c⟩) ∨
    (∃ m, e = .close ∧ s.todo = [] ∧ s.pIndexWriter = some m ∧ s' = ⟨none, s.hasLock, s.fileExists, m.base.closeLock⟩) ∨
    (∃ call todo, e = .lock ∧ s.todo = call :: todo ∧ (call = .obtain → s.fileExists = false) ∧
      s' = ⟨s.pIndexWriter, if call = .clearLock then s.hasLock else call == .obtain, call == .obtain, todo⟩) ∨
    (e = .search ∧ s' = ⟨s.pIndexWriter, s.hasLock, false, s.todo⟩) := by
  cases e with
  | openIndex dir =>
    simp only [step, Option.ite_none_right_eq_some, Option.map_eq_some_iff, Prod.mk.injEq] at h
    obtain ⟨hc, m, hm, rfl, -⟩ := h
    exact Or.inl ⟨dir, m, rfl, Option.isNone_iff_eq_none.1 hc.1, hc.2, hm, rfl⟩
  | call c =>
    simp only [step, Option.ite_none_right_eq_some, Option.bind_eq_some_iff, Option.map_eq_some_iff, Prod.mk.injEq] at h
    obtain ⟨ht, m, hm, m', hm', rfl, -⟩ := h
    exact Or.inr (Or.inl ⟨c, m, m', rfl, ht, hm, hm', rfl⟩)
  | close =>
    simp only [step, Option.ite_none_right_eq_some, Option.map_eq_some_iff, Prod.mk.injEq] at h
    obtain ⟨ht, m, hm, rfl, -⟩ := h
    exact Or.inr (Or.inr (Or.inl ⟨m, rfl, ht, hm, rfl⟩))
  | lock =>
    refine Or.inr (Or.inr (Or.inr (Or.inl ?_)))
    simp only [step] at h
    split at h
    · exact absurd h (by simp)
    · rename_i todo ht
      simp only [Option.ite_none_left_eq_some, Option.some.injEq, Prod.mk.injEq, Bool.not_eq_true] at h
      obtain ⟨hf, rfl, -⟩ := h
      exact ⟨.obtain, todo, rfl, ht, fun _ => hf, rfl⟩
    · rename_i todo ht
      simp only [Option.some.injEq, Prod.mk.injEq] at h
      obtain ⟨rfl, -⟩ := h
      exact ⟨.release, todo, rfl, ht, fun hc => absurd hc (by decide), rfl⟩
    · rename_i todo ht
      simp only [Option.some.injEq, Prod.mk.injEq] at h
      obtain ⟨rfl, -⟩ := h
      exact ⟨.clearLock, todo, rfl, ht, fun hc => absurd hc (by decide), rfl⟩
  | search =>
    simp only [step, Option.some.injEq, Prod.mk.injEq] at h
    obtain ⟨rfl, -⟩ := h
    exact Or.inr (Or.inr (Or.inr (Or.inr ⟨rfl, rfl⟩)))

theorem Inv.idle {s : LockState D} (hs : s.Inv) (ht : s.todo = []) :
    s.hasLock = s.pIndexWriter.any fun m => m.base.locked := by
  have hr := hs.replays
  rwa [ht, replay, Option.some.injEq] at hr

theorem inv_step {s s' : LockState D} {e : Event D T} {o : Unit} (hs : s.Inv) (h : step P s e = some (s', o)) :
    s'.Inv := by
  -- a file while the modifier is open is the worker's
  have hown : ∀ m, s.pIndexWriter = some m → s.fileExists = true → s.hasLock = true := by
    intro m hm hf
    rcases hs.own hf with hl | ⟨hn, -⟩
    · exact hl
    · rw [hm] at hn
      exact absurd hn (by simp)
  rcases step_cases h with ⟨dir, m, -, hn, ht, hm, rfl⟩ | ⟨c, m, m', -, ht, hm, hm', rfl⟩ | ⟨m, -, ht, hm, rfl⟩ |
    ⟨call, todo, -, ht, hfile, rfl⟩ | ⟨-, rfl⟩
  · have hlock := hs.idle ht
    rw [hn, Option.any_none] at hlock
    refine ⟨?_, fun hf => absurd hf (by simp)⟩
    rw [hlock, Option.any_some]
    exact QIndexModifier.replay_init hm
  · have hlock := hs.idle ht
    rw [hm, Option.any_some] at hlock
    refine ⟨?_, fun hf => Or.inl (hown m hm hf)⟩
    rw [hlock, Option.any_some]
    exact QIndexModifier.replay_call hm'
  · have hlock := hs.idle ht
    rw [hm, Option.any_some] at hlock
    refine ⟨?_, fun hf => Or.inl (hown m hm hf)⟩
    rw [hlock, Option.any_none]
    exact m.base.replay_close
  · have hr := hs.replays
    rw [ht] at hr
    cases call with
    | obtain =>
      simp only [replay, Option.ite_none_left_eq_some] at hr
      exact ⟨hr.2, fun _ => Or.inl rfl⟩
    | release =>
      simp only [replay, Option.ite_none_right_eq_some] at hr
      exact ⟨hr.2, fun hf => absurd hf (by simp)⟩
    | clearLock =>
      simp only [replay, Option.ite_none_left_eq_some, Bool.not_eq_true] at hr
      refine ⟨?_, fun hf => absurd hf (by simp)⟩
      rw [if_pos rfl, hr.1]
      exact hr.2
  · exact ⟨hs.replays, fun hf => absurd hf (by simp)⟩

/-- **A call on the lock goes through**, whatever searches do: the file is not there when it
is to be created. -/
theorem lock_goes_through {s : LockState D} (hs : s.Inv) (ht : s.todo ≠ []) : ∃ s', step P s .lock = some (s', ()) := by
  have hr := hs.replays
  cases htodo : s.todo with
  | nil => exact absurd htodo ht
  | cons call todo =>
    rw [htodo] at hr
    cases call with
    | obtain =>
      simp only [replay, Option.ite_none_left_eq_some] at hr
      have hfile : s.fileExists = false := by
        by_contra hf
        rcases hs.own (by simpa using hf) with h1 | ⟨-, h1⟩
        · exact hr.1 h1
        · exact ht h1
      exact ⟨_, by simp only [step, htodo, hfile]; rfl⟩
    | release => exact ⟨_, by simp only [step, htodo]; rfl⟩
    | clearLock => exact ⟨_, by simp only [step, htodo]; rfl⟩

/-- The file is there whenever the lock is held. -/
def Kept (s : LockState D) : Prop := s.hasLock = true → s.fileExists = true

/-- Only a search can take the file from the lock. -/
theorem kept_step {s s' : LockState D} {e : Event D T} {o : Unit} (hs : s.Inv ∧ s.Kept)
    (he : e = .search → s.hasLock = false) (h : step P s e = some (s', o)) : s'.Inv ∧ s'.Kept := by
  obtain ⟨hinv, hkept⟩ := hs
  refine ⟨inv_step hinv h, fun hl => ?_⟩
  rcases step_cases h with ⟨dir, m, -, hn, ht, -, rfl⟩ | ⟨c, m, m', -, -, -, -, rfl⟩ | ⟨m, -, -, -, rfl⟩ |
    ⟨call, todo, -, ht, -, rfl⟩ | ⟨hsearch, rfl⟩
  · have hlock := hinv.idle ht
    rw [hn, Option.any_none] at hlock
    exact absurd hl (by simp [hlock])
  · exact hkept hl
  · exact hkept hl
  · have hr := hinv.replays
    rw [ht] at hr
    cases call with
    | obtain => rfl
    | release => exact absurd hl (by simp)
    | clearLock =>
      simp only [replay, Option.ite_none_left_eq_some] at hr
      exact absurd hl hr.1
  · exact absurd hl (by simp [he hsearch])

/-- **`write.lock` is there whenever the lock is held** exactly if no search comes while it is
held. Between operations it is held where the writer is open, or the reader with deletions
to commit. -/
theorem write_lock_kept_iff (P : Engine D T) (fileExists : Bool) (es : List (Event D T)) :
    ((∀ es₁ es₂ s os, es = es₁ ++ es₂ → Machine.run (step P) (start fileExists) es₁ = some (s, os) → s.Kept) ↔
      Machine.Meets (step P) (fun s e => e = .search → s.hasLock = false) (start fileExists) es) ∧
    ∀ s os, Machine.run (step P) (start fileExists) es = some (s, os) → s.todo = [] →
      (s.hasLock = true ↔ ∃ m, s.pIndexWriter = some m ∧ m.base.locked = true) := by
  refine ⟨⟨?_, ?_⟩, ?_⟩
  · intro hkept
    rw [Machine.meets_iff]
    intro es₁ e es₂ s os hes hrun he
    subst he
    -- in the state after the search the file is gone
    have hnext : Machine.run (step P) (start fileExists) (es₁ ++ [.search]) = some (s.lucyOpen, os ++ [()]) :=
      Machine.run_append.2 ⟨s, os, [()], hrun, rfl, rfl⟩
    have hgone := hkept _ es₂ _ _ (by rw [hes]; simp) hnext
    by_contra hl
    have hl' : s.lucyOpen.hasLock = true := by simpa [lucyOpen] using hl
    exact absurd (hgone hl') (by simp [lucyOpen])
  · intro hmeets es₁ es₂ s os hes hrun
    rw [hes] at hmeets
    have hinv := Machine.run_invariant_meets (I := fun s : LockState D => s.Inv ∧ s.Kept)
      (fun s e s' o hs he h => kept_step hs he h) hmeets.append ⟨inv_start fileExists, fun h => absurd h (by simp [start])⟩ hrun
    exact hinv.2
  · intro s os hrun htodo
    have hinv : s.Inv := Machine.run_invariant (fun s e s' o hs h => inv_step hs h) (inv_start fileExists) hrun
    have hr := hinv.replays
    rw [htodo, replay, Option.some.injEq] at hr
    rw [hr, Option.any_eq_true]

/-- A new index: the writer gets the lock, a search takes the file away, and the writer goes
on as if it had it. -/
theorem search_unlocks : ∃ s os,
    Machine.run (step sampleEnv.engine) (start false) [.openIndex none, .lock, .lock, .search] = some (s, os) ∧
      s.hasLock = true ∧ s.fileExists = false := ⟨_, _, rfl, rfl, rfl⟩

end LockState

end QDesktopSearch
