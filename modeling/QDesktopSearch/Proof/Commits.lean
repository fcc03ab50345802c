import QDesktopSearch.Proof.Completeness
import QDesktopSearch.Proof.Reindex

/-!
# What an index directory goes through during a round

* `Through`: the commits of an operation end in the one that it leaves, and the documents of
  each satisfy `Q`.
* `dir_through`, `del_through`, `round_through`: a round commits nothing but what `Q` holds of,
  where `Q` holds after every part of the pass and of fewer documents.
* `round_commits`, `openIndex_commits`: the last commit of an event is the one its root is left with.
-/

namespace QDesktopSearch

open Slots

variable {D T : Type*} {P : Engine D T}

/-! ## The documents of a commit -/

theorem IndexReader.commits_docs {r : IndexReader D} {si : SegmentInfos D} (h : si ∈ r.commits) : si.docs = r.docs := by
  unfold commits at h
  split at h
  · rw [List.mem_singleton] at h
    rw [h]; rfl
  · exact absurd h List.not_mem_nil

namespace IndexModifier

variable {m : IndexModifier D} {si : SegmentInfos D}

/-- To open the reader commits what is buffered. -/
theorem createIndexReaderCommits_all (h : si ∈ m.createIndexReaderCommits P) : si.docs = m.docs := by
  cases m with
  | writer w => rw [docs_writer]; exact IndexWriter.flushCommits_docs h
  | reader r => exact absurd h List.not_mem_nil

theorem createIndexReaderCommits_of_buffered (h : m.buffered = []) : m.createIndexReaderCommits P = [] := by
  cases m with
  | writer w =>
    have hw : w.docWriter = [] := h
    simp [createIndexReaderCommits, IndexWriter.flushCommits, hw]
  | reader r => rfl

theorem flushCommits_docs (h : si ∈ m.flushCommits P) : si.docs = m.docs := by
  cases m with
  | writer w => rw [docs_writer]; exact IndexWriter.flushCommits_docs h
  | reader r => exact IndexReader.commits_docs h

end IndexModifier

namespace QIndexModifier

variable {m : QIndexModifier D} {si : SegmentInfos D}

theorem flushCommits_docs (h : si ∈ m.flushCommits P) : si.docs = m.docs := by
  unfold flushCommits at h
  split at h
  · have hreader : (m.getIndexReader P).2.docs = m.docs := IndexModifier.createIndexReader_docs
    have hcommit : (m.getIndexReader P).2.commit.docs = m.docs := by
      rw [← hreader]
      simp only [IndexReader.docs, IndexReader.slots, IndexReader.commit_segments]
    rw [List.mem_append, List.mem_append] at h
    rcases h with (h | h) | h
    · exact IndexModifier.createIndexReaderCommits_all h
    · exact (IndexReader.commits_docs h).trans hreader
    · exact (IndexModifier.flushCommits_docs h).trans hcommit
  · exact IndexModifier.flushCommits_docs h

theorem addDocumentCommits_docs {d : D} (h : si ∈ m.addDocumentCommits P d) :
    si.docs = m.docs ∨ si.docs = m.docs ++ [d] := by
  have hwriter : m.base.createIndexWriter.docs = m.docs := IndexModifier.createIndexWriter_docs
  rcases List.mem_append.1 h with h | h
  · left
    obtain ⟨base, b⟩ := m
    cases base with
    | writer w => exact absurd h List.not_mem_nil
    | reader r => exact IndexReader.commits_docs h
  · right
    rw [IndexWriter.addDocumentCommits_docs h, hwriter]

end QIndexModifier

/-! ## Operations of `lucyindexer` -/

/-- From what `l` has committed the directory goes through these commits to what `l'` has
committed, and the documents of each satisfy `Q`. -/
structure Through (Q : List Document → Prop) (l : Lucyindexer) (cs : List (SegmentInfos Document)) (l' : Lucyindexer) :
    Prop where
  last : lastCommit l.committed cs = l'.committed
  all : ∀ si ∈ cs, Q si.docs

variable {E : Env} {Q : List Document → Prop} {l l' l'' : Lucyindexer} {cs cs' : List (SegmentInfos Document)}

theorem Through.refl : Through Q l [] l := ⟨rfl, fun _ h => absurd h List.not_mem_nil⟩

theorem Through.trans (h : Through Q l cs l') (h' : Through Q l' cs' l'') : Through Q l (cs ++ cs') l'' := by
  refine ⟨?_, fun si hsi => ?_⟩
  · rw [lastCommit_append, h.last, h'.last]
  · rcases List.mem_append.1 hsi with hsi | hsi
    · exact h.all si hsi
    · exact h'.all si hsi

namespace Lucyindexer

variable {s : QString} {metas : QMap QStringList} {finfo : QFileInfo}

theorem isIndexed_through (hl : Q l.docs) : Through Q l (l.isIndexedCommits E) (l.isIndexed E s finfo).1 := by
  unfold isIndexedCommits isIndexed
  split
  · exact Through.refl
  · refine ⟨IndexModifier.lastCommit_createIndexReader, fun si hsi => ?_⟩
    rw [IndexModifier.createIndexReaderCommits_all hsi]
    exact hl

theorem flush_through {b : Bool} (hl : Q l.docs) :
    Through Q l (l.onIndexerThreadFinishedCommits E) (l.onIndexerThreadFinished E b) := by
  have hlast : lastCommit l.committed (l.onIndexerThreadFinishedCommits E) =
      (l.pIndexWriter.flush E.engine).committed := QIndexModifier.lastCommit_flush
  refine ⟨?_, fun si hsi => ?_⟩
  · rw [hlast]
    unfold onIndexerThreadFinished
    split <;> rfl
  · rw [QIndexModifier.flushCommits_docs hsi]
    exact hl

theorem delDoc_through {f v : QString} (hsub : ∀ A B, B.Sublist A → Q A → Q B) (hl : Q l.docs) :
    Through Q l (l.delDocCommits E f v) (l.delDoc E f v).1 := by
  refine ⟨lastCommit_delDoc, fun si hsi => ?_⟩
  have hdel : (l.pIndexWriter.deleteDocuments E.engine ⟨f, v⟩).1.docs.Sublist l.docs := by
    rw [QIndexModifier.deleteDocuments_docs]
    exact List.filter_sublist
  rcases List.mem_append.1 hsi with hsi | hsi
  · -- what was buffered, before the deletion
    rw [IndexModifier.createIndexReaderCommits_all hsi]
    exact hl
  · split at hsi
    · rw [QIndexModifier.flushCommits_docs hsi]
      exact hsub _ _ hdel hl
    · exact absurd hsi List.not_mem_nil

theorem index_through (hsub : ∀ A B, B.Sublist A → Q A → Q B) (hl : Q l.docs) (hnew : Q (l.index E s metas finfo).docs) :
    Through Q l (l.indexCommits E s metas finfo) (l.index E s metas finfo) := by
  refine ⟨lastCommit_index, fun si hsi => ?_⟩
  have hold : Q (l.withoutOld E (normalizePath E.qt s false)).docs := by
    refine hsub _ _ ?_ hl
    rw [withoutOld_docs]
    split
    · exact List.Sublist.refl _
    · exact List.filter_sublist
  rw [index_eq, optimized_docs, withNew_docs] at hnew
  rw [indexCommits_eq, List.mem_append, List.mem_append] at hsi
  rcases hsi with (hsi | hsi) | hsi
  · split at hsi
    · exact (delDoc_through hsub hl).all si hsi
    · exact absurd hsi List.not_mem_nil
  · rcases QIndexModifier.addDocumentCommits_docs hsi with he | he
    · rw [he]; exact hold
    · rw [he]; exact hnew
  · dsimp only at hsi
    split at hsi
    · have he := QIndexModifier.flushCommits_docs hsi
      rw [he, show QIndexModifier.docs _ = _ from withNew_docs]
      exact hnew
    · exact absurd hsi List.not_mem_nil

/-- **`close`** commits all live documents, and leaves the last commit. -/
theorem closeCommits_spec (l : Lucyindexer) : l.close E = some (lastCommit l.committed (l.closeCommits E)) ∧
    ∀ si ∈ l.closeCommits E, si.docs = l.docs := by
  refine ⟨?_, fun si hsi => IndexModifier.flushCommits_docs hsi⟩
  have hlast : lastCommit l.committed (l.closeCommits E) = (l.pIndexWriter.base.flush E.engine).committed :=
    IndexModifier.lastCommit_flush
  rw [hlast]
  unfold close QIndexModifier.close
  cases hbase : l.pIndexWriter.base with
  | writer w => rfl
  | reader r => rfl

end Lucyindexer

/-! ## A pass -/

namespace Worker

variable {w w₁ : Worker} {fs : FileSystem} {p next : QString} {it : List QString} {finfo : QFileInfo}

theorem file_through (hsub : ∀ A B, B.Sublist A → Q A → Q B) (hl : Q w.pLucyIndexer.docs)
    (hnew : Q (w.file E fs p finfo).pLucyIndexer.docs) :
    Through Q w.pLucyIndexer (w.fileCommits E fs p finfo) (w.file E fs p finfo).pLucyIndexer := by
  unfold file fileCommits at *
  dsimp only at hnew ⊢
  generalize normalizePath E.qt p false = q at hnew ⊢
  cases hown : ownIndex q with
  | true => exact Through.refl
  | false =>
    simp only [hown, Bool.false_eq_true, ↓reduceIte] at hnew ⊢
    rcases h₁ : ({ w with iFoundFiles := w.iFoundFiles + 1 } : Worker).isInterruptionRequested with ⟨b, w₁⟩
    have hw₁ := isInterruptionRequested_indexer h₁
    change w₁.pLucyIndexer = w.pLucyIndexer at hw₁
    cases b with
    | true =>
      dsimp only
      rw [hw₁]
      exact Through.refl
    | false =>
    rw [h₁] at hnew
    dsimp only at hnew ⊢
    -- the lookup
    have hlook : Through Q w.pLucyIndexer (w₁.pLucyIndexer.isIndexedCommits E) (w₁.isIndexed E q finfo).2.pLucyIndexer := by
      rw [← hw₁] at hl ⊢
      exact Lucyindexer.isIndexed_through hl
    have hdocs : (w₁.isIndexed E q finfo).2.pLucyIndexer.docs = w.pLucyIndexer.docs := by
      rw [← hw₁]
      exact Lucyindexer.isIndexed_docs
    rcases h₂ : w₁.isIndexed E q finfo with ⟨_ | _, w₂⟩
    swap
    · rw [h₂] at hlook
      exact hlook
    rw [h₂] at hlook hdocs hnew
    dsimp only at hlook hdocs hnew ⊢
    rcases h₃ : w₂.isInterruptionRequested with ⟨_ | _, w₃⟩
    swap
    · dsimp only
      rw [isInterruptionRequested_indexer h₃]
      exact hlook
    have hw₃ : w₃.pLucyIndexer = w₂.pLucyIndexer := isInterruptionRequested_indexer h₃
    rw [h₃] at hnew
    dsimp only at hnew ⊢
    rcases h₄ : w₃.isInterruptionRequested with ⟨_ | _, w₄⟩
    swap
    · dsimp only
      rw [isInterruptionRequested_indexer h₄, hw₃]
      exact hlook
    -- past all three checks
    have hw₄ : w₄.pLucyIndexer = w₂.pLucyIndexer := (isInterruptionRequested_indexer h₄).trans hw₃
    rw [h₄] at hnew
    dsimp only at hnew ⊢
    rw [hw₄] at hnew ⊢
    exact hlook.trans (Lucyindexer.index_through hsub (hdocs ▸ hl) hnew)

/-- The commits of one round of the loop of `dir`, past its check. -/
def enterCommits (E : Env) (fs : FileSystem) (w : Worker) (next : QString) : List (SegmentInfos Document) :=
  match fs.stat (normalizePath E.qt next false) with
  | none => []
  | some finfo => if finfo.isFile then w.fileCommits E fs (normalizePath E.qt next false) finfo else []

theorem dirCommits_cons (h : w.isInterruptionRequested = (false, w₁)) :
    w.dirCommits E fs (next :: it) = w₁.enterCommits E fs next ++ (w₁.enter E fs next).dirCommits E fs it := by
  rw [dirCommits, h, enterCommits, enter]
  dsimp only
  cases fs.stat (normalizePath E.qt next false) with
  | none => rfl
  | some finfo =>
    dsimp only
    split <;> rfl

theorem enter_through (hsub : ∀ A B, B.Sublist A → Q A → Q B) (hl : Q w.pLucyIndexer.docs)
    (hnew : Q (w.enter E fs next).pLucyIndexer.docs) :
    Through Q w.pLucyIndexer (w.enterCommits E fs next) (w.enter E fs next).pLucyIndexer := by
  cases hstat : fs.stat (normalizePath E.qt next false) with
  | none =>
    simp only [enter, enterCommits, hstat]
    exact Through.refl
  | some finfo =>
    simp only [enter, enterCommits, hstat] at hnew ⊢
    split
    · rename_i hfile
      rw [if_pos hfile] at hnew
      exact file_through hsub hl hnew
    · exact Through.refl

/-- **A pass commits what `Q` holds of**, where every beginning of it leaves such documents. -/
theorem dir_through (hsub : ∀ A B, B.Sublist A → Q A → Q B)
    (h : ∀ it₁, it₁ <+: it → Q (w.dir E fs it₁).pLucyIndexer.docs) :
    Through Q w.pLucyIndexer (w.dirCommits E fs it) (w.dir E fs it).pLucyIndexer := by
  induction it generalizing w with
  | nil => exact Through.refl
  | cons next it ih =>
    have hl : Q w.pLucyIndexer.docs := h [] List.nil_prefix
    rcases hirq : w.isInterruptionRequested with ⟨b, w₁⟩
    have hw₁ := isInterruptionRequested_indexer hirq
    cases b with
    | true =>
      rw [dir_cons_interrupted hirq, dirCommits, hirq, hw₁]
      exact Through.refl
    | false =>
      have hrest : ∀ it₁, it₁ <+: it → Q ((w₁.enter E fs next).dir E fs it₁).pLucyIndexer.docs := by
        intro it₁ hpre
        have hcons := h (next :: it₁) (List.cons_prefix_cons.2 ⟨rfl, hpre⟩)
        rwa [dir_cons hirq] at hcons
      have hentered : Q (w₁.enter E fs next).pLucyIndexer.docs := hrest [] List.nil_prefix
      rw [dir_cons hirq, dirCommits_cons hirq]
      rw [← hw₁] at hl ⊢
      exact (enter_through hsub hl hentered).trans (ih hrest)

/-! ## The purge -/

/-- The scan has its reader open and commits nothing. -/
theorem scanCommits_eq {sl : List (Slot Document)} {s : Scan} {n : ℕ} (hst : s.modifier.Steady sl) (hn : n ≤ sl.length)
    (hstored : ∀ d ∈ live sl, d.Stored) : scanCommits E fs n s = [] := by
  induction n generalizing s sl with
  | zero => rfl
  | succ n ih =>
    obtain ⟨s₁, brk, doc?, hscan, h₁, -, -⟩ :=
      scanDoc_spec (i := n) hst (by omega) fun d hd => hstored d hd.mem
    have hnone : s.worker.pLucyIndexer.pIndexWriter.base.createIndexReaderCommits E.engine = [] :=
      IndexModifier.createIndexReaderCommits_of_buffered hst.buffered
    rw [scanCommits, hscan, hnone]
    cases brk with
    | true => simp
    | false =>
      have hstored₁ : ∀ d ∈ live (marks sl (doc?.toList.map (·.iDocNr))), d.Stored :=
        fun d hd => hstored d ((live_marks_sublist _).subset hd)
      have hrest := ih h₁.steady (by rw [marks_length]; omega) hstored₁
      simp [hrest]

theorem delDocs_through {ds : List DOC} (hsub : ∀ A B, B.Sublist A → Q A → Q B) (hl : Q w.pLucyIndexer.docs) :
    Through Q w.pLucyIndexer (delDocsCommits E w ds) (delDocs E w ds).pLucyIndexer := by
  induction ds generalizing w with
  | nil => exact Through.refl
  | cons doc ds ih =>
    rcases hirq : w.isInterruptionRequested with ⟨b, w₁⟩
    have hw₁ := isInterruptionRequested_indexer hirq
    rw [delDocsCommits, delDocs, hirq]
    cases b with
    | true =>
      dsimp only
      rw [hw₁]
      exact Through.refl
    | false =>
      rw [← hw₁] at hl ⊢
      dsimp only
      split
      · exact ih hl
      · have hdel : Through Q w₁.pLucyIndexer _ _ := Lucyindexer.delDoc_through (E := E) (f := ID_FNANDDATE)
          (v := doc.sid_fnanddate) hsub hl
        refine hdel.trans (ih (w := { w₁ with pLucyIndexer := _ }) ?_)
        rw [Lucyindexer.delDoc_docs]
        exact hsub _ _ List.filter_sublist hl

/-- **The parts `del` and `opt again`** commit what `Q` holds of. -/
theorem del_through {r : Round} {w' : Worker} {b : Bool} (hsub : ∀ A B, B.Sublist A → Q A → Q B)
    (hbuf : w.pLucyIndexer.pIndexWriter.buffered = []) (hstored : AllStored w.pLucyIndexer.docs)
    (hl : Q w.pLucyIndexer.docs) (h : w.del E r = some (w', b)) :
    Through Q w.pLucyIndexer (w.delCommits E r) w'.pLucyIndexer := by
  rcases h₀ : w.isInterruptionRequested with ⟨b₀, w₀⟩
  have hw₀ := isInterruptionRequested_indexer h₀
  unfold del at h
  unfold delCommits
  rw [h₀] at h ⊢
  cases b₀ with
  | true =>
    simp only [Option.some.injEq, Prod.mk.injEq] at h
    rw [← h.1, hw₀]
    exact Through.refl
  | false =>
    have hst : w₀.Steady w.pLucyIndexer.pIndexWriter.slots := (steady_of_buffered hbuf).check h₀
    obtain ⟨s, ds, hscan, hs, -, -⟩ := scan_spec (E := E) (s := ⟨w₀, [], []⟩) r.fsDel hst hst.docCount_le hstored
    have hnone : scanCommits E r.fsDel w₀.pLucyIndexer.pIndexWriter.docCount ⟨w₀, [], []⟩ = [] :=
      scanCommits_eq hst hst.docCount_le hstored
    change scan E r.fsDel w₀.pLucyIndexer.pIndexWriter.docCount ⟨w₀, [], []⟩ = some s at hscan
    -- the scan deletes in memory, the second loop commits
    have hscanned : Through Q w.pLucyIndexer [] s.worker.pLucyIndexer := by
      refine ⟨?_, fun si hsi => absurd hsi List.not_mem_nil⟩
      rw [← hw₀]
      exact hs.committed.symm
    have hdocs : s.worker.pLucyIndexer.docs = live (marks w.pLucyIndexer.pIndexWriter.slots (ds.map (·.iDocNr))) :=
      QIndexModifier.Steady.docs hs.steady
    have hQ : Q s.worker.pLucyIndexer.docs := by
      rw [hdocs]
      exact hsub _ _ (live_marks_sublist _) hl
    have hdel : Through Q s.worker.pLucyIndexer (delDocsCommits E s.worker s.docs2BeDeleted) _ := delDocs_through hsub hQ
    simp only [delDeletedFilesFromIdx, hscan, Option.map_some, bind, Option.bind_some, pure] at h
    simp only [hnone, hscan, List.nil_append]
    refine hscanned.trans (hdel.trans ?_)
    have hQ' : Q (delDocs E s.worker s.docs2BeDeleted).pLucyIndexer.docs := by
      obtain ⟨ns, hns, -⟩ := delDocs_steady (E := E) s.docs2BeDeleted hs.steady
      rw [hns.docs]
      exact hsub _ _ (live_marks_sublist _) (hdocs ▸ hQ)
    rcases h₁ : (delDocs E s.worker s.docs2BeDeleted).isInterruptionRequested with ⟨b₁, w₁⟩
    have hw₁ := isInterruptionRequested_indexer h₁
    rw [h₁] at h
    by_cases h999 : s.docs2BeDeleted.length > 999
    · rw [if_pos h999] at h ⊢
      cases b₁ with
      | true =>
        simp only [Option.some.injEq, Prod.mk.injEq] at h
        rw [← h.1, hw₁]
        exact Through.refl
      | false =>
        simp only [Option.some.injEq, Prod.mk.injEq] at h
        rw [← hw₁] at hQ' ⊢
        rw [← h.1]
        exact Lucyindexer.flush_through (E := E) (b := true) hQ'
    · rw [if_neg h999] at h ⊢
      simp only [Option.some.injEq, Prod.mk.injEq] at h
      rw [← h.1]
      exact Through.refl

/-- **The parts `idx` and `opt`** commit what `Q` holds of. -/
theorem idx_through {r : Round} (hsub : ∀ A B, B.Sublist A → Q A → Q B)
    (hdir : ∀ w₀ : Worker, w₀.pLucyIndexer = w.pLucyIndexer → ∀ it₁, it₁ <+: r.it →
      Q (w₀.dir E r.fs it₁).pLucyIndexer.docs) :
    Through Q w.pLucyIndexer (w.idxCommits E r) (w.idx E r).1.pLucyIndexer := by
  unfold idxCommits idx
  rcases h₀ : ({ w with iFoundFiles := 0, iIndexedFiles := 0 } : Worker).isInterruptionRequested with ⟨b₀, w₀⟩
  have hw₀ := isInterruptionRequested_indexer h₀
  change w₀.pLucyIndexer = w.pLucyIndexer at hw₀
  cases b₀ with
  | true =>
    dsimp only
    rw [hw₀]
    exact Through.refl
  | false =>
    have hpass : Through Q w.pLucyIndexer (w₀.dirCommits E r.fs r.it) (w₀.dir E r.fs r.it).pLucyIndexer := by
      rw [← hw₀]
      exact dir_through hsub (hdir w₀ hw₀)
    have hQ : Q (w₀.dir E r.fs r.it).pLucyIndexer.docs := hdir w₀ hw₀ r.it (List.prefix_refl _)
    dsimp only
    refine hpass.trans ?_
    rcases h₁ : (w₀.dir E r.fs r.it).isInterruptionRequested with ⟨b₁, w₁⟩
    rw [← isInterruptionRequested_indexer h₁] at hQ ⊢
    cases b₁ with
    | true => exact Through.refl
    | false => exact Lucyindexer.flush_through (E := E) (b := true) hQ

/-- **A round commits nothing but what `Q` holds of**, and leaves what it has committed last. -/
theorem round_through {r : Round} {irq : Option ℕ} {w' : Worker} {b : Bool} (hsub : ∀ A B, B.Sublist A → Q A → Q B)
    (hstored : ∀ A, Q A → AllStored A)
    (hdir : ∀ w₀ : Worker, w₀.pLucyIndexer = l → ∀ it₁, it₁ <+: r.it → Q (w₀.dir E r.fs it₁).pLucyIndexer.docs)
    (h : round E r ⟨l, 0, 0, irq⟩ = some (w', b)) : Through Q l (roundCommits E r ⟨l, 0, 0, irq⟩) w'.pLucyIndexer := by
  have hidx : Through Q l (idxCommits E r ⟨l, 0, 0, irq⟩) (idx E r ⟨l, 0, 0, irq⟩).1.pLucyIndexer :=
    idx_through (w := ⟨l, 0, 0, irq⟩) hsub hdir
  unfold round at h
  unfold roundCommits
  rcases idx_cases E r ⟨l, 0, 0, irq⟩ with ⟨hb, -⟩ | ⟨hb, w₀, w₁, hw₀, hw₁, he⟩
  · -- interrupted in `idx` or `opt`
    rcases hi : idx E r ⟨l, 0, 0, irq⟩ with ⟨w₂, b₂⟩
    rw [hi] at h hidx hb
    change b₂ = true at hb
    subst hb
    simp only [Option.some.injEq, Prod.mk.injEq] at h
    rw [← h.1, List.append_nil]
    exact hidx
  · rcases hi : idx E r ⟨l, 0, 0, irq⟩ with ⟨w₂, b₂⟩
    rw [hi] at h hidx hb he
    change b₂ = false at hb
    change w₂ = _ at he
    subst hb
    obtain ⟨hd, -, hbuf, -⟩ := onIndexerThreadFinished_spec (E := E) (w := w₁)
    have hQ : Q w₂.pLucyIndexer.docs := by
      rw [he, hd, hw₁]
      exact hdir w₀ hw₀ r.it (List.prefix_refl _)
    refine hidx.trans (del_through hsub ?_ (hstored _ hQ) hQ h)
    rw [he]
    exact hbuf

end Worker

/-! ## The events of a root -/

namespace Root

/-- What is in a directory after some commits. -/
def afterCommits (dir : Directory Document) (commits : List (SegmentInfos Document)) : Directory Document :=
  commits.foldl (fun _ si => some si) dir

theorem afterCommits_some {si : SegmentInfos Document} : afterCommits (some si) cs = some (lastCommit si cs) := by
  induction cs generalizing si with
  | nil => rfl
  | cons c cs ih => exact ih

/-- The last commit in the index directory of a root. -/
def committed : Root → Directory Document
  | stopped dir => dir
  | running l => some l.committed

/-- **The directory is where the model of a root says it is**, and has been at documents that
satisfy `Q` only. -/
theorem round_commits {r : Worker.Round} {irq : Option ℕ} {s' : Root} {o : Unit}
    (hsub : ∀ A B, B.Sublist A → Q A → Q B) (hstored : ∀ A, Q A → Worker.AllStored A) (hl : Q l.docs)
    (hdir : ∀ w₀ : Worker, w₀.pLucyIndexer = l → ∀ it₁, it₁ <+: r.it → Q (w₀.dir E r.fs it₁).pLucyIndexer.docs)
    (hs : step E (running l) (.round r irq) = some (s', o)) :
    afterCommits (some l.committed) ((running l).commits E (.round r irq)) = s'.committed ∧
      ∀ si ∈ (running l).commits E (.round r irq), Q si.docs := by
  obtain ⟨w', b, hround, hQ, -⟩ :=
    round_spec (E := E) (r := r) hsub hstored hl (fun w₀ hw₀ => hdir w₀ hw₀ r.it (List.prefix_refl _)) irq
  have hthrough := Worker.round_through hsub hstored hdir hround
  have hclose : ∀ w₂ : Worker, w₂.pLucyIndexer = w'.pLucyIndexer →
      some (lastCommit l.committed (Worker.roundCommits E r ⟨l, 0, 0, irq⟩ ++ w₂.pLucyIndexer.closeCommits E)) =
          w₂.pLucyIndexer.close E ∧
        ∀ si ∈ Worker.roundCommits E r ⟨l, 0, 0, irq⟩ ++ w₂.pLucyIndexer.closeCommits E, Q si.docs := by
    intro w₂ hw₂
    obtain ⟨hlast, hdocs⟩ := w'.pLucyIndexer.closeCommits_spec (E := E)
    rw [hw₂]
    refine ⟨?_, fun si hsi => ?_⟩
    · rw [lastCommit_append, hthrough.last, hlast]
    · rcases List.mem_append.1 hsi with hsi | hsi
      · exact hthrough.all si hsi
      · rw [hdocs si hsi]; exact hQ
  simp only [step, hround, Option.map_some, Option.some.injEq] at hs
  rw [afterCommits_some]
  simp only [commits, hround]
  cases b with
  | true =>
    simp only [Prod.mk.injEq] at hs
    rw [← hs.1]
    exact hclose w' rfl
  | false =>
    rcases h₂ : w'.wait E.iWait with ⟨w₂, b₂⟩
    have hw₂ := Worker.wait_indexer h₂
    dsimp only at hs ⊢
    rw [h₂] at hs ⊢
    cases b₂ with
    | true =>
      simp only [Prod.mk.injEq] at hs
      rw [← hs.1]
      exact hclose w₂ hw₂
    | false =>
      simp only [Prod.mk.injEq] at hs
      rw [← hs.1, List.append_nil, committed, hw₂, hthrough.last]
      exact ⟨rfl, hthrough.all⟩

/-- `openIndex` leaves the directory with the index that it opens. -/
theorem openIndex_commits {dir : Directory Document} {s' : Root} {o : Unit}
    (hs : step E (stopped dir) .openIndex = some (s', o)) :
    afterCommits dir ((stopped dir).commits E .openIndex) = s'.committed ∧
      ∀ si ∈ (stopped dir).commits E .openIndex, si.docs = [] := by
  simp only [step, Option.map_eq_some_iff, Prod.mk.injEq] at hs
  obtain ⟨l, hl, rfl, -⟩ := hs
  simp only [Lucyindexer.open?, QIndexModifier.init, IndexModifier.init, IndexWriter.init, Option.map_eq_some_iff] at hl
  obtain ⟨m, ⟨b, ⟨wr, hw, rfl⟩, rfl⟩, rfl⟩ := hl
  cases dir with
  | none =>
    simp only [Option.isNone_none, ↓reduceIte, Option.some.injEq] at hw
    subst hw
    refine ⟨rfl, fun si hsi => ?_⟩
    have he : si = [] := List.mem_singleton.1 hsi
    rw [he]; rfl
  | some si =>
    simp only [Option.isNone_some, Bool.false_eq_true, ↓reduceIte, Option.map_some, Option.some.injEq] at hw
    subst hw
    exact ⟨rfl, fun si hsi => absurd hsi List.not_mem_nil⟩

end Root

end QDesktopSearch
