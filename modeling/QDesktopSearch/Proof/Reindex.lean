import QDesktopSearch.Model.Commits
import QDesktopSearch.Proof.Session

/-!
# What the directory holds while a file is indexed again

`delDoc` commits the deletion of the old version on its own, before the new one is added.

* `lastCommit_index`: the commits of `index` end in the one that `index` leaves.
* `index_versions`: they hold the version there was, then none, then the new one.
* `index_leaves_none`: a run in which the process can stop with no version committed.
-/

namespace QDesktopSearch

open Slots

variable {D T : Type*} {P : Engine D T}

/-! ## The commits end where the operation ends -/

@[simp] theorem lastCommit_nil {si : SegmentInfos D} : lastCommit si [] = si := rfl

theorem lastCommit_append {si : SegmentInfos D} {cs cs' : List (SegmentInfos D)} :
    lastCommit si (cs ++ cs') = lastCommit (lastCommit si cs) cs' := List.foldl_append

theorem lastCommit_scanl {α : Type*} {f : SegmentInfos D → α → SegmentInfos D} {si si' : SegmentInfos D} {as : List α} :
    lastCommit si (as.scanl f si') = as.foldl f si' := by
  induction as generalizing si si' with
  | nil => rfl
  | cons a as ih =>
    rw [List.scanl_cons, List.foldl_cons]
    exact ih

namespace IndexWriter

variable {w : IndexWriter D}

theorem lastCommit_flush : lastCommit w.segmentInfos (w.flushCommits P) = (w.flush P).segmentInfos := by
  unfold flushCommits flush doFlush
  by_cases h : w.docWriter = []
  · simp [h]
  · simp only [h, ↓reduceIte]
    exact lastCommit_scanl

theorem scanl_merge_docs {rs : List (ℕ × ℕ)} {si₀ si : SegmentInfos D}
    (h : si ∈ rs.scanl (fun si r => si.merge r.1 r.2) si₀) : si.docs = si₀.docs := by
  induction rs generalizing si₀ with
  | nil =>
    rw [List.scanl_nil, List.mem_singleton] at h
    rw [h]
  | cons r rs ih =>
    rw [List.scanl_cons, List.mem_cons] at h
    rcases h with rfl | h
    · rfl
    · rw [ih h, SegmentInfos.docs_merge]

/-- Every commit of a flush holds all documents of the writer. -/
theorem flushCommits_docs {si : SegmentInfos D} (h : si ∈ w.flushCommits P) : si.docs = w.docs := by
  unfold flushCommits at h
  split at h
  · exact absurd h List.not_mem_nil
  · rw [scanl_merge_docs h]
    simp [docs, SegmentInfos.docs]

theorem lastCommit_addDocument (d : D) :
    lastCommit w.segmentInfos (w.addDocumentCommits P d) = (w.addDocument P d).segmentInfos := by
  have hflush := lastCommit_flush (P := P) (w := { w with docWriter := w.docWriter ++ [d] })
  unfold addDocumentCommits addDocument
  dsimp only
  split
  · exact hflush
  · rfl

theorem addDocumentCommits_docs {d : D} {si : SegmentInfos D} (h : si ∈ w.addDocumentCommits P d) :
    si.docs = w.docs ++ [d] := by
  unfold addDocumentCommits at h
  dsimp only at h
  split at h
  · rw [flushCommits_docs h]
    simp [docs]
  · exact absurd h List.not_mem_nil

end IndexWriter

theorem IndexReader.lastCommit_close {r : IndexReader D} : lastCommit r.committed r.commits = r.close := by
  unfold commits close commit
  split <;> rfl

namespace IndexModifier

variable {m : IndexModifier D} {t : T}

theorem lastCommit_createIndexReader :
    lastCommit m.committed (m.createIndexReaderCommits P) = (m.createIndexReader P).committed := by
  cases m with
  | writer w => exact IndexWriter.lastCommit_flush
  | reader r => rfl

theorem createIndexReaderCommits_docs {si : SegmentInfos D} (h : si ∈ m.createIndexReaderCommits P) :
    si.docs = m.committed.docs ++ m.buffered := by
  cases m with
  | writer w => exact IndexWriter.flushCommits_docs h
  | reader r => exact absurd h List.not_mem_nil

theorem lastCommit_flush : lastCommit m.committed (m.flushCommits P) = (m.flush P).committed := by
  cases m with
  | writer w => exact IndexWriter.lastCommit_flush
  | reader r => exact IndexReader.lastCommit_close

theorem lastCommit_addDocument (d : D) :
    lastCommit m.committed (m.addDocumentCommits P d) = (m.addDocument P d).committed := by
  unfold addDocumentCommits
  rw [lastCommit_append]
  have hw : lastCommit m.committed m.createIndexWriterCommits = m.createIndexWriter.segmentInfos := by
    cases m with
    | writer w => rfl
    | reader r => exact IndexReader.lastCommit_close
  rw [hw]
  exact IndexWriter.lastCommit_addDocument d

end IndexModifier

namespace QIndexModifier

variable {m : QIndexModifier D} {t : T}

theorem lastCommit_deleteDocuments :
    lastCommit m.committed (m.deleteDocumentsCommits P) = (m.deleteDocuments P t).1.committed := by
  have h : (m.deleteDocuments P t).1.committed = (m.base.createIndexReader P).committed :=
    IndexReader.deleteDocuments_committed
  rw [h]
  exact IndexModifier.lastCommit_createIndexReader

theorem lastCommit_flush : lastCommit m.committed (m.flushCommits P) = (m.flush P).committed := by
  unfold flushCommits flush
  split
  · rw [lastCommit_append, lastCommit_append]
    have h₁ : lastCommit m.committed (m.base.createIndexReaderCommits P) = (m.base.createIndexReader P).committed :=
      IndexModifier.lastCommit_createIndexReader
    have h₂ : ∀ r : IndexReader D, lastCommit r.committed r.commits = r.commit.committed :=
      fun r => IndexReader.lastCommit_close
    rw [h₁]
    show lastCommit (lastCommit _ (m.base.createIndexReader P).commits) _ = _
    rw [h₂]
    have h₃ := IndexModifier.lastCommit_flush (P := P) (m := .reader (m.getIndexReader P).2.commit)
    exact h₃
  · exact IndexModifier.lastCommit_flush

theorem lastCommit_addDocument (d : D) :
    lastCommit m.committed (m.addDocumentCommits P d) = (m.addDocument P d).committed :=
  IndexModifier.lastCommit_addDocument d

end QIndexModifier

namespace Lucyindexer

variable {E : Env} {l : Lucyindexer} {s : QString} {metas : QMap QStringList} {finfo : QFileInfo}

theorem lastCommit_delDoc {f v : QString} :
    lastCommit l.committed (l.delDocCommits E f v) = (l.delDoc E f v).1.committed := by
  have hdel : lastCommit l.committed (l.pIndexWriter.deleteDocumentsCommits E.engine) =
      (l.pIndexWriter.deleteDocuments E.engine ⟨f, v⟩).1.committed := QIndexModifier.lastCommit_deleteDocuments
  unfold delDocCommits delDoc committed
  dsimp only
  rw [lastCommit_append]
  split
  · rw [← QIndexModifier.lastCommit_flush]
    exact congrArg (lastCommit · _) hdel
  · exact hdel

/-- `indexCommits` along the three parts of `index`. -/
theorem indexCommits_eq : l.indexCommits E s metas finfo =
    (if !l.bNewIndex then l.delDocCommits E ID_FN (getIdFN E (normalizePath E.qt s false)) else []) ++
      (l.withoutOld E (normalizePath E.qt s false)).pIndexWriter.addDocumentCommits E.engine
        (indexDocument E (normalizePath E.qt s false) metas finfo) ++
      (let l' := (l.withoutOld E (normalizePath E.qt s false)).withNew E
          (indexDocument E (normalizePath E.qt s false) metas finfo)
        if l'.iIndexedFiles > 9 && l'.iIndexedFiles % OPTIMIZE_AFTER_INDEXED_FILES == 0 then
          l'.pIndexWriter.flushCommits E.engine
        else []) := rfl

/-- **The commits of `index` end in the one that it leaves.** -/
theorem lastCommit_index :
    lastCommit l.committed (l.indexCommits E s metas finfo) = (l.index E s metas finfo).committed := by
  rw [indexCommits_eq, index_eq, lastCommit_append, lastCommit_append]
  have hold : lastCommit l.committed
      (if !l.bNewIndex then l.delDocCommits E ID_FN (getIdFN E (normalizePath E.qt s false)) else []) =
      (l.withoutOld E (normalizePath E.qt s false)).committed := by
    unfold withoutOld
    split
    · exact lastCommit_delDoc
    · rfl
  rw [hold]
  generalize l.withoutOld E (normalizePath E.qt s false) = l₁
  generalize indexDocument E (normalizePath E.qt s false) metas finfo = doc
  have hnew : lastCommit l₁.committed (l₁.pIndexWriter.addDocumentCommits E.engine doc) =
      (l₁.withNew E doc).committed := QIndexModifier.lastCommit_addDocument doc
  rw [hnew]
  unfold optimized
  dsimp only
  split
  · exact QIndexModifier.lastCommit_flush
  · rfl

/-- The documents that the program takes for versions of the file whose path is hashed. -/
def versions (E : Env) (s : QString) (docs : List Document) : List Document :=
  docs.filter (Document.hasTerm E.tokens ⟨ID_FN, getIdFN E s⟩)

theorem versions_append {A B : List Document} : versions E s (A ++ B) = versions E s A ++ versions E s B :=
  List.filter_append ..

/-- Where `delDoc` finds a document, it commits its deletion on its own, and the reader that
is left has nothing to commit. -/
theorem delDocCommits_eq {f v : QString} (hlive : ∃ d ∈ l.docs, d.hasTerm E.tokens ⟨f, v⟩ = true) :
    (∃ si, l.delDocCommits E f v = l.pIndexWriter.deleteDocumentsCommits E.engine ++ [si] ∧
      si.docs = (l.delDoc E f v).1.docs) ∧
    ∃ r : IndexReader Document, (l.delDoc E f v).1.pIndexWriter = ⟨.reader r, false⟩ ∧ r.hasChanges = false := by
  set t : Term := ⟨f, v⟩ with ht
  set r₀ := l.pIndexWriter.base.createIndexReader E.engine with hr₀
  -- the term is found, so the flag is set and `flush` commits the reader
  have hpos : 0 < (r₀.termDocs E.engine t).length := by
    obtain ⟨d, hd, hterm⟩ := hlive
    have hcount := IndexReader.deleteDocuments_count (P := E.engine) (r := r₀) (t := t)
    have hdocs : r₀.docs = l.docs := IndexModifier.createIndexReader_docs
    rw [hdocs] at hcount
    change (r₀.termDocs E.engine t).length = _ at hcount
    rw [hcount]
    exact List.countP_pos_iff.2 ⟨d, hd, hterm⟩
  set r := (r₀.deleteDocuments E.engine t).1 with hr
  have hchanges : r.hasChanges = true := by
    have h := IndexReader.foldl_delete_hasChanges (r := r₀) (r₀.termDocs E.engine t)
    have hne : (r₀.termDocs E.engine t).isEmpty = false := by
      rw [List.isEmpty_eq_false_iff]
      exact List.ne_nil_of_length_pos hpos
    rw [hne, Bool.not_false, Bool.or_true] at h
    exact h
  have hm : l.pIndexWriter.deleteDocuments E.engine t = (⟨.reader r, true⟩, (r₀.termDocs E.engine t).length) := by
    refine Prod.ext ?_ rfl
    show QIndexModifier.mk (.reader r)
      (if (r₀.termDocs E.engine t).length > 0 then true else l.pIndexWriter.bDocDeletionCalled) = _
    rw [if_pos hpos]
  have hcommit : r.commit = ⟨r.segments, r.segments, false, fun _ => rfl⟩ := by
    unfold IndexReader.commit
    rw [if_pos hchanges]
  have hdel : (l.delDoc E f v).1.pIndexWriter = QIndexModifier.flush E.engine ⟨.reader r, true⟩ := by
    simp only [delDoc, ← ht, hm, hpos, ↓reduceIte]
  have hcommits : QIndexModifier.flushCommits E.engine (⟨.reader r, true⟩ : QIndexModifier Document) = [r.segments] := by
    show [] ++ r.commits ++ r.commit.commits = _
    rw [hcommit]
    simp [IndexReader.commits, hchanges]
  constructor
  · refine ⟨r.segments, ?_, ?_⟩
    · simp only [delDocCommits, ← ht, hm, hpos, ↓reduceIte, hcommits]
    · rw [docs_eq, hdel, QIndexModifier.flush_docs]
      rfl
  · refine ⟨.openOn r.commit.close, ?_, rfl⟩
    rw [hdel]
    rfl

/-- After `delDoc` on an old index no version is left. -/
theorem versions_withoutOld (hold : l.bNewIndex = false) : versions E s (l.withoutOld E s).docs = [] := by
  rw [withoutOld_docs, hold]
  simp only [versions, Bool.false_eq_true, ↓reduceIte, List.filter_filter, List.filter_eq_nil_iff]
  intro d _
  simp

/-- The document that `index` adds is the one version. -/
theorem versions_withNew (hold : l.bNewIndex = false) :
    versions E s ((l.withoutOld E s).docs ++ [indexDocument E s metas finfo]) = [indexDocument E s metas finfo] := by
  have hterm : (indexDocument E s metas finfo).hasTerm E.tokens ⟨ID_FN, getIdFN E s⟩ = true := by
    simp [indexDocument, Document.hasTerm]
  rw [versions_append, versions_withoutOld hold]
  simp [versions, hterm]

/-- Where nothing is left to commit but the addition, every commit of `addDocument` holds
all live documents. -/
theorem addDocumentCommits_all {r : IndexReader Document} {d : Document} {si : SegmentInfos Document}
    (hr : l.pIndexWriter = ⟨.reader r, false⟩) (hunchanged : r.hasChanges = false)
    (hsi : si ∈ l.pIndexWriter.addDocumentCommits E.engine d) : si.docs = l.docs ++ [d] := by
  rw [hr] at hsi
  simp only [QIndexModifier.addDocumentCommits, IndexModifier.addDocumentCommits,
    IndexModifier.createIndexWriterCommits, IndexReader.commits, hunchanged, Bool.false_eq_true, ↓reduceIte,
    List.nil_append] at hsi
  rw [IndexWriter.addDocumentCommits_docs hsi, IndexModifier.createIndexWriter_docs, docs_eq, hr]
  rfl

/-- So does every commit of the flush after it. -/
theorem flushCommits_all {d : Document} {si : SegmentInfos Document} (hflag : l.pIndexWriter.bDocDeletionCalled = false)
    (hsi : si ∈ (l.withNew E d).pIndexWriter.flushCommits E.engine) : si.docs = l.docs ++ [d] := by
  rw [← withNew_docs (E := E)]
  simp only [withNew, QIndexModifier.flushCommits, QIndexModifier.addDocument, hflag, Bool.false_eq_true,
    ↓reduceIte, IndexModifier.addDocument, IndexModifier.flushCommits] at hsi
  rw [IndexWriter.flushCommits_docs hsi, docs_eq, withNew, QIndexModifier.docs_eq]
  exact (IndexModifier.docs_writer _).symm

/-- **The directory while a file is indexed again.** On an old index with a live version of
the file, the commits up to that of `delDoc` hold what the directory held, or that and what
was buffered, so just the old version where that is the committed one; then none holds a
version; and from the first commit after `addDocument` on there is exactly the new one. -/
theorem index_versions (hold : l.bNewIndex = false) (hlive : versions E (normalizePath E.qt s false) l.docs ≠ []) :
    ∃ before gap after, l.committed :: l.indexCommits E s metas finfo = before ++ gap ++ after ∧
      before ≠ [] ∧ gap ≠ [] ∧
      (∀ si ∈ before, si.docs = l.committed.docs ∨ si.docs = l.committed.docs ++ l.pIndexWriter.buffered) ∧
      (∀ d, versions E (normalizePath E.qt s false) l.committed.docs = [d] →
        versions E (normalizePath E.qt s false) l.pIndexWriter.buffered = [] →
        ∀ si ∈ before, versions E (normalizePath E.qt s false) si.docs = [d]) ∧
      (∀ si ∈ gap, versions E (normalizePath E.qt s false) si.docs = []) ∧
      (∀ si ∈ after, versions E (normalizePath E.qt s false) si.docs =
        [indexDocument E (normalizePath E.qt s false) metas finfo]) ∧
      lastCommit l.committed (l.indexCommits E s metas finfo) = (l.index E s metas finfo).committed ∧
      ∀ si, (l.index E s metas finfo).close E = some si → versions E (normalizePath E.qt s false) si.docs =
        [indexDocument E (normalizePath E.qt s false) metas finfo] := by
  set p := normalizePath E.qt s false with hp
  set doc := indexDocument E p metas finfo with hdoc
  have hex : ∃ d ∈ l.docs, d.hasTerm E.tokens ⟨ID_FN, getIdFN E p⟩ = true := by
    obtain ⟨d, hd⟩ := List.exists_mem_of_ne_nil _ hlive
    exact ⟨d, (List.mem_filter.1 hd).1, (List.mem_filter.1 hd).2⟩
  obtain ⟨⟨gone, hcommits, hgone⟩, r, hr, hunchanged⟩ := delDocCommits_eq hex
  have hwithout : l.withoutOld E p = (l.delDoc E ID_FN (getIdFN E p)).1 := by
    unfold withoutOld
    rw [hold]
    rfl
  rw [← hwithout] at hgone hr
  have hnew : versions E p ((l.withoutOld E p).docs ++ [doc]) = [doc] := versions_withNew hold
  have hbefore : ∀ si ∈ l.committed :: l.pIndexWriter.deleteDocumentsCommits E.engine,
      si.docs = l.committed.docs ∨ si.docs = l.committed.docs ++ l.pIndexWriter.buffered := by
    intro si hsi
    rcases List.mem_cons.1 hsi with rfl | hsi
    · exact Or.inl rfl
    · exact Or.inr (IndexModifier.createIndexReaderCommits_docs hsi)
  -- what `delDoc` commits last is the one state without a version
  refine ⟨l.committed :: l.pIndexWriter.deleteDocumentsCommits E.engine, [gone],
    (l.withoutOld E p).pIndexWriter.addDocumentCommits E.engine doc ++
      (if ((l.withoutOld E p).withNew E doc).iIndexedFiles > 9 &&
          ((l.withoutOld E p).withNew E doc).iIndexedFiles % OPTIMIZE_AFTER_INDEXED_FILES == 0 then
        ((l.withoutOld E p).withNew E doc).pIndexWriter.flushCommits E.engine
      else []), ?_, by simp, by simp, hbefore, ?_, ?_, ?_, lastCommit_index, ?_⟩
  · rw [indexCommits_eq, hold]
    simp only [Bool.not_false, ↓reduceIte, ← hp, hcommits, ← hdoc]
    simp only [List.cons_append, List.append_assoc]
  · intro d hd hbuf si hsi
    rcases hbefore si hsi with h | h
    · rw [h]; exact hd
    · rw [h, versions_append, hbuf, List.append_nil]; exact hd
  · intro si hsi
    rw [List.mem_singleton] at hsi
    rw [hsi, hgone]
    exact versions_withoutOld hold
  · intro si hsi
    rcases List.mem_append.1 hsi with hsi | hsi
    · rw [addDocumentCommits_all hr hunchanged hsi]; exact hnew
    · split at hsi
      · rw [flushCommits_all (by rw [hr]) hsi]; exact hnew
      · exact absurd hsi List.not_mem_nil
  · intro si hsi
    obtain ⟨si', hsi', hd⟩ := close_docs hsi
    rw [Option.some.injEq] at hsi'
    rw [hsi', hd, index_eq, optimized_docs, withNew_docs]
    exact hnew

/-- The new version of `a`. -/
def sampleInfo : QFileInfo := ⟨true, 10, 7000, qs "/d", qs "a", []⟩

theorem index_versions_sample :
    let es : List Root.Event := [.openIndex, .round (sampleRound [("a", 1), ("b", 2)]) none]
    let p := normalizePath sampleEnv.qt (qs "/d/a") false
    ∃ l os, Machine.run (Root.step sampleEnv) (.stopped none) es = some (.running l, os) ∧
      ∃ before gap after, l.committed :: l.indexCommits sampleEnv (qs "/d/a") ∅ sampleInfo = before ++ gap ++ after ∧
        before ≠ [] ∧ gap ≠ [] ∧
        (∀ si ∈ before, si.docs = l.committed.docs ∨ si.docs = l.committed.docs ++ l.pIndexWriter.buffered) ∧
        (∀ d, versions sampleEnv p l.committed.docs = [d] → versions sampleEnv p l.pIndexWriter.buffered = [] →
          ∀ si ∈ before, versions sampleEnv p si.docs = [d]) ∧
        (∀ si ∈ gap, versions sampleEnv p si.docs = []) ∧
        (∀ si ∈ after, versions sampleEnv p si.docs = [indexDocument sampleEnv p ∅ sampleInfo]) ∧
        lastCommit l.committed (l.indexCommits sampleEnv (qs "/d/a") ∅ sampleInfo) =
          (l.index sampleEnv (qs "/d/a") ∅ sampleInfo).committed ∧
        ∀ si, (l.index sampleEnv (qs "/d/a") ∅ sampleInfo).close sampleEnv = some si →
          versions sampleEnv p si.docs = [indexDocument sampleEnv p ∅ sampleInfo] := by
  intro es p
  obtain ⟨l, os, hrun, hl⟩ := Root.exists_running es (E := sampleEnv)
    (fun l => !l.bNewIndex && decide (versions sampleEnv p l.docs ≠ [])) (by decide +kernel)
  simp only [Bool.and_eq_true, Bool.not_eq_true', decide_eq_true_eq] at hl
  exact ⟨l, os, hrun, index_versions hl.1 hl.2⟩

/-- **A moment with no version.** `a` is indexed and committed; while its new version is
indexed the directory holds none, and it still does when `index` returns. On a new index a
second `index` leaves two. -/
theorem index_leaves_none :
    let es : List Root.Event := [.openIndex, .round (sampleRound [("a", 1), ("b", 2)]) none]
    let versionsOfA := versions sampleEnv (qs "/d/a")
    (∃ l os, Machine.run (Root.step sampleEnv) (.stopped none) es = some (.running l, os) ∧
      (versionsOfA l.docs).length = 1 ∧ (versionsOfA l.committed.docs).length = 1 ∧
      (∃ si ∈ l.indexCommits sampleEnv (qs "/d/a") ∅ sampleInfo, versionsOfA si.docs = []) ∧
      versionsOfA (l.index sampleEnv (qs "/d/a") ∅ sampleInfo).committed.docs = []) ∧
    ∃ l os, Machine.run (Root.step sampleEnv) (.stopped none) [.openIndex] = some (.running l, os) ∧
      (versionsOfA (l.index sampleEnv (qs "/d/a") ∅ sampleInfo).docs).length = 1 ∧
      (versionsOfA ((l.index sampleEnv (qs "/d/a") ∅ sampleInfo).index sampleEnv (qs "/d/a") ∅ sampleInfo).docs).length
        = 2 := by
  intro es versionsOfA
  obtain ⟨l, os, hrun, hl⟩ := Root.exists_running es (E := sampleEnv)
    (fun l => decide ((versionsOfA l.docs).length = 1 ∧ (versionsOfA l.committed.docs).length = 1 ∧
      (∃ si ∈ l.indexCommits sampleEnv (qs "/d/a") ∅ sampleInfo, versionsOfA si.docs = []) ∧
      versionsOfA (l.index sampleEnv (qs "/d/a") ∅ sampleInfo).committed.docs = []))
    (by decide +kernel)
  obtain ⟨l', os', hrun', hl'⟩ := Root.exists_running [.openIndex] (E := sampleEnv)
    (fun l => decide ((versionsOfA (l.index sampleEnv (qs "/d/a") ∅ sampleInfo).docs).length = 1 ∧
      (versionsOfA ((l.index sampleEnv (qs "/d/a") ∅ sampleInfo).index sampleEnv (qs "/d/a") ∅ sampleInfo).docs).length
        = 2))
    (by decide +kernel)
  exact ⟨⟨l, os, hrun, of_decide_eq_true hl⟩, l', os', hrun', of_decide_eq_true hl'⟩

end Lucyindexer

end QDesktopSearch
