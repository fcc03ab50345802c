import Mathlib.Data.List.ReduceOption
import QDesktopSearch.Proof.Session

/-!
# The number of files in the index

`getNrOfFilesInIndex` asks the sub-object that is open. A reader counts the live documents; a
writer counts its segments, in which a document stays that is only marked deleted.

* `counts_iff`: the number is the number of live documents exactly if a reader is open or no
  segment of the writer has a mark.
* `unmarked_merges`: merges leave no mark exactly if the segments that none of them takes have none.
* `docs_length_le`: it is never too low.
* `index_counts_iff`: when the number is right after `index`.
* `getNrOfFilesInIndex_always_iff`: when it is right in every state of a run.
-/

namespace QDesktopSearch

open Slots

variable {D T : Type*} {P : Engine D T}

/-! ## Merges and marks -/

namespace SegmentInfos

variable {si : SegmentInfos D} {segs : List (Option (List (Slot D)))}

/-- One merge, where a segment that has been merged is nothing. -/
def merged (segs : List (Option (List (Slot D)))) (r : ℕ × ℕ) : List (Option (List (Slot D))) :=
  segs.take r.1 ++ [none] ++ (segs.drop r.1).drop r.2

/-- The merges, one after the other. -/
def mergeAll (si : SegmentInfos D) (rs : List (ℕ × ℕ)) : SegmentInfos D := rs.foldl (fun si r => merge si r.1 r.2) si

/-- The segments that none of the merges takes. -/
def untouched (si : SegmentInfos D) (rs : List (ℕ × ℕ)) : SegmentInfos D :=
  (rs.foldl merged (si.map some)).reduceOption

/-- A segment that was not merged is as it was; one that was has no mark. -/
def Kept : Option (List (Slot D)) → List (Slot D) → Prop
  | some seg, seg' => seg = seg'
  | none, seg' => Unmarked seg'

theorem kept_start : List.Forall₂ Kept (si.map some) si := by
  induction si with
  | nil => exact .nil
  | cons seg si ih => exact .cons rfl ih

theorem kept_merge (h : List.Forall₂ Kept segs si) (r : ℕ × ℕ) :
    List.Forall₂ Kept (merged segs r) (si.merge r.1 r.2) := by
  have hrest := List.forall₂_drop r.1 h
  have hnew : List.Forall₂ Kept [none] [ofList (docs ((si.drop r.1).take r.2))] := .cons (unmarked_ofList _) .nil
  exact List.rel_append (List.rel_append (List.forall₂_take r.1 h) hnew) (List.forall₂_drop r.2 hrest)

theorem kept_merges (h : List.Forall₂ Kept segs si) (rs : List (ℕ × ℕ)) :
    List.Forall₂ Kept (rs.foldl merged segs) (si.mergeAll rs) := by
  induction rs generalizing segs si with
  | nil => exact h
  | cons r rs ih => exact ih (kept_merge h r)

theorem unmarked_kept (h : List.Forall₂ Kept segs si) : Unmarked si.slots ↔ Unmarked (slots segs.reduceOption) := by
  induction h with
  | nil => exact Iff.rfl
  | @cons seg seg' segs si hseg _ ih =>
    rw [slots_cons, unmarked_append, ih]
    cases seg with
    | none =>
      have hmarks : Unmarked seg' := hseg
      rw [List.reduceOption_cons_of_none, and_iff_right hmarks]
    | some seg =>
      obtain rfl : seg = seg' := hseg
      rw [List.reduceOption_cons_of_some, slots_cons, unmarked_append]

/-- **Merges leave no mark** exactly if the segments that none of them takes have none. -/
theorem unmarked_merges (rs : List (ℕ × ℕ)) :
    Unmarked (si.mergeAll rs).slots ↔ Unmarked (si.untouched rs).slots :=
  unmarked_kept (kept_merges kept_start rs)

theorem unmarked_merge (h : Unmarked si.slots) (a b : ℕ) : Unmarked (si.merge a b).slots := by
  have hin : ∀ {si' : SegmentInfos D}, si'.Sublist si → Unmarked si'.slots :=
    fun hsub s hs => by
      obtain ⟨seg, hseg, hs⟩ := List.mem_flatten.1 hs
      exact h s (List.mem_flatten.2 ⟨seg, hsub.subset hseg, hs⟩)
  rw [merge, slots_append, slots_append, unmarked_append, unmarked_append, slots_singleton]
  refine ⟨⟨hin (List.take_sublist _ _), unmarked_ofList _⟩, hin ?_⟩
  exact (List.drop_sublist _ _).trans (List.drop_sublist _ _)

end SegmentInfos

/-! ## Writer and modifier -/

namespace IndexWriter

variable {w : IndexWriter D}

/-- The segments, with the buffered documents as the last one. -/
def flushed (w : IndexWriter D) : SegmentInfos D := w.segmentInfos ++ [ofList w.docWriter]

/-- **A writer counts the live documents** exactly if no segment has a mark. -/
theorem docCount_eq_iff : w.docCount = w.docs.length ↔ Unmarked w.segmentInfos.slots := by
  rw [← live_length_eq_iff, docCount, docs, List.length_append, SegmentInfos.docCount_eq, SegmentInfos.docs]
  omega

theorem unmarked_flush_iff (h : w.docWriter ≠ []) : Unmarked (w.flush P).segmentInfos.slots ↔
    Unmarked (w.flushed.untouched (P.findMerges w.flushed)).slots := by
  rw [← SegmentInfos.unmarked_merges]
  simp only [flush, doFlush, h, ↓reduceIte]
  rfl

theorem unmarked_flush (h : Unmarked w.segmentInfos.slots) : Unmarked (w.flush P).segmentInfos.slots := by
  by_cases hbuf : w.docWriter = []
  · rwa [flush_of_empty hbuf]
  · have hall : Unmarked w.flushed.slots := by
      rw [flushed, SegmentInfos.slots_append, SegmentInfos.slots_singleton, unmarked_append]
      exact ⟨h, unmarked_ofList _⟩
    rw [unmarked_flush_iff hbuf, ← SegmentInfos.unmarked_merges]
    generalize P.findMerges w.flushed = rs
    generalize w.flushed = si at hall
    -- each merge in turn
    induction rs generalizing si with
    | nil => exact hall
    | cons r rs ih => exact ih _ (SegmentInfos.unmarked_merge hall _ _)

theorem unmarked_addDocument (h : Unmarked w.segmentInfos.slots) (doc : D) :
    Unmarked (w.addDocument P doc).segmentInfos.slots := by
  unfold addDocument
  dsimp only
  split
  · exact unmarked_flush h
  · exact h

theorem addDocument_of_full {doc : D} (h : P.bufferFull (w.docWriter ++ [doc]) = true) :
    (w.addDocument P doc).flush P = w.addDocument P doc := by
  unfold addDocument
  dsimp only
  rw [if_pos h]
  exact flush_of_empty flush_docWriter

theorem addDocument_of_not_full {doc : D} (h : ¬P.bufferFull (w.docWriter ++ [doc]) = true) :
    (w.addDocument P doc).segmentInfos = w.segmentInfos := by
  unfold addDocument
  dsimp only
  rw [if_neg h]

/-- Whether or not a document is flushed at once, a flush after it leaves the same. -/
theorem flush_addDocument (doc : D) :
    (w.addDocument P doc).flush P = IndexWriter.flush P ⟨w.segmentInfos, w.docWriter ++ [doc]⟩ := by
  unfold addDocument
  dsimp only
  split
  · exact flush_of_empty flush_docWriter
  · rfl

end IndexWriter

namespace IndexModifier

variable {m : IndexModifier D}

/-- The segments, with every deletion so far. -/
def segments : IndexModifier D → SegmentInfos D
  | .writer w => w.segmentInfos
  | .reader r => r.segments

/-- `docCount` is the number of live documents. -/
def Counts (m : IndexModifier D) : Prop := m.docCount = m.docs.length

theorem counts_reader (r : IndexReader D) : Counts (.reader r) := r.numDocs_eq

theorem counts_writer (w : IndexWriter D) : Counts (.writer w) ↔ Unmarked w.segmentInfos.slots := by
  unfold Counts
  rw [docs_writer]
  exact IndexWriter.docCount_eq_iff

/-- **When the number is right.** -/
theorem counts_iff : m.Counts ↔ (∃ r, m = .reader r) ∨ Unmarked m.segments.slots := by
  cases m with
  | reader r => exact iff_of_true (counts_reader r) (Or.inl ⟨r, rfl⟩)
  | writer w => simp [counts_writer, segments]

theorem unmarked_slots : Unmarked m.slots ↔ Unmarked m.segments.slots := by
  cases m with
  | reader r => exact Iff.rfl
  | writer w =>
    rw [slots, unmarked_append, and_iff_left (unmarked_ofList _)]
    exact Iff.rfl

theorem createIndexWriter_segments : m.createIndexWriter.segmentInfos = m.segments := by
  cases m with
  | writer w => rfl
  | reader r => exact r.close_eq

theorem flush_counts (h : m.Counts) : (m.flush P).Counts := by
  cases m with
  | reader r => exact counts_reader _
  | writer w =>
    rw [counts_writer] at h
    exact (counts_writer _).2 (IndexWriter.unmarked_flush h)

end IndexModifier

namespace QIndexModifier

variable {m : QIndexModifier D}

theorem flush_counts (h : m.base.Counts) : (m.flush P).base.Counts := by
  unfold flush
  dsimp only
  split
  · exact IndexModifier.counts_reader _
  · exact IndexModifier.flush_counts h

/-- With the flag set, `flush` ends with a reader. -/
theorem flush_reader_of_flag (h : m.bDocDeletionCalled = true) : ∃ r, (m.flush P).base = .reader r := by
  unfold flush
  rw [if_pos h]
  exact ⟨_, rfl⟩

/-- A reader commits its deletions, if the flag is set, and is opened again. -/
theorem flush_reader {r : IndexReader D} (h : m.base = .reader r) :
    ∃ r', (m.flush P).base = .reader r' ∧ r'.slots = r.slots := by
  have hopened : ∀ r : IndexReader D, (IndexReader.openOn r.close).slots = r.slots := by
    intro r
    rw [IndexReader.openOn, IndexReader.close_eq]
    rfl
  unfold flush
  dsimp only
  split
  · refine ⟨.openOn (m.getIndexReader P).2.commit.close, rfl, ?_⟩
    rw [hopened, getIndexReader, h]
    exact congrArg List.flatten r.commit_segments
  · rw [h]
    exact ⟨_, rfl, hopened r⟩

end QIndexModifier

/-! ## `lucyindexer` -/

namespace Lucyindexer

variable {E : Env} {l l' : Lucyindexer} {s f v : QString} {finfo : QFileInfo} {metas : QMap QStringList} {doc : Document}

/-- `getNrOfFilesInIndex` is the number of live documents. -/
def Counts (l : Lucyindexer) : Prop := l.getNrOfFilesInIndex = l.docs.length

/-- The segments, with every deletion so far. -/
def segments (l : Lucyindexer) : SegmentInfos Document := l.pIndexWriter.base.segments

/-- The number is that of the sub-object. -/
theorem counts_base : l.Counts ↔ l.pIndexWriter.base.Counts := Iff.rfl

theorem counts_of_reader {r : IndexReader Document} (h : l.pIndexWriter.base = .reader r) : l.Counts := by
  rw [counts_base, h]
  exact IndexModifier.counts_reader r

theorem counts_writer {w : IndexWriter Document} (h : l.pIndexWriter.base = .writer w) :
    l.Counts ↔ Unmarked w.segmentInfos.slots := by
  rw [counts_base, h]
  exact IndexModifier.counts_writer w

/-- The number is never below that of the live documents. -/
theorem docs_length_le : l.docs.length ≤ l.getNrOfFilesInIndex := by
  rw [docs_eq, QIndexModifier.docs_eq, getNrOfFilesInIndex, QIndexModifier.docCount]
  cases l.pIndexWriter.base with
  | reader r => exact le_of_eq (IndexModifier.counts_reader r).symm
  | writer w =>
    have hle := live_length_le (l := w.segmentInfos.slots)
    rw [IndexModifier.docs_writer, IndexModifier.docCount, IndexWriter.docCount, IndexWriter.docs, List.length_append,
      SegmentInfos.docCount_eq, SegmentInfos.docs]
    omega

/-- `delDoc` ends with a reader, whether or not it flushes. -/
theorem delDoc_reader : ∃ r, (l.delDoc E f v).1.pIndexWriter.base = .reader r ∧
    r.slots = ((l.pIndexWriter.base.createIndexReader E.engine).deleteDocuments E.engine ⟨f, v⟩).1.slots := by
  unfold delDoc
  dsimp only
  split
  · exact QIndexModifier.flush_reader rfl
  · exact ⟨_, rfl, rfl⟩

theorem delDoc_bDocDeletionCalled : (l.delDoc E f v).1.pIndexWriter.bDocDeletionCalled = true ↔
    l.pIndexWriter.bDocDeletionCalled = true ∧ ∀ d ∈ l.docs, Document.hasTerm E.tokens ⟨f, v⟩ d = false := by
  have hcount := QIndexModifier.deleteDocuments_count (P := E.engine) (m := l.pIndexWriter) (t := ⟨f, v⟩)
  have hnone : (l.pIndexWriter.deleteDocuments E.engine ⟨f, v⟩).2 = 0 ↔
      ∀ d ∈ l.docs, Document.hasTerm E.tokens ⟨f, v⟩ d = false := by
    rw [hcount, List.countP_eq_zero]
    simp only [Bool.not_eq_true]
    exact Iff.rfl
  rw [← hnone]
  unfold delDoc
  dsimp only
  split
  · rw [QIndexModifier.flush_bDocDeletionCalled]
    simp
    omega
  · rename_i hzero
    have hsame : (l.pIndexWriter.deleteDocuments E.engine ⟨f, v⟩).1.bDocDeletionCalled =
        l.pIndexWriter.bDocDeletionCalled := by
      simp only [QIndexModifier.deleteDocuments] at hzero ⊢
      rw [if_neg hzero]
    rw [hsame]
    exact (and_iff_left (by omega)).symm

/-- The index is new, or no live document has the `id_fn` of the file. -/
def NoOld (E : Env) (l : Lucyindexer) (sAbsPathName : QString) : Prop :=
  l.bNewIndex = true ∨ ∀ d ∈ l.docs, Document.hasTerm E.tokens ⟨ID_FN, getIdFN E sAbsPathName⟩ d = false

/-- The next file is one after which `index` flushes. -/
def Due (l : Lucyindexer) : Prop := l.iIndexedFiles + 1 > 9 ∧ (l.iIndexedFiles + 1) % OPTIMIZE_AFTER_INDEXED_FILES = 0

/-- The document is flushed at once, and the merges take every segment that has a mark. -/
def Cleared (E : Env) (l : Lucyindexer) (doc : Document) : Prop :=
  let si := l.segments ++ [ofList [doc]]
  (E.bufferFull [doc] = true ∨ l.Due) ∧ Unmarked (si.untouched (E.findMerges si)).slots

/-- The old version of a file goes: nothing is marked after it exactly if nothing was, and there
was none. -/
theorem withoutOld_unmarked (h : l.Counts) :
    Unmarked (l.withoutOld E s).segments.slots ↔ l.NoOld E s ∧ Unmarked l.pIndexWriter.slots := by
  have hslots : Unmarked l.pIndexWriter.slots ↔ Unmarked l.segments.slots := IndexModifier.unmarked_slots
  unfold withoutOld NoOld
  cases hnew : l.bNewIndex with
  | true => simp [hslots]
  | false =>
    obtain ⟨r, hr, hmarks⟩ := delDoc_reader (E := E) (l := l) (f := ID_FN) (v := getIdFN E s)
    have hdocs : (l.pIndexWriter.base.createIndexReader E.engine).docs = l.docs := IndexModifier.createIndexReader_docs
    -- a writer flushes before it is closed, which makes no mark
    have hreader : Unmarked (l.pIndexWriter.base.createIndexReader E.engine).slots ↔ Unmarked l.segments.slots := by
      cases hbase : l.pIndexWriter.base with
      | reader r => rw [segments, hbase]; exact Iff.rfl
      | writer w =>
        have hcounts := (counts_writer hbase).1 h
        rw [segments, hbase]
        exact iff_of_true (IndexWriter.unmarked_flush hcounts) hcounts
    have hsegments : (l.delDoc E ID_FN (getIdFN E s)).1.segments.slots = r.slots := by
      rw [segments, hr]
      rfl
    simp only [Bool.not_false, if_true, Bool.false_eq_true, false_or]
    rw [hslots, hsegments, hmarks, IndexReader.deleteDocuments_slots, IndexReader.termDocs, unmarked_marks_numbers, hreader,
      and_comm]
    exact and_congr_left fun _ => by rw [← hdocs]; exact Iff.rfl

theorem withoutOld_bDocDeletionCalled : (l.withoutOld E s).pIndexWriter.bDocDeletionCalled = true ↔
    l.NoOld E s ∧ l.pIndexWriter.bDocDeletionCalled = true := by
  unfold withoutOld NoOld
  cases hnew : l.bNewIndex with
  | true => simp
  | false =>
    simp only [Bool.not_false, if_true, Bool.false_eq_true, false_or]
    rw [delDoc_bDocDeletionCalled, and_comm]

theorem withoutOld_counts (h : l.Counts) : (l.withoutOld E s).Counts := by
  unfold withoutOld
  split
  · obtain ⟨r, hr, -⟩ := delDoc_reader (E := E) (l := l) (f := ID_FN) (v := getIdFN E s)
    exact counts_of_reader hr
  · exact h

theorem withoutOld_due : (l.withoutOld E s).Due ↔ l.Due := by
  unfold withoutOld
  split <;> exact Iff.rfl

/-- **The number after a document is added.** -/
theorem withNew_counts_iff (h : l.Counts) : ((l.withNew E doc).optimized E).Counts ↔
    Unmarked l.segments.slots ∨ (l.Due ∧ l.pIndexWriter.bDocDeletionCalled = true) ∨ l.Cleared E doc := by
  have hdue : ((l.withNew E doc).iIndexedFiles > 9 && (l.withNew E doc).iIndexedFiles % OPTIMIZE_AFTER_INDEXED_FILES == 0) =
      true ↔ l.Due := by
    rw [Bool.and_eq_true, decide_eq_true_eq, beq_iff_eq]
    exact Iff.rfl
  have hwriter : (l.withNew E doc).pIndexWriter.base =
      .writer (l.pIndexWriter.base.createIndexWriter.addDocument E.engine doc) := rfl
  by_cases hmarks : Unmarked l.segments.slots
  · -- nothing is marked, and neither the writer nor a flush marks anything
    refine iff_of_true ?_ (Or.inl hmarks)
    have hnew : (l.withNew E doc).pIndexWriter.base.Counts := by
      rw [hwriter, IndexModifier.counts_writer]
      refine IndexWriter.unmarked_addDocument ?_ doc
      rwa [IndexModifier.createIndexWriter_segments]
    unfold optimized
    split
    · exact QIndexModifier.flush_counts hnew
    · exact hnew
  · -- with a mark the number is right only if a reader is open
    obtain ⟨r, hr⟩ := (IndexModifier.counts_iff.1 h).resolve_right hmarks
    have hsegments : l.segments = r.segments := by
      rw [segments, hr]
      rfl
    have hopened : l.pIndexWriter.base.createIndexWriter = ⟨l.segments, []⟩ := by
      rw [hr, hsegments, ← r.close_eq]
      rfl
    rw [hopened] at hwriter
    have hflush : Unmarked (((⟨l.segments, []⟩ : IndexWriter Document).addDocument E.engine doc).flush
        E.engine).segmentInfos.slots ↔ Unmarked ((l.segments ++ [ofList [doc]]).untouched
          (E.findMerges (l.segments ++ [ofList [doc]]))).slots := by
      rw [IndexWriter.flush_addDocument, IndexWriter.unmarked_flush_iff (List.cons_ne_nil _ _)]
      exact Iff.rfl
    rw [or_iff_right hmarks, Cleared, ← hflush]
    unfold optimized
    by_cases hd : l.Due
    · rw [if_pos (hdue.2 hd)]
      by_cases hflag : l.pIndexWriter.bDocDeletionCalled = true
      · -- the flush ends with a reader
        refine iff_of_true ?_ (Or.inl ⟨hd, hflag⟩)
        have hflag' : (l.withNew E doc).pIndexWriter.bDocDeletionCalled = true := hflag
        obtain ⟨r', hr'⟩ := QIndexModifier.flush_reader_of_flag (P := E.engine) hflag'
        exact counts_of_reader hr'
      · have hflushed : ((l.withNew E doc).onIndexerThreadFinished E false).pIndexWriter.base =
            .writer ⟨((⟨l.segments, []⟩ : IndexWriter Document).addDocument E.engine doc).close E.engine, []⟩ := by
          have hflag' : ¬(l.withNew E doc).pIndexWriter.bDocDeletionCalled = true := hflag
          simp only [onIndexerThreadFinished, QIndexModifier.flush, if_neg hflag', hwriter]
          rfl
        rw [counts_writer hflushed]
        simp only [hd, hflag, IndexWriter.close]
        simp
    · rw [if_neg (mt hdue.1 hd), counts_writer hwriter]
      by_cases hfull : E.bufferFull [doc] = true
      · rw [IndexWriter.addDocument_of_full hfull]
        simp only [hd, hfull]
        simp
      · have hsame := IndexWriter.addDocument_of_not_full (P := E.engine) (w := ⟨l.segments, []⟩) hfull
        rw [hsame]
        simp only [hd, hfull, hmarks]
        simp

/-- When the number is right after `index`: the file has no old version, and nothing is marked or
the flush ends with a reader; or the merges of the flush take every segment that has a mark. -/
def IndexCounts (E : Env) (l : Lucyindexer) (sAbsPathName : QString) (metas : QMap QStringList) (finfo : QFileInfo) :
    Prop :=
  let s := normalizePath E.qt sAbsPathName false
  (l.NoOld E s ∧ (Unmarked l.pIndexWriter.slots ∨ l.Due ∧ l.pIndexWriter.bDocDeletionCalled = true)) ∨
    (l.withoutOld E s).Cleared E (indexDocument E s metas finfo)

/-- **The number after `index`.** -/
theorem index_counts_iff (h : l.Counts) : (l.index E s metas finfo).Counts ↔ l.IndexCounts E s metas finfo := by
  rw [index_eq, withNew_counts_iff (withoutOld_counts h), withoutOld_unmarked h, withoutOld_due,
    withoutOld_bDocDeletionCalled, IndexCounts, ← or_assoc]
  refine or_congr_left ?_
  rw [and_or_left, and_left_comm]

theorem isIndexed_counts (h : l.Counts) : (l.isIndexed E s finfo).1.Counts := by
  unfold isIndexed
  split
  · exact h
  · exact IndexModifier.counts_reader _

theorem onIndexerThreadFinished_counts (h : l.Counts) (b : Bool) : (l.onIndexerThreadFinished E b).Counts := by
  have hflush : (l.pIndexWriter.flush E.engine).base.Counts := QIndexModifier.flush_counts (counts_base.1 h)
  unfold onIndexerThreadFinished
  dsimp only
  split <;> exact hflush

/-- A session starts right exactly if nothing is marked in the directory. -/
theorem open_counts_iff {dir : Directory Document} (h : open? dir = some l) :
    l.Counts ↔ ∀ si, dir = some si → Unmarked si.slots := by
  cases dir with
  | none =>
    obtain rfl := Option.some.inj h
    exact iff_of_true rfl fun si hsi => by cases hsi
  | some si =>
    obtain rfl := Option.some.inj h
    rw [counts_writer rfl]
    exact ⟨fun hsi _ he => Option.some.inj he ▸ hsi, fun hsi => hsi si rfl⟩

theorem close_unmarked (h : l.Counts) :
    Unmarked (l.pIndexWriter.close E.engine).slots ↔ Unmarked l.pIndexWriter.slots := by
  rw [show Unmarked l.pIndexWriter.slots ↔ Unmarked l.segments.slots from IndexModifier.unmarked_slots, segments]
  rw [QIndexModifier.close]
  cases hbase : l.pIndexWriter.base with
  | reader r => rw [IndexModifier.close, r.close_eq, IndexModifier.segments]
  | writer w =>
    have hcounts := (counts_writer hbase).1 h
    exact iff_of_true (IndexWriter.unmarked_flush hcounts) hcounts

/-! ## Sequences of calls -/

/-- The calls of a worker on its index; to start again is to close and to open it. -/
inductive Call where
  | isIndexed (sAbsPathName : QString) (finfo : QFileInfo)
  | delDoc (sFieldName sFieldContent : QString)
  | index (sAbsPathName : QString) (metas : QMap QStringList) (finfo : QFileInfo)
  | getIndexReader
  | deleteDocument (docNum : ℕ)
  | onIndexerThreadFinished (bIndexerLoopFinished : Bool)
  | reopen

/-- One call; nothing where the source throws. -/
def step (E : Env) (l : Lucyindexer) : Call → Option (Lucyindexer × Unit)
  | .isIndexed sAbsPathName finfo => some ((l.isIndexed E sAbsPathName finfo).1, ())
  | .delDoc sFieldName sFieldContent => some ((l.delDoc E sFieldName sFieldContent).1, ())
  | .index sAbsPathName metas finfo => some (l.index E sAbsPathName metas finfo, ())
  | .getIndexReader => some ({ l with pIndexWriter := (l.pIndexWriter.getIndexReader E.engine).1 }, ())
  | .deleteDocument docNum =>
    (l.pIndexWriter.deleteDocument E.engine docNum).map fun m => ({ l with pIndexWriter := m }, ())
  | .onIndexerThreadFinished bIndexerLoopFinished => some (l.onIndexerThreadFinished E bIndexerLoopFinished, ())
  | .reopen => (open? (l.close E)).map fun l => (l, ())

/-- When the number is right after a call, by the state before it. -/
def CountsAfter (E : Env) (l : Lucyindexer) : Call → Prop
  | .index sAbsPathName metas finfo => l.IndexCounts E sAbsPathName metas finfo
  | .reopen => Unmarked l.pIndexWriter.slots
  | _ => True

theorem step_counts_iff {c : Call} {o : Unit} (h : l.Counts) (hstep : step E l c = some (l', o)) :
    l'.Counts ↔ l.CountsAfter E c := by
  cases c with
  | isIndexed sAbsPathName finfo =>
    cases hstep
    exact iff_of_true (isIndexed_counts h) trivial
  | delDoc sFieldName sFieldContent =>
    cases hstep
    obtain ⟨r, hr, -⟩ := delDoc_reader (E := E) (l := l) (f := sFieldName) (v := sFieldContent)
    exact iff_of_true (counts_of_reader hr) trivial
  | index sAbsPathName metas finfo =>
    cases hstep
    exact index_counts_iff h
  | getIndexReader =>
    cases hstep
    exact iff_of_true (counts_of_reader rfl) trivial
  | deleteDocument docNum =>
    -- the reader stays open after a deletion
    simp only [step, QIndexModifier.deleteDocument, IndexModifier.deleteDocument, Option.map_map,
      Option.map_eq_some_iff] at hstep
    obtain ⟨r, -, hr⟩ := hstep
    cases hr
    exact iff_of_true (counts_of_reader rfl) trivial
  | onIndexerThreadFinished bIndexerLoopFinished =>
    cases hstep
    exact iff_of_true (onIndexerThreadFinished_counts h _) trivial
  | reopen =>
    simp only [step, Option.map_eq_some_iff] at hstep
    obtain ⟨l₁, hopen, hl⟩ := hstep
    cases hl
    rw [open_counts_iff hopen, CountsAfter, ← close_unmarked (E := E) h]
    exact ⟨fun hsi => hsi _ rfl, fun hsi _ he => Option.some.inj he ▸ hsi⟩

/-- **The number of files in the index** is the number of live documents in every state of a run
exactly if it is at its start and each `index` and each new session finds the index in a state in
which it stays so. -/
theorem getNrOfFilesInIndex_always_iff {dir : Directory Document} {l₀ : Lucyindexer} {cs : List Call} {os : List Unit}
    (hopen : open? dir = some l₀) (hrun : Machine.run (step E) l₀ cs = some (l, os)) :
    Machine.Always (step E) (fun l => l.getNrOfFilesInIndex = l.docs.length) l₀ cs ↔
      (∀ si, dir = some si → Unmarked si.slots) ∧ Machine.Meets (step E) (CountsAfter E) l₀ cs := by
  rw [← open_counts_iff hopen]
  constructor
  · intro halways
    have hstart : l₀.Counts := halways [] cs l₀ [] rfl rfl
    exact ⟨hstart, (Machine.always_iff (fun _ _ _ _ => step_counts_iff) hstart hrun).1 halways⟩
  · rintro ⟨hstart, hmeets⟩
    exact (Machine.always_iff (fun _ _ _ _ => step_counts_iff) hstart hrun).2 hmeets

/-- `a` is indexed on a new index, and once more after it has changed. -/
def sampleCalls : List Call :=
  let index (t : ℕ) : Call :=
    let finfo : QFileInfo := ⟨true, 10, 1000 * t, qs "/d", qs "a", []⟩
    .index (qs "/d/a") (Worker.metaContents sampleEnv (sampleFs [("a", t)]) (qs "/d/a") finfo) finfo
  [index 1, .onIndexerThreadFinished true, index 2]

theorem getNrOfFilesInIndex_always_sample : ∃ l₀ l os, open? none = some l₀ ∧
    Machine.run (step sampleEnv) l₀ sampleCalls = some (l, os) ∧
    (Machine.Always (step sampleEnv) (fun l => l.getNrOfFilesInIndex = l.docs.length) l₀ sampleCalls ↔
      (∀ si, (none : Directory Document) = some si → Unmarked si.slots) ∧
        Machine.Meets (step sampleEnv) (CountsAfter sampleEnv) l₀ sampleCalls) := by
  refine ⟨_, _, _, rfl, rfl, ?_⟩
  exact getNrOfFilesInIndex_always_iff rfl rfl

/-- **A document that was deleted is counted**: `a` is in the index twice, its old version marked. -/
theorem getNrOfFilesInIndex_counts_deleted : ¬∀ (E : Env) (dir : Directory Document) (l₀ l : Lucyindexer)
    (cs : List Call) (os : List Unit), open? dir = some l₀ → Machine.run (step E) l₀ cs = some (l, os) →
      l.getNrOfFilesInIndex = l.docs.length := by
  intro hall
  have hcount := hall sampleEnv none _ _ sampleCalls _ rfl rfl
  revert hcount
  decide +kernel

end Lucyindexer

end QDesktopSearch
