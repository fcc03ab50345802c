import QDesktopSearch.Proof.Refine

/-!
# Document numbers while nothing is buffered

Without buffered documents no call but `addDocument` moves a document: numbers keep their
meaning through `getIndexReader`, both deletions and `flush`.

* `Steady`: nothing is buffered, and the numbers denote a given list of slots.
* `getIndexReader_steady`, `deleteDocument_steady`, `deleteDocuments_steady`,
  `flush_steady`: what each call does to the slots and to the last commit.
-/

namespace QDesktopSearch

open Slots

variable {D T : Type*} {P : Engine D T}

namespace QIndexModifier

variable {m m' : QIndexModifier D} {sl : List (Slot D)} {t : T} {n : ℕ}

/-- Nothing is buffered, and the documents are numbered as in `sl`. -/
structure Steady (m : QIndexModifier D) (sl : List (Slot D)) : Prop where
  buffered : m.buffered = []
  slots : m.slots = sl

theorem Steady.docs (h : m.Steady sl) : m.docs = live sl := by
  rw [← h.slots]; rfl

/-- Where nothing is buffered, switching to the reader commits nothing new. -/
theorem createIndexReader_committed {m : IndexModifier D} (h : m.buffered = []) :
    (m.createIndexReader P).committed = m.committed := by
  cases m with
  | reader r => rfl
  | writer w =>
    have h' : w.docWriter = [] := h
    simp [IndexModifier.createIndexReader, IndexReader.openOn, IndexWriter.close, IndexWriter.flush_of_empty h']

theorem createIndexReader_steady (h : m.Steady sl) : (m.base.createIndexReader P).slots = sl ∧
    (m.base.createIndexReader P).committed = m.committed := by
  have h1 := IndexModifier.createIndexReader_slots (P := P) h.buffered
  refine ⟨h1.trans h.slots, ?_⟩
  exact createIndexReader_committed h.buffered

/-- **`getIndexReader`** gives a reader with the same numbers. -/
theorem getIndexReader_steady (h : m.Steady sl) :
    (m.getIndexReader P).2.slots = sl ∧ (m.getIndexReader P).1.Steady sl ∧
      (m.getIndexReader P).1.committed = m.committed ∧
      (m.getIndexReader P).1.bDocDeletionCalled = m.bDocDeletionCalled := by
  obtain ⟨hs, hc⟩ := createIndexReader_steady (P := P) h
  exact ⟨hs, ⟨rfl, hs⟩, hc, rfl⟩

/-- **`deleteDocument`** of a number in range marks it, and commits nothing. -/
theorem deleteDocument_steady (h : m.Steady sl) (hn : n < sl.length) :
    ∃ m', m.deleteDocument P n = some m' ∧ m'.Steady (mark sl n) ∧ m'.committed = m.committed ∧
      m'.bDocDeletionCalled = true := by
  obtain ⟨hs, hc⟩ := createIndexReader_steady (P := P) h
  have hlt : n < (m.base.createIndexReader P).maxDoc := by
    rw [IndexReader.maxDoc_eq, hs]; exact hn
  refine ⟨⟨.reader ((m.base.createIndexReader P).delete n), true⟩, ?_, ⟨rfl, ?_⟩, ?_, rfl⟩
  · simp [deleteDocument, IndexModifier.deleteDocument, IndexReader.deleteDocument, hlt]
  · show ((m.base.createIndexReader P).delete n).slots = mark sl n
    rw [IndexReader.delete_slots, hs]
  · exact hc

/-- **`deleteDocuments`** marks the live numbers with the term, counts them, and commits
nothing. -/
theorem deleteDocuments_steady (h : m.Steady sl) :
    (m.deleteDocuments P t).1.Steady (marks sl (numbers (P.hasTerm t) sl)) ∧
      (m.deleteDocuments P t).1.committed = m.committed ∧
      (m.deleteDocuments P t).2 = (numbers (P.hasTerm t) sl).length := by
  obtain ⟨hs, hc⟩ := createIndexReader_steady (P := P) h
  refine ⟨⟨rfl, ?_⟩, ?_, ?_⟩
  · show ((m.base.createIndexReader P).deleteDocuments P t).1.slots = _
    rw [IndexReader.deleteDocuments_slots, IndexReader.termDocs, hs]
  · show ((m.base.createIndexReader P).deleteDocuments P t).1.committed = _
    rw [IndexReader.deleteDocuments_committed, hc]
  · show (numbers _ (m.base.createIndexReader P).slots).length = _
    rw [hs]

/-- **`flush`** keeps the numbers. -/
theorem flush_steady (h : m.Steady sl) : (m.flush P).Steady sl := by
  have hbase : ∀ b : IndexModifier D, b.buffered = [] → (b.flush P).slots = b.slots := by
    intro b hb
    cases b with
    | reader r => simp only [IndexModifier.flush, IndexReader.close_eq]; rfl
    | writer w =>
      have hw : w.docWriter = [] := hb
      simp [IndexModifier.flush, IndexModifier.slots, IndexWriter.close, IndexWriter.flush_of_empty hw, hw]
  refine ⟨flush_buffered, ?_⟩
  obtain ⟨hs, -⟩ := createIndexReader_steady (P := P) h
  unfold flush
  dsimp only
  split
  · have hflush := hbase (.reader (m.getIndexReader P).2.commit) rfl
    refine hflush.trans ?_
    show (IndexReader.commit _).slots = sl
    simp only [IndexReader.slots, IndexReader.commit_segments]
    exact hs
  · exact (hbase _ h.buffered).trans h.slots

theorem slots_length_docCount : m.docCount ≤ m.slots.length := by
  unfold docCount slots
  cases m.base with
  | reader r =>
    have h : r.segments.numDocs ≤ r.segments.docCount := SegmentInfos.numDocs_le
    rw [SegmentInfos.docCount_eq] at h
    exact h
  | writer w =>
    simp only [IndexModifier.docCount, IndexWriter.docCount, IndexModifier.slots, List.length_append,
      SegmentInfos.docCount_eq, ofList, List.length_map]
    omega

end QIndexModifier

end QDesktopSearch
