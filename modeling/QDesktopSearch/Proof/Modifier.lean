import QDesktopSearch.Model.Modifier
import Mathlib.Algebra.BigOperators.Group.List.Basic

/-!
# What each index operation does to the live documents

One lemma per operation of writer, reader and modifier, on the list `docs` of live
documents and on the last commit:

* merging, flushing, committing and switching between writer and reader keep `docs`;
* `addDocument` appends, `deleteDocuments` filters, `deleteDocument` takes one away;
* `flush` and `close` commit exactly `docs`.
-/

namespace QDesktopSearch

open Slots

variable {D T : Type*} {P : Engine D T}

/-! ## Segments -/

namespace SegmentInfos

variable {si : SegmentInfos D} {n : ℕ}

@[simp] theorem slots_nil : slots ([] : SegmentInfos D) = [] := rfl

theorem slots_cons (seg : List (Slot D)) : slots (seg :: si) = seg ++ si.slots := rfl

@[simp] theorem slots_append (si' : SegmentInfos D) : slots (si ++ si') = si.slots ++ si'.slots := by
  simp [slots]

@[simp] theorem slots_singleton (seg : List (Slot D)) : slots [seg] = seg := by simp [slots]

@[simp] theorem docs_append (si' : SegmentInfos D) : docs (si ++ si') = si.docs ++ si'.docs := by
  simp [docs]

theorem docCount_eq : si.docCount = si.slots.length := by simp [docCount, slots]

theorem countP_deleted_add (seg : List (Slot D)) : (live seg).length + seg.countP (·.deleted) = seg.length := by
  induction seg with
  | nil => rfl
  | cons s seg ih =>
    rw [live_cons]
    cases hd : s.deleted <;> simp [hd] <;> omega

/-- `numDocs` is the number of live documents. -/
theorem numDocs_eq : si.numDocs = si.docs.length := by
  have h : ∀ seg : List (Slot D), seg.length - seg.countP (·.deleted) = (live seg).length := fun seg => by
    have := countP_deleted_add seg; omega
  simp only [numDocs, docs, slots, live_flatten, List.length_flatMap, h]

/-- `numDocs` is at most `maxDoc`. -/
theorem numDocs_le : si.numDocs ≤ si.docCount := by
  rw [numDocs_eq, docCount_eq]; exact live_length_le

/-- Deleting a number marks it in the reader's numbering. -/
theorem slots_doDelete : (si.doDelete n).slots = mark si.slots n := by
  induction si generalizing n with
  | nil => simp [doDelete, mark]
  | cons seg rest ih =>
    rw [slots_cons, mark_append]
    unfold doDelete
    split
    · rw [slots_cons]
    · rw [slots_cons, ih]

/-- **A merge keeps the live documents and their order.** -/
theorem docs_merge (a b : ℕ) : (si.merge a b).docs = si.docs := by
  have h1 : si.docs = docs (si.take a) ++ docs (si.drop a) := by
    rw [← docs_append, List.take_append_drop]
  have h2 : docs (si.drop a) = docs ((si.drop a).take b) ++ docs ((si.drop a).drop b) := by
    rw [← docs_append, List.take_append_drop]
  have h3 : docs [ofList (docs ((si.drop a).take b))] = docs ((si.drop a).take b) := by
    simp [docs]
  rw [merge, docs_append, docs_append, h3, h1, h2, List.append_assoc]

end SegmentInfos

/-! ## Writer -/

namespace IndexWriter

variable {w : IndexWriter D}

/-- The committed and the buffered documents. -/
def docs (w : IndexWriter D) : List D := w.segmentInfos.docs ++ w.docWriter

@[simp] theorem maybeMerge_docWriter : (w.maybeMerge P).docWriter = w.docWriter := rfl

theorem maybeMerge_docs : (w.maybeMerge P).segmentInfos.docs = w.segmentInfos.docs := by
  simp only [maybeMerge]
  generalize P.findMerges w.segmentInfos = rs
  have key : ∀ (rs : List (ℕ × ℕ)) (si : SegmentInfos D),
      (rs.foldl (fun si r => si.merge r.1 r.2) si).docs = si.docs := by
    intro rs
    induction rs with
    | nil => intro si; rfl
    | cons r rs ih => intro si; rw [List.foldl_cons, ih, SegmentInfos.docs_merge]
  exact key rs _

/-- Flushing an empty buffer changes nothing: no segment, and no merge. -/
theorem flush_of_empty (h : w.docWriter = []) : w.flush P = w := by simp [flush, doFlush, h]

@[simp] theorem flush_docWriter : (w.flush P).docWriter = [] := by
  by_cases h : w.docWriter = [] <;> simp [flush, doFlush, h]

/-- **A flush commits the buffered documents** after the committed ones. -/
theorem flush_docs : (w.flush P).segmentInfos.docs = w.docs := by
  by_cases h : w.docWriter = []
  · rw [flush_of_empty h]; simp [docs, h]
  · simp only [flush, doFlush, h, ↓reduceIte]
    rw [maybeMerge_docs]
    simp [docs, SegmentInfos.docs]

theorem close_docs : (w.close P).docs = w.docs := flush_docs

theorem addDocument_docs (d : D) : (w.addDocument P d).docs = w.docs ++ [d] := by
  have h : ({ w with docWriter := w.docWriter ++ [d] } : IndexWriter D).docs = w.docs ++ [d] := by
    simp [docs]
  unfold addDocument; simp only
  split
  · rw [← h, docs, flush_docWriter, flush_docs, List.append_nil]
  · exact h

end IndexWriter

/-! ## Reader -/

namespace IndexReader

variable {r : IndexReader D} {n : ℕ} {t : T}

/-- The live documents. -/
def docs (r : IndexReader D) : List D := live r.slots

theorem maxDoc_eq : r.maxDoc = r.slots.length := SegmentInfos.docCount_eq

theorem numDocs_eq : r.numDocs = r.docs.length := SegmentInfos.numDocs_eq

@[simp] theorem delete_committed : (r.delete n).committed = r.committed := rfl

@[simp] theorem delete_slots : (r.delete n).slots = mark r.slots n := SegmentInfos.slots_doDelete

theorem document_eq_some {d : D} : r.document n = some d ↔ LiveAt r.slots n d := by
  unfold document LiveAt
  cases r.slots[n]? with
  | none => simp
  | some s => obtain ⟨v, b⟩ := s; cases b <;> simp

theorem foldl_delete_slots (ns : List ℕ) : (ns.foldl delete r).slots = marks r.slots ns := by
  induction ns generalizing r with
  | nil => rfl
  | cons n ns ih => rw [List.foldl_cons, ih, delete_slots, marks_cons]

theorem foldl_delete_committed (ns : List ℕ) : (ns.foldl delete r).committed = r.committed := by
  induction ns generalizing r with
  | nil => rfl
  | cons n ns ih => rw [List.foldl_cons, ih, delete_committed]

theorem foldl_delete_hasChanges (ns : List ℕ) :
    (ns.foldl delete r).hasChanges = (r.hasChanges || !ns.isEmpty) := by
  induction ns generalizing r with
  | nil => simp
  | cons n ns ih => rw [List.foldl_cons, ih]; simp [delete]

/-- **`deleteDocuments` filters the live documents** by the term. -/
theorem deleteDocuments_docs : (r.deleteDocuments P t).1.docs = r.docs.filter fun d => !P.hasTerm t d := by
  simp only [deleteDocuments, docs, foldl_delete_slots, termDocs]
  exact live_marks_numbers

/-- `deleteDocuments` counts the live documents with the term. -/
theorem deleteDocuments_count : (r.deleteDocuments P t).2 = r.docs.countP (P.hasTerm t) := numbers_length

theorem deleteDocuments_slots : (r.deleteDocuments P t).1.slots = marks r.slots (r.termDocs P t) :=
  foldl_delete_slots _

@[simp] theorem deleteDocuments_committed : (r.deleteDocuments P t).1.committed = r.committed :=
  foldl_delete_committed _

theorem commit_segments : r.commit.segments = r.segments := by unfold commit; split <;> rfl

/-- **`close` leaves the reader's segments behind**, deletions included. -/
theorem close_eq : r.close = r.segments := by
  unfold close commit; split
  · rfl
  · rename_i h; exact (r.unchanged (by simpa using h)).symm

end IndexReader

/-! ## Modifier -/

namespace IndexModifier

variable {m : IndexModifier D} {t : T}

@[simp] theorem docs_writer (w : IndexWriter D) : docs (.writer w) = w.docs := by
  simp [docs, slots, IndexWriter.docs, SegmentInfos.docs]

@[simp] theorem docs_reader (r : IndexReader D) : docs (.reader r) = r.docs := rfl

@[simp] theorem committed_writer (w : IndexWriter D) : committed (.writer w) = w.segmentInfos := rfl

@[simp] theorem committed_reader (r : IndexReader D) : committed (.reader r) = r.committed := rfl

/-- **Switching to the reader keeps the live documents.** -/
theorem createIndexReader_docs : (m.createIndexReader P).docs = m.docs := by
  cases m with
  | reader r => rfl
  | writer w =>
    have h := IndexWriter.close_docs (P := P) (w := w)
    rw [docs_writer]; exact h

/-- **Switching to the writer keeps the live documents.** -/
theorem createIndexWriter_docs : m.createIndexWriter.docs = m.docs := by
  cases m with
  | writer w => rw [docs_writer]; rfl
  | reader r =>
    simp only [createIndexWriter, IndexWriter.docs, List.append_nil, IndexReader.close_eq]
    rfl

/-- Where nothing is buffered, switching to the reader keeps the numbers. -/
theorem createIndexReader_slots (h : m.buffered = []) : (m.createIndexReader P).slots = m.slots := by
  cases m with
  | reader r => rfl
  | writer w =>
    have h' : w.docWriter = [] := h
    simp [createIndexReader, IndexReader.openOn, IndexReader.slots, slots, IndexWriter.close,
      IndexWriter.flush_of_empty h', h', ofList]

/-- **`flush` keeps the live documents.** -/
theorem flush_docs : (m.flush P).docs = m.docs := by
  cases m with
  | writer w =>
    have h := IndexWriter.close_docs (P := P) (w := w)
    simp only [flush, docs_writer, IndexWriter.docs, List.append_nil] at h ⊢; exact h
  | reader r => simp only [flush, docs_reader, IndexReader.close_eq]; rfl

/-- **`flush` commits exactly the live documents.** -/
theorem flush_committed_docs : (m.flush P).committed.docs = m.docs := by
  cases m with
  | writer w => rw [docs_writer]; exact IndexWriter.close_docs
  | reader r => simp only [flush, committed_reader, IndexReader.openOn, IndexReader.close_eq]; rfl

@[simp] theorem flush_buffered : (m.flush P).buffered = [] := by cases m <;> rfl

/-- **`close` leaves exactly the live documents.** -/
theorem close_docs : (m.close P).docs = m.docs := by
  cases m with
  | writer w => rw [docs_writer]; exact IndexWriter.close_docs
  | reader r => simp only [close, IndexReader.close_eq]; rfl

theorem addDocument_docs (d : D) : (m.addDocument P d).docs = m.docs ++ [d] := by
  simp only [addDocument, docs_writer, IndexWriter.addDocument_docs, createIndexWriter_docs]

theorem deleteDocuments_docs : (m.deleteDocuments P t).1.docs = m.docs.filter fun d => !P.hasTerm t d := by
  simp only [deleteDocuments, docs_reader, IndexReader.deleteDocuments_docs, createIndexReader_docs]

theorem deleteDocuments_count : (m.deleteDocuments P t).2 = m.docs.countP (P.hasTerm t) := by
  simp only [deleteDocuments, IndexReader.deleteDocuments_count, createIndexReader_docs]

end IndexModifier

end QDesktopSearch
