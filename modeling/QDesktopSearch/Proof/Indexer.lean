import QDesktopSearch.Proof.Identity
import QDesktopSearch.Proof.Refine

/-!
# What each call of `lucyindexer` does to the live documents

* `isIndexed_eq`: the answer is whether a live document has the file's `id_fnanddate`, and
  no on a new index.
* `delDoc_docs`: the documents with the term go.
* `index_docs`: on an old index the documents with the file's `id_fn` go; the new one comes last.
* `open_docs`, `close_docs`: a session ends with its live documents and the next starts with them.
-/

namespace QDesktopSearch

open Slots

variable {E : Env}

namespace Lucyindexer

variable {l : Lucyindexer} {s : QString} {finfo : QFileInfo} {metas : QMap QStringList}

theorem docs_eq : l.docs = l.pIndexWriter.docs := rfl

/-- The last commit. -/
def committed (l : Lucyindexer) : SegmentInfos Document := l.pIndexWriter.committed

@[simp] theorem isIndexed_docs : (l.isIndexed E s finfo).1.docs = l.docs := by
  unfold isIndexed
  split
  · rfl
  · exact IndexModifier.createIndexReader_docs

@[simp] theorem isIndexed_bNewIndex : (l.isIndexed E s finfo).1.bNewIndex = l.bNewIndex := by
  unfold isIndexed; split <;> rfl

/-- On a new index `isIndexed` looks nothing up. -/
theorem isIndexed_new (h : l.bNewIndex = true) : l.isIndexed E s finfo = (l, false) := by
  simp [isIndexed, h]

/-- **`isIndexed` on an old index** tells whether a live document has the `id_fnanddate`. -/
theorem isIndexed_eq (h : l.bNewIndex = false) : (l.isIndexed E s finfo).2 =
    l.docs.any (Document.hasTerm E.tokens ⟨ID_FNANDDATE, getIdFNandDATE E (normalizePath E.qt s false) finfo⟩) := by
  have hcount : ∀ (p : Document → Bool) (sl : List (Slot Document)), (!(numbers p sl).isEmpty) = (live sl).any p := by
    intro p sl
    have hlen := numbers_length (p := p) (l := sl)
    rw [Bool.eq_iff_iff, Bool.not_eq_true', List.isEmpty_eq_false_iff, ← List.length_pos_iff, hlen,
      List.countP_pos_iff, List.any_eq_true]
  unfold isIndexed
  rw [if_neg (by simp [h])]
  show (!(numbers _ _).isEmpty) = _
  rw [hcount]
  exact congrArg (List.any · _) IndexModifier.createIndexReader_docs

/-- **`delDoc`** takes the documents with the term away. -/
theorem delDoc_docs {f v : QString} :
    (l.delDoc E f v).1.docs = l.docs.filter fun d => !Document.hasTerm E.tokens ⟨f, v⟩ d := by
  have hdel := QIndexModifier.deleteDocuments_docs (P := E.engine) (m := l.pIndexWriter) (t := ⟨f, v⟩)
  simp only [delDoc, docs_eq]
  split
  · rw [QIndexModifier.flush_docs]; exact hdel
  · exact hdel

@[simp] theorem onIndexerThreadFinished_docs {b : Bool} : (l.onIndexerThreadFinished E b).docs = l.docs := by
  have hflush := QIndexModifier.flush_docs (P := E.engine) (m := l.pIndexWriter)
  unfold onIndexerThreadFinished
  dsimp only
  split <;> exact hflush

/-- `index` after its deletion: the old version is out of the way. -/
def withoutOld (E : Env) (l : Lucyindexer) (s : QString) : Lucyindexer :=
  if !l.bNewIndex then (l.delDoc E ID_FN (getIdFN E s)).1 else l

/-- `index` after `addDocument`. -/
def withNew (E : Env) (l : Lucyindexer) (doc : Document) : Lucyindexer :=
  { l with pIndexWriter := l.pIndexWriter.addDocument E.engine doc, iIndexedFiles := l.iIndexedFiles + 1 }

/-- The end of `index`: every `OPTIMIZE_AFTER_INDEXED_FILES` documents, a flush. -/
def optimized (E : Env) (l : Lucyindexer) : Lucyindexer :=
  if l.iIndexedFiles > 9 && l.iIndexedFiles % OPTIMIZE_AFTER_INDEXED_FILES == 0 then
    l.onIndexerThreadFinished E false
  else l

/-- `index` in three parts. -/
theorem index_eq : l.index E s metas finfo =
    (((l.withoutOld E (normalizePath E.qt s false)).withNew E
      (indexDocument E (normalizePath E.qt s false) metas finfo)).optimized E) := rfl

theorem withoutOld_docs : (l.withoutOld E s).docs = if l.bNewIndex then l.docs else
    l.docs.filter fun d => !Document.hasTerm E.tokens ⟨ID_FN, getIdFN E s⟩ d := by
  unfold withoutOld
  cases hb : l.bNewIndex with
  | true => rfl
  | false => exact delDoc_docs

@[simp] theorem withoutOld_bNewIndex : (l.withoutOld E s).bNewIndex = l.bNewIndex := by
  unfold withoutOld; split <;> rfl

theorem withNew_docs {doc : Document} : (l.withNew E doc).docs = l.docs ++ [doc] :=
  QIndexModifier.addDocument_docs doc

@[simp] theorem optimized_docs : (l.optimized E).docs = l.docs := by
  unfold optimized
  split
  · exact onIndexerThreadFinished_docs
  · rfl

@[simp] theorem optimized_bNewIndex : (l.optimized E).bNewIndex = l.bNewIndex := by
  unfold optimized; split <;> rfl

@[simp] theorem index_bNewIndex : (l.index E s metas finfo).bNewIndex = l.bNewIndex := by
  rw [index_eq, optimized_bNewIndex]
  exact withoutOld_bNewIndex

/-- **`index`**: the old version goes unless the index is new, and the document is added. -/
theorem index_docs : (l.index E s metas finfo).docs =
    (if l.bNewIndex then l.docs else
      l.docs.filter fun d => !Document.hasTerm E.tokens ⟨ID_FN, getIdFN E (normalizePath E.qt s false)⟩ d) ++
    [indexDocument E (normalizePath E.qt s false) metas finfo] := by
  rw [index_eq, optimized_docs, withNew_docs, withoutOld_docs]

/-- **`close`** leaves exactly the live documents behind. -/
theorem close_docs {dir : Directory Document} (h : l.close E = dir) : ∃ si, dir = some si ∧ si.docs = l.docs :=
  ⟨l.pIndexWriter.close E.engine, h.symm, QIndexModifier.close_docs⟩

/-- **`open`**: an index that is there is opened as old, with its documents; otherwise it is
created, new and empty. -/
theorem open_docs {dir : Directory Document} (h : open? dir = some l) :
    (∀ si, dir = some si → l.bNewIndex = false ∧ l.docs = si.docs) ∧
      (dir = none → l.bNewIndex = true ∧ l.docs = []) := by
  simp only [open?, Option.map_eq_some_iff] at h
  obtain ⟨m, hm, rfl⟩ := h
  obtain ⟨hdocs, hcommit⟩ := QIndexModifier.init_docs hm
  constructor
  · rintro si rfl
    refine ⟨rfl, ?_⟩
    rw [docs_eq, hdocs, hcommit]; rfl
  · rintro rfl
    refine ⟨rfl, ?_⟩
    rw [docs_eq, hdocs, hcommit]; rfl

end Lucyindexer

end QDesktopSearch
