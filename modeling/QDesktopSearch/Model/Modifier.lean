import QDesktopSearch.Model.Index

/-!
# `IndexModifier` and `QIndexModifier`

`IndexModifier` keeps an `IndexWriter` or an `IndexReader` open on its directory, never
both, and closes one to open the other. The open one holds the directory, so the
committed index is a function of the modifier (`committed`), and so are the live
documents that callers see (`docs`).

`QIndexModifier` adds the flag `m_bDocDeletionCalled` and hides `flush`.
-/

namespace QDesktopSearch

open Slots

variable {D T : Type*} (P : Engine D T)

/-- The sub-object that is open: `indexWriter` or `indexReader`. -/
inductive IndexModifier (D : Type*) where
  | writer (indexWriter : IndexWriter D)
  | reader (indexReader : IndexReader D)

namespace IndexModifier

/-- `init`: a modifier starts with a writer. -/
def init (dir : Directory D) (create : Bool) : Option (IndexModifier D) :=
  (IndexWriter.init dir create).map .writer

/-- `createIndexWriter`: the writer, after closing the reader if that is open. -/
def createIndexWriter : IndexModifier D → IndexWriter D
  | .writer w => w
  | .reader r => ⟨r.close, []⟩

/-- `createIndexReader`: the reader, after closing the writer if that is open. -/
def createIndexReader : IndexModifier D → IndexReader D
  | .reader r => r
  | .writer w => .openOn (w.close P)

def flush : IndexModifier D → IndexModifier D
  | .writer w => .writer ⟨w.close P, []⟩
  | .reader r => .reader (.openOn r.close)

def addDocument (m : IndexModifier D) (doc : D) : IndexModifier D :=
  .writer (m.createIndexWriter.addDocument P doc)

def deleteDocuments (m : IndexModifier D) (t : T) : IndexModifier D × ℕ :=
  let (r, n) := (m.createIndexReader P).deleteDocuments P t
  (.reader r, n)

def deleteDocument (m : IndexModifier D) (docNum : ℕ) : Option (IndexModifier D) :=
  ((m.createIndexReader P).deleteDocument docNum).map .reader

/-- `docCount`: the writer counts deleted documents, the reader does not. -/
def docCount : IndexModifier D → ℕ
  | .writer w => w.docCount
  | .reader r => r.numDocs

def termDocs (m : IndexModifier D) (t : T) : IndexModifier D × List ℕ :=
  let r := m.createIndexReader P
  (.reader r, r.termDocs P t)

/-- `close`: what is left in the directory. -/
def close : IndexModifier D → SegmentInfos D
  | .writer w => w.close P
  | .reader r => r.close

/-- The last commit in the directory: what a searcher opened now sees. -/
def committed : IndexModifier D → SegmentInfos D
  | .writer w => w.segmentInfos
  | .reader r => r.committed

/-- Documents added but not yet in a segment. -/
def buffered : IndexModifier D → List D
  | .writer w => w.docWriter
  | .reader _ => []

/-- The numbered documents, those of the buffer last. -/
def slots : IndexModifier D → List (Slot D)
  | .writer w => w.segmentInfos.slots ++ ofList w.docWriter
  | .reader r => r.slots

/-- The live documents, every addition and deletion so far applied. -/
def docs (m : IndexModifier D) : List D := live m.slots

end IndexModifier

/-- `IndexModifier` with the flag `m_bDocDeletionCalled`. -/
structure QIndexModifier (D : Type*) where
  base : IndexModifier D
  bDocDeletionCalled : Bool

namespace QIndexModifier

/-- The constructor. -/
def init (dir : Directory D) (create : Bool) : Option (QIndexModifier D) :=
  (IndexModifier.init dir create).map fun m => ⟨m, false⟩

def getIndexReader (m : QIndexModifier D) : QIndexModifier D × IndexReader D :=
  let r := m.base.createIndexReader P
  ({ m with base := .reader r }, r)

def deleteDocuments (m : QIndexModifier D) (t : T) : QIndexModifier D × ℕ :=
  let (base, iDeletedDocs) := m.base.deleteDocuments P t
  (⟨base, if iDeletedDocs > 0 then true else m.bDocDeletionCalled⟩, iDeletedDocs)

def deleteDocument (m : QIndexModifier D) (docNum : ℕ) : Option (QIndexModifier D) :=
  (m.base.deleteDocument P docNum).map fun base => ⟨base, true⟩

def flush (m : QIndexModifier D) : QIndexModifier D :=
  let m := if m.bDocDeletionCalled then
      ⟨.reader (m.getIndexReader P).2.commit, false⟩
    else m
  { m with base := m.base.flush P }

def addDocument (m : QIndexModifier D) (doc : D) : QIndexModifier D :=
  { m with base := m.base.addDocument P doc }

def termDocs (m : QIndexModifier D) (t : T) : QIndexModifier D × List ℕ :=
  let (base, ns) := m.base.termDocs P t
  ({ m with base := base }, ns)

def docCount (m : QIndexModifier D) : ℕ := m.base.docCount

def close (m : QIndexModifier D) : SegmentInfos D := m.base.close P

def committed (m : QIndexModifier D) : SegmentInfos D := m.base.committed

def buffered (m : QIndexModifier D) : List D := m.base.buffered

def slots (m : QIndexModifier D) : List (Slot D) := m.base.slots

def docs (m : QIndexModifier D) : List D := m.base.docs

end QIndexModifier

end QDesktopSearch
