import Mathlib.Algebra.GroupWithZero.Nat
import QDesktopSearch.Lib.Slots

/-!
# CLucene's index files, `IndexWriter` and `IndexReader`

`D` is the type of documents, `T` of terms. A segment numbers its documents from 0 and
marks the deleted ones; a reader numbers the documents of all segments one after the
other (`starts` of `MultiSegmentReader`). `Engine` collects what depends on the contents
of documents: which terms a document is indexed under, when the RAM buffer is full, and
which runs of segments the merge policy picks.

A writer runs with `autoCommit`, so its `segmentInfos` are the committed ones at every
point; a reader's deletions are in memory until `commit`.
-/

namespace QDesktopSearch

open Slots

/-- What the engine computes from the contents of documents. -/
structure Engine (D T : Type*) where
  /-- The document is indexed under the term. -/
  hasTerm : T → D → Bool
  /-- `DocumentsWriter::addDocument` asks for a flush: the RAM buffer is full. -/
  bufferFull : List D → Bool
  /-- `MergePolicy::findMerges`: runs of segments, each by first index and length. -/
  findMerges : List (List (Slot D)) → List (ℕ × ℕ)

/-- The segments of one commit, in order. -/
abbrev SegmentInfos (D : Type*) := List (List (Slot D))

/-- An index directory: its last commit, or no `segments.gen` yet. -/
abbrev Directory (D : Type*) := Option (SegmentInfos D)

variable {D T : Type*}

namespace SegmentInfos

/-- The documents as a reader numbers them. -/
def slots (si : SegmentInfos D) : List (Slot D) := List.flatten si

/-- The live documents of the segments. -/
def docs (si : SegmentInfos D) : List D := live si.slots

/-- `SegmentInfo::docCount`, summed: deleted documents count. -/
def docCount (si : SegmentInfos D) : ℕ := (si.map List.length).sum

/-- `SegmentReader::numDocs`, summed: the documents less the deleted ones. -/
def numDocs (si : SegmentInfos D) : ℕ := (si.map fun seg => seg.length - seg.countP (·.deleted)).sum

/-- `MultiSegmentReader::doDelete`: the segment that holds number `n` marks it. -/
def doDelete : SegmentInfos D → ℕ → SegmentInfos D
  | [], _ => []
  | seg :: rest, n =>
    if n < seg.length then mark seg n :: rest else seg :: doDelete rest (n - seg.length)

/-- One merge: a run of segments becomes one segment of their live documents. -/
def merge (si : SegmentInfos D) (first count : ℕ) : SegmentInfos D :=
  si.take first ++ [ofList (docs ((si.drop first).take count))] ++ (si.drop first).drop count

end SegmentInfos

/-! ## `IndexWriter` -/

/-- An open writer: the committed segments and the documents buffered in RAM. -/
structure IndexWriter (D : Type*) where
  segmentInfos : SegmentInfos D
  docWriter : List D

namespace IndexWriter

variable (P : Engine D T)

/-- `IndexWriter::init`. `create` commits an index with no segments; otherwise the
segments file is read, and `none` is the error that there is none. -/
def init (dir : Directory D) (create : Bool) : Option (IndexWriter D) :=
  if create then some ⟨[], []⟩ else dir.map fun si => ⟨si, []⟩

/-- `doFlush`: buffered documents become a segment; says whether there were any. -/
def doFlush (w : IndexWriter D) : IndexWriter D × Bool :=
  if w.docWriter = [] then (w, false) else (⟨w.segmentInfos ++ [ofList w.docWriter], []⟩, true)

/-- `maybeMerge`, run to the end by the `SerialMergeScheduler`. -/
def maybeMerge (w : IndexWriter D) : IndexWriter D :=
  { w with segmentInfos :=
      (P.findMerges w.segmentInfos).foldl (fun si r => si.merge r.1 r.2) w.segmentInfos }

/-- `flush(triggerMerge = true, ..)`: merges only where something was flushed. -/
def flush (w : IndexWriter D) : IndexWriter D :=
  let (w, flushed) := w.doFlush
  if flushed then w.maybeMerge P else w

def addDocument (w : IndexWriter D) (doc : D) : IndexWriter D :=
  let w := { w with docWriter := w.docWriter ++ [doc] }
  if P.bufferFull w.docWriter then w.flush P else w

/-- `close`: flush, and leave the committed segments behind. -/
def close (w : IndexWriter D) : SegmentInfos D := (w.flush P).segmentInfos

/-- `docCount`: buffered documents and all documents of the segments, deleted or not. -/
def docCount (w : IndexWriter D) : ℕ := w.docWriter.length + w.segmentInfos.docCount

end IndexWriter

/-! ## `IndexReader` -/

/-- An open reader: the commit it reads, the same segments with its own deletions, and
whether there are deletions to commit. -/
structure IndexReader (D : Type*) where
  committed : SegmentInfos D
  segments : SegmentInfos D
  hasChanges : Bool
  unchanged : hasChanges = false → segments = committed

namespace IndexReader

variable (P : Engine D T)

/-- `IndexReader::open` on a committed index. -/
def openOn (si : SegmentInfos D) : IndexReader D := ⟨si, si, false, fun _ => rfl⟩

/-- `IndexReader::open`; `none` is the error that there is no segments file. -/
def open? (dir : Directory D) : Option (IndexReader D) := dir.map openOn

def slots (r : IndexReader D) : List (Slot D) := r.segments.slots

def maxDoc (r : IndexReader D) : ℕ := r.segments.docCount

def numDocs (r : IndexReader D) : ℕ := r.segments.numDocs

/-- `isDeleted`; nothing where the number is not below `maxDoc`. -/
def isDeleted (r : IndexReader D) (n : ℕ) : Option Bool := r.slots[n]?.map (·.deleted)

/-- `document`; nothing (an error) for a deleted document or a number out of range. -/
def document (r : IndexReader D) (n : ℕ) : Option D :=
  r.slots[n]?.bind fun s => if s.deleted then none else some s.val

/-- The body of `deleteDocument`, for a number in range. -/
def delete (r : IndexReader D) (n : ℕ) : IndexReader D :=
  ⟨r.committed, r.segments.doDelete n, true, fun h => by simp at h⟩

/-- `deleteDocument`, with the precondition of `SegmentReader::doDelete`. -/
def deleteDocument (r : IndexReader D) (n : ℕ) : Option (IndexReader D) :=
  if n < r.maxDoc then some (r.delete n) else none

/-- `termDocs`: the numbers of the live documents indexed under the term. -/
def termDocs (r : IndexReader D) (t : T) : List ℕ := numbers (P.hasTerm t) r.slots

/-- `deleteDocuments`: delete what `termDocs` enumerates, and count. -/
def deleteDocuments (r : IndexReader D) (t : T) : IndexReader D × ℕ :=
  let docs := r.termDocs P t
  (docs.foldl delete r, docs.length)

/-- `commit`: `doCommit` where there are changes. -/
def commit (r : IndexReader D) : IndexReader D :=
  if r.hasChanges then ⟨r.segments, r.segments, false, fun _ => rfl⟩ else r

/-- `close`: commit, and leave the committed segments behind. -/
def close (r : IndexReader D) : SegmentInfos D := r.commit.committed

end IndexReader

end QDesktopSearch
