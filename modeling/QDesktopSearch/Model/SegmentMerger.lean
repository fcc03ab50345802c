import QDesktopSearch.Lib.Heap
import QDesktopSearch.Model.Segment

/-!
# Merging segments

The terms of all segments are gone through together, by a queue of their enumerations. The postings of a
term are copied from one segment after the other; deleted documents are left out, and the others get new numbers.
Stored fields and norms are not here.
-/

namespace QDesktopSearch

/-- A segment that is merged. Its `TermPositions` and its map of documents are null until they are needed;
here they are made at once. -/
structure SegmentMergeInfo where
  base : ℕ
  termEnum : SegmentTermEnum
  postings : SegmentTermPositions
  docMap : Option (List ℤ)
  deriving Inhabited

namespace SegmentMergeInfo

/-- The loop of `getDocMap`, with `n` documents left. -/
def docMapLoop (isDeleted : ℕ → Bool) : (n : ℕ) → (i j : ℕ) → List ℤ
  | 0, _, _ => []
  | n + 1, i, j => if isDeleted i then -1 :: docMapLoop isDeleted n (i + 1) j
    else (j : ℤ) :: docMapLoop isDeleted n (i + 1) (j + 1)

def getDocMap (r : SegmentReader) : Option (List ℤ) :=
  if r.hasDeletions then some (docMapLoop r.isDeleted r.maxDoc 0 0) else none

/-- The constructor. -/
def new (base : ℕ) (r : SegmentReader) : SegmentMergeInfo := ⟨base, (r.tis.terms none).1, r.positions, getDocMap r⟩

/-- The term it stands on; null behind the last one. -/
def term (smi : SegmentMergeInfo) : Option Term := smi.termEnum._term

def next (smi : SegmentMergeInfo) : Bool × SegmentMergeInfo :=
  let r := smi.termEnum.next
  (r.1, { smi with termEnum := r.2 })

/-- The number of a document in merged space. -/
def newDoc (smi : SegmentMergeInfo) (doc : ℕ) : ℤ := (smi.docMap.elim (doc : ℤ) fun docMap => docMap.getD doc 0) + smi.base

end SegmentMergeInfo

/-- `SegmentMergeQueue::lessThan`. No term is null in the queue. -/
def SegmentMergeQueue.lessThan (stiA stiB : SegmentMergeInfo) : Bool :=
  let termA := stiA.term.getD ⟨[], []⟩
  let termB := stiB.term.getD ⟨[], []⟩
  if termA = termB then stiA.base < stiB.base else termA < termB

/-! ## `SegmentMerger` -/

namespace SegmentMerger

open SegmentMergeQueue

/-- `fieldInfos->add`, of a name. -/
def addField (fieldInfos : FieldInfos) (name : QString) : FieldInfos :=
  if fieldInfos.contains name then fieldInfos else fieldInfos ++ [name]

/-- The names of the fields in `mergeFields`. -/
def mergeFieldInfos (readers : List SegmentReader) : FieldInfos := (readers.flatMap (·._fieldInfos)).foldl addField []

/-- The documents that `mergeFields` counts. -/
def mergedDocs (readers : List SegmentReader) : ℕ :=
  (readers.map fun r => (List.range r.maxDoc).countP fun j => !r.isDeleted j).sum

/-- A document is written, unless it is out of order. -/
def addPosting (w : PostingsWriter) (doc : ℤ) (positions : List ℕ) : Except Failure PostingsWriter :=
  if doc < 0 ∨ (w.df > 0 ∧ doc ≤ w.lastDoc) then
    .error (.CLuceneError ("docs out of order (" ++ toString doc ++ " <= " ++ toString w.lastDoc ++ " )"))
  else .ok (w.add ⟨doc.toNat, positions⟩)

/-- The inner loop of `appendPostings`, over the documents that `TermPositions` of a segment give. -/
def appendLoop {τ : Type*} [Occurrences τ] (newDoc : ℕ → ℤ) : ℕ → τ → PostingsWriter → Except Failure (τ × PostingsWriter)
  | 0, x, w => .ok (x, w)
  | n + 1, x, w =>
    let r := Occurrences.next x
    if r.1 then
      let (positions, x) := Occurrences.positions (Occurrences.freq r.2) r.2
      match addPosting w (newDoc (Occurrences.doc r.2)) positions with
      | .error e => .error e
      | .ok w => appendLoop newDoc n x w
    else .ok (r.2, w)

/-- `appendPostings`, over the segments that have the term. -/
def appendPostings : List SegmentMergeInfo → PostingsWriter → Except Failure (List SegmentMergeInfo × PostingsWriter)
  | [], w => .ok ([], w)
  | smi :: smis, w =>
    -- the postings are found where the enumeration stands, without a lookup
    let postings := smi.postings.seek (some smi.termEnum.termInfo)
    match appendLoop smi.newDoc (Occurrences.left postings + 1) postings w with
    | .error e => .error e
    | .ok (postings, w) =>
      match appendPostings smis w with
      | .error e => .error e
      | .ok (smis, w) => .ok ({ smi with postings } :: smis, w)

def mergeTermInfo (x : SegmentOutput) (term : Term) (smis : List SegmentMergeInfo) :
    Except Failure (List SegmentMergeInfo × SegmentOutput) :=
  match appendPostings smis (x.files.start x.docCount) with
  | .error e => .error e
  | .ok (smis, w) => .ok (smis, x.endTerm term w)

/-- A segment goes on to its next term, and back into the queue if there is one. -/
def restore (queue : Heap SegmentMergeInfo) (smi : SegmentMergeInfo) : Heap SegmentMergeInfo :=
  let r := smi.next
  if r.1 then queue.put lessThan r.2 else queue

/-- The second loop of `mergeTermInfos`: over the terms. -/
def mergeLoop : ℕ → SegmentOutput → Heap SegmentMergeInfo → Except Failure SegmentOutput
  | 0, x, _ => .ok x
  | n + 1, x, queue =>
    if queue.size = 0 then .ok x
    else
      let (smi, queue) := queue.pop lessThan
      match smi.term with
      | none => .error .nullPointer
      | some term =>
        -- all segments that have the term, in the order of their bases
        let (smis, queue) := queue.popWhile lessThan (·.term = some term) queue.size
        match mergeTermInfo x term (smi :: smis) with
        | .error e => .error e
        | .ok (smis, x) => mergeLoop n x (smis.reverse.foldl restore queue)

/-- The first loop of `mergeTermInfos`: over the segments. -/
def fillQueue : List SegmentReader → (base : ℕ) → Heap SegmentMergeInfo → Heap SegmentMergeInfo
  | [], _, queue => queue
  | reader :: readers, base, queue => fillQueue readers (base + reader.numDocs) (restore queue (.new base reader))

/-- `mergeTerms`, with the names that `mergeFields` leaves. -/
def mergeTerms (readers : List SegmentReader) (termIndexInterval : ℕ) : Except Failure SegmentFiles :=
  (mergeLoop ((readers.map fun r => r.tis.origEnum.size.toNat).sum + 1)
    (.new (mergeFieldInfos readers) termIndexInterval (mergedDocs readers)) (fillQueue readers 0 ⟨0, fun _ => default⟩)).map
      SegmentOutput.close

end SegmentMerger

end QDesktopSearch
