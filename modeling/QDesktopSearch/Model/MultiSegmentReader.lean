import QDesktopSearch.Model.Segment

/-!
# The segments of an index, read together

The documents of the segments are numbered one segment after the other. What is asked of a document goes to its
segment, what is asked of a term to all of them. Locks and commits are not here.
-/

namespace QDesktopSearch

/-- `doDelete`: the set of deleted documents is made when there is none. -/
def SegmentReader.doDelete (r : SegmentReader) (docNum : ℕ) : SegmentReader :=
  { r with deletedDocs := some (Function.update (r.deletedDocs.getD fun _ => false) docNum true) }

/-- Of `starts` the last is left out, which is `_maxDoc`. -/
structure MultiSegmentReader where
  subReaders : List SegmentReader
  starts : List ℕ
  _maxDoc : ℕ
  /-- Nothing where it is -1: they have not been counted. -/
  _numDocs : Option ℕ

namespace MultiSegmentReader

/-- The loop of `initialise`, over the readers that are left. -/
def startsLoop : List SegmentReader → (_maxDoc : ℕ) → List ℕ × ℕ
  | [], _maxDoc => ([], _maxDoc)
  | reader :: readers, _maxDoc =>
    let r := startsLoop readers (_maxDoc + reader.maxDoc)
    (_maxDoc :: r.1, r.2)

def initialise (subReaders : List SegmentReader) : MultiSegmentReader :=
  let r := startsLoop subReaders 0
  ⟨subReaders, r.1, r.2, none⟩

def numDocs (x : MultiSegmentReader) : ℕ × MultiSegmentReader :=
  match x._numDocs with
  | some n => (n, x)
  | none =>
    let n := (x.subReaders.map SegmentReader.numDocs).sum
    (n, { x with _numDocs := some n })

/-- The inner loop of `readerIndex`: on to the last of several segments that begin with the same document. -/
def scanLast (starts : List ℕ) (midValue : ℕ) : ℕ → (mid : ℕ) → ℕ
  | 0, mid => mid
  | k + 1, mid => if starts[mid + 1]? = some midValue then scanLast starts midValue k (mid + 1) else mid

/-- The loop of `readerIndex`. -/
def readerIndexLoop (n : ℕ) (starts : List ℕ) : ℕ → (lo hi : ℤ) → ℤ
  | 0, _, hi => hi
  | k + 1, lo, hi =>
    if hi ≥ lo then
      let mid := (lo + hi) / 2
      let midValue := starts.getD mid.toNat 0
      if n < midValue then readerIndexLoop n starts k lo (mid - 1)
      else if n > midValue then readerIndexLoop n starts k (mid + 1) hi
      else scanLast starts midValue starts.length mid.toNat
    else hi

def readerIndex (x : MultiSegmentReader) (n : ℕ) : ℕ :=
  (readerIndexLoop n x.starts x.starts.length 0 (x.starts.length - 1)).toNat

def isDeleted (x : MultiSegmentReader) (n : ℕ) : Bool :=
  let i := x.readerIndex n
  (x.subReaders[i]?).any (·.isDeleted (n - x.starts.getD i 0))

/-- `doDelete`, with the `deleteDocument` of the segment. -/
def doDelete (x : MultiSegmentReader) (n : ℕ) : MultiSegmentReader :=
  let i := x.readerIndex n
  -- they are to be counted anew
  { x with _numDocs := none, subReaders := x.subReaders.modify i (·.doDelete (n - x.starts.getD i 0)) }

def docFreq (x : MultiSegmentReader) (t : Term) : ℕ × MultiSegmentReader :=
  let rs := x.subReaders.map (·.docFreq t)
  ((rs.map Prod.fst).sum, { x with subReaders := rs.map Prod.snd })

/-- `termDocs`, sent to a term. Every segment is asked for the term at once, and not when its turn comes. -/
def termDocs (x : MultiSegmentReader) (t : Term) : MultiTermDocs SegmentTermDocs × MultiSegmentReader :=
  let rs := x.subReaders.map (·.termDocs t)
  (.seek (rs.map Prod.fst) x.starts, { x with subReaders := rs.map Prod.snd })

/-- The loop of `deleteDocuments`. A document is deleted that the enumeration has passed, which does not look at it again. -/
def deleteLoop : ℕ → MultiTermDocs SegmentTermDocs → ℕ → MultiSegmentReader → ℕ × MultiSegmentReader
  | 0, _, Counter, x => (Counter, x)
  | k + 1, docs, Counter, x =>
    let r := Feed.next docs
    if r.1 then deleteLoop k r.2 (Counter + 1) (x.doDelete (Feed.top r.2).1) else (Counter, x)

def deleteDocuments (x : MultiSegmentReader) (t : Term) : ℕ × MultiSegmentReader :=
  let r := x.termDocs t
  deleteLoop (Feed.left r.1 + 1) r.1 0 r.2

/-! ## Requests -/

inductive Request where
  | numDocs
  | isDeleted (n : ℕ)
  | docFreq (t : Term)
  | termDocs (t : Term) (calls : List Feed.Call)
  | deleteDocument (n : ℕ)
  | deleteDocuments (t : Term)

inductive Response where
  | number (n : ℕ)
  | deleted (b : Bool)
  | termDocs (as : List (Feed.Answer ℕ))
  | done

def ask (x : MultiSegmentReader) : Request → Response × MultiSegmentReader
  | .numDocs => (.number x.numDocs.1, x.numDocs.2)
  | .isDeleted n => (.deleted (x.isDeleted n), x)
  | .docFreq t => (.number (x.docFreq t).1, (x.docFreq t).2)
  | .termDocs t calls => (.termDocs (Feed.answers (x.termDocs t).1 calls), (x.termDocs t).2)
  | .deleteDocument n => (.done, x.doDelete n)
  | .deleteDocuments t => (.number (x.deleteDocuments t).1, (x.deleteDocuments t).2)

/-- The responses to requests, one after the other. -/
def responses (x : MultiSegmentReader) : List Request → List Response
  | [] => []
  | request :: requests => (x.ask request).1 :: responses (x.ask request).2 requests

/-- What requests leave. -/
def run (x : MultiSegmentReader) (requests : List Request) : MultiSegmentReader :=
  requests.foldl (fun x request => (x.ask request).2) x

end MultiSegmentReader

end QDesktopSearch
