import QDesktopSearch.Model.Dictionary
import QDesktopSearch.Model.Positions
import QDesktopSearch.Model.TermScorer

/-!
# Segments, as they are written and read

The postings of all terms of a segment stand in two files, and its dictionary in two others. Both the
writer of documents and the merger end a term in the same way: with its postings, and with an entry in the
dictionary where there are any.
-/

namespace QDesktopSearch

/-- The files of a segment, and the names of its fields. -/
structure SegmentFiles where
  fieldInfos : FieldInfos
  tis : List UInt8
  tii : List UInt8
  frq : List UInt8
  prx : List UInt8

/-- The files of a segment of so many documents, as far as they have been written. -/
structure SegmentOutput where
  files : PostingsFiles
  termInfosWriter : TermInfosWriter
  docCount : ℕ

namespace SegmentOutput

def new (fieldInfos : FieldInfos) (termIndexInterval docCount : ℕ) : SegmentOutput where
  files := ⟨[], [], TermInfosOutput.defaultSkipInterval, (TermInfosOutput.initialise termIndexInterval).maxSkipLevels⟩
  termInfosWriter := .new fieldInfos termIndexInterval
  docCount := docCount

/-- A term whose postings have been written: the end of `DocumentsWriter::appendPostings` and `SegmentMerger::mergeTermInfo`. -/
def endTerm (x : SegmentOutput) (term : Term) (w : PostingsWriter) : SegmentOutput :=
  let (files, ti) := x.files.finish w
  { x with files, termInfosWriter := if ti.docFreq > 0 then x.termInfosWriter.add term ti else x.termInfosWriter }

/-- A term with its postings. -/
def addTerm (x : SegmentOutput) (term : Term) (postings : List Posting) : SegmentOutput :=
  x.endTerm term (postings.foldl PostingsWriter.add (x.files.start x.docCount))

def close (x : SegmentOutput) : SegmentFiles :=
  ⟨x.termInfosWriter.fieldInfos, x.termInfosWriter.tis.close, x.termInfosWriter.tii.close, x.files.freqOut, x.files.proxOut⟩

end SegmentOutput

/-! ## `SegmentReader` -/

/-- A segment; `deletedDocs` is null where no document has ever been deleted. -/
structure SegmentReader where
  _fieldInfos : FieldInfos
  maxDoc : ℕ
  deletedDocs : Option (ℕ → Bool)
  tis : TermInfosReader
  freqStream : ByteInput
  proxStream : ByteInput

namespace SegmentReader

/-- `get`: a reader of the files of a segment. -/
def get (files : SegmentFiles) (maxDoc : ℕ) (deletedDocs : Option (ℕ → Bool)) : Except Failure SegmentReader :=
  (TermInfosReader.new files.tis files.tii files.fieldInfos).map fun tis =>
    ⟨files.fieldInfos, maxDoc, deletedDocs, tis, ⟨files.frq, 0⟩, ⟨files.prx, 0⟩⟩

def hasDeletions (r : SegmentReader) : Bool := r.deletedDocs.isSome

def isDeleted (r : SegmentReader) (n : ℕ) : Bool := r.deletedDocs.any (· n)

def numDocs (r : SegmentReader) : ℕ :=
  r.maxDoc - (r.deletedDocs.elim 0 fun deletedDocs => (List.range r.maxDoc).countP deletedDocs)

def getSkipInterval (r : SegmentReader) : ℕ := r.tis.origEnum.skipInterval.toNat

def getMaxSkipLevels (r : SegmentReader) : ℕ := r.tis.origEnum.maxSkipLevels.toNat

def docFreq (r : SegmentReader) (t : Term) : ℕ × SegmentReader :=
  let (ti, tis) := r.tis.get t
  (ti.elim 0 TermInfo.docFreq, { r with tis })

/-- A `TermDocs` that is sent to a term. -/
def termDocs (r : SegmentReader) (t : Term) : SegmentTermDocs × SegmentReader :=
  let (ti, tis) := r.tis.get t
  ((SegmentTermDocs.new r.freqStream r.isDeleted r.getSkipInterval r.getMaxSkipLevels).seek ti, { r with tis })

/-- A `TermPositions` that has not been sent to a term. -/
def positions (r : SegmentReader) : SegmentTermPositions :=
  .new r.freqStream r.proxStream r.isDeleted r.getSkipInterval r.getMaxSkipLevels

/-- A `TermPositions` that is sent to a term. -/
def termPositions (r : SegmentReader) (t : Term) : SegmentTermPositions × SegmentReader :=
  let (ti, tis) := r.tis.get t
  (r.positions.seek ti, { r with tis })

/-! ## Requests -/

/-- What is asked of a segment, with all that is asked of what it gives. -/
inductive Request where
  | docFreq (t : Term)
  | termDocs (t : Term) (calls : List Feed.Call)
  | termPositions (t : Term) (calls : List Occurrences.Call)

inductive Response where
  | docFreq (n : ℕ)
  | termDocs (as : List (Feed.Answer ℕ))
  | termPositions (as : List Occurrences.Answer)

def ask (r : SegmentReader) : Request → Response × SegmentReader
  | .docFreq t => (.docFreq (r.docFreq t).1, (r.docFreq t).2)
  | .termDocs t calls => (.termDocs (Feed.answers (r.termDocs t).1 calls), (r.termDocs t).2)
  | .termPositions t calls => (.termPositions (Occurrences.answers (r.termPositions t).1 calls), (r.termPositions t).2)

/-- The responses to requests, one after the other. -/
def responses (r : SegmentReader) : List Request → List Response
  | [] => []
  | request :: requests => (r.ask request).1 :: responses (r.ask request).2 requests

/-- What requests leave. -/
def run (r : SegmentReader) (requests : List Request) : SegmentReader := requests.foldl (fun r request => (r.ask request).2) r

end SegmentReader

end QDesktopSearch
