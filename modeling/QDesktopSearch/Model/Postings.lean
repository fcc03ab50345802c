import Mathlib.Data.Nat.Log
import QDesktopSearch.Lib.Bytes

/-!
# Postings

The documents of a term, with the positions of the term in them, as they stand in the files of a
segment; every so many documents there is an entry in a skip list of several levels. No field of
the program stores payloads. The pointers into a file are positions in it.
-/

namespace QDesktopSearch

open ByteInput

/-! ## `IndexOutput` and `IndexInput` -/

/-- `writeVInt`, of the number taken as unsigned. -/
def writeVInt (i : ℕ) : List UInt8 := varInt (i % 2 ^ 32)

def readVInt : StateM ByteInput ℕ := (· % 2 ^ 32) <$> readVarInt

def writeVLong (i : ℕ) : List UInt8 := varInt (i % 2 ^ 64)

def readVLong : StateM ByteInput ℕ := (· % 2 ^ 64) <$> readVarInt

/-- `LUCENE_INT32_MAX_SHOULDBE`. -/
def noMoreDocs : ℤ := 0x7FFFFFFF

/-- A document of a term, with the positions of the term in it. -/
structure Posting where
  doc : ℕ
  positions : List ℕ
  deriving DecidableEq

def Posting.freq (p : Posting) : ℕ := p.positions.length

/-! ## `DefaultSkipListWriter` -/

/-- The levels of a skip list. The quotient of the logarithms is a float there; its floor is that of
`Nat.log` for the interval of the program, 16, and may be one less for others. -/
def skipLevels (skipInterval maxSkipLevels docCount : ℕ) : ℕ := min (Nat.log skipInterval docCount) maxSkipLevels

structure DefaultSkipListWriter where
  skipInterval : ℕ
  numberOfSkipLevels : ℕ
  skipBuffer : ℕ → List UInt8
  curDoc : ℕ
  curFreqPointer : ℕ
  curProxPointer : ℕ
  lastSkipDoc : ℕ → ℕ
  lastSkipFreqPointer : ℕ → ℕ
  lastSkipProxPointer : ℕ → ℕ

namespace DefaultSkipListWriter

/-- `resetSkip`, at these pointers. -/
def resetSkip (skipInterval numberOfSkipLevels freqPointer proxPointer : ℕ) : DefaultSkipListWriter :=
  ⟨skipInterval, numberOfSkipLevels, fun _ => [], 0, 0, 0, fun _ => 0, fun _ => freqPointer, fun _ => proxPointer⟩

def setSkipData (w : DefaultSkipListWriter) (doc freqPointer proxPointer : ℕ) : DefaultSkipListWriter :=
  { w with curDoc := doc, curFreqPointer := freqPointer, curProxPointer := proxPointer }

def writeSkipData (w : DefaultSkipListWriter) (level : ℕ) : DefaultSkipListWriter :=
  { w with
    skipBuffer := Function.update w.skipBuffer level (w.skipBuffer level ++ writeVInt (w.curDoc - w.lastSkipDoc level) ++
      writeVInt (w.curFreqPointer - w.lastSkipFreqPointer level) ++ writeVInt (w.curProxPointer - w.lastSkipProxPointer level))
    lastSkipDoc := Function.update w.lastSkipDoc level w.curDoc
    lastSkipFreqPointer := Function.update w.lastSkipFreqPointer level w.curFreqPointer
    lastSkipProxPointer := Function.update w.lastSkipProxPointer level w.curProxPointer }

/-- The first loop of `bufferSkip`: on how many of the levels that are left there is an entry. -/
def numLevels (skipInterval : ℕ) : ℕ → (df : ℕ) → ℕ
  | 0, _ => 0
  | levels + 1, df => if df % skipInterval = 0 then numLevels skipInterval levels (df / skipInterval) + 1 else 0

/-- The second loop of `bufferSkip`, from a level on. -/
def bufferLevels : ℕ → (level childPointer : ℕ) → DefaultSkipListWriter → DefaultSkipListWriter
  | 0, _, _, w => w
  | n + 1, level, childPointer, w =>
    let w := w.writeSkipData level
    -- the entry above points behind these data, where the child pointer of this entry is going to stand
    let newChildPointer := (w.skipBuffer level).length
    let w := if level ≠ 0 then
        { w with skipBuffer := Function.update w.skipBuffer level (w.skipBuffer level ++ writeVLong childPointer) }
      else w
    bufferLevels n (level + 1) newChildPointer w

def bufferSkip (w : DefaultSkipListWriter) (df : ℕ) : DefaultSkipListWriter :=
  bufferLevels (numLevels w.skipInterval w.numberOfSkipLevels df) 0 0 w

/-- The loop of `writeSkip` over the levels above the lowest. -/
def upperLevels (skipBuffer : ℕ → List UInt8) : ℕ → List UInt8
  | 0 => []
  | level + 1 =>
    (if 0 < (skipBuffer (level + 1)).length then writeVLong (skipBuffer (level + 1)).length ++ skipBuffer (level + 1)
     else []) ++
      upperLevels skipBuffer level

def writeSkip (w : DefaultSkipListWriter) : List UInt8 :=
  if w.numberOfSkipLevels = 0 then [] else upperLevels w.skipBuffer (w.numberOfSkipLevels - 1) ++ w.skipBuffer 0

end DefaultSkipListWriter

/-! ## `appendPostings` -/

/-- The files, with the postings that have been written of a term. -/
structure PostingsWriter where
  freqOut : List UInt8
  proxOut : List UInt8
  skipListWriter : DefaultSkipListWriter
  df : ℕ
  lastDoc : ℕ

namespace PostingsWriter

/-- The positions of a document, each by its distance from the last. -/
def writePositions : (lastPosition : ℕ) → List ℕ → List UInt8
  | _, [] => []
  | lastPosition, position :: positions => writeVInt (position - lastPosition) ++ writePositions position positions

/-- A document and its frequency, from the last document. -/
def writeDoc (lastDoc : ℕ) (p : Posting) : List UInt8 :=
  let docCode := (p.doc - lastDoc) <<< 1
  if p.freq = 1 then writeVInt (docCode ||| 1) else writeVInt docCode ++ writeVInt p.freq

def start (freqOut proxOut : List UInt8) (skipInterval numberOfSkipLevels : ℕ) : PostingsWriter :=
  ⟨freqOut, proxOut, .resetSkip skipInterval numberOfSkipLevels freqOut.length proxOut.length, 0, 0⟩

/-- The body of the loop in `appendPostings` of `DocumentsWriter` and of `SegmentMerger`. -/
def add (w : PostingsWriter) (p : Posting) : PostingsWriter where
  freqOut := w.freqOut ++ writeDoc w.lastDoc p
  proxOut := w.proxOut ++ writePositions 0 p.positions
  skipListWriter :=
    if (w.df + 1) % w.skipListWriter.skipInterval = 0 then
      (w.skipListWriter.setSkipData w.lastDoc w.freqOut.length w.proxOut.length).bufferSkip (w.df + 1)
    else w.skipListWriter
  df := w.df + 1
  lastDoc := p.doc

end PostingsWriter

structure TermInfo where
  docFreq : ℕ
  freqPointer : ℕ
  proxPointer : ℕ
  skipOffset : ℕ
  deriving DecidableEq, Inhabited

/-- The files of postings of a segment, and how they are written. -/
structure PostingsFiles where
  freqOut : List UInt8
  proxOut : List UInt8
  skipInterval : ℕ
  maxSkipLevels : ℕ

namespace PostingsFiles

/-- Before the postings of a term, in a segment of so many documents. -/
def start (x : PostingsFiles) (docCount : ℕ) : PostingsWriter :=
  .start x.freqOut x.proxOut x.skipInterval (skipLevels x.skipInterval x.maxSkipLevels docCount)

/-- After the postings of a term, with its skip list and what is known of it. -/
def finish (x : PostingsFiles) (w : PostingsWriter) : PostingsFiles × TermInfo :=
  let skipPointer := w.freqOut.length
  ({ x with freqOut := w.freqOut ++ w.skipListWriter.writeSkip, proxOut := w.proxOut },
    ⟨w.df, x.freqOut.length, x.proxOut.length, skipPointer - x.freqOut.length⟩)

/-- The postings of a term. -/
def appendPostings (x : PostingsFiles) (docCount : ℕ) (postings : List Posting) : PostingsFiles × TermInfo :=
  x.finish (postings.foldl PostingsWriter.add (x.start docCount))

end PostingsFiles

/-! ## `DefaultSkipListReader` -/

/-- The streams of the levels are clones of one stream. A document is `none` where it is
`LUCENE_INT32_MAX_SHOULDBE`, which no target is beyond. -/
structure DefaultSkipListReader where
  numberOfSkipLevels : ℕ
  maxNumberOfSkipLevels : ℕ
  docCount : ℕ
  haveSkipped : Bool
  skipStream : ℕ → ByteInput
  skipPointer : ℕ → ℕ
  skipInterval : ℕ → ℕ
  numSkipped : ℕ → ℕ
  skipDoc : ℕ → Option ℕ
  lastDoc : Option ℕ
  childPointer : ℕ → ℕ
  lastChildPointer : ℕ
  freqPointer : ℕ → ℕ
  proxPointer : ℕ → ℕ
  lastFreqPointer : ℕ
  lastProxPointer : ℕ

namespace DefaultSkipListReader

/-- The constructor and `init`. -/
def init (skipStream : ByteInput) (maxSkipLevels skipInterval skipPointer freqBasePointer proxBasePointer df : ℕ) :
    DefaultSkipListReader where
  numberOfSkipLevels := 0
  maxNumberOfSkipLevels := maxSkipLevels
  docCount := df
  haveSkipped := false
  skipStream := fun _ => skipStream
  skipPointer := Function.update (fun _ => 0) 0 skipPointer
  skipInterval := fun level => skipInterval ^ (level + 1)
  numSkipped := fun _ => 0
  skipDoc := fun _ => some 0
  lastDoc := some 0
  childPointer := fun _ => 0
  lastChildPointer := 0
  freqPointer := fun _ => freqBasePointer
  proxPointer := fun _ => proxBasePointer
  lastFreqPointer := freqBasePointer
  lastProxPointer := proxBasePointer

/-- The loop of `loadSkipLevels`, from a level down to the lowest but one. -/
def loadLevels : ℕ → DefaultSkipListReader → DefaultSkipListReader
  | 0, x => x
  | i + 1, x =>
    -- the highest level stands first, each behind its length
    let (length, s) := readVLong (x.skipStream 0)
    loadLevels i { x with
      skipPointer := Function.update x.skipPointer (i + 1) s.pos
      skipStream := Function.update (Function.update x.skipStream (i + 1) s) 0 (s.seek (s.pos + length)) }

def loadSkipLevels (x : DefaultSkipListReader) : DefaultSkipListReader :=
  let numberOfSkipLevels := skipLevels (x.skipInterval 0) x.maxNumberOfSkipLevels x.docCount
  let x := loadLevels (numberOfSkipLevels - 1) { x with
    numberOfSkipLevels
    skipStream := Function.update x.skipStream 0 ((x.skipStream 0).seek (x.skipPointer 0)) }
  { x with skipPointer := Function.update x.skipPointer 0 (x.skipStream 0).pos }

def setLastSkipData (x : DefaultSkipListReader) (level : ℕ) : DefaultSkipListReader :=
  { x with
    lastDoc := x.skipDoc level
    lastChildPointer := x.childPointer level
    lastFreqPointer := x.freqPointer level
    lastProxPointer := x.proxPointer level }

/-- `readSkipData`, with what `loadNextSkip` reads after it. -/
def readSkip (x : DefaultSkipListReader) (level : ℕ) : DefaultSkipListReader :=
  let (delta, s) := readVInt (x.skipStream level)
  let (freqDelta, s) := readVInt s
  let (proxDelta, s) := readVInt s
  let x := { x with
    skipDoc := Function.update x.skipDoc level ((x.skipDoc level).map (· + delta))
    freqPointer := Function.update x.freqPointer level (x.freqPointer level + freqDelta)
    proxPointer := Function.update x.proxPointer level (x.proxPointer level + proxDelta)
    skipStream := Function.update x.skipStream level s }
  if level ≠ 0 then
    let (child, s) := readVLong s
    { x with
      childPointer := Function.update x.childPointer level (child + x.skipPointer (level - 1))
      skipStream := Function.update x.skipStream level s }
  else x

/-- `loadNextSkip`; its result only says whether the level is exhausted. -/
def loadNextSkip (x : DefaultSkipListReader) (level : ℕ) : DefaultSkipListReader :=
  let x := x.setLastSkipData level
  let x := { x with numSkipped := Function.update x.numSkipped level (x.numSkipped level + x.skipInterval level) }
  if x.numSkipped level > x.docCount then
    { x with
      -- the level is exhausted, and so are those above it
      skipDoc := Function.update x.skipDoc level none
      numberOfSkipLevels := if x.numberOfSkipLevels > level then level else x.numberOfSkipLevels }
  else x.readSkip level

def seekChild (x : DefaultSkipListReader) (level : ℕ) : DefaultSkipListReader :=
  let s := (x.skipStream level).seek x.lastChildPointer
  let x := { x with
    skipStream := Function.update x.skipStream level s
    numSkipped := Function.update x.numSkipped level (x.numSkipped (level + 1) - x.skipInterval (level + 1))
    skipDoc := Function.update x.skipDoc level x.lastDoc
    freqPointer := Function.update x.freqPointer level x.lastFreqPointer
    proxPointer := Function.update x.proxPointer level x.lastProxPointer }
  if level > 0 then
    let (child, s) := readVLong s
    { x with
      childPointer := Function.update x.childPointer level (child + x.skipPointer (level - 1))
      skipStream := Function.update x.skipStream level s }
  else x

/-- The target lies beyond the entry. -/
def beyond (target : ℤ) (doc : Option ℕ) : Bool := doc.any fun doc => target > doc

/-- The first loop of `skipTo`: up to the highest level that has a skip for the target. -/
def walkUp (x : DefaultSkipListReader) (target : ℤ) : ℕ → (level : ℕ) → ℕ
  | 0, level => level
  | n + 1, level => if beyond target (x.skipDoc (level + 1)) then walkUp x target n (level + 1) else level

/-- The second loop of `skipTo`, while it stays on a level. -/
def loadSkips (target : ℤ) (level : ℕ) : ℕ → DefaultSkipListReader → DefaultSkipListReader
  | 0, x => x
  | n + 1, x => if beyond target (x.skipDoc level) then loadSkips target level n (x.loadNextSkip level) else x

/-- The second loop of `skipTo`, from a level down. -/
def walkDown (target : ℤ) : (level : ℕ) → DefaultSkipListReader → DefaultSkipListReader
  | 0, x => loadSkips target 0 (x.docCount + 2) x
  | level + 1, x =>
    let x := loadSkips target (level + 1) (x.docCount + 2) x
    -- the level below is only moved forwards
    let x := if x.lastChildPointer > (x.skipStream level).pos then x.seekChild level else x
    walkDown target level x

def skipTo (x : DefaultSkipListReader) (target : ℤ) : ℤ × DefaultSkipListReader :=
  let x := if x.haveSkipped then x else { x.loadSkipLevels with haveSkipped := true }
  let x := walkDown target (walkUp x target (x.numberOfSkipLevels - 1) 0) x
  ((x.numSkipped 0 : ℤ) - x.skipInterval 0 - 1, x)

end DefaultSkipListReader

/-! ## `SegmentTermDocs` -/

structure SegmentTermDocs where
  freqStream : ByteInput
  count : ℕ
  df : ℕ
  deletedDocs : ℕ → Bool
  _doc : ℕ
  _freq : ℕ
  skipInterval : ℕ
  maxSkipLevels : ℕ
  /-- Null until it is needed. -/
  skipListReader : Option DefaultSkipListReader
  freqBasePointer : ℕ
  proxBasePointer : ℕ
  skipPointer : ℕ
  deriving Inhabited

namespace SegmentTermDocs

/-- The constructor. -/
def new (freqStream : ByteInput) (deletedDocs : ℕ → Bool) (skipInterval maxSkipLevels : ℕ) : SegmentTermDocs :=
  ⟨freqStream, 0, 0, deletedDocs, 0, 0, skipInterval, maxSkipLevels, none, 0, 0, 0⟩

/-- `seek`, to a term that the segment has or has not. The skip list is read anew. -/
def seek (x : SegmentTermDocs) : Option TermInfo → SegmentTermDocs
  | none => { x with count := 0, df := 0 }
  | some ti => { x with
      freqStream := x.freqStream.seek ti.freqPointer
      count := 0
      df := ti.docFreq
      _doc := 0
      skipListReader := none
      freqBasePointer := ti.freqPointer
      proxBasePointer := ti.proxPointer
      skipPointer := ti.freqPointer + ti.skipOffset }

/-- What `next` and `read` read of a posting: how far its document is from the last, and its frequency. -/
def readPosting : StateM ByteInput (ℕ × ℕ) := do
  let docCode ← readVInt
  if docCode &&& 1 ≠ 0 then pure (docCode >>> 1, 1)
  else
    let freq ← readVInt
    pure (docCode >>> 1, freq)

def readDoc (x : SegmentTermDocs) : SegmentTermDocs :=
  let ((delta, freq), s) := readPosting x.freqStream
  { x with freqStream := s, _doc := x._doc + delta, _freq := freq, count := x.count + 1 }

/-- The loop of `next`. -/
def nextLoop : ℕ → SegmentTermDocs → Bool × SegmentTermDocs
  | 0, x => (false, x)
  | n + 1, x =>
    if x.count = x.df then (false, x)
    else
      let x := x.readDoc
      if x.deletedDocs x._doc then nextLoop n x else (true, x)

def next (x : SegmentTermDocs) : Bool × SegmentTermDocs := nextLoop (x.df - x.count + 1) x

/-- The loop of `read`, with the documents and frequencies. -/
def readLoop : ℕ → (length : ℕ) → SegmentTermDocs → List (ℕ × ℕ) × SegmentTermDocs
  | 0, _, x => ([], x)
  | n + 1, length, x =>
    if length = 0 ∨ x.count ≥ x.df then ([], x)
    else
      let x := x.readDoc
      if x.deletedDocs x._doc then readLoop n length x
      else
        let r := readLoop n (length - 1) x
        ((x._doc, x._freq) :: r.1, r.2)

def read (x : SegmentTermDocs) (length : ℕ) : List (ℕ × ℕ) × SegmentTermDocs :=
  readLoop (x.df - x.count + 1) length x

/-- The optimized case of `skipTo`. -/
def skipAhead (x : SegmentTermDocs) (target : ℤ) : SegmentTermDocs :=
  if x.df ≥ x.skipInterval then
    let reader := x.skipListReader.getD
      (.init x.freqStream x.maxSkipLevels x.skipInterval x.skipPointer x.freqBasePointer x.proxBasePointer x.df)
    let (newCount, reader) := reader.skipTo target
    -- the skip list may be behind what has been read
    if newCount > x.count then
      { x with
        skipListReader := some reader
        freqStream := x.freqStream.seek reader.lastFreqPointer
        _doc := reader.lastDoc.getD 0
        count := newCount.toNat }
    else { x with skipListReader := some reader }
  else x

/-- The scan at the end of `skipTo`. -/
def scanLoop (target : ℤ) : ℕ → SegmentTermDocs → Bool × SegmentTermDocs
  | 0, x => (false, x)
  | n + 1, x =>
    let r := x.next
    if !r.1 then (false, r.2)
    else if target > r.2._doc then scanLoop target n r.2
    else (true, r.2)

def skipTo (x : SegmentTermDocs) (target : ℤ) : Bool × SegmentTermDocs :=
  let x := x.skipAhead target
  scanLoop target (x.df - x.count + 1) x

end SegmentTermDocs

end QDesktopSearch
