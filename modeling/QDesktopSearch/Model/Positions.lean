import QDesktopSearch.Lib.Occurrences
import QDesktopSearch.Model.Postings

/-!
# The positions of a term

A `SegmentTermPositions` is a `SegmentTermDocs` with the positions in each document. The file of
positions is read only when a position is asked for: what has been passed till then is skipped first.
-/

namespace QDesktopSearch

open ByteInput

structure SegmentTermPositions where
  toDocs : SegmentTermDocs
  /-- The stream of the segment, of which `proxStream` becomes a clone. -/
  parent : ByteInput
  /-- Null until it is needed. -/
  proxStream : Option ByteInput
  /-- Nothing where it is -1. -/
  lazySkipPointer : Option ℕ
  lazySkipProxCount : ℤ
  proxCount : ℤ
  position : ℕ
  deriving Inhabited

namespace SegmentTermPositions

/-- The constructor. -/
def new (freqStream proxStream : ByteInput) (deletedDocs : ℕ → Bool) (skipInterval maxSkipLevels : ℕ) : SegmentTermPositions :=
  ⟨.new freqStream deletedDocs skipInterval maxSkipLevels, proxStream, none, none, 0, 0, 0⟩

def seek (x : SegmentTermPositions) (ti : Option TermInfo) : SegmentTermPositions :=
  { x with
    toDocs := x.toDocs.seek ti
    lazySkipPointer := match ti with
      | some ti => some ti.proxPointer
      | none => x.lazySkipPointer
    lazySkipProxCount := 0
    proxCount := 0 }

/-- The loop of `SegmentTermDocs::next`, with `skippingDoc`. -/
def nextLoop : ℕ → SegmentTermPositions → Bool × SegmentTermPositions
  | 0, x => (false, x)
  | n + 1, x =>
    if x.toDocs.count = x.toDocs.df then (false, x)
    else
      let x := { x with toDocs := x.toDocs.readDoc }
      if x.toDocs.deletedDocs x.toDocs._doc then
        -- the positions of a deleted document are passed when one is asked for
        nextLoop n { x with lazySkipProxCount := x.lazySkipProxCount + x.toDocs._freq }
      else (true, x)

def next (x : SegmentTermPositions) : Bool × SegmentTermPositions :=
  let r := nextLoop (x.toDocs.df - x.toDocs.count + 1) { x with lazySkipProxCount := x.lazySkipProxCount + x.proxCount }
  if r.1 then (true, { r.2 with proxCount := r.2.toDocs._freq, position := 0 }) else (false, r.2)

/-- The optimized case of `SegmentTermDocs::skipTo`, with `skipProx`. -/
def skipAhead (x : SegmentTermPositions) (target : ℤ) : SegmentTermPositions :=
  let toDocs := x.toDocs.skipAhead target
  if x.toDocs.df ≥ x.toDocs.skipInterval then
    let reader := x.toDocs.skipListReader.getD (.init x.toDocs.freqStream x.toDocs.maxSkipLevels x.toDocs.skipInterval
      x.toDocs.skipPointer x.toDocs.freqBasePointer x.toDocs.proxBasePointer x.toDocs.df)
    let (newCount, reader) := reader.skipTo target
    if newCount > x.toDocs.count then
      -- what had been put off lies before the entry
      { x with toDocs, lazySkipPointer := some reader.lastProxPointer, lazySkipProxCount := 0, proxCount := 0 }
    else { x with toDocs }
  else x

/-- The scan at the end of `SegmentTermDocs::skipTo`. -/
def scanLoop (target : ℤ) : ℕ → SegmentTermPositions → Bool × SegmentTermPositions
  | 0, x => (false, x)
  | n + 1, x =>
    let r := x.next
    if !r.1 then (false, r.2)
    else if target > r.2.toDocs._doc then scanLoop target n r.2
    else (true, r.2)

def skipTo (x : SegmentTermPositions) (target : ℤ) : Bool × SegmentTermPositions :=
  let x := x.skipAhead target
  scanLoop target (x.toDocs.df - x.toDocs.count + 1) x

/-- `skipPositions`. -/
def skipPositions : ℕ → ByteInput → ByteInput
  | 0, s => s
  | n + 1, s => skipPositions n (readVInt s).2

def lazySkip (x : SegmentTermPositions) : ByteInput :=
  let proxStream := x.proxStream.getD x.parent
  let proxStream := match x.lazySkipPointer with
    | some pointer => proxStream.seek pointer
    | none => proxStream
  -- a count below 0 passes nothing
  skipPositions x.lazySkipProxCount.toNat proxStream

def nextPosition (x : SegmentTermPositions) : ℕ × SegmentTermPositions :=
  let (delta, s) := readVInt x.lazySkip
  (x.position + delta, { x with
    proxStream := some s
    lazySkipPointer := none
    lazySkipProxCount := 0
    proxCount := x.proxCount - 1
    position := x.position + delta })

instance : Occurrences SegmentTermPositions where
  doc x := x.toDocs._doc
  freq x := x.toDocs._freq
  next := next
  skipTo := skipTo
  nextPosition := nextPosition
  left x := x.toDocs.df - x.toDocs.count

end SegmentTermPositions

end QDesktopSearch
