import QDesktopSearch.Model.Postings
import QDesktopSearch.Model.SortedSearch

/-!
# The dictionary of a segment

The terms of a segment in their order, each with where its postings are, stand in one file; a second
file has every so many of them, with where they stand in the first, and is read as a whole. A thread
keeps the enumeration it used last. Pointers into a file are positions in it.
-/

namespace QDesktopSearch

open ByteInput

/-! ## Numbers and characters -/

def writeInt (i : ℤ) : List UInt8 := fixed 4 (i % 2 ^ 32).toNat

def writeLong (i : ℤ) : List UInt8 := fixed 8 (i % 2 ^ 64).toNat

/-- A number of so many bits, with its sign. -/
def signed (bits n : ℕ) : ℤ := if n < 2 ^ (bits - 1) then n else n - 2 ^ bits

def readInt : StateM ByteInput ℤ := signed 32 <$> readFixed 4

def readLong : StateM ByteInput ℤ := signed 64 <$> readFixed 8

/-- What `writeChars` writes of a character. -/
def writeChar (c : QChar) : List UInt8 :=
  let code := c.toNat
  if 0x01 ≤ code ∧ code ≤ 0x7F then [UInt8.ofNat code]
  else if 0x80 ≤ code ∧ code ≤ 0x7FF ∨ code = 0 then [UInt8.ofNat (0xC0 ||| code >>> 6), UInt8.ofNat (0x80 ||| code &&& 0x3F)]
  else [UInt8.ofNat (0xE0 ||| code >>> 12), UInt8.ofNat (0x80 ||| code >>> 6 &&& 0x3F), UInt8.ofNat (0x80 ||| code &&& 0x3F)]

def writeChars (s : QString) : List UInt8 := s.flatMap writeChar

/-- What `readChars` reads of a character. -/
def readChar : StateM ByteInput QChar := do
  let b ← byte
  let b := b.toNat
  if b &&& 0x80 = 0 then pure (UInt16.ofNat (b &&& 0x7F))
  else
    let b₁ ← byte
    if b &&& 0xE0 ≠ 0xE0 then pure (UInt16.ofNat ((b &&& 0x1F) <<< 6 ||| b₁.toNat &&& 0x3F))
    else
      let b₂ ← byte
      pure (UInt16.ofNat ((b &&& 0x0F) <<< 12 ||| (b₁.toNat &&& 0x3F) <<< 6 ||| b₂.toNat &&& 0x3F))

/-! ## `FieldInfos` -/

/-- The names of the fields, by number. -/
abbrev FieldInfos := List QString

namespace FieldInfos

def fieldNumber (fieldInfos : FieldInfos) (fieldName : QString) : ℤ :=
  match fieldInfos.idxOf? fieldName with
  | some number => number
  | none => -1

def fieldName (fieldInfos : FieldInfos) (fieldNumber : ℤ) : QString :=
  if fieldNumber < 0 then [] else fieldInfos.getD fieldNumber.toNat []

end FieldInfos

/-! ## `TermInfosWriter` -/

/-- A writer of one of the two files. -/
structure TermInfosOutput where
  output : List UInt8
  lastTi : TermInfo
  size : ℕ
  lastIndexPointer : ℕ
  lastTermText : QString
  lastFieldNumber : ℤ
  indexInterval : ℕ
  skipInterval : ℕ
  maxSkipLevels : ℕ

namespace TermInfosOutput

/-- `FORMAT`. -/
def format : ℤ := -3

/-- `DEFAULT_TERMDOCS_SKIP_INTERVAL`. -/
def defaultSkipInterval : ℕ := 16

def initialise (interval : ℕ) : TermInfosOutput where
  output := writeInt format ++ writeLong 0 ++ writeInt interval ++ writeInt defaultSkipInterval ++ writeInt 10
  lastTi := ⟨0, 0, 0, 0⟩
  size := 0
  lastIndexPointer := 0
  lastTermText := []
  lastFieldNumber := -1
  indexInterval := interval
  skipInterval := defaultSkipInterval
  maxSkipLevels := 10

/-- The loop of `writeTerm`: the prefix in common with the last term. -/
def commonPrefix : QString → QString → ℕ
  | c :: s, d :: t => if c = d then commonPrefix s t + 1 else 0
  | _, _ => 0

def writeTerm (lastTermText : QString) (fieldNumber : ℤ) (termText : QString) : List UInt8 :=
  let start := commonPrefix termText lastTermText
  writeVInt start ++ writeVInt (termText.length - start) ++ writeChars (termText.drop start) ++
    writeVInt (fieldNumber % 2 ^ 32).toNat

/-- What `add` writes after the term. -/
def writeTermInfo (skipInterval : ℕ) (lastTi ti : TermInfo) : List UInt8 :=
  writeVInt ti.docFreq ++ writeVLong (ti.freqPointer - lastTi.freqPointer) ++
    writeVLong (ti.proxPointer - lastTi.proxPointer) ++
    if ti.docFreq ≥ skipInterval then writeVInt ti.skipOffset else []

/-- `add`, without the index. -/
def write (x : TermInfosOutput) (fieldNumber : ℤ) (termText : QString) (ti : TermInfo) : TermInfosOutput :=
  { x with
    output := x.output ++ writeTerm x.lastTermText fieldNumber termText ++ writeTermInfo x.skipInterval x.lastTi ti
    lastTermText := termText
    lastFieldNumber := fieldNumber
    lastTi := ti
    size := x.size + 1 }

/-- `add` to the index, with where the other file stands. -/
def writeIndex (x : TermInfosOutput) (fieldNumber : ℤ) (termText : QString) (ti : TermInfo) (pointer : ℕ) : TermInfosOutput :=
  let x := x.write fieldNumber termText ti
  { x with output := x.output ++ writeVLong (pointer - x.lastIndexPointer), lastIndexPointer := pointer }

/-- `close` writes the size after the format. -/
def close (x : TermInfosOutput) : List UInt8 := x.output.take 4 ++ writeLong x.size ++ x.output.drop 12

end TermInfosOutput

structure TermInfosWriter where
  fieldInfos : FieldInfos
  tis : TermInfosOutput
  tii : TermInfosOutput

namespace TermInfosWriter

def new (fieldInfos : FieldInfos) (interval : ℕ) : TermInfosWriter := ⟨fieldInfos, .initialise interval, .initialise interval⟩

def add (w : TermInfosWriter) (term : Term) (ti : TermInfo) : TermInfosWriter :=
  -- the index gets the term before this one, the first time the empty term
  let tii := if w.tis.size % w.tis.indexInterval = 0 then
      w.tii.writeIndex w.tis.lastFieldNumber w.tis.lastTermText w.tis.lastTi w.tis.output.length
    else w.tii
  { w with tii, tis := w.tis.write (w.fieldInfos.fieldNumber term.field) term.text ti }

end TermInfosWriter

/-! ## `SegmentTermEnum` -/

structure SegmentTermEnum where
  fieldInfos : FieldInfos
  input : ByteInput
  position : ℤ
  /-- Null behind the last term. -/
  _term : Option Term
  isIndex : Bool
  termInfo : TermInfo
  indexPointer : ℕ
  /-- What of the buffer has been read. -/
  buffer : QString
  prev : Option Term
  format : ℤ
  size : ℤ
  indexInterval : ℤ
  skipInterval : ℤ
  formatM1SkipInterval : ℤ
  maxSkipLevels : ℤ
  deriving Inhabited

namespace SegmentTermEnum

/-- The constructor. In the oldest formats with a number an index has no interval of its own. -/
def new (input : ByteInput) (fieldInfos : FieldInfos) (isIndex : Bool) : Except Failure SegmentTermEnum :=
  let (firstInt, s) := readInt input
  let e : SegmentTermEnum :=
    ⟨fieldInfos, s, -1, some ⟨[], []⟩, isIndex, ⟨0, 0, 0, 0⟩, 0, [], none, 0, firstInt, 128, noMoreDocs, 0, 1⟩
  if firstInt ≥ 0 then .ok e
  else if firstInt < TermInfosOutput.format then .error (.CLuceneError ("Unknown format version: " ++ toString firstInt))
  else
    let (size, s) := readLong s
    let e := { e with format := firstInt, size, input := s }
    if firstInt = -1 then
      if isIndex then .ok e
      else
        let (indexInterval, s) := readInt s
        let (formatM1SkipInterval, s) := readInt s
        .ok { e with indexInterval, formatM1SkipInterval, input := s }
    else
      let (indexInterval, s) := readInt s
      let (skipInterval, s) := readInt s
      if firstInt = -3 then
        let (maxSkipLevels, s) := readInt s
        .ok { e with indexInterval, skipInterval, maxSkipLevels, input := s }
      else .ok { e with indexInterval, skipInterval, input := s }

/-- `readTerm`, with the buffer after it. A term ends before its first null. -/
def readTerm (fieldInfos : FieldInfos) (buffer : QString) : StateM ByteInput (Term × QString) := do
  let start ← readVInt
  let length ← readVInt
  let chars ← many readChar length
  let buffer := buffer.take start ++ chars
  let field ← readVInt
  pure (⟨fieldInfos.fieldName (signed 32 field), buffer.takeWhile (· ≠ 0)⟩, buffer)

/-- What `next` reads after the term. -/
def readTermInfo (e : SegmentTermEnum) : StateM ByteInput TermInfo := do
  let docFreq ← readVInt
  let freqDelta ← readVLong
  let proxDelta ← readVLong
  let ti : TermInfo := ⟨docFreq, e.termInfo.freqPointer + freqDelta, e.termInfo.proxPointer + proxDelta, e.termInfo.skipOffset⟩
  if if e.format = -1 then !e.isIndex && (docFreq : ℤ) > e.formatM1SkipInterval else (docFreq : ℤ) ≥ e.skipInterval then
    let skipOffset ← readVInt
    pure { ti with skipOffset }
  else pure ti

def next (e : SegmentTermEnum) : Bool × SegmentTermEnum :=
  let position := e.position + 1
  -- before the first term the position is -1
  if e.position ≥ e.size - 1 then (false, { e with position, _term := none })
  else
    let ((term, buffer), s) := readTerm e.fieldInfos e.buffer e.input
    let (termInfo, s) := e.readTermInfo s
    let (indexDelta, s) := if e.isIndex then readVLong s else (0, s)
    (true, { e with
      position, prev := e._term, _term := some term, buffer, termInfo,
      indexPointer := e.indexPointer + indexDelta, input := s })

/-- The loop of `scanTo`. -/
def scanLoop (term : Term) : ℕ → SegmentTermEnum → SegmentTermEnum
  | 0, e => e
  | n + 1, e =>
    if e._term.any (· < term) then
      let r := e.next
      if r.1 then scanLoop term n r.2 else r.2
    else e

def scanTo (e : SegmentTermEnum) (term : Term) : SegmentTermEnum := scanLoop term ((e.size - e.position).toNat + 1) e

def seek (e : SegmentTermEnum) (pointer : ℕ) (p : ℤ) (t : Term) (ti : TermInfo) : SegmentTermEnum :=
  { e with input := e.input.seek pointer, position := p, _term := some t, prev := none, termInfo := ti, buffer := t.text }

/-- `do ... while(next())`. -/
def entriesLoop : ℕ → SegmentTermEnum → List (Term × TermInfo)
  | 0, _ => []
  | n + 1, e =>
    match e._term with
    | none => []
    | some t => (t, e.termInfo) :: entriesLoop n e.next.2

/-- The terms from where an enumeration stands. -/
def entries (e : SegmentTermEnum) : List (Term × TermInfo) := entriesLoop ((e.size - e.position).toNat + 1) e

end SegmentTermEnum

/-! ## `TermInfosReader` -/

/-- A term of the index, with what is known of it and where the terms behind it stand. -/
structure IndexTerm where
  term : Term
  info : TermInfo
  pointer : ℕ

structure TermInfosReader where
  _size : ℤ
  totalIndexInterval : ℤ
  origEnum : SegmentTermEnum
  indexEnum : SegmentTermEnum
  /-- Null until it is needed. -/
  indexTerms : Option (List IndexTerm)
  /-- The enumeration that the thread keeps. -/
  enumerator : Option SegmentTermEnum

namespace TermInfosReader

def new (tis tii : List UInt8) (fieldInfos : FieldInfos) : Except Failure TermInfosReader :=
  match SegmentTermEnum.new ⟨tis, 0⟩ fieldInfos false with
  | .error e => .error e
  | .ok origEnum =>
    match SegmentTermEnum.new ⟨tii, 0⟩ fieldInfos true with
    | .error e => .error e
    | .ok indexEnum => .ok ⟨origEnum.size, origEnum.indexInterval, origEnum, indexEnum, none, none⟩

/-- The loop of `ensureIndexIsRead`. -/
def readIndex : ℕ → SegmentTermEnum → List IndexTerm
  | 0, _ => []
  | n + 1, indexEnum =>
    let r := indexEnum.next
    match r.1, r.2._term with
    | true, some term => ⟨term, r.2.termInfo, r.2.indexPointer⟩ :: readIndex n r.2
    | _, _ => []

/-- `ensureIndexIsRead`: the index, from which nothing is read a second time. -/
def ensureIndexIsRead (x : TermInfosReader) : List IndexTerm :=
  x.indexTerms.getD (readIndex (x.indexEnum.size.toNat + 1) x.indexEnum)

def getEnum (x : TermInfosReader) : SegmentTermEnum := x.enumerator.getD x.origEnum

/-- The loop of `getIndexOffset`. -/
def getIndexOffsetLoop (indexTerms : List IndexTerm) (term : Term) : ℕ → (lo hi : ℤ) → ℤ
  | 0, _, hi => hi
  | n + 1, lo, hi =>
    if hi ≥ lo then
      let mid := (lo + hi) / 2
      match indexTerms[mid.toNat]? with
      | none => hi
      | some t =>
        if term < t.term then getIndexOffsetLoop indexTerms term n lo (mid - 1)
        else if term > t.term then getIndexOffsetLoop indexTerms term n (mid + 1) hi
        else mid
    else hi

def getIndexOffset (indexTerms : List IndexTerm) (term : Term) : ℤ :=
  getIndexOffsetLoop indexTerms term indexTerms.length 0 (indexTerms.length - 1)

def seekEnum (x : TermInfosReader) (indexTerms : List IndexTerm) (indexOffset : ℤ) : SegmentTermEnum :=
  match indexTerms[indexOffset.toNat]? with
  | some t => x.getEnum.seek t.pointer (indexOffset * x.totalIndexInterval - 1) t.term t.info
  | none => x.getEnum

/-- The case of `get` in which the enumeration goes on from where it stands. -/
def goesOn (x : TermInfosReader) (indexTerms : List IndexTerm) (term : Term) : Bool :=
  let e := x.getEnum
  match e._term with
  | none => false
  | some current =>
    -- not behind the term, and the index would not lead further
    (e.prev.any (· < term) || current ≤ term) &&
      let enumOffset := e.position.tdiv x.totalIndexInterval + 1
      enumOffset = indexTerms.length || (indexTerms[enumOffset.toNat]?).any (term < ·.term)

/-- `get`, with what it leaves. -/
def get (x : TermInfosReader) (term : Term) : Option TermInfo × TermInfosReader :=
  if x._size = 0 then (none, x)
  else
    let indexTerms := x.ensureIndexIsRead
    let e := (if x.goesOn indexTerms term then x.getEnum
      else x.seekEnum indexTerms (getIndexOffset indexTerms term)).scanTo term
    (if e._term = some term then some e.termInfo else none, { x with indexTerms := some indexTerms, enumerator := some e })

/-- `terms`: an enumeration of its own, from a term on or before the first. -/
def terms (x : TermInfosReader) (term : Option Term) : SegmentTermEnum × TermInfosReader :=
  match term with
  | none => (x.origEnum, x)
  | some term =>
    let x := (x.get term).2
    (x.getEnum, { x with enumerator := some x.getEnum })

/-! ## Requests -/

/-- What is asked of a reader. -/
inductive Request where
  | get (t : Term)
  | terms (t : Option Term)

inductive Response where
  | info (ti : Option TermInfo)
  | entries (l : List (Term × TermInfo))

/-- An enumeration of all terms stands before the first, and is moved on before it is read. -/
def ask (x : TermInfosReader) : Request → Response × TermInfosReader
  | .get t => (.info (x.get t).1, (x.get t).2)
  | .terms (some t) => (.entries (x.terms (some t)).1.entries, (x.terms (some t)).2)
  | .terms none => (.entries (x.terms none).1.next.2.entries, (x.terms none).2)

/-- The responses to requests, one after the other. -/
def responses (x : TermInfosReader) : List Request → List Response
  | [] => []
  | request :: requests => (x.ask request).1 :: responses (x.ask request).2 requests

end TermInfosReader

end QDesktopSearch
