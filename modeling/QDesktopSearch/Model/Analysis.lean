import QDesktopSearch.Lib.Source

/-!
# Analysis of texts

CLucene's readers, `CharTokenizer` with `QTokenizer`'s classification of characters, the
three filters of `QStandardAnalyzer` and the analyzer itself. A `TCHAR` is its value; an
offset is a number without a bound.
-/

namespace QDesktopSearch

/-- A code unit. -/
abbrev TCHAR := ℕ

def LUCENE_MAX_WORD_LEN : ℕ := 255
def LUCENE_IO_BUFFER_SIZE : ℕ := 1024

/-- `QChar::isLetterOrNumber`, in Latin-1. -/
def isLatin1LetterOrNumber (c : TCHAR) : Bool :=
  (48 ≤ c && c ≤ 57) || (65 ≤ c && c ≤ 90) || (97 ≤ c && c ≤ 122) || c == 0xaa || c == 0xb2 || c == 0xb3 ||
    c == 0xb5 || c == 0xb9 || c == 0xba || (0xbc ≤ c && c ≤ 0xbe) || (0xc0 ≤ c && c ≤ 0xd6) ||
    (0xd8 ≤ c && c ≤ 0xf6) || (0xf8 ≤ c && c ≤ 0xff)

/-- Qt's and CLucene's character tables. -/
structure CharTables where
  isLetterOrNumber : TCHAR → Bool
  isLetterOrNumber_latin1 : ∀ c < 256, isLetterOrNumber c = isLatin1LetterOrNumber c
  cl_tcasefold : TCHAR → TCHAR

variable (T : CharTables)

/-! ## Readers -/

/-- A reader over the text that is left. By the documentation of `CLStream::read` a call may
return as much as it likes between `min` and `max`, less only at the end; `sizes` says how
much, by the number of the call and its `max`. -/
structure Reader where
  rest : List TCHAR
  calls : ℕ
  sizes : ℕ → ℕ → ℕ
  /-- `__asBufferedReader()` is not null. -/
  buffered : Bool

namespace Reader

/-- `read`; nothing where it returns -1. -/
def read (r : Reader) (min max : ℕ) : Option (List TCHAR) × Reader :=
  if r.rest = [] then (none, r)
  else
    let n := Nat.max min (Nat.min (r.sizes r.calls max) max)
    (some (r.rest.take n), { r with rest := r.rest.drop n, calls := r.calls + 1 })

/-- `StringReader`, which returns as much as it may. -/
def stringReader (text : List TCHAR) : Reader := ⟨text, 0, fun _ max => max, true⟩

end Reader

/-- `StreamBuffer`; `data` is what is available from `readPos` on. -/
structure StreamBuffer where
  size : ℕ
  readPos : ℕ
  data : List TCHAR

namespace StreamBuffer

def avail (b : StreamBuffer) : ℕ := b.data.length

def makeSpace (b : StreamBuffer) (needed : ℕ) : ℕ × StreamBuffer :=
  let space := b.size - b.readPos - b.avail
  if space ≥ needed then (space, b)
  else
    let (space, b) :=
      if b.avail > 0 then
        if b.readPos ≠ 0 then (space + b.readPos, { b with readPos := 0 }) else (space, b)
      else (b.size, { b with readPos := 0 })
    if space ≥ needed then (space, b)
    else (needed, { b with size := b.size + needed - space })

def read (b : StreamBuffer) (max : ℕ) : List TCHAR × StreamBuffer :=
  let max := if max = 0 || max > b.avail then b.avail else max
  (b.data.take max, { b with readPos := b.readPos + max, data := b.data.drop max })

end StreamBuffer

/-- `m_status`; the readers below it report no errors. -/
inductive StreamStatus where
  | Ok
  | Eof
  deriving DecidableEq

/-- `FilteredBufferedReader`, a `BufferedStreamImpl` over another reader. -/
structure FilteredBufferedReader where
  input : Reader
  buffer : StreamBuffer
  finishedWritingToBuffer : Bool
  m_status : StreamStatus

namespace FilteredBufferedReader

def new (input : Reader) : FilteredBufferedReader := ⟨input, ⟨0, 0, []⟩, false, .Ok⟩

def fillBuffer (x : FilteredBufferedReader) (space : ℕ) : Option (List TCHAR) × FilteredBufferedReader :=
  let (r, input) := x.input.read 1 space
  (r, { x with input := input })

/-- The loop of `writeToBuffer`. Each round but the last adds to what is available, so
`ntoread` rounds are enough. -/
def writeToBuffer (ntoread maxread : ℕ) : ℕ → FilteredBufferedReader → FilteredBufferedReader
  | 0, x => x
  | n + 1, x =>
    if ntoread ≤ x.buffer.avail then x
    else
      let (space, buffer) := x.buffer.makeSpace (ntoread - x.buffer.avail)
      let space := if maxread ≥ ntoread && space > maxread then maxread else space
      match fillBuffer { x with buffer := buffer } space with
      | (none, x) => { x with finishedWritingToBuffer := true }
      | (some data, x) =>
        writeToBuffer ntoread maxread n { x with buffer := { x.buffer with data := x.buffer.data ++ data } }

/-- `read`; nothing where it returns -1. -/
def read (x : FilteredBufferedReader) (min max : ℕ) : Option (List TCHAR) × FilteredBufferedReader :=
  if x.m_status = .Eof then (none, x)
  else
    let max := if min > max then 0 else max
    let x :=
      if !x.finishedWritingToBuffer && min > x.buffer.avail then writeToBuffer min max min x else x
    let (data, buffer) := x.buffer.read max
    let x := { x with buffer := buffer }
    if x.buffer.avail = 0 && x.finishedWritingToBuffer then
      -- one call to `read` is saved by already returning -1
      (if data = [] then none else some data, { x with m_status := .Eof })
    else (some data, x)

end FilteredBufferedReader

/-- What a tokenizer reads from. -/
inductive Input where
  | reader (input : Reader)
  | filtered (input : FilteredBufferedReader)

namespace Input

def read (min max : ℕ) : Input → Option (List TCHAR) × Input
  | reader r => let (data, r) := r.read min max; (data, reader r)
  | filtered x => let (data, x) := x.read min max; (data, filtered x)

/-- The text that is left. -/
def content : Input → List TCHAR
  | reader r => r.rest
  | filtered x =>
    if x.m_status = .Eof then []
    else x.buffer.data ++ if x.finishedWritingToBuffer then [] else x.input.rest

end Input

/-! ## `QTokenizer` -/

inductive TokenType where
  | word
  | apostrophe
  | acronym
  deriving DecidableEq

structure Token where
  termBuffer : List TCHAR
  startOffset : ℕ
  endOffset : ℕ
  type : TokenType
  positionIncrement : ℕ
  deriving DecidableEq

/-- `Token::set`. -/
def Token.set (text : List TCHAR) (start : ℕ) (stop : ℕ) : Token := ⟨text, start, stop, .word, 1⟩

structure QTokenizer where
  input : Input
  offset : ℕ
  bufferIndex : ℕ
  dataLen : ℕ
  ioBuffer : List TCHAR
  dataLen_le : dataLen ≤ ioBuffer.length

namespace QTokenizer

def new (input : Input) : QTokenizer := ⟨input, 0, 0, 0, [], Nat.zero_le _⟩

/-- `CharTokenizer::reset`; `ioBuffer` stays. -/
def reset (t : QTokenizer) (input : Reader) : QTokenizer :=
  { t with input := .reader input, bufferIndex := 0, offset := 0, dataLen := 0, dataLen_le := Nat.zero_le _ }

/-- `isTokenChar`. The excluded ones are NUL, blank, tabulator, `-`, `.`, line feed, carriage
return, comma, slash, double quote, colon, apostrophe (twice) and angle brackets. -/
def isTokenChar (c : TCHAR) : Bool :=
  if [0, 32, 9, 45, 46, 10, 13, 44, 47, 34, 58, 39, 39, 60, 62].contains c || c ≤ 9 then false
  else
    -- `QChar::fromLatin1` takes a `char`
    let qc := c % 256
    T.isLetterOrNumber qc

def normalize (c : TCHAR) : TCHAR := c

/-- What is in `ioBuffer` and in the reader. -/
def pending (t : QTokenizer) : List TCHAR := (t.ioBuffer.take t.dataLen).drop t.bufferIndex ++ t.input.content

/-- The refill of `ioBuffer` in `CharTokenizer::next`. -/
def refill (t : QTokenizer) : QTokenizer :=
  if t.bufferIndex ≥ t.dataLen then
    match t.input.read 1 LUCENE_IO_BUFFER_SIZE with
    | (none, input) => { t with input := input, dataLen := 0, bufferIndex := 0, dataLen_le := Nat.zero_le _ }
    | (some ioBuffer, input) =>
      { t with
        input := input, ioBuffer := ioBuffer, dataLen := ioBuffer.length, bufferIndex := 0
        dataLen_le := Nat.le_refl _ }
  else t

/-- The loop of `CharTokenizer::next`, over at most `n` characters. -/
def loop : ℕ → QTokenizer → (buffer : List TCHAR) → (start : ℕ) → Option Token × QTokenizer
  | 0, t, _, _ => (none, t)
  | n + 1, t, buffer, start =>
    let t := { t with offset := t.offset + 1 : QTokenizer }.refill
    if t.dataLen = 0 then
      if buffer.length > 0 then (some (.set buffer start (start + buffer.length)), t) else (none, t)
    else
      let c := t.ioBuffer.getD t.bufferIndex 0
      let t := { t with bufferIndex := t.bufferIndex + 1 }
      if isTokenChar T c then
        let start := if buffer.length = 0 then t.offset - 1 else start
        let buffer := buffer ++ [normalize c]
        if buffer.length = LUCENE_MAX_WORD_LEN then (some (.set buffer start (start + buffer.length)), t)
        else loop n t buffer start
      else if buffer.length > 0 then (some (.set buffer start (start + buffer.length)), t)
      else loop n t buffer start

/-- `CharTokenizer::next`; nothing where it returns null. -/
def next (t : QTokenizer) : Option Token × QTokenizer := t.loop T (t.pending.length + 1) [] t.offset

end QTokenizer

/-! ## Filters -/

/-- `StandardFilter::next`. -/
def StandardFilter.next (input : QTokenizer → Option Token × QTokenizer) (t : QTokenizer) :
    Option Token × QTokenizer :=
  match input t with
  | (none, t) => (none, t)
  | (some token, t) =>
    let text := token.termBuffer
    let textLength := text.length
    -- the last two characters are an apostrophe and an s
    if token.type = .apostrophe ∧ textLength ≥ 2 ∧
        (text.drop (textLength - 2) = [39, 115] ∨ text.drop (textLength - 2) = [39, 83]) then
      (some { token with termBuffer := text.take (textLength - 2) }, t)
    else if token.type = .acronym then (some { token with termBuffer := text.filter (· ≠ 46) }, t)
    else (some token, t)

/-- `LowerCaseFilter::next`. -/
def LowerCaseFilter.next (input : QTokenizer → Option Token × QTokenizer) (t : QTokenizer) :
    Option Token × QTokenizer :=
  match input t with
  | (none, t) => (none, t)
  | (some token, t) => (some { token with termBuffer := token.termBuffer.map T.cl_tcasefold }, t)

/-- A word in ASCII. -/
def word (s : String) : List TCHAR := s.toList.map Char.toNat

/-- `StopAnalyzer::ENGLISH_STOP_WORDS`. -/
def ENGLISH_STOP_WORDS : List (List TCHAR) :=
  ["a", "an", "and", "are", "as", "at", "be", "but", "by", "for", "if", "in", "into", "is", "it", "no", "not", "of",
    "on", "or", "such", "that", "the", "their", "then", "there", "these", "they", "this", "to", "was", "will",
    "with"].map word

def ENABLE_POSITION_INCREMENTS_DEFAULT : Bool := false

/-- The loop of `StopFilter::next`, over at most `n` tokens. -/
def StopFilter.loop (input : QTokenizer → Option Token × QTokenizer) :
    ℕ → QTokenizer → (skippedPositions : ℕ) → Option Token × QTokenizer
  | 0, t, _ => (none, t)
  | n + 1, t, skippedPositions =>
    match input t with
    | (none, t) => (none, t)
    | (some token, t) =>
      if !ENGLISH_STOP_WORDS.contains token.termBuffer then
        if ENABLE_POSITION_INCREMENTS_DEFAULT then
          (some { token with positionIncrement := token.positionIncrement + skippedPositions }, t)
        else (some token, t)
      else loop input n t (skippedPositions + token.positionIncrement)

/-- `StopFilter::next`. -/
def StopFilter.next (input : QTokenizer → Option Token × QTokenizer) (t : QTokenizer) :
    Option Token × QTokenizer := StopFilter.loop input (t.pending.length + 1) t 0

/-! ## `QStandardAnalyzer` -/

/-- The analyzer with its saved stream, of which the tokenizer is the state. -/
structure QStandardAnalyzer where
  previousTokenStream : Option QTokenizer

namespace QStandardAnalyzer

def new : QStandardAnalyzer := ⟨none⟩

/-- The tokenizer under `tokenStream`; a reader that is not buffered is wrapped. -/
def tokenStream (reader : Reader) : QTokenizer :=
  if reader.buffered then .new (.reader reader) else .new (.filtered (.new reader))

/-- `next` of the filters that `tokenStream` stacks. -/
def next (t : QTokenizer) : Option Token × QTokenizer :=
  StopFilter.next (LowerCaseFilter.next T (StandardFilter.next (QTokenizer.next T))) t

/-- The tokenizer under `reusableTokenStream`: the saved one, reset to the reader as it is. -/
def reusableTokenStream (a : QStandardAnalyzer) (reader : Reader) : QTokenizer :=
  match a.previousTokenStream with
  | none => tokenStream reader
  | some t => t.reset reader

/-- A text is analysed on one analyzer: `next` is called up to `n` times, or until it
returns null, and the stream is left there. -/
def step (a : QStandardAnalyzer) (text : Reader × ℕ) : Option (QStandardAnalyzer × List Token) :=
  let (tokens, t) := Source.pull (next T) text.2 (a.reusableTokenStream text.1)
  some (⟨some t⟩, tokens)

end QStandardAnalyzer

end QDesktopSearch
