import QDesktopSearch.Model.Text

/-!
# `FastCharStream`

The characters of a query text, through a buffer. `refill` moves the token that is being read to
the front, but then copies what comes next over it (`memcpy` to the begin of the buffer, where
`bufferLength` and `bufferPosition` count it as behind the token). So characters are lost where the
end of the buffer comes within a token. It may also count more than the buffer has; what is read
there is not defined. Lines, columns and `bufferStart` are left out.
-/

namespace QDesktopSearch

/-- `_tcsncpy`: what it writes to `n` cells. -/
def _tcsncpy (source : QString) (n : ℕ) : QString :=
  let copied := (source.take n).takeWhile (· ≠ 0)
  copied ++ List.replicate (n - copied.length) 0

/-- `FastCharStream`; the buffer is empty before it is allocated, and `input` is what its reader
still has. -/
structure FastCharStream where
  buffer : QString
  _bufferSize : ℕ
  bufferLength : ℕ
  bufferPosition : ℕ
  tokenStart : ℕ
  input : QString
  deriving DecidableEq

/-- What a character is not read for. -/
inductive CharError where
  /-- `CL_ERR_IO`, "read past eof". -/
  | eof
  /-- It is not in the buffer. -/
  | overread
  deriving DecidableEq

namespace FastCharStream

/-- The constructor, on a `StringReader`. -/
def new (input : QString) : FastCharStream := ⟨[], 0, 0, 0, 0, input⟩

/-- `StringReader::read`: the characters, or none at the end. -/
def read (input : QString) (min max : ℕ) : Option QString :=
  if input = [] then none else some (input.take (Max.max min max))

/-- The buffer of `refill` before it reads, and its size: it is allocated (and cleared), or doubled, or
the token is shifted to its front. -/
def makeRoom (s : FastCharStream) : QString × ℕ :=
  if s.tokenStart = 0 then
    if s.buffer = [] then (List.replicate 2048 0, 2048)
    else if s.bufferLength = s._bufferSize then
      (_tcsncpy s.buffer s.bufferLength ++ List.replicate s._bufferSize 0, s._bufferSize * 2)
    else (s.buffer, s._bufferSize)
  else
    let newPosition := s.bufferLength - s.tokenStart
    (_tcsncpy (s.buffer.drop s.tokenStart) newPosition ++ s.buffer.drop newPosition, s._bufferSize)

def refill (s : FastCharStream) : Except CharError Unit × FastCharStream :=
  let newPosition := s.bufferLength - s.tokenStart
  let (buffer, _bufferSize) := s.makeRoom
  match read s.input newPosition (_bufferSize - newPosition) with
  | none => (.error .eof, ⟨buffer, _bufferSize, newPosition, newPosition, 0, s.input⟩)
  | some charBuf =>
    (.ok (), ⟨charBuf ++ buffer.drop charBuf.length, _bufferSize, newPosition + charBuf.length, newPosition, 0,
      s.input.drop charBuf.length⟩)

def readChar (s : FastCharStream) : Except CharError QChar × FastCharStream :=
  let (filled, s) := if s.bufferPosition ≥ s.bufferLength then s.refill else (.ok (), s)
  match filled with
  | .error e => (.error e, s)
  | .ok () =>
    match s.buffer[s.bufferPosition]? with
    | none => (.error .overread, s)
    | some curChar => (.ok curChar, { s with bufferPosition := s.bufferPosition + 1 })

/-- What `BeginToken` does before it reads. -/
def beginToken (s : FastCharStream) : FastCharStream := { s with tokenStart := s.bufferPosition }

def backup (s : FastCharStream) (amount : ℕ) : FastCharStream := { s with bufferPosition := s.bufferPosition - amount }

/-- `GetImage`; the string ends at a NUL. -/
def GetImage (s : FastCharStream) : QString :=
  (_tcsncpy (s.buffer.drop s.tokenStart) (s.bufferPosition - s.tokenStart)).takeWhile (· ≠ 0)

/-- What the next calls of `readChar` give, as far as they give any. -/
def ahead : (calls : ℕ) → FastCharStream → QString
  | 0, _ => []
  | calls + 1, s =>
    match s.readChar with
    | (.ok curChar, s) => curChar :: ahead calls s
    | (.error _, _) => []

/-- After calls of `readChar`, if these stay in the buffer. -/
def after : (calls : ℕ) → FastCharStream → Option FastCharStream
  | 0, s => some s
  | calls + 1, s =>
    match s.readChar with
    | (.error .overread, _) => none
    | (_, s) => after calls s

end FastCharStream

end QDesktopSearch
