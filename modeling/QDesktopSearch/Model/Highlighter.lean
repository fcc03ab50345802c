import QDesktopSearch.Model.Analysis

/-!
# The highlighter

`getBestTextFragments` of CLucene's highlighter, up to the choice among the fragments, with the
formatter and the fragmenter that `GetHitEnv` gives it. Tokens are joined to groups; the text of
a group and the text before it go through two buffers on the stack.
-/

namespace QDesktopSearch

def LUCENE_MAX_FIELD_LEN : ℕ := 100

def MAX_NUM_TOKENS_PER_GROUP : ℕ := 50

structure TokenGroup where
  tokens : List Token
  startOffset : ℕ
  endOffset : ℕ
  tokens_le : tokens.length ≤ MAX_NUM_TOKENS_PER_GROUP

namespace TokenGroup

def new : TokenGroup := ⟨[], 0, 0, Nat.zero_le _⟩

def getNumTokens (g : TokenGroup) : ℕ := g.tokens.length

/-- A token that is one too many is ignored. -/
def addToken (g : TokenGroup) (token : Token) : TokenGroup :=
  if h : g.getNumTokens < MAX_NUM_TOKENS_PER_GROUP then
    { tokens := g.tokens ++ [{ token with positionIncrement := 1 }]
      startOffset := if g.getNumTokens = 0 then token.startOffset else min g.startOffset token.startOffset
      endOffset := if g.getNumTokens = 0 then token.endOffset else max g.endOffset token.endOffset
      tokens_le := by
        rw [List.length_append]
        exact h }
  else g

def isDistinct (g : TokenGroup) (token : Token) : Bool := token.startOffset > g.endOffset

/-- The offsets stay. -/
def clear (g : TokenGroup) : TokenGroup := { g with tokens := [], tokens_le := Nat.zero_le _ }

end TokenGroup

/-- The buffers on the stack of `getBestTextFragments`. -/
inductive StackBuffer where
  | substringBuffer
  | buffer
  deriving DecidableEq

def StackBuffer.size : StackBuffer → ℕ
  | substringBuffer => LUCENE_MAX_WORD_LEN
  | buffer => LUCENE_MAX_FIELD_LEN + 1

/-- `_tcsncpy` of a part of the text into a buffer; the terminator is written after it. -/
structure Copy where
  target : StackBuffer
  start : ℕ
  len : ℕ
  deriving DecidableEq

def Copy.chars (text : List TCHAR) (c : Copy) : List TCHAR := (text.drop c.start).take c.len

/-- The characters are read within the text, and there is room for them and the terminator. -/
def Copy.InBounds (text : List TCHAR) (c : Copy) : Prop := c.start + c.len ≤ text.length ∧ c.len < c.target.size

/-- A fragment of the marked-up text; scores are left out. -/
structure TextFragment where
  textStartPos : ℕ
  fragNum : ℕ
  textEndPos : ℕ

/-- `SimpleFragmenter`. -/
structure SimpleFragmenter where
  fragmentSize : ℕ
  currentNumFrags : ℕ

namespace SimpleFragmenter

def start (f : SimpleFragmenter) : SimpleFragmenter := { f with currentNumFrags := 1 }

def isNewFragment (f : SimpleFragmenter) (token : Token) : Bool × SimpleFragmenter :=
  if token.endOffset ≥ f.fragmentSize * f.currentNumFrags then
    (true, { f with currentNumFrags := f.currentNumFrags + 1 })
  else (false, f)

end SimpleFragmenter

namespace Highlighter

def DEFAULT_MAX_DOC_BYTES_TO_ANALYZE : ℕ := 50 * 1024

/-- The variables of the loop. -/
structure State where
  tokenGroup : TokenGroup
  lastEndOffset : ℕ
  writeTo : List TCHAR
  docFrags : List TextFragment
  currentFrag : TextFragment
  textFragmenter : SimpleFragmenter
  /-- The copies made so far. -/
  copies : List Copy

variable (matched : TokenGroup → Bool) (text : List TCHAR)

/-- `DefaultEncoder`. -/
def encodeText (originalText : List TCHAR) : List TCHAR := originalText

/-- `seacherHighlightFormatter::highlightTerm`; `matched` is `getTotalScore() > 0`. -/
def highlightTerm (originalText : List TCHAR) (group : TokenGroup) : List TCHAR :=
  if matched group then word "<b><font color='red'>" ++ originalText ++ word "</font></b>" else originalText

/-- The copy of the text of a group. -/
def groupCopy (g : TokenGroup) : Copy := ⟨.substringBuffer, g.startOffset, g.endOffset - g.startOffset⟩

/-- The copy of the text between the last group and this one, of which the beginning only. -/
def betweenCopy (s : State) : List Copy :=
  if s.tokenGroup.startOffset > s.lastEndOffset then
    let len := s.tokenGroup.startOffset - s.lastEndOffset
    [⟨.buffer, s.lastEndOffset, if len > LUCENE_MAX_FIELD_LEN then LUCENE_MAX_FIELD_LEN else len⟩]
  else []

/-- The accumulated text is written. -/
def flush (s : State) : State :=
  let markedUpText := highlightTerm matched (encodeText ((groupCopy s.tokenGroup).chars text)) s.tokenGroup
  let between := (betweenCopy s).flatMap fun c => encodeText (c.chars text)
  { s with
    writeTo := s.writeTo ++ between ++ markedUpText
    lastEndOffset := s.tokenGroup.endOffset
    copies := s.copies ++ groupCopy s.tokenGroup :: betweenCopy s }

/-- The group before the current token is finished, and its fragment where the token starts a
new one. -/
def finishGroup (token : Token) (s : State) : State :=
  let s := flush matched text s
  let s := { s with tokenGroup := s.tokenGroup.clear }
  let (newFragment, textFragmenter) := s.textFragmenter.isNewFragment token
  let s := { s with textFragmenter := textFragmenter }
  if newFragment then
    let docFrags := s.docFrags ++ [{ s.currentFrag with textEndPos := s.writeTo.length }]
    { s with docFrags := docFrags, currentFrag := ⟨s.writeTo.length, docFrags.length, 0⟩ }
  else s

/-- One round of the loop, up to its `break`. -/
def round (token : Token) (s : State) : State :=
  let s :=
    if s.tokenGroup.getNumTokens > 0 && s.tokenGroup.isDistinct token then finishGroup matched text token s else s
  { s with tokenGroup := s.tokenGroup.addToken token }

/-- The loop over the tokens. -/
def loop : List Token → State → State
  | [], s => s
  | token :: tokens, s =>
    let s := round matched text token s
    if s.lastEndOffset > DEFAULT_MAX_DOC_BYTES_TO_ANALYZE then s else loop tokens s

/-- What follows the loop; `docFrags` are all fragments then. -/
def finish (s : State) : State :=
  let s := if s.tokenGroup.getNumTokens > 0 then flush matched text s else s
  { s with docFrags := s.docFrags ++ [{ s.currentFrag with textEndPos := s.writeTo.length }] }

/-- The variables at the beginning, with `SimpleFragmenter frag(50)` of `GetHitEnv`. -/
def start : State := ⟨.new, 0, [], [], ⟨0, 0, 0⟩, (SimpleFragmenter.mk 50 0).start, []⟩

def getBestTextFragments (tokens : List Token) : State := finish matched text (loop matched text tokens start)

end Highlighter

variable (T : CharTables)

/-- The token stream of `GetHitEnv`; there are no more tokens than characters. -/
def tokenStream4HitEnv (text : List TCHAR) : List Token :=
  (Source.pull (QStandardAnalyzer.next T) text.length (QStandardAnalyzer.tokenStream (.stringReader text))).1

/-- The highlighting of a stored text in `GetHitEnv`. -/
def GetHitEnv (matched : TokenGroup → Bool) (text : List TCHAR) : Highlighter.State :=
  Highlighter.getBestTextFragments matched text (tokenStream4HitEnv T text)

end QDesktopSearch
