import Mathlib.Data.Int.Log
import Mathlib.Data.Rat.Floor
import QDesktopSearch.Model.Analysis
import QDesktopSearch.Model.QueryParserTokenManager
import QDesktopSearch.Model.Request

/-!
# `QueryParser`

The recursive descent over the tokens, with the settings that `QueryParser::parse` leaves as they
are: the operator is `OR`, expanded terms are lower-cased and leading wildcards are not allowed.
The analyzer gives no two tokens the same position. A boost and a similarity are their values, as
`float_t` has them.
-/

namespace QDesktopSearch

/-- `BooleanClause::Occur`. -/
inductive Occur where
  | MUST
  | SHOULD
  | MUST_NOT
  deriving DecidableEq

/-- The queries of the parser. -/
inductive Query where
  | TermQuery (field : QString) (text : List TCHAR)
  | PhraseQuery (field : QString) (texts : List (List TCHAR)) (slop : ℕ)
  | WildcardQuery (field text : QString)
  | PrefixQuery (field text : QString)
  | FuzzyQuery (field text : QString) (minimumSimilarity : ℚ)
  | ConstantScoreRangeQuery (field lowerVal upperVal : QString) (inclusive : Bool)
  | MatchAllDocsQuery
  | BooleanQuery (clauses : List (Query × Occur))
  | setBoost (query : Query) (boost : ℚ)

/-- What is thrown below `parse`; the last is no error of the source. -/
inductive ParseError where
  | TokenMgr
  /-- `generateParseException`. -/
  | ParseException
  | Parse (what : String)
  | TooManyClauses
  | IllegalArgument (what : String)
  | outOfFuel
  deriving DecidableEq

/-- The functions of the C library that the parser calls, the `float_t` next to a `double`, and what
comes of characters that are not in the buffer. -/
structure ParserTables extends CharTables where
  _tcslwr : QString → QString
  _tcstod : QString → ℚ
  float_t : ℚ → ℚ
  overread : LexState → FastCharStream → TokenStream

/-- A function of the parser, from the tokens that are left. -/
abbrev Parser := StateT TokenStream (Except ParseError)

namespace QueryParser

open QueryParserTokenManager (chr)

/-! ## Tokens -/

/-- The kind of the next token. -/
def jj_ntk : Parser TokenKind := fun ts =>
  match ts with
  | .eof => .ok (._EOF, ts)
  | .lexicalError => .error .TokenMgr
  | .next t _ => .ok (t.kind, ts)

def jj_consume_token (kind : TokenKind) : Parser QueryToken := fun ts =>
  match ts with
  | .eof => if kind = ._EOF then .ok (⟨._EOF, []⟩, ts) else .error .ParseException
  | .lexicalError => .error .TokenMgr
  | .next t rest => if t.kind = kind then .ok (t, rest) else .error .ParseException

/-- `jj_2_1(2)`: a term or a star comes next, and then a colon. -/
def jj_2_1 : Parser Bool := fun ts =>
  match ts with
  | .eof => .ok (false, ts)
  | .lexicalError => .error .TokenMgr
  | .next t rest =>
    if t.kind = .TERM ∨ t.kind = .STAR then
      match rest with
      | .eof => .ok (false, ts)
      | .lexicalError => .error .TokenMgr
      | .next u _ => .ok (decide (u.kind = .COLON), ts)
    else .ok (false, ts)

/-- The next token, if it is of the kind. -/
def optionalToken (kind : TokenKind) : Parser (Option QueryToken) := do
  if (← jj_ntk) = kind then
    let token ← jj_consume_token kind
    return some token
  else return none

/-! ## Texts -/

def hexToInt (c : QChar) : Except ParseError ℕ :=
  if chr '0' ≤ c ∧ c ≤ chr '9' then .ok (c.toNat - (chr '0').toNat)
  else if chr 'a' ≤ c ∧ c ≤ chr 'f' then .ok (c.toNat - (chr 'a').toNat + 10)
  else if chr 'A' ≤ c ∧ c ≤ chr 'F' then .ok (c.toNat - (chr 'A').toNat + 10)
  else .error (.Parse "Non-hex character in unicode escape sequence")

/-- The loop of `discardEscapeChar`, from its variables. -/
def discardEscapeLoop : QString → (lastCharWasEscapeChar : Bool) → (codePointMultiplier codePoint : ℕ) →
    Except ParseError QString
  | [], lastCharWasEscapeChar, codePointMultiplier, _ =>
    if codePointMultiplier > 0 then .error (.Parse "Truncated unicode escape sequence.")
    else if lastCharWasEscapeChar then .error (.Parse "Term can not end with escape character.")
    else .ok []
  | curChar :: input, lastCharWasEscapeChar, codePointMultiplier, codePoint =>
    if codePointMultiplier > 0 then
      match hexToInt curChar with
      | .error e => .error e
      | .ok digit =>
        let codePoint := codePoint + digit * codePointMultiplier
        let codePointMultiplier := codePointMultiplier / 16
        if codePointMultiplier = 0 then
          (discardEscapeLoop input lastCharWasEscapeChar codePointMultiplier 0).map (UInt16.ofNat codePoint :: ·)
        else discardEscapeLoop input lastCharWasEscapeChar codePointMultiplier codePoint
    else if lastCharWasEscapeChar then
      if curChar = chr 'u' then discardEscapeLoop input false (16 * 16 * 16) codePoint
      else (discardEscapeLoop input false codePointMultiplier codePoint).map (curChar :: ·)
    else if curChar = chr '\\' then discardEscapeLoop input true codePointMultiplier codePoint
    else (discardEscapeLoop input false codePointMultiplier codePoint).map (curChar :: ·)

def discardEscapeChar (input : QString) : Except ParseError QString := discardEscapeLoop input false 0 0

/-! ## Queries -/

variable (T : ParserTables)

/-- The tokens that the analyzer gives for a text. -/
def analyze (queryText : QString) : List Token :=
  let text := queryText.map UInt16.toNat
  (Source.pull (QStandardAnalyzer.next T.toCharTables) (text.length + 1)
    (QStandardAnalyzer.tokenStream (Reader.stringReader text))).1

/-- `getFieldQuery`, with a slop. -/
def getFieldQuery (field queryText : QString) (slop : ℕ) : Option Query :=
  match analyze T queryText with
  | [] => none
  | [t] => some (.TermQuery field t.termBuffer)
  | v => some (.PhraseQuery field (v.map (·.termBuffer)) slop)

def getRangeQuery (field part1 part2 : QString) (inclusive : Bool) : Query :=
  .ConstantScoreRangeQuery field (T._tcslwr part1) (T._tcslwr part2) inclusive

def getWildcardQuery (field termStr : QString) : Except ParseError Query :=
  if field = qs "*" ∧ termStr = qs "*" then .ok .MatchAllDocsQuery
  else if termStr.head? = some (chr '*') ∨ termStr.head? = some (chr '?') then
    .error (.Parse "'*' or '?' not allowed as first character in WildcardQuery")
  else .ok (.WildcardQuery field (T._tcslwr termStr))

def getPrefixQuery (field termStr : QString) : Except ParseError Query :=
  if termStr.head? = some (chr '*') then .error (.Parse "'*' not allowed as first character in PrefixQuery")
  else .ok (.PrefixQuery field (T._tcslwr termStr))

/-- `getFuzzyQuery`, with the constructor of `FuzzyQuery`. -/
def getFuzzyQuery (field termStr : QString) (minSimilarity : ℚ) : Except ParseError Query :=
  if minSimilarity ≥ 1 then .error (.IllegalArgument "minimumSimilarity >= 1")
  else .ok (.FuzzyQuery field (T._tcslwr termStr) minSimilarity)

/-- `FuzzyQuery::defaultMinSimilarity`. -/
def fuzzyMinSim : ℚ := 1 / 2

/-- The similarity that a `~` asks for. -/
def fms (fuzzySlop : QueryToken) : ℚ :=
  if fuzzySlop.image.drop 1 = [] then fuzzyMinSim else T.float_t (T._tcstod (fuzzySlop.image.drop 1))

/-- The query of a term in `fTerm`. -/
def termQuery (field : QString) (term : QueryToken) (fuzzySlop : Option QueryToken) :
    Except ParseError (Option Query) :=
  if term.kind = .STAR ∨ term.kind = .WILDTERM then do
    let termImage ← discardEscapeChar term.image
    return some (← getWildcardQuery T field termImage)
  else if term.kind = .PREFIXTERM then do
    let termImage ← discardEscapeChar term.image.dropLast
    return some (← getPrefixQuery T field termImage)
  else
    match fuzzySlop with
    | some fuzzySlop => do
      let fms := fms T fuzzySlop
      if fms < 0 ∨ fms > 1 then
        throw (.Parse "Minimum similarity for a FuzzyQuery has to be between 0.0f and 1.0f !")
      let termImage ← discardEscapeChar term.image
      return some (← getFuzzyQuery T field termImage fms)
    | none => do
      let termImage ← discardEscapeChar term.image
      return getFieldQuery T field termImage 0

/-- `_ttoi`, of digits. -/
def _ttoi (s : QString) : ℕ :=
  (s.takeWhile QueryParserTokenManager.isDigit).foldl (fun n c => 10 * n + (c.toNat - (chr '0').toNat)) 0

/-- `setBoost`, where there is a query and a boost. -/
def boostQuery (q : Option Query) (boost : Option QueryToken) : Option Query :=
  match boost with
  | some boost => q.map (.setBoost · (T.float_t (T._tcstod boost.image)))
  | none => q

def getBooleanQuery (clauses : List (Query × Occur)) : Except ParseError (Option Query) :=
  if clauses.length = 0 then .ok none
  else if clauses.length > LUCENE_BOOLEANQUERY_MAXCLAUSECOUNT then .error .TooManyClauses
  else .ok (some (.BooleanQuery clauses))

/-! ## The grammar -/

inductive Conj where
  | CONJ_NONE
  | CONJ_AND
  | CONJ_OR
  deriving DecidableEq

inductive Mod where
  | MOD_NONE
  | MOD_NOT
  | MOD_REQ
  deriving DecidableEq

/-- A clause that comes after `AND` makes the one before it required. -/
def requireLast : List (Query × Occur) → List (Query × Occur)
  | [] => []
  | [(c, occur)] => [(c, if occur = .MUST_NOT then occur else .MUST)]
  | c :: clauses => c :: requireLast clauses

def addClause (clauses : List (Query × Occur)) (conj : Conj) (mods : Mod) (q : Option Query) :
    List (Query × Occur) :=
  let clauses := if conj = .CONJ_AND then requireLast clauses else clauses
  match q with
  | none => clauses
  | some q =>
    let prohibited := mods = .MOD_NOT
    let required := mods = .MOD_REQ ∨ (conj = .CONJ_AND ∧ ¬prohibited)
    clauses ++ [(q, if required then .MUST else if prohibited then .MUST_NOT else .SHOULD)]

def Conjunction : Parser Conj := do
  let kind ← jj_ntk
  if kind = .AND then
    let _ ← jj_consume_token .AND
    return .CONJ_AND
  else if kind = .OR then
    let _ ← jj_consume_token .OR
    return .CONJ_OR
  else return .CONJ_NONE

def Modifiers : Parser Mod := do
  let kind ← jj_ntk
  if kind = .PLUS then
    let _ ← jj_consume_token .PLUS
    return .MOD_REQ
  else if kind = .MINUS then
    let _ ← jj_consume_token .MINUS
    return .MOD_NOT
  else if kind = .NOT then
    let _ ← jj_consume_token .NOT
    return .MOD_NOT
  else return .MOD_NONE

/-- A caret with its number. -/
def fBoost : Parser (Option QueryToken) := do
  if (← jj_ntk) = .CARAT then
    let _ ← jj_consume_token .CARAT
    let boost ← jj_consume_token .NUMBER
    return some boost
  else return none

/-- What may follow a term: the slop, which comes before the boost or after it, and the boost. -/
def fSuffix : Parser (Option QueryToken × Option QueryToken) := do
  let fuzzySlop ← optionalToken .FUZZY_SLOP
  let boost ← fBoost
  match boost with
  | none => return (fuzzySlop, none)
  | some boost =>
    let fuzzySlop' ← optionalToken .FUZZY_SLOP
    return (fuzzySlop' <|> fuzzySlop, some boost)

/-- The tokens of a range in the grammar. -/
structure RangeGrammar where
  start : TokenKind
  tokens : QueryParserTokenManager.RangeTokens
  /-- What is done to the image of a quoted bound. -/
  unquote : QString → QString
  inclusive : Bool

def rangeIn : RangeGrammar := ⟨.RANGEIN_START, QueryParserTokenManager.rangeIn, fun s => (s.drop 1).dropLast, true⟩

/-- The closing quote stays. -/
def rangeEx : RangeGrammar := ⟨.RANGEEX_START, QueryParserTokenManager.rangeEx, fun s => s.drop 1, false⟩

/-- A bound of a range. -/
def fGoop (r : RangeGrammar) : Parser QueryToken := do
  let kind ← jj_ntk
  if kind = r.tokens.goop then jj_consume_token r.tokens.goop
  else if kind = r.tokens.quoted then jj_consume_token r.tokens.quoted
  else throw .ParseException

/-- The text of a bound. -/
def goopText (r : RangeGrammar) (goop : QueryToken) : Except ParseError QString :=
  discardEscapeChar (if goop.kind = r.tokens.quoted then r.unquote goop.image else goop.image)

/-- The ranges of `fTerm`. -/
def fRange (r : RangeGrammar) (field : QString) : Parser (Option Query) := do
  let _ ← jj_consume_token r.start
  let goop1 ← fGoop r
  let _ ← optionalToken r.tokens.TO
  let goop2 ← fGoop r
  let _ ← jj_consume_token r.tokens.stopKind
  let boost ← fBoost
  let t1 ← goopText r goop1
  let t2 ← goopText r goop2
  return boostQuery T (some (getRangeQuery T field t1 t2 r.inclusive)) boost

/-- The quoted texts of `fTerm`. -/
def fQuoted (field : QString) : Parser (Option Query) := do
  let term ← jj_consume_token .QUOTED
  let fuzzySlop ← optionalToken .FUZZY_SLOP
  let boost ← fBoost
  let s := match fuzzySlop with
    | some fuzzySlop => _ttoi (fuzzySlop.image.drop 1)
    | none => 0
  let tmp ← discardEscapeChar (term.image.dropLast.drop 1)
  return boostQuery T (getFieldQuery T field tmp s) boost

/-- The kinds of a single term. -/
def termKinds : List TokenKind := [.STAR, .TERM, .PREFIXTERM, .WILDTERM, .NUMBER]

def fTerm (field : QString) : Parser (Option Query) := do
  let kind ← jj_ntk
  if kind ∈ termKinds then
    let term ← jj_consume_token kind
    let (fuzzySlop, boost) ← fSuffix
    let q ← termQuery T field term fuzzySlop
    return boostQuery T q boost
  else if kind = .RANGEIN_START then fRange T rangeIn field
  else if kind = .RANGEEX_START then fRange T rangeEx field
  else if kind = .QUOTED then fQuoted T field
  else throw .ParseException

/-- The field that a clause begins with. -/
def fField : Parser (Option QString) := do
  if ← jj_2_1 then
    let kind ← jj_ntk
    if kind = .TERM then
      let fieldToken ← jj_consume_token .TERM
      let _ ← jj_consume_token .COLON
      let tmpField ← discardEscapeChar fieldToken.image
      return some tmpField
    else
      let _ ← jj_consume_token .STAR
      let _ ← jj_consume_token .COLON
      return some (qs "*")
  else return none

/-- `fClause`, over the `fQuery` that it calls for parentheses. -/
def fClause (fQuery : QString → Parser (Option Query)) (field : QString) : Parser (Option Query) := do
  let tmpField ← fField
  let kind ← jj_ntk
  if kind ∈ termKinds ++ [.QUOTED, .RANGEIN_START, .RANGEEX_START] then fTerm T (tmpField.getD field)
  else if kind = .LPAREN then
    let _ ← jj_consume_token .LPAREN
    let q ← fQuery (tmpField.getD field)
    let _ ← jj_consume_token .RPAREN
    let boost ← fBoost
    return boostQuery T q boost
  else throw .ParseException

/-- The kinds that go on with the loop of `fQuery`. -/
def clauseKinds : List TokenKind :=
  [.AND, .OR, .NOT, .PLUS, .MINUS, .LPAREN, .STAR, .QUOTED, .TERM, .PREFIXTERM, .WILDTERM, .RANGEIN_START,
    .RANGEEX_START, .NUMBER]

/-- The loop of `fQuery`, over at most `n` clauses. -/
def clausesLoop (fClause : Parser (Option Query)) : ℕ → List (Query × Occur) → Parser (List (Query × Occur))
  | 0, _ => throw .outOfFuel
  | n + 1, clauses => do
    if (← jj_ntk) ∈ clauseKinds then
      let conj ← Conjunction
      let mods ← Modifiers
      let q ← fClause
      clausesLoop fClause n (addClause clauses conj mods q)
    else return clauses

/-- `fQuery`, with parentheses at most `depth` deep and `n` clauses. -/
def fQuery (n : ℕ) : (depth : ℕ) → QString → Parser (Option Query)
  | 0, _ => throw .outOfFuel
  | depth + 1, field => do
    let mods ← Modifiers
    let q ← fClause T (fQuery n depth) field
    let firstQuery := if mods = .MOD_NONE then q else none
    let clauses ← clausesLoop (fClause T (fQuery n depth) field) n (addClause [] .CONJ_NONE mods q)
    if clauses.length = 1 ∧ firstQuery.isSome then return firstQuery
    else getBooleanQuery clauses

def TopLevelQuery (n : ℕ) (field : QString) : Parser (Option Query) := do
  let q ← fQuery T n n field
  let _ ← jj_consume_token ._EOF
  return q

end QueryParser

/-- The number of tokens up to the end. -/
def TokenStream.length : TokenStream → ℕ
  | eof => 0
  | lexicalError => 0
  | next _ rest => rest.length + 1

namespace QueryParser

/-- `parse` below its `catch`; there is fuel for every token. -/
def parseTokens (T : ParserTables) (field : QString) (ts : TokenStream) : Except ParseError (Option Query) :=
  (TopLevelQuery T (ts.length + 1) field).run' ts

/-- `QueryParser::parse`. Of its messages the text that is rejected and what the parser has
expected are left out. -/
def parse (T : ParserTables) (query field : QString) : Except Failure Query :=
  match parseTokens T field (QueryParserTokenManager.tokens T.overread query) with
  | .ok res => .ok (res.getD (.BooleanQuery []))
  | .error (.IllegalArgument what) => .error (.CLuceneError what)
  | .error _ => .error (.CLuceneError "Cannot parse")

end QueryParser

/-- The value of decimal digits, with a point among them. -/
def decimal (s : QString) : ℚ :=
  let fraction := (s.dropWhile QueryParserTokenManager.isDigit).drop 1
  QueryParser._ttoi s + QueryParser._ttoi fraction / 10 ^ (fraction.takeWhile QueryParserTokenManager.isDigit).length

/-- The next number with `bits` significant bits, the even one of two, for a number that is not
negative; there are no least and no greatest exponents. -/
def nearest (bits : ℕ) (x : ℚ) : ℚ :=
  if x = 0 then 0
  else
    let unit : ℚ := 2 ^ (Int.log 2 x + 1 - bits)
    let n := ⌊x / unit⌋
    let rest := x / unit - n
    (if rest < 1 / 2 ∨ rest = 1 / 2 ∧ n % 2 = 0 then n else n + 1) * unit

/-- The tables for ASCII, with the formats of IEEE 754. -/
def asciiTables : ParserTables where
  isLetterOrNumber := isLatin1LetterOrNumber
  isLetterOrNumber_latin1 _ _ := rfl
  cl_tcasefold c := if 0x41 ≤ c ∧ c ≤ 0x5a then c + 0x20 else c
  _tcslwr s := s.map QChar.asciiLower
  _tcstod s := nearest 53 (decimal s)
  float_t := nearest 24
  overread _ _ := .eof

end QDesktopSearch
