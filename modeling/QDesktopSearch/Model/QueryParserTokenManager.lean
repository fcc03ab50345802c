import QDesktopSearch.Lib.Munch
import QDesktopSearch.Model.FastCharStream

/-!
# `QueryParserTokenManager`

The tokens of a query text. Each lexical state has an automaton; a token is the longest text that
it matches, of the lowest kind. States of the automata that no state adds are left out, and so
are the positions of the tokens. A `TCHAR` has 16 bits.
-/

namespace QDesktopSearch

/-- `QueryParserConstants::Types`, in the order of their numbers, with the skipped blanks (6). -/
inductive TokenKind where
  | _EOF
  | whitespace
  | AND
  | OR
  | NOT
  | PLUS
  | MINUS
  | LPAREN
  | RPAREN
  | COLON
  | STAR
  | CARAT
  | QUOTED
  | TERM
  | FUZZY_SLOP
  | PREFIXTERM
  | WILDTERM
  | RANGEIN_START
  | RANGEEX_START
  | NUMBER
  | RANGEIN_TO
  | RANGEIN_END
  | RANGEIN_QUOTED
  | RANGEIN_GOOP
  | RANGEEX_TO
  | RANGEEX_END
  | RANGEEX_QUOTED
  | RANGEEX_GOOP
  deriving DecidableEq

instance : LinearOrder TokenKind := LinearOrder.lift' TokenKind.ctorIdx fun a b h => by
  cases a <;> cases b <;> first | rfl | cases h

/-- `QueryParserConstants::LexStates`. -/
inductive LexState where
  | Boost
  | RangeEx
  | RangeIn
  | DEFAULT
  deriving DecidableEq

namespace QueryParserTokenManager

/-! ## Characters -/

/-- A character of ASCII. -/
def chr (c : Char) : QChar := QChar.ofChar c

def jjbitVec2 : List ℕ := [0x0, 0x0, 0xffffffffffffffff, 0xffffffffffffffff]

def jjbitVec0 : List ℕ := [0xfffffffffffffffe, 0xffffffffffffffff, 0xffffffffffffffff, 0xffffffffffffffff]

/-- `jjCanMove_0`. -/
def jjCanMove_0 (curChar : QChar) : Bool :=
  let hiByte := curChar.toNat / 256
  if hiByte = 0 then (jjbitVec2.getD (curChar.toNat % 256 / 64) 0).testBit (curChar.toNat % 64)
  else (jjbitVec0.getD (hiByte / 64) 0).testBit (hiByte % 64)

/-- A class of characters: the bits for those below 64 and below 128. -/
def inClass (l l' : ℕ) (curChar : QChar) : Bool :=
  if curChar.toNat < 64 then l.testBit curChar.toNat
  else if curChar.toNat < 128 then l'.testBit (curChar.toNat - 64)
  else jjCanMove_0 curChar

def isTermStart : QChar → Bool := inClass 0x7bffd0f8ffffd9ff 0x97ffffff87ffffff
def isTermChar : QChar → Bool := inClass 0x7bfff8f8ffffd9ff 0x97ffffff87ffffff
def isWildStart : QChar → Bool := inClass 0xfbffd4f8ffffd9ff 0x97ffffff87ffffff
def isWildChar : QChar → Bool := inClass 0xfbfffcf8ffffd9ff 0x97ffffff87ffffff

/-- Any character, as far as the automata read it. -/
def isAny (curChar : QChar) : Bool := curChar.toNat < 128 || jjCanMove_0 curChar

def isUnquoted (curChar : QChar) : Bool := curChar ≠ chr '"' && isAny curChar

def isDigit (curChar : QChar) : Bool := chr '0' ≤ curChar && curChar ≤ chr '9'

/-- Tabulator, line feed, carriage return and blank. -/
def isWhitespace (curChar : QChar) : Bool := [9, 10, 13, 32].contains curChar

/-! ## The automata -/

/-- A kind and states, where the condition holds. -/
def on (b : Bool) (kind : WithTop TokenKind) (states : Finset ℕ) : WithTop TokenKind × Finset ℕ :=
  if b then (kind, states) else (⊤, ∅)

/-- Both, with the lower kind. -/
def both (x y : WithTop TokenKind × Finset ℕ) : WithTop TokenKind × Finset ℕ := (min x.1 y.1, x.2 ∪ y.2)

/-- What a state of `jjMoveNfa_3` does on a character. -/
def move_3 (state : ℕ) (curChar : QChar) : WithTop TokenKind × Finset ℕ :=
  match state with
  | 0 =>
    List.foldr both (⊤, ∅)
      [on (isWildStart curChar) TokenKind.WILDTERM {25, 26},
       on (isTermStart curChar) TokenKind.TERM {29, 32, 23, 33, 30},
       on (isWhitespace curChar) TokenKind.whitespace ∅,
       on (curChar = chr '"') ⊤ {15, 17, 18},
       on (curChar = chr '!') TokenKind.NOT ∅,
       on (curChar = chr '\\') ⊤ {31, 34, 27},
       on (curChar = chr '~') TokenKind.FUZZY_SLOP {20},
       on (curChar = chr '&') ⊤ {4},
       on (curChar = chr 'N') ⊤ {11},
       on (curChar = chr '|') ⊤ {8},
       on (curChar = chr 'O') ⊤ {6},
       on (curChar = chr 'A') ⊤ {2}]
  | 36 => both (on (isWildChar curChar) TokenKind.WILDTERM {25, 26}) (on (curChar = chr '\\') ⊤ {27})
  -- the words
  | 1 => on (curChar = chr 'D') TokenKind.AND ∅
  | 2 => on (curChar = chr 'N') ⊤ {1}
  | 4 => on (curChar = chr '&') TokenKind.AND ∅
  | 6 => on (curChar = chr 'R') TokenKind.OR ∅
  | 8 => on (curChar = chr '|') TokenKind.OR ∅
  | 10 => on (curChar = chr 'T') TokenKind.NOT ∅
  | 11 => on (curChar = chr 'O') ⊤ {10}
  -- a quoted text
  | 15 => on (isUnquoted curChar) ⊤ {15, 17, 18}
  | 16 => on (curChar = chr '"') ⊤ {15, 17, 18}
  | 17 => on (curChar = chr '\\') ⊤ {16}
  | 18 => on (curChar = chr '"') TokenKind.QUOTED ∅
  -- a slop
  | 20 => on (isDigit curChar) TokenKind.FUZZY_SLOP {20, 21}
  | 21 => on (curChar = chr '.') ⊤ {22}
  | 22 => on (isDigit curChar) TokenKind.FUZZY_SLOP {22}
  -- a term with wildcards
  | 25 => on (isWildChar curChar) TokenKind.WILDTERM {25, 26}
  | 26 => on (curChar = chr '\\') ⊤ {27}
  | 27 => on (isAny curChar) TokenKind.WILDTERM {25, 26}
  -- a term
  | 29 => on (isTermChar curChar) TokenKind.TERM {29, 30}
  | 30 => on (curChar = chr '\\') ⊤ {31}
  | 31 => on (isAny curChar) TokenKind.TERM {29, 30}
  -- a prefix
  | 23 => on (curChar = chr '*') TokenKind.PREFIXTERM ∅
  | 32 => on (isTermChar curChar) ⊤ {32, 23, 33}
  | 33 => on (curChar = chr '\\') ⊤ {34}
  | 34 => on (isAny curChar) ⊤ {32, 23, 33}
  | _ => (⊤, ∅)

def jjMoveNfa_3 : Automaton ℕ QChar TokenKind := ⟨fun s c => (move_3 s c).1, fun s c => (move_3 s c).2⟩

/-- `jjMoveStringLiteralDfa0_3`; the kind and the length of the token. -/
def jjMoveStringLiteralDfa0_3 : QString → Option (TokenKind × ℕ)
  | [] => none
  | curChar :: input =>
    if curChar = chr '(' then some (.LPAREN, 1)
    else if curChar = chr ')' then some (.RPAREN, 1)
    else if curChar = chr '*' then jjMoveNfa_3.munch {36} input 1 (some (.STAR, 1))
    else if curChar = chr '+' then some (.PLUS, 1)
    else if curChar = chr '-' then some (.MINUS, 1)
    else if curChar = chr ':' then some (.COLON, 1)
    else if curChar = chr '[' then some (.RANGEIN_START, 1)
    else if curChar = chr '^' then some (.CARAT, 1)
    else if curChar = chr '{' then some (.RANGEEX_START, 1)
    else jjMoveNfa_3.munch {0} (curChar :: input) 0 none

/-- What a state of `jjMoveNfa_1` and of `jjMoveNfa_2` does on a character; they differ in the
character that ends the range, and in their kinds. -/
def moveRange (isGoop : QChar → Bool) (quoted goop : TokenKind) (state : ℕ) (curChar : QChar) :
    WithTop TokenKind × Finset ℕ :=
  match state with
  | 0 =>
    List.foldr both (⊤, ∅)
      [on (isGoop curChar) goop {6}, on (isWhitespace curChar) TokenKind.whitespace ∅,
       on (curChar = chr '"') ⊤ {2, 4}]
  | 2 => on (isUnquoted curChar) ⊤ {2, 4, 5}
  | 3 => on (curChar = chr '"') ⊤ {2, 4, 5}
  | 4 => on (curChar = chr '\\') ⊤ {3}
  | 5 => on (curChar = chr '"') quoted ∅
  | 6 => on (isGoop curChar) goop {6}
  | _ => (⊤, ∅)

/-- The tokens of a range, of the two kinds. -/
structure RangeTokens where
  isGoop : QChar → Bool
  stop : QChar
  TO : TokenKind
  stopKind : TokenKind
  quoted : TokenKind
  goop : TokenKind

def rangeEx : RangeTokens :=
  ⟨inClass 0xfffffffeffffffff 0xdfffffffffffffff, chr '}', .RANGEEX_TO, .RANGEEX_END, .RANGEEX_QUOTED, .RANGEEX_GOOP⟩

def rangeIn : RangeTokens :=
  ⟨inClass 0xfffffffeffffffff 0xffffffffdfffffff, chr ']', .RANGEIN_TO, .RANGEIN_END, .RANGEIN_QUOTED, .RANGEIN_GOOP⟩

/-- `jjMoveNfa_1` and `jjMoveNfa_2`. -/
def jjMoveNfa (r : RangeTokens) : Automaton ℕ QChar TokenKind :=
  ⟨fun s c => (moveRange r.isGoop r.quoted r.goop s c).1, fun s c => (moveRange r.isGoop r.quoted r.goop s c).2⟩

/-- `jjMoveStringLiteralDfa0_1` and `jjMoveStringLiteralDfa0_2`. -/
def jjMoveStringLiteralDfa0 (r : RangeTokens) : QString → Option (TokenKind × ℕ)
  | [] => none
  | curChar :: input =>
    if curChar = chr 'T' then
      match input with
      | [] => some (r.goop, 1)
      | curChar :: input =>
        if curChar = chr 'O' then (jjMoveNfa r).munch {6} input 2 (some (r.TO, 2))
        else (jjMoveNfa r).munch {6} (curChar :: input) 1 (some (r.goop, 1))
    else if curChar = r.stop then some (r.stopKind, 1)
    else (jjMoveNfa r).munch {0} (curChar :: input) 0 none

/-- What a state of `jjMoveNfa_0` does on a character. -/
def move_0 (state : ℕ) (curChar : QChar) : WithTop TokenKind × Finset ℕ :=
  match state with
  | 0 => on (isDigit curChar) TokenKind.NUMBER {0, 1}
  | 1 => on (curChar = chr '.') ⊤ {2}
  | 2 => on (isDigit curChar) TokenKind.NUMBER {2}
  | _ => (⊤, ∅)

def jjMoveNfa_0 : Automaton ℕ QChar TokenKind := ⟨fun s c => (move_0 s c).1, fun s c => (move_0 s c).2⟩

/-- `jjMoveStringLiteralDfa0_0`. -/
def jjMoveStringLiteralDfa0_0 (input : QString) : Option (TokenKind × ℕ) := jjMoveNfa_0.munch {0} input 0 none

/-! ## Tokens -/

/-- What the text begins with in a lexical state, and its length. -/
def jjMove : LexState → QString → Option (TokenKind × ℕ)
  | .Boost => jjMoveStringLiteralDfa0_0
  | .RangeEx => jjMoveStringLiteralDfa0 rangeEx
  | .RangeIn => jjMoveStringLiteralDfa0 rangeIn
  | .DEFAULT => jjMoveStringLiteralDfa0_3

/-- How many characters `jjMoveStringLiteralDfa0_3` asks for, with the first. -/
def jjAsks_3 : QString → ℕ
  | [] => 1
  | curChar :: input =>
    if [chr '(', chr ')', chr '+', chr '-', chr ':', chr '[', chr '^', chr '\x7b'].contains curChar then 1
    else if curChar = chr '*' then jjMoveNfa_3.asks {36} input + 1
    else jjMoveNfa_3.asks {0} (curChar :: input)

/-- How many `jjMoveStringLiteralDfa0_1` and `jjMoveStringLiteralDfa0_2` ask for. -/
def jjAsksRange (r : RangeTokens) : QString → ℕ
  | [] => 1
  | curChar :: input =>
    if curChar = chr 'T' then
      match input with
      | [] => 2
      | curChar :: input =>
        if curChar = chr 'O' then (jjMoveNfa r).asks {6} input + 2
        else (jjMoveNfa r).asks {6} (curChar :: input) + 1
    else if curChar = r.stop then 1
    else (jjMoveNfa r).asks {0} (curChar :: input)

/-- How many characters are asked for to find what the text begins with. -/
def jjAsks : LexState → QString → ℕ
  | .Boost => jjMoveNfa_0.asks {0}
  | .RangeEx => jjAsksRange rangeEx
  | .RangeIn => jjAsksRange rangeIn
  | .DEFAULT => jjAsks_3

/-- `jjnewLexState`. -/
def jjnewLexState (curLexState : LexState) : TokenKind → LexState
  | .CARAT => .Boost
  | .RANGEIN_START => .RangeIn
  | .RANGEEX_START => .RangeEx
  | .NUMBER => .DEFAULT
  | .RANGEIN_END => .DEFAULT
  | .RANGEEX_END => .DEFAULT
  | _ => curLexState

end QueryParserTokenManager

/-- `QueryToken`. -/
structure QueryToken where
  kind : TokenKind
  image : QString
  deriving DecidableEq

/-- What `getNextToken` gives, one call after the other, up to the end or an error. -/
inductive TokenStream where
  | eof
  | lexicalError
  | next (token : QueryToken) (rest : TokenStream)
  deriving DecidableEq

namespace QueryParserTokenManager

/-- A `TCHAR*` ends at the first NUL. -/
def cString (s : QString) : QString := s.takeWhile (· ≠ 0)

/-- `jjFillToken`; of `jjstrLiteralImages` the parser reads only that of a star. -/
def jjFillToken (input_stream : FastCharStream) (jjmatchedKind : TokenKind) : QueryToken :=
  ⟨jjmatchedKind, if jjmatchedKind = .STAR then [chr '*'] else input_stream.GetImage⟩

/-- `getNextToken`, one call after the other, for less than `n` characters; `overread` are the tokens
from where a character is read that is not in the buffer. -/
def getTokens (overread : LexState → FastCharStream → TokenStream) : ℕ → LexState → FastCharStream → TokenStream
  | 0, _, _ => .eof
  | n + 1, curLexState, input_stream =>
    let input_stream := input_stream.beginToken
    let input := input_stream.ahead (n + 1)
    let asked := jjAsks curLexState input
    match input_stream.after asked with
    | none => overread curLexState input_stream
    | some input_stream =>
      if input = [] then .eof
      else
        match jjMove curLexState input with
        | none => .lexicalError
        | some (kind, length) =>
          let input_stream := input_stream.backup (min asked input.length - length)
          let rest := getTokens overread n (jjnewLexState curLexState kind) input_stream
          if kind = .whitespace then rest else .next (jjFillToken input_stream kind) rest

/-- The tokens of a text. -/
def tokens (overread : LexState → FastCharStream → TokenStream) (query : QString) : TokenStream :=
  let query := cString query
  getTokens overread (query.length + 1) .DEFAULT (.new query)

end QueryParserTokenManager

end QDesktopSearch
