import Mathlib.Data.List.DropRight
import Mathlib.Tactic.Common

/-!
# Strings and paths

A `QString` is a sequence of 16-bit code units. `Qt` collects what depends on Qt's tables
and on the platform: lower-casing beyond ASCII and `QDir::separator`. The functions of
`util/str.cpp` follow.
-/

namespace QDesktopSearch

/-- A UTF-16 code unit. -/
abbrev QChar := UInt16

abbrev QString := List QChar

/-- `QMap` with `QString` keys: iteration is in ascending key order. -/
abbrev QMap (V : Type) := Std.ExtTreeMap QString V compare

/-- `QChar::fromLatin1`, for literals. -/
def QChar.ofChar (c : Char) : QChar := UInt16.ofNat c.toNat

/-- A string literal. -/
def qs (s : String) : QString := s.toList.map QChar.ofChar

/-- `QString::number` for a natural number. -/
def number (n : ℕ) : QString := (Nat.toDigits 10 n).map QChar.ofChar

/-- Lower case of an ASCII code unit. -/
def QChar.asciiLower (c : QChar) : QChar := if 65 ≤ c ∧ c ≤ 90 then c + 32 else c

/-- Qt's tables and the platform. -/
structure Qt where
  toLower : QString → QString
  toLower_ascii : ∀ s : QString, (∀ c ∈ s, c < 128) → toLower s = s.map QChar.asciiLower
  /-- `QDir::separator()`. -/
  separator : QChar
  separator_eq : separator = QChar.ofChar '/' ∨ separator = QChar.ofChar '\\'

/-- Qt on Unix, where only ASCII letters have a case. -/
def sampleQt : Qt where
  toLower s := s.map QChar.asciiLower
  toLower_ascii _ _ := rfl
  separator := QChar.ofChar '/'
  separator_eq := Or.inl rfl

/-- `QChar::isSpace`. -/
def QChar.isSpace (c : QChar) : Bool :=
  c == 0x20 || (0x09 ≤ c && c ≤ 0x0d) || c == 0x85 || c == 0xa0 || c == 0x1680 ||
    (0x2000 ≤ c && c ≤ 0x200a) || c == 0x2028 || c == 0x2029 || c == 0x202f || c == 0x205f || c == 0x3000

/-- `QString::trimmed`. -/
def trimmed (s : QString) : QString := (s.dropWhile QChar.isSpace).rdropWhile QChar.isSpace

/-- `QString::replace(QChar, QChar)`. -/
def replaceChar (before after : QChar) (s : QString) : QString :=
  s.map fun c => if c = before then after else c

/-- `QString::replace(QString, QString)`, past the first `skip` code units: occurrences
are replaced from left to right. -/
def replaceFrom (before after : QString) : ℕ → QString → QString
  | _, [] => []
  | k + 1, _ :: s => replaceFrom before after k s
  | 0, c :: s =>
    if before.isPrefixOf (c :: s) then after ++ replaceFrom before after (before.length - 1) s
    else c :: replaceFrom before after 0 s

def replaceAll (before after s : QString) : QString := replaceFrom before after 0 s

/-- `QString::indexOf`; nothing where the source has -1. -/
def indexOf (sub : QString) : QString → Option ℕ
  | [] => if sub = [] then some 0 else none
  | c :: s => if sub.isPrefixOf (c :: s) then some 0 else (indexOf sub s).map (· + 1)

/-- `QString::split(sep, SkipEmptyParts)`. -/
def splitSkipEmpty (sep : QChar) (s : QString) : List QString := (s.splitOn sep).filter (· ≠ [])

/-! ## `util/str.cpp` -/

variable (Q : Qt)

/-- `str::normalizePath`. -/
def normalizePath (sPath : QString) (bLowerCase : Bool) : QString :=
  let sPath := trimmed (replaceChar (QChar.ofChar '\\') (QChar.ofChar '/') sPath)
  let sPath := if bLowerCase then Q.toLower sPath else sPath
  -- `while(sPath.endsWith('/'))`
  sPath.rdropWhile (· == QChar.ofChar '/')

/-- `str::isempty`. -/
def isempty (s : QString) (bTrim : Bool) : Bool :=
  if s = [] then true else if !bTrim then false else trimmed s = []

/-- `str::makeAbsFN`. -/
def makeAbsFN (sBase sAppend : QString) : QString :=
  let sep := if (qs "http:").isPrefixOf sBase || (qs "https:").isPrefixOf sBase || (qs "ftp:").isPrefixOf sBase
    then QChar.ofChar '/' else Q.separator
  let norm := fun s => replaceChar (QChar.ofChar '/') sep (trimmed (replaceChar (QChar.ofChar '\\') sep s))
  let sBase := norm sBase
  let sAppend := norm sAppend
  if sAppend = [] then sBase
  else if sBase = [] then sAppend
  else if sAppend.length > 1 &&
      (sAppend[1]? == some (QChar.ofChar ':') || [Q.separator, Q.separator].isPrefixOf sAppend) then sAppend
  else
    let bBase := sBase.getLast? == some sep
    let bAppd := sAppend.head? == some sep
    if bBase && bAppd then sBase.dropLast ++ sAppend
    else if bBase || bAppd then sBase ++ sAppend
    else sBase ++ [sep] ++ sAppend

end QDesktopSearch
