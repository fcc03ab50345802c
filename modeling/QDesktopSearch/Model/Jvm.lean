import QDesktopSearch.Model.Document

/-!
# Strings from Java

`jvm::js2qs` asks JNI for the bytes of a Java string, which are in modified UTF-8, and gives them
to the constructor of `QString`, which reads them as UTF-8. The two differ in U+0000, which
modified UTF-8 writes in two bytes, and in what lies beyond the basic plane, which it writes as two
surrogates of three bytes each.
-/

namespace QDesktopSearch

/-- A Java string: its UTF-16 code units. -/
abbrev JString := List QChar

/-- Modified UTF-8, for one code unit. -/
def modifiedUtf8 (c : QChar) : List UInt8 :=
  let n := c.toNat
  if 0 < n ∧ n < 0x80 then [.ofNat n]
  else if n < 0x800 then [.ofNat (0xC0 + n / 64), .ofNat (0x80 + n % 64)]
  else [.ofNat (0xE0 + n / 4096), .ofNat (0x80 + n / 64 % 64), .ofNat (0x80 + n % 64)]

/-- `JNIEnv::GetStringUTFChars`; none of the bytes is 0. -/
def GetStringUTFChars (js : JString) : List UInt8 := js.flatMap modifiedUtf8

/-- `QChar::ReplacementCharacter`. -/
def QChar.replacement : QChar := 0xFFFD

/-- `QChar::isSurrogate`. -/
def QChar.isSurrogate (c : ℕ) : Bool := 0xD800 ≤ c && c < 0xE000

/-- A UTF-8 sequence of `n` more bytes after its first one, which begins the character with `uc`. -/
def utf8Sequence (n min uc : ℕ) (src : List UInt8) : Option (ℕ × ℕ) :=
  let tail := src.take n
  let uc := tail.foldl (fun uc b => uc * 64 + b.toNat % 64) uc
  if tail.length = n ∧ (tail.all fun b => 0x80 ≤ b.toNat && b.toNat < 0xC0) ∧ min ≤ uc ∧ uc ≤ 0x10FFFF ∧
      !QChar.isSurrogate uc then
    some (uc, n)
  else none

/-- The character that begins with a byte, and how many more bytes it takes; nothing at an error. -/
def fromUtf8Char (b : UInt8) (src : List UInt8) : Option (ℕ × ℕ) :=
  let b := b.toNat
  if b < 0x80 then some (b, 0)
  -- a byte that continues a sequence, or begins one that is longer than it has to be
  else if b ≤ 0xC1 then none
  else if b < 0xE0 then utf8Sequence 1 0x80 (b % 32) src
  else if b < 0xF0 then utf8Sequence 2 0x800 (b % 16) src
  else if b < 0xF5 then utf8Sequence 3 0x10000 (b % 8) src
  else none

/-- A code point in UTF-16. -/
def utf16 (uc : ℕ) : QString :=
  if uc < 0x10000 then [.ofNat uc]
  else [.ofNat (0xD800 + (uc - 0x10000) / 1024), .ofNat (0xDC00 + (uc - 0x10000) % 1024)]

/-- The loop of `QString::fromUtf8`, past the first `skip` bytes; an error takes one byte. -/
def fromUtf8Loop : ℕ → List UInt8 → QString
  | _, [] => []
  | k + 1, _ :: src => fromUtf8Loop k src
  | 0, b :: src =>
    match fromUtf8Char b src with
    | some (uc, n) => utf16 uc ++ fromUtf8Loop n src
    | none => QChar.replacement :: fromUtf8Loop 0 src

/-- `QString::fromUtf8`, which skips a byte order mark. -/
def fromUtf8 (chars : List UInt8) : QString :=
  fromUtf8Loop (if [0xEF, 0xBB, 0xBF].isPrefixOf chars then 3 else 0) chars

/-- `jvm::js2qs`. -/
def js2qs (js : JString) : QString := fromUtf8 (GetStringUTFChars js)

/-- What Tika returns for a file, in Java: the text of the body, and `names` with their `getValues`. -/
structure JavaResult where
  text : JString
  names : List (JString × List JString)

/-- What arrives of it: each string goes through `js2qs`. -/
def JavaResult.arrived (r : JavaResult) : TikaResult :=
  ⟨js2qs r.text, r.names.map fun n => (js2qs n.1, n.2.map js2qs)⟩

/-- A disk, with what Tika returns for its files. -/
def FileSystem.ofJava (stat : QString → Option QFileInfo) (parse : QString → Option JavaResult) : FileSystem :=
  ⟨stat, fun path => (parse path).map JavaResult.arrived⟩

end QDesktopSearch
