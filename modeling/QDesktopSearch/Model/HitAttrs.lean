import QDesktopSearch.Model.Document

/-!
# The attributes of a hit

`GetHitAttrs` turns the stored fields of a hit into texts to be shown. `Locale` is how Qt
writes a point in time and a floating-point number.
-/

namespace QDesktopSearch

structure Locale where
  /-- `QDateTime::fromTime_t(t).toString("yyyy; MMMM; dd - hh:mm:ss.zzz")`. -/
  dateString : UInt32 → QString
  /-- `%1` in `arg(newSize, 0, 'f', 1)`, where `newSize` is a size divided by a unit. -/
  argSize : ℤ → ℕ → QString
  tr : QString → QString

/-- `QString::number` for a signed number. -/
def numberInt (i : ℤ) : QString := if i < 0 then qs "-" ++ number i.natAbs else number i.natAbs

/-- The value of a sequence of digits. -/
def digitsValue (s : QString) : ℕ := s.foldl (fun v c => 10 * v + (c.toNat - 48)) 0

/-- A sign may stand before the digits. -/
def splitSign : QString → Bool × QString
  | [] => (false, [])
  | c :: s => if c = QChar.ofChar '-' then (true, s) else if c = QChar.ofChar '+' then (false, s) else (false, c :: s)

/-- `QString::toInt`: 0 where the text is no number, or none that a signed 32-bit integer holds. -/
def toInt (s : QString) : ℤ :=
  let (bNegative, digits) := splitSign (trimmed s)
  if digits.isEmpty || digits.any (fun c => c < 48 || 57 < c) then 0
  else
    let i : ℤ := if bNegative then -digitsValue digits else digitsValue digits
    if -2147483648 ≤ i ∧ i ≤ 2147483647 then i else 0

variable (L : Locale)

/-- `f::fileSizeAsString`. -/
def fileSizeAsString (size : ℤ) : QString :=
  let (newSize, unit) :=
    if size < 1024 then (L.argSize size 1, L.tr (qs "bytes"))
    else if size < 1024 * 1024 then (L.argSize size 1024, L.tr (qs "kB"))
    else if size < 1024 * 1024 * 1024 then (L.argSize size (1024 * 1024), L.tr (qs "MB"))
    else (L.argSize size (1024 * 1024 * 1024), L.tr (qs "GB"))
  newSize ++ qs " " ++ unit

/-- The text for a size. -/
def sizeText (iSize : ℤ) : QString := fileSizeAsString L iSize ++ qs " (" ++ numberInt iSize ++ qs " bytes)"

/-- The text that is shown for one field, in the loop of `GetHitAttrs`. -/
def fieldText (field : Field) : QString :=
  let sFieldValue := replaceChar (QChar.ofChar '\n') (QChar.ofChar ' ') field.value
  let sFieldValue := replaceChar (QChar.ofChar '\t') (QChar.ofChar ' ') sFieldValue
  let sFieldValue := replaceAll (qs "  ") (qs " ") sFieldValue
  if field.name = qs "lastmodified" then
    let iDate := toInt sFieldValue
    -- `fromTime_t` takes a `uint`
    L.dateString (UInt32.ofInt iDate)
  else if field.name = qs "size" then sizeText L (toInt sFieldValue)
  else sFieldValue

/-- One field; several of one name are joined. -/
def addAttr (mAttrs : QMap QString) (field : Field) : QMap QString :=
  match mAttrs[field.name]? with
  | some sAttr => mAttrs.insert field.name (sAttr ++ qs ", " ++ fieldText L field)
  | none => mAttrs.insert field.name (fieldText L field)

/-- `searcher::GetHitAttrs`. -/
def GetHitAttrs (m_hits : List Document) (iHitNr : ℕ) : QMap QString :=
  match m_hits[iHitNr]? with
  | none => ∅
  | some d => d.foldl (addAttr L) ∅

end QDesktopSearch
