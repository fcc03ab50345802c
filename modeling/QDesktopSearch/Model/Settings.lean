import QDesktopSearch.Lib.Separated
import QDesktopSearch.Model.Indexer

/-!
# `cfg` and the settings page

`DIRS2INDEX` is kept as one string, with `|` between the directories; reading it replaces
the placeholders that occur in it. `QSettings` gives back what was put in.
-/

namespace QDesktopSearch

variable (Q : Qt)

/-- What the placeholders stand for. -/
structure Places where
  sMYFILES : QString
  sTEMP : QString
  sCURRENTDIR : QString
  sPERSONAL_APPDATA : QString
  sCOMMON_APPDATA : QString
  organizationName : QString
  applicationName : QString

namespace Places

variable (D : Places)

/-- The directory of the program below one of its data directories. -/
def app (sAPPDATA : QString) : QString :=
  sAPPDATA ++ [Q.separator] ++ D.organizationName ++ [Q.separator] ++ D.applicationName

/-- The placeholders and their values, in the order in which they are replaced. -/
def placeHolders : List (QString × QString) :=
  [(qs "%MYFILES%", D.sMYFILES), (qs "%TEMP%", D.sTEMP), (qs "%TMP%", D.sTEMP), (qs "%CURRENTDIR%", D.sCURRENTDIR),
    (qs "%APPDATA%", D.sPERSONAL_APPDATA), (qs "%PERSONAL_APPDATA%", D.sPERSONAL_APPDATA),
    (qs "%COMMON_APPDATA%", D.sCOMMON_APPDATA), (qs "%APP_PERSONAL_APPDATA%", D.app Q D.sPERSONAL_APPDATA),
    (qs "%APP_COMMON_APPDATA%", D.app Q D.sCOMMON_APPDATA)]

/-- `cfg::replacePlaceHolders`. -/
def replacePlaceHolders (s : QString) : QString :=
  if !s.contains (QChar.ofChar '%') then s
  else (D.placeHolders Q).foldl (fun s r => replaceAll r.1 r.2 s) s

end Places

/-- `QStringList::join('|')`. -/
def joinDirs (sl : List QString) : QString := Separated.join (QChar.ofChar '|') sl

/-- The settings page, with the stored `DIRS2INDEX` and the indexer. -/
structure Settings where
  stored : QString
  indexer : Indexer

namespace Settings

variable (D : Places)

/-- `cfg::getValue(DIRS2INDEX)`. -/
def getValue (x : Settings) : QString := D.replacePlaceHolders Q x.stored

/-- `cfg::setValue(DIRS2INDEX, ..)`. -/
def setValue (x : Settings) (sCfgEntryValue : QString) : Settings := { x with stored := sCfgEntryValue }

/-- The entries, as every function of the page reads them. -/
def dirs2Index (x : Settings) : List QString := splitSkipEmpty (QChar.ofChar '|') (x.getValue Q D)

/-- `on_toolButtonAdd_clicked`, with a directory selected in the dialog. -/
def on_toolButtonAdd_clicked (exists_ : QString → Bool) (x : Settings) (selectedFile : QString) : Settings :=
  let sDir2Index := normalizePath Q selectedFile false
  let sl := x.dirs2Index Q D
  if sl.contains sDir2Index then x
  else
    let sl := sl ++ [sDir2Index]
    let x := x.setValue (joinDirs sl)
    { x with indexer := x.indexer.add Q exists_ sDir2Index }

/-- `on_toolButtonDel_clicked`, with the selected rows; nothing where a row is not there or
`removeIndex` meets a null or dangling pointer. -/
def on_toolButtonDel_clicked (x : Settings) (sels : List ℕ) : Option Settings :=
  match sels with
  | [i2remove] => do
    let sl := x.dirs2Index Q D
    let s2remove ← sl[i2remove]?
    let sl := sl.eraseIdx i2remove
    let x := x.setValue (joinDirs sl)
    let (indexer, _) ← x.indexer.removeIndex Q s2remove
    return { x with indexer := indexer }
  | _ => some x

/-- When the program starts, `indexer::init` adds what is stored. -/
def start (exists_ : QString → Bool) (stored : QString) : Settings :=
  let x : Settings := ⟨stored, Indexer.new⟩
  { x with indexer := x.indexer.init Q exists_ (x.getValue Q D) }

inductive Event where
  | add (selectedFile : QString)
  | del (sels : List ℕ)

/-- The clicks on the page; which directories exist stays as it is. -/
def step (exists_ : QString → Bool) (x : Settings) : Event → Option (Settings × Unit)
  | .add selectedFile => some (x.on_toolButtonAdd_clicked Q D exists_ selectedFile, ())
  | .del sels => (x.on_toolButtonDel_clicked Q D sels).map fun x => (x, ())

end Settings

end QDesktopSearch
