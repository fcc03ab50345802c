import QDesktopSearch.Model.Index
import QDesktopSearch.Model.Text

/-!
# Documents, files and metadata

A CLucene document is a list of stored fields. A field is indexed either untokenized,
under its value as one term, or through the analyzer. `FileSystem` is what the program
sees of the disk at one moment: what `QFileInfo` reports and what Tika extracts.
-/

namespace QDesktopSearch

def FIELDNAME_FULLTEXT : QString := qs "text"
def FIELDNAME_FILENAME : QString := qs "filename"
def FIELDNAME_ABSPATHNAME : QString := qs "pathname"
def ID_FN : QString := qs "id_fn"
def ID_FNANDDATE : QString := qs "id_fnanddate"

structure Term where
  field : QString
  text : QString
  deriving DecidableEq

/-- A stored and indexed field. -/
structure Field where
  name : QString
  value : QString
  /-- `INDEX_TOKENIZED`, else `INDEX_UNTOKENIZED`. -/
  tokenized : Bool
  deriving DecidableEq

abbrev Document := List Field

namespace Document

/-- `Document::get`: the value of the first field of that name. -/
def get (d : Document) (name : QString) : Option QString :=
  (d.find? fun f => f.name == name).map (·.value)

/-- The fields that a `MapFieldSelector` over `names` loads. -/
def load (d : Document) (names : List QString) : Document := d.filter fun f => names.contains f.name

/-- The document is indexed under the term; `tokens` is the analyzer. -/
def hasTerm (tokens : QString → List QString) (t : Term) (d : Document) : Bool :=
  d.any fun f => f.name == t.field && (if f.tokenized then tokens f.value else [f.value]).contains t.text

end Document

/-! ## Files -/

/-- Milliseconds since the epoch. -/
abbrev QDateTime := ℤ

/-- `QDateTime::toTime_t`: whole seconds, and 2³²-1 outside its range. -/
def QDateTime.toTime_t (t : QDateTime) : UInt32 :=
  let retval := t.tdiv 1000
  if 0 ≤ retval ∧ retval < 0xFFFFFFFF then UInt32.ofNat retval.toNat else 0xFFFFFFFF

structure QFileInfo where
  isFile : Bool
  size : ℕ
  lastModified : QDateTime
  path : QString
  fileName : QString
  suffix : QString

/-- What Tika returns for a file, as it arrives through `js2qs`: the body text and the metadata, name by name. -/
structure TikaResult where
  text : QString
  names : List (QString × List QString)

/-- The disk at one moment. -/
structure FileSystem where
  /-- Nothing where no entry has that path. -/
  stat : QString → Option QFileInfo
  /-- What arrives from Tika; nothing where the file cannot be opened for reading. -/
  tika : QString → Option TikaResult

namespace FileSystem

/-- `QFile::exists`. -/
def exists_ (fs : FileSystem) (path : QString) : Bool := (fs.stat path).isSome

/-- `QFileInfo::isFile`. -/
def isFile (fs : FileSystem) (path : QString) : Bool := (fs.stat path).any (·.isFile)

end FileSystem

/-! ## Metadata -/

abbrev QStringList := List QString

/-- `indexerWorker::addMetaContents`. -/
def addMetaContents (metas : QMap QStringList) (sMetaName sMetaValue : QString) : QMap QStringList :=
  match metas[sMetaName]? with
  | some sl => metas.insert sMetaName (sl ++ [sMetaValue])
  | none => metas.insert sMetaName [sMetaValue]

/-- `jvm::extractMetaContents`, for one metadata name and its values. -/
def extractMetaContents (Q : Qt) (metas : QMap QStringList) (name : QString) (values : List QString) :
    QMap QStringList :=
  if values = [] then metas
  else
    let sMetaName := trimmed (Q.toLower name)
    match metas[sMetaName]? with
    | some sl => metas.insert sMetaName (sl ++ values)
    | none => metas.insert sMetaName values

/-- `jvm::getMetaContents` in the release build. -/
def getMetaContents (Q : Qt) (fs : FileSystem) (sAbsPathName : QString) (metas : QMap QStringList) :
    QMap QStringList :=
  match fs.tika (normalizePath Q sAbsPathName false) with
  | none => metas
  | some r =>
    let metas := if isempty r.text true then metas else metas.insert FIELDNAME_FULLTEXT [r.text]
    r.names.foldl (fun metas n => extractMetaContents Q metas n.1 n.2) metas

/-- `indexerWorker::enrichMetaContents`. -/
def enrichMetaContents (sAbsPathName : QString) (metas : QMap QStringList) (finfo : QFileInfo) :
    QMap QStringList :=
  let metas := addMetaContents metas FIELDNAME_ABSPATHNAME sAbsPathName
  let metas := addMetaContents metas (qs "dir") finfo.path
  let metas := addMetaContents metas FIELDNAME_FILENAME finfo.fileName
  let metas := addMetaContents metas (qs "extension") finfo.suffix
  let metas := addMetaContents metas (qs "size") (number finfo.size)
  addMetaContents metas (qs "lastmodified") (number finfo.lastModified.toTime_t.toNat)

end QDesktopSearch
