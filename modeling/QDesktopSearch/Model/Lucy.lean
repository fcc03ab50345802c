import QDesktopSearch.Model.Document
import QDesktopSearch.Model.Modifier

/-!
# `lucy` and `lucyindexer`

`Env` is what the program runs on: Qt, `qHash`, the analyzer, CLucene's buffering and
merging, the application directory and the length of the waiting phase.
-/

namespace QDesktopSearch

structure Env where
  qt : Qt
  qHash : QString → UInt32
  /-- The terms of `lucy::getNewAnalyzer`. -/
  tokens : QString → List QString
  bufferFull : List Document → Bool
  findMerges : SegmentInfos Document → List (ℕ × ℕ)
  applicationDirPath : QString
  /-- Checks in one waiting phase of `doWork`: 3333, or 66 in a debug build. -/
  iWait : ℕ

variable (E : Env)

/-- CLucene with the program's analyzer. -/
def Env.engine : Engine Document Term := ⟨Document.hasTerm E.tokens, E.bufferFull, E.findMerges⟩

def OPTIMIZE_AFTER_INDEXED_FILES : ℕ := 1000000

/-- `lucy::idxDir4Dir2Index`. -/
def idxDir4Dir2Index (sDir2Index : QString) : QString :=
  let sDir2Index := normalizePath E.qt sDir2Index false
  let sBaseDirIdx := makeAbsFN E.qt E.applicationDirPath (qs "idx")
  let sIdxSubDir := number (E.qHash sDir2Index).toNat
  makeAbsFN E.qt sBaseDirIdx sIdxSubDir

/-- The value of `id_fn` that `lucyindexer::index` computes from the path it has normalized. -/
def getIdFN (sAbsPathName : QString) : QString := number (E.qHash sAbsPathName).toNat

/-- `lucyindexer::getIdFNandDATE`. -/
def getIdFNandDATE (sAbsPathName : QString) (finfo : QFileInfo) : QString :=
  number (E.qHash (normalizePath E.qt sAbsPathName false)).toNat ++ qs "_" ++
    number finfo.lastModified.toTime_t.toNat

/-- `lucyindexer::metaName`. -/
def metaName (sRawMetaName : QString) : QString :=
  let s := trimmed (E.qt.toLower sRawMetaName)
  let s := replaceAll (qs "dc:") [] s
  -- `[^a-z0-9\-]` becomes `_`
  s.map fun c => if (97 ≤ c && c ≤ 122) || (48 ≤ c && c ≤ 57) || c == 45 then c else 95

/-- The fields of one metadata entry, in the loop of `lucyindexer::index`. -/
def metaFields (entry : QString × QStringList) : List Field :=
  if entry.1 = qs "x-parsed-by" then []
  else entry.2.map fun value => ⟨metaName E entry.1, value, true⟩

/-- The document that `lucyindexer::index` builds. -/
def indexDocument (sAbsPathName : QString) (metas : QMap QStringList) (finfo : QFileInfo) : Document :=
  [⟨ID_FN, getIdFN E sAbsPathName, false⟩, ⟨ID_FNANDDATE, getIdFNandDATE E sAbsPathName finfo, false⟩] ++
    metas.toList.flatMap (metaFields E)

/-! ## `lucyindexer` -/

/-- An open `lucyindexer`. -/
structure Lucyindexer where
  pIndexWriter : QIndexModifier Document
  iIndexedFiles : ℕ
  bNewIndex : Bool

namespace Lucyindexer

/-- `open`: the index is created where there is no `segments.gen`; nothing where the
modifier cannot be opened. -/
def open? (dir : Directory Document) : Option Lucyindexer :=
  let bReCreate := dir.isNone
  (QIndexModifier.init dir bReCreate).map fun m => ⟨m, 0, bReCreate⟩

/-- `close`: what is left in the directory. -/
def close (l : Lucyindexer) : Directory Document := some (l.pIndexWriter.close E.engine)

/-- `isIndexed`: on a new index the answer is no, without a lookup. -/
def isIndexed (l : Lucyindexer) (sAbsPathName : QString) (finfo : QFileInfo) : Lucyindexer × Bool :=
  if l.bNewIndex then (l, false)
  else
    let sAbsPathName := normalizePath E.qt sAbsPathName false
    let (m, en) := l.pIndexWriter.termDocs E.engine ⟨ID_FNANDDATE, getIdFNandDATE E sAbsPathName finfo⟩
    ({ l with pIndexWriter := m }, !en.isEmpty)

/-- `delDoc`: flushes where something was deleted. -/
def delDoc (l : Lucyindexer) (sFieldName sFieldContent : QString) : Lucyindexer × ℕ :=
  let (m, iDeletedFiles) := l.pIndexWriter.deleteDocuments E.engine ⟨sFieldName, sFieldContent⟩
  ({ l with pIndexWriter := if iDeletedFiles > 0 then m.flush E.engine else m }, iDeletedFiles)

/-- `onIndexerThreadFinished`. -/
def onIndexerThreadFinished (l : Lucyindexer) (bIndexerLoopFinished : Bool) : Lucyindexer :=
  let l := { l with pIndexWriter := l.pIndexWriter.flush E.engine }
  if bIndexerLoopFinished then { l with iIndexedFiles := 0, bNewIndex := false } else l

/-- `index`: on an old index the old version goes first; then the document is added. -/
def index (l : Lucyindexer) (sAbsPathName : QString) (metas : QMap QStringList) (finfo : QFileInfo) :
    Lucyindexer :=
  let sAbsPathName := normalizePath E.qt sAbsPathName false
  let l := if !l.bNewIndex then (l.delDoc E ID_FN (getIdFN E sAbsPathName)).1 else l
  let m := l.pIndexWriter.addDocument E.engine (indexDocument E sAbsPathName metas finfo)
  let l := { l with pIndexWriter := m, iIndexedFiles := l.iIndexedFiles + 1 }
  if l.iIndexedFiles > 9 && l.iIndexedFiles % OPTIMIZE_AFTER_INDEXED_FILES == 0 then
    l.onIndexerThreadFinished E false
  else l

/-- `getNrOfFilesInIndex`. -/
def getNrOfFilesInIndex (l : Lucyindexer) : ℕ := l.pIndexWriter.docCount

/-- The live documents. -/
def docs (l : Lucyindexer) : List Document := l.pIndexWriter.docs

end Lucyindexer

end QDesktopSearch
