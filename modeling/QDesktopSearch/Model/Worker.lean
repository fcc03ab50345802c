import QDesktopSearch.Model.Lucy

/-!
# `indexerWorker`

One worker thread on one root. The disk is fixed during one run of `dir` and during one
run of `delDeletedFilesFromIdx`, and changes freely in between. `irq` counts the checks
of `isInterruptionRequested` that still answer no; once a check answers yes, all later
ones do.

`Root` is a root over its whole history: sessions of the worker, one after the other, on
what the last one left in the index directory.
-/

namespace QDesktopSearch

variable (E : Env)

/-- A worker between `openIndex` and `close`. -/
structure Worker where
  pLucyIndexer : Lucyindexer
  iFoundFiles : ℕ
  iIndexedFiles : ℕ
  /-- Nothing where no interruption is ever requested. -/
  irq : Option ℕ

namespace Worker

/-- `QThread::currentThread()->isInterruptionRequested()`. -/
def isInterruptionRequested (w : Worker) : Bool × Worker :=
  match w.irq with
  | none => (false, w)
  | some 0 => (true, w)
  | some (n + 1) => (false, { w with irq := some n })

/-- `lucyindexer::isIndexed`, on the worker's indexer. -/
def isIndexed (w : Worker) (sAbsPathName : QString) (finfo : QFileInfo) : Bool × Worker :=
  let (l, bIndexed) := w.pLucyIndexer.isIndexed E sAbsPathName finfo
  (bIndexed, { w with pLucyIndexer := l })

/-- Files of the program's own index are not indexed. -/
def ownIndex (sAbsPathName : QString) : Bool := (indexOf (qs "/idx/") sAbsPathName).any (· > 1)

/-- Above 99 MB the contents are not extracted. -/
def isBigFile (finfo : QFileInfo) : Bool := finfo.size / 1048576 > 99

/-- The metadata that `file` hands to `index`. -/
def metaContents (fs : FileSystem) (sAbsPathName : QString) (finfo : QFileInfo) : QMap QStringList :=
  let metas : QMap QStringList := ∅
  let metas := if isBigFile finfo then metas else getMetaContents E.qt fs sAbsPathName metas
  enrichMetaContents sAbsPathName metas finfo

def file (fs : FileSystem) (w : Worker) (sAbsPathName : QString) (finfo : QFileInfo) : Worker :=
  let sAbsPathName := normalizePath E.qt sAbsPathName false
  if ownIndex sAbsPathName then w
  else
    let w := { w with iFoundFiles := w.iFoundFiles + 1 }
    match w.isInterruptionRequested with
    | (true, w) => w
    | (false, w) =>
      match w.isIndexed E sAbsPathName finfo with
      | (true, w) => w
      | (false, w) =>
        match w.isInterruptionRequested with
        | (true, w) => w
        | (false, w) =>
          let metas := metaContents E fs sAbsPathName finfo
          match w.isInterruptionRequested with
          | (true, w) => w
          | (false, w) =>
            { w with
              pLucyIndexer := w.pLucyIndexer.index E sAbsPathName metas finfo
              iIndexedFiles := w.iIndexedFiles + 1 }

/-- `dir`, over what the `QDirIterator` yields. -/
def dir (fs : FileSystem) : Worker → List QString → Worker
  | w, [] => w
  | w, next :: it =>
    match w.isInterruptionRequested with
    | (true, w) => w
    | (false, w) =>
      let sEntry := normalizePath E.qt next false
      match fs.stat sEntry with
      | none => dir fs w it
      | some finfo => dir fs (if finfo.isFile then w.file E fs sEntry finfo else w) it

/-! ## `delDeletedFilesFromIdx` -/

structure DOC where
  sid_fnanddate : QString
  sAbsFileName : QString
  iDocNr : ℕ

/-- The calls that pass a document number to the reader. -/
inductive DocCall where
  | isDeleted
  | document
  | deleteDocument

/-- One such call, with the reader that is open then. -/
structure Access where
  call : DocCall
  docNum : ℕ
  pReader : IndexReader Document

/-- The state of the scan. The accesses are kept to state properties of; the program
does not store them. -/
structure Scan where
  worker : Worker
  docs2BeDeleted : List DOC
  accesses : List Access

/-- `getIndexer()->getIndexReader()`, for a call that passes `i`. -/
def Scan.getIndexReader (s : Scan) (call : DocCall) (i : ℕ) : Scan × IndexReader Document :=
  let l := s.worker.pLucyIndexer
  let (m, pReader) := l.pIndexWriter.getIndexReader E.engine
  ({ s with
      worker := { s.worker with pLucyIndexer := { l with pIndexWriter := m } }
      accesses := s.accesses ++ [⟨call, i, pReader⟩] }, pReader)

/-- `getIndexer()->deleteDocument(i)`; nothing where the number is out of range. -/
def Scan.deleteDocument (s : Scan) (doc : DOC) : Option Scan :=
  let (s, _) := s.getIndexReader E .deleteDocument doc.iDocNr
  let l := s.worker.pLucyIndexer
  (l.pIndexWriter.deleteDocument E.engine doc.iDocNr).map fun m =>
    { s with
      worker := { s.worker with pLucyIndexer := { l with pIndexWriter := m } }
      docs2BeDeleted := s.docs2BeDeleted ++ [doc] }

/-- One round of the scan; also says whether to `break`. Nothing is an error: of the
reader, or a null field value. -/
def scanDoc (fs : FileSystem) (s : Scan) (i : ℕ) : Option (Scan × Bool) :=
  match s.worker.isInterruptionRequested with
  | (true, w) => some ({ s with worker := w }, true)
  | (false, w) => do
    let (s, pReader) := Scan.getIndexReader E { s with worker := w } .isDeleted i
    if ← pReader.isDeleted i then return (s, false)
    let (s, pReader) := s.getIndexReader E .document i
    let doc := (← pReader.document i).load [FIELDNAME_ABSPATHNAME, ID_FNANDDATE]
    if doc.length ≠ 2 then return (s, false)
    let sAbsPathName ← doc.get FIELDNAME_ABSPATHNAME
    if isempty sAbsPathName true then return (s, false)
    if fs.exists_ sAbsPathName then return (s, false)
    match s.worker.isInterruptionRequested with
    | (true, w) => return ({ s with worker := w }, true)
    | (false, w) =>
      let s := { s with worker := w }
      let sid_fnanddate ← doc.get ID_FNANDDATE
      if isempty sid_fnanddate true then return (s, false)
      return (← s.deleteDocument E ⟨sid_fnanddate, sAbsPathName, i⟩, false)

/-- The first loop: from one number down to 0. -/
def scan (fs : FileSystem) : ℕ → Scan → Option Scan
  | 0, s => some s
  | i + 1, s => (scanDoc E fs s i).bind fun r => if r.2 then some r.1 else scan fs i r.1

/-- The second loop: by id. -/
def delDocs : Worker → List DOC → Worker
  | w, [] => w
  | w, doc :: docs =>
    match w.isInterruptionRequested with
    | (true, w) => w
    | (false, w) =>
      if isempty doc.sid_fnanddate true then delDocs w docs
      else delDocs { w with pLucyIndexer := (w.pLucyIndexer.delDoc E ID_FNANDDATE doc.sid_fnanddate).1 } docs

/-- The two loops. What is returned is the length of `docs2BeDeleted`. -/
def delDeletedFilesFromIdx (fs : FileSystem) (w : Worker) : Option Scan :=
  let maxDoc := w.pLucyIndexer.pIndexWriter.docCount
  (scan E fs maxDoc ⟨w, [], []⟩).map fun s => { s with worker := delDocs E s.worker s.docs2BeDeleted }

/-! ## `doWork` -/

/-- What one round of the loop of `doWork` meets. -/
structure Round where
  /-- What the `QDirIterator` yields. -/
  it : List QString
  /-- The disk while `dir` runs. -/
  fs : FileSystem
  /-- The disk while `delDeletedFilesFromIdx` runs. -/
  fsDel : FileSystem

def onIndexerThreadFinished (w : Worker) : Worker :=
  { w with pLucyIndexer := w.pLucyIndexer.onIndexerThreadFinished E true }

/-- The parts `idx` and `opt`; also says whether a check sent the worker to `finishIndexing`. -/
def idx (r : Round) (w : Worker) : Worker × Bool :=
  match { w with iFoundFiles := 0, iIndexedFiles := 0 : Worker }.isInterruptionRequested with
  | (true, w) => (w, true)
  | (false, w) =>
    match (w.dir E r.fs r.it).isInterruptionRequested with
    | (true, w) => (w, true)
    | (false, w) => (w.onIndexerThreadFinished E, false)

/-- The parts `del` and `opt again`. -/
def del (r : Round) (w : Worker) : Option (Worker × Bool) :=
  match w.isInterruptionRequested with
  | (true, w) => some (w, true)
  | (false, w) => do
    let s ← w.delDeletedFilesFromIdx E r.fsDel
    if s.docs2BeDeleted.length > 999 then
      match s.worker.isInterruptionRequested with
      | (true, w) => return (w, true)
      | (false, w) => return (w.onIndexerThreadFinished E, false)
    else return (s.worker, false)

/-- One round, up to the waiting phase. -/
def round (r : Round) (w : Worker) : Option (Worker × Bool) :=
  match w.idx E r with
  | (w, true) => some (w, true)
  | (w, false) => w.del E r

/-- The waiting phase. -/
def wait : ℕ → Worker → Worker × Bool
  | 0, w => (w, false)
  | n + 1, w =>
    match w.isInterruptionRequested with
    | (true, w) => (w, true)
    | (false, w) => wait n w

end Worker

/-! ## A root and its sessions -/

/-- A root between rounds: no worker, or a worker with its index open. -/
inductive Root where
  | stopped (dir : Directory Document)
  | running (pLucyIndexer : Lucyindexer)

namespace Root

/-- The worker starts, or goes through one round and its waiting phase. -/
inductive Event where
  | openIndex
  | round (r : Worker.Round) (irq : Option ℕ)

/-- One event. An interrupted worker closes its index (`finishIndexing`). -/
def step : Root → Event → Option (Root × Unit)
  | stopped dir, .openIndex => (Lucyindexer.open? dir).map fun l => (running l, ())
  | running l, .round r irq =>
    (Worker.round E r ⟨l, 0, 0, irq⟩).map fun
      | (w, true) => (stopped (w.pLucyIndexer.close E), ())
      | (w, false) =>
        match w.wait E.iWait with
        | (w, true) => (stopped (w.pLucyIndexer.close E), ())
        | (w, false) => (running w.pLucyIndexer, ())
  | _, _ => none

end Root

end QDesktopSearch
