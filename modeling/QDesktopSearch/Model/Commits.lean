import QDesktopSearch.Model.Worker

/-!
# The commits that an operation makes

What a searcher finds in the directory changes at commits only, and each commit is atomic.
For each operation, the segments it commits, in order: a process that stops in between
leaves the last one.
-/

namespace QDesktopSearch

open Slots

variable {D T : Type*} (P : Engine D T)

/-- The last of some commits, `si` being the one before. -/
def lastCommit (si : SegmentInfos D) (commits : List (SegmentInfos D)) : SegmentInfos D :=
  commits.foldl (fun _ c => c) si

namespace IndexWriter

/-- `flush`: the checkpoint of `doFlush`, then one for each merge. -/
def flushCommits (w : IndexWriter D) : List (SegmentInfos D) :=
  if w.docWriter = [] then []
  else
    let si := w.segmentInfos ++ [ofList w.docWriter]
    (P.findMerges si).scanl (fun si r => si.merge r.1 r.2) si

def addDocumentCommits (w : IndexWriter D) (doc : D) : List (SegmentInfos D) :=
  let w := { w with docWriter := w.docWriter ++ [doc] }
  if P.bufferFull w.docWriter then w.flushCommits P else []

end IndexWriter

/-- `commit` and `close` of a reader. -/
def IndexReader.commits (r : IndexReader D) : List (SegmentInfos D) := if r.hasChanges then [r.segments] else []

namespace IndexModifier

def createIndexReaderCommits : IndexModifier D → List (SegmentInfos D)
  | .writer w => w.flushCommits P
  | .reader _ => []

def createIndexWriterCommits : IndexModifier D → List (SegmentInfos D)
  | .writer _ => []
  | .reader r => r.commits

def flushCommits : IndexModifier D → List (SegmentInfos D)
  | .writer w => w.flushCommits P
  | .reader r => r.commits

def addDocumentCommits (m : IndexModifier D) (doc : D) : List (SegmentInfos D) :=
  m.createIndexWriterCommits ++ m.createIndexWriter.addDocumentCommits P doc

end IndexModifier

namespace QIndexModifier

def deleteDocumentsCommits (m : QIndexModifier D) : List (SegmentInfos D) := m.base.createIndexReaderCommits P

def flushCommits (m : QIndexModifier D) : List (SegmentInfos D) :=
  if m.bDocDeletionCalled then
    let r := (m.getIndexReader P).2
    m.base.createIndexReaderCommits P ++ r.commits ++ IndexModifier.flushCommits P (.reader r.commit)
  else m.base.flushCommits P

def addDocumentCommits (m : QIndexModifier D) (doc : D) : List (SegmentInfos D) := m.base.addDocumentCommits P doc

end QIndexModifier

namespace Lucyindexer

variable (E : Env)

def delDocCommits (l : Lucyindexer) (sFieldName sFieldContent : QString) : List (SegmentInfos Document) :=
  let (m, iDeletedFiles) := l.pIndexWriter.deleteDocuments E.engine ⟨sFieldName, sFieldContent⟩
  l.pIndexWriter.deleteDocumentsCommits E.engine ++ if iDeletedFiles > 0 then m.flushCommits E.engine else []

/-- The commits of `index`, statement by statement as there. -/
def indexCommits (l : Lucyindexer) (sAbsPathName : QString) (metas : QMap QStringList) (finfo : QFileInfo) :
    List (SegmentInfos Document) :=
  let sAbsPathName := normalizePath E.qt sAbsPathName false
  let deletion := if !l.bNewIndex then l.delDocCommits E ID_FN (getIdFN E sAbsPathName) else []
  let l := if !l.bNewIndex then (l.delDoc E ID_FN (getIdFN E sAbsPathName)).1 else l
  let doc := indexDocument E sAbsPathName metas finfo
  let addition := l.pIndexWriter.addDocumentCommits E.engine doc
  let l := { l with
    pIndexWriter := l.pIndexWriter.addDocument E.engine doc
    iIndexedFiles := l.iIndexedFiles + 1 }
  let optimization :=
    if l.iIndexedFiles > 9 && l.iIndexedFiles % OPTIMIZE_AFTER_INDEXED_FILES == 0 then
      l.pIndexWriter.flushCommits E.engine
    else []
  deletion ++ addition ++ optimization

def isIndexedCommits (l : Lucyindexer) : List (SegmentInfos Document) :=
  if l.bNewIndex then [] else l.pIndexWriter.base.createIndexReaderCommits E.engine

def onIndexerThreadFinishedCommits (l : Lucyindexer) : List (SegmentInfos Document) :=
  l.pIndexWriter.flushCommits E.engine

/-- `close` closes the writer or the reader, as `IndexModifier::flush` does. -/
def closeCommits (l : Lucyindexer) : List (SegmentInfos Document) := l.pIndexWriter.base.flushCommits E.engine

end Lucyindexer

/-! ## The commits of a round -/

variable (E : Env)

namespace Worker

def fileCommits (fs : FileSystem) (w : Worker) (sAbsPathName : QString) (finfo : QFileInfo) :
    List (SegmentInfos Document) :=
  let sAbsPathName := normalizePath E.qt sAbsPathName false
  if ownIndex sAbsPathName then []
  else
    let w := { w with iFoundFiles := w.iFoundFiles + 1 }
    match w.isInterruptionRequested with
    | (true, _) => []
    | (false, w) =>
      let lookup := w.pLucyIndexer.isIndexedCommits E
      match w.isIndexed E sAbsPathName finfo with
      | (true, _) => lookup
      | (false, w) =>
        match w.isInterruptionRequested with
        | (true, _) => lookup
        | (false, w) =>
          match w.isInterruptionRequested with
          | (true, _) => lookup
          | (false, w) => lookup ++ w.pLucyIndexer.indexCommits E sAbsPathName (metaContents E fs sAbsPathName finfo) finfo

def dirCommits (fs : FileSystem) : Worker → List QString → List (SegmentInfos Document)
  | _, [] => []
  | w, next :: it =>
    match w.isInterruptionRequested with
    | (true, _) => []
    | (false, w) =>
      let sEntry := normalizePath E.qt next false
      match fs.stat sEntry with
      | none => dirCommits fs w it
      | some finfo =>
        if finfo.isFile then w.fileCommits E fs sEntry finfo ++ dirCommits fs (w.file E fs sEntry finfo) it
        else dirCommits fs w it

/-- The reader that the scan works on is opened by its first call; deletions are not committed. -/
def scanCommits (fs : FileSystem) : ℕ → Scan → List (SegmentInfos Document)
  | 0, _ => []
  | i + 1, s =>
    (if s.worker.isInterruptionRequested.1 then []
      else s.worker.pLucyIndexer.pIndexWriter.base.createIndexReaderCommits E.engine) ++
    match scanDoc E fs s i with
    | some (s, false) => scanCommits fs i s
    | _ => []

def delDocsCommits : Worker → List DOC → List (SegmentInfos Document)
  | _, [] => []
  | w, doc :: docs =>
    match w.isInterruptionRequested with
    | (true, _) => []
    | (false, w) =>
      if isempty doc.sid_fnanddate true then delDocsCommits w docs
      else
        w.pLucyIndexer.delDocCommits E ID_FNANDDATE doc.sid_fnanddate ++
          delDocsCommits { w with pLucyIndexer := (w.pLucyIndexer.delDoc E ID_FNANDDATE doc.sid_fnanddate).1 } docs

def idxCommits (r : Round) (w : Worker) : List (SegmentInfos Document) :=
  match { w with iFoundFiles := 0, iIndexedFiles := 0 : Worker }.isInterruptionRequested with
  | (true, _) => []
  | (false, w) =>
    w.dirCommits E r.fs r.it ++
      match (w.dir E r.fs r.it).isInterruptionRequested with
      | (true, _) => []
      | (false, w) => w.pLucyIndexer.onIndexerThreadFinishedCommits E

def delCommits (r : Round) (w : Worker) : List (SegmentInfos Document) :=
  match w.isInterruptionRequested with
  | (true, _) => []
  | (false, w) =>
    let maxDoc := w.pLucyIndexer.pIndexWriter.docCount
    scanCommits E r.fsDel maxDoc ⟨w, [], []⟩ ++
      match scan E r.fsDel maxDoc ⟨w, [], []⟩ with
      | none => []
      | some s =>
        delDocsCommits E s.worker s.docs2BeDeleted ++
          if s.docs2BeDeleted.length > 999 then
            match (delDocs E s.worker s.docs2BeDeleted).isInterruptionRequested with
            | (true, _) => []
            | (false, w) => w.pLucyIndexer.onIndexerThreadFinishedCommits E
          else []

def roundCommits (r : Round) (w : Worker) : List (SegmentInfos Document) :=
  w.idxCommits E r ++
    match w.idx E r with
    | (_, true) => []
    | (w, false) => w.delCommits E r

end Worker

/-- The commits of an event; `openIndex` commits where it creates the index. -/
def Root.commits : Root → Root.Event → List (SegmentInfos Document)
  | stopped dir, .openIndex => if dir.isNone then [[]] else []
  | running l, .round r irq =>
    Worker.roundCommits E r ⟨l, 0, 0, irq⟩ ++
      match Worker.round E r ⟨l, 0, 0, irq⟩ with
      | none => []
      | some (w, true) => w.pLucyIndexer.closeCommits E
      | some (w, false) =>
        match w.wait E.iWait with
        | (w, true) => w.pLucyIndexer.closeCommits E
        | (_, false) => []
  | _, _ => []

end QDesktopSearch
