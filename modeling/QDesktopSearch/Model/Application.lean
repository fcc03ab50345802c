import Mathlib.Logic.Function.Basic
import QDesktopSearch.Model.Indexer
import QDesktopSearch.Model.Lucy

/-!
# The application

The registry, the workers and the index directories, under the calls of the GUI thread
and the steps of the workers in any order. Of a worker only what `openIndex` and `close`
do to its `m_pLucyIndexer` is followed here.
-/

namespace QDesktopSearch

/-! ## Index directories -/

/-- What the index directories hold, by their path. -/
abbrev Disk := QString → Directory Document

/-- What `QDir::removeRecursively` goes over: the directory and all below it. -/
def below (Q : Qt) (sAbsDirIdx dir : QString) : Bool :=
  dir == sAbsDirIdx || (sAbsDirIdx ++ [Q.separator]).isPrefixOf dir

/-- `f::emptydir` and `QDir::removeRecursively`; `kept` are the directories whose files
cannot be removed. -/
def Disk.removeRecursively (Q : Qt) (kept : QString → Bool) (sAbsDirIdx : QString) (disk : Disk) : Disk :=
  fun dir => if below Q sAbsDirIdx dir && !kept dir then none else disk dir

/-- A commit into a directory, which fails where the directory was removed. -/
def Disk.commit (dir : QString) (si : SegmentInfos Document) (disk : Disk) : Disk :=
  Function.update disk dir ((disk dir).map fun _ => si)

/-! ## Workers -/

/-- Where a worker is between `add` and the end of its thread. -/
inductive Phase where
  /-- `QThread::start` was called. -/
  | added
  /-- `doWork` runs. -/
  | started
  /-- `m_pLucyIndexer` is set; its `open` has not created the index yet. -/
  | allocated
  | opened (pLucyIndexer : Lucyindexer)
  /-- `close` has deleted `m_pLucyIndexer`. -/
  | closed

/-- `m_pLucyIndexer` is not null. -/
def Phase.pLucyIndexer : Phase → Bool
  | allocated | opened _ => true
  | added | started | closed => false

/-- The steps of a worker; `newLucyindexer` and `openIndex` are the two parts of `openIndex`. -/
inductive WorkerStep where
  | doWork
  | newLucyindexer
  | openIndex
  | close

/-- What has happened to a worker's `m_pLucyIndexer` or to an index directory. -/
inductive Effect where
  | allocated (pThread : IndexerThread)
  | opened (sAbsDirIdx : QString)
  | closed (pThread : IndexerThread)
  | deleted (sAbsDirIdx : QString) (kept : QString → Bool)

/-- The trace is kept to state properties of; the program does not store it. -/
structure App where
  indexer : Indexer
  phase : IndexerThread → Phase
  disk : Disk
  trace : List Effect

variable (E : Env)

/-- `m_sDirIndex` after `lucy::open`, which normalizes once more. -/
def sDirIndex (sDir2Index : QString) : QString := idxDir4Dir2Index E (normalizePath E.qt sDir2Index false)

namespace App

/-- The program has started on what is on disk. -/
def start (disk : Disk) : App := ⟨.new, fun _ => .added, disk, []⟩

inductive Event where
  | init (exists_ : QString → Bool) (sDirs2Index : QString)
  | add (exists_ : QString → Bool) (sDir2Index : QString)
  | removeIndex (sDir2Index : QString) (kept : QString → Bool)
  | getIdxInfo (sDir2Index : QString) (bAskLucy : Bool)
  | search (lpSearchinputs : List (QString × QString))
  /-- `sDirs2Index` is the configured value. -/
  | fields (sDirs2Index : QString)
  /-- A worker thread takes a step. -/
  | worker (pThread : IndexerThread) (ws : WorkerStep)

inductive Outcome where
  | done
  /-- `IndexReader::open` found no segments file; nothing catches it. -/
  | exception
  /-- A call through a null `m_pLucyIndexer`. -/
  | nullptr
  deriving DecidableEq

/-- The index directories that `search` opens, one for every entry of the registry. -/
def searchedDirs (x : App) : List QString := x.indexer.searched.map (sDirIndex E)

/-- The index directories that `fields` opens, one for every configured directory. -/
def fieldsDirs (sDirs2Index : QString) : List QString :=
  (splitSkipEmpty (QChar.ofChar '|') sDirs2Index).map (idxDir4Dir2Index E)

/-- `IndexReader::open` on these directories, one after the other. -/
def openReaders (x : App) (dirs : List QString) : Outcome :=
  if dirs.all fun dir => (x.disk dir).isSome then .done else .exception

/-- `removeIndex`; it goes on only once the thread is not running. -/
def removeIndex (x : App) (sDir2Index : QString) (kept : QString → Bool) : Option App :=
  match x.indexer.removeIndex E.qt sDir2Index with
  | none => none
  | some (indexer, none) => some { x with indexer := indexer }
  | some (indexer, some pThread) =>
    match x.phase pThread with
    | .closed =>
      let sAbsDirIdx := idxDir4Dir2Index E (normalizePath E.qt sDir2Index false)
      some { x with
        indexer := indexer
        disk := x.disk.removeRecursively E.qt kept sAbsDirIdx
        trace := x.trace ++ [.deleted sAbsDirIdx kept] }
    | _ => none

/-- `getIdxInfo`: the worker's indexer is asked without a check. -/
def getIdxInfo (x : App) (sDir2Index : QString) (bAskLucy : Bool) : Option (App × Outcome) :=
  (x.indexer.getIdxInfo sDir2Index bAskLucy).map fun
    | (indexer, none) => ({ x with indexer := indexer }, .done)
    | (indexer, some pThread) =>
      ({ x with indexer := indexer }, if (x.phase pThread).pLucyIndexer then .done else .nullptr)

/-- A worker gets to `phase`, with these effects. -/
def setPhase (x : App) (pThread : IndexerThread) (phase : Phase) (disk : Disk) (effects : List Effect) : App :=
  { x with phase := Function.update x.phase pThread phase, disk := disk, trace := x.trace ++ effects }

/-- The step of a worker; nothing where it is not at that step. -/
def workerStep (x : App) (pThread : IndexerThread) (ws : WorkerStep) : Option App :=
  let sAbsDirIdx := sDirIndex E pThread.sDir2Index
  match ws, x.phase pThread with
  | .doWork, .added => some (x.setPhase pThread .started x.disk [])
  | .newLucyindexer, .started => some (x.setPhase pThread .allocated x.disk [.allocated pThread])
  | .openIndex, .allocated =>
    (Lucyindexer.open? (x.disk sAbsDirIdx)).map fun l =>
      x.setPhase pThread (.opened l) (Function.update x.disk sAbsDirIdx (some l.pIndexWriter.committed))
        [.opened sAbsDirIdx]
  | .close, .opened l =>
    (l.close E).map fun si => x.setPhase pThread .closed (x.disk.commit sAbsDirIdx si) [.closed pThread]
  | _, _ => none

/-- One event; nothing where it cannot happen. -/
def step (x : App) : Event → Option (App × Outcome)
  | .init exists_ sDirs2Index => some ({ x with indexer := x.indexer.init E.qt exists_ sDirs2Index }, .done)
  | .add exists_ sDir2Index => some ({ x with indexer := x.indexer.add E.qt exists_ sDir2Index }, .done)
  | .removeIndex sDir2Index kept => (x.removeIndex E sDir2Index kept).map fun x => (x, .done)
  | .getIdxInfo sDir2Index bAskLucy => x.getIdxInfo sDir2Index bAskLucy
  | .search lpSearchinputs =>
    some (x, if lpSearchinputs = [] then .done else x.openReaders (x.searchedDirs E))
  | .fields sDirs2Index => some (x, x.openReaders (fieldsDirs E sDirs2Index))
  | .worker pThread ws =>
    if x.indexer.threads.contains pThread then (x.workerStep E pThread ws).map fun x => (x, .done) else none

end App

end QDesktopSearch
