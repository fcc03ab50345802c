import Mathlib.Tactic.Common

/-!
# `removeIndex` and `onQuit` against a running worker

The GUI thread and one worker thread, step by step. Of the worker only the control flow of
`doWork` and of what it calls is followed: where a test is on data, both ways are open. The
signal `getMetaContents` is connected with `Qt::BlockingQueuedConnection`: the worker that
emits it waits until the GUI thread has processed the event.
-/

namespace QDesktopSearch

/-- What the worker does next; a name in `Check` is a test of `isInterruptionRequested`. -/
inductive Position where
  /-- `QThread::start` was called. -/
  | added
  | openIndex
  | idxCheck
  /-- `it.hasNext()`, in `dir`. -/
  | dir
  | dirCheck
  /-- `finfo.isFile()`. -/
  | entry
  /-- The start of `file`: files of the program's own index are left out. -/
  | ownIndex
  | fileCheck1
  | isIndexed
  | fileCheck2
  /-- The test of `bIsBigFile`, on a file of at most 99 MB. -/
  | smallFile
  /-- The test of `bIsBigFile`, on a bigger one. -/
  | bigFile
  /-- `emit getMetaContents`. -/
  | emitMeta
  /-- In the emission, until the GUI thread has run the slot. -/
  | awaiting
  | enrichMetaContents
  | fileCheck3
  | index
  | optCheck
  | opt
  | delCheck
  /-- The first loop of `delDeletedFilesFromIdx`. -/
  | scan
  | scanCheck1
  | scanCheck2
  /-- The second loop of `delDeletedFilesFromIdx`. -/
  | delDocs
  | delDocsCheck
  /-- The test of `iDeletedFiles`. -/
  | deleted
  | optAgainCheck
  | optAgain
  /-- The loop of the waiting phase. -/
  | wait
  | waitCheck
  | finishIndexing
  /-- The thread is not running. -/
  | stopped
  deriving DecidableEq

/-- Where the worker can be after one step of its own. -/
def Position.next (isInterruptionRequested : Bool) : Position → List Position
  | added => [openIndex]
  | openIndex => [idxCheck]
  | idxCheck => if isInterruptionRequested then [finishIndexing] else [dir]
  | dir => [dirCheck, optCheck]
  | dirCheck => if isInterruptionRequested then [optCheck] else [entry]
  | entry => [dir, ownIndex]
  | ownIndex => [dir, fileCheck1]
  | fileCheck1 => if isInterruptionRequested then [dir] else [isIndexed]
  | isIndexed => [dir, fileCheck2]
  | fileCheck2 => if isInterruptionRequested then [dir] else [smallFile, bigFile]
  | smallFile => [emitMeta]
  | bigFile => [enrichMetaContents]
  | emitMeta => [awaiting]
  | awaiting => []
  | enrichMetaContents => [fileCheck3]
  | fileCheck3 => if isInterruptionRequested then [dir] else [index]
  | index => [dir]
  | optCheck => if isInterruptionRequested then [finishIndexing] else [opt]
  | opt => [delCheck]
  | delCheck => if isInterruptionRequested then [finishIndexing] else [scan]
  | scan => [scanCheck1, delDocs]
  | scanCheck1 => if isInterruptionRequested then [delDocs] else [scan, scanCheck2]
  | scanCheck2 => if isInterruptionRequested then [delDocs] else [scan]
  | delDocs => [delDocsCheck, deleted]
  | delDocsCheck => if isInterruptionRequested then [deleted] else [delDocs]
  | deleted => [optAgainCheck, wait]
  | optAgainCheck => if isInterruptionRequested then [finishIndexing] else [optAgain]
  | optAgain => [wait]
  | wait => [waitCheck, idxCheck]
  | waitCheck => if isInterruptionRequested then [finishIndexing] else [wait]
  | finishIndexing => [stopped]
  | stopped => []

/-- What the GUI thread is in. -/
inductive Gui where
  | eventLoop
  /-- `removeIndex`, before `requestInterruption`. -/
  | removeIndex
  /-- The loop of `removeIndex` on `isRunning`. -/
  | waiting
  /-- `removeIndex`, past its loop: worker and thread are deleted. -/
  | removed
  /-- The loop of `onQuit`, which calls `processEvents`. -/
  | onQuit
  deriving DecidableEq

/-- The GUI thread processes its events. -/
def Gui.processes : Gui → Bool
  | eventLoop | onQuit => true
  | removeIndex | waiting | removed => false

structure Threads where
  gui : Gui
  worker : Position
  isInterruptionRequested : Bool
  /-- `getMetaContents` is in the event queue of the GUI thread. -/
  posted : Bool
  deriving DecidableEq

namespace Threads

/-- The worker has been added. -/
def start : Threads := ⟨.eventLoop, .added, false, false⟩

inductive Event where
  /-- The worker takes a step. -/
  | worker (next : Position)
  /-- The GUI thread runs `jvm::getMetaContents` and wakes the worker. -/
  | processEvents
  | removeIndex
  | requestInterruption
  /-- One round of the loop of `removeIndex`. -/
  | isRunning
  /-- `onQuit`, up to its loop. -/
  | onQuit

/-- One step of either thread; nothing where it cannot be taken. -/
def step (s : Threads) : Event → Option (Threads × Unit)
  | .worker next =>
    if (s.worker.next s.isInterruptionRequested).contains next then
      some ({ s with worker := next, posted := s.posted || next == .awaiting }, ())
    else none
  | .processEvents =>
    if s.gui.processes && s.posted then some ({ s with worker := .enrichMetaContents, posted := false }, ())
    else none
  | .removeIndex => if s.gui = .eventLoop then some ({ s with gui := .removeIndex }, ()) else none
  | .requestInterruption =>
    if s.gui = .removeIndex then some ({ s with gui := .waiting, isInterruptionRequested := true }, ()) else none
  | .isRunning =>
    if s.gui = .waiting then some (if s.worker = .stopped then { s with gui := .removed } else s, ()) else none
  | .onQuit =>
    if s.gui = .eventLoop then some ({ s with gui := .onQuit, isInterruptionRequested := true }, ()) else none

end Threads

end QDesktopSearch
