import QDesktopSearch.Model.Text

/-!
# `indexer`

The registry of worker threads. A pointer in `m_pWorkers` is nothing where it is null;
`deref` fails on it, and on a pointer to an object that was deleted.
-/

namespace QDesktopSearch

/-- An `indexerThread` object and its worker. `added` is kept to state properties of; the
program does not store it. -/
structure IndexerThread where
  /-- The address of the object. -/
  ptr : ℕ
  /-- `m_sDir2Index` of the worker. -/
  sDir2Index : QString
  /-- The argument of the `add` that made the object. -/
  added : QString
  deriving DecidableEq

structure Indexer where
  pWorkers : QMap (Option IndexerThread)
  /-- The objects that exist. -/
  threads : List IndexerThread
  /-- No object has had this address or a higher one. -/
  ptr : ℕ

/-- `QMap::operator[]`: a missing key is inserted, with a null pointer. -/
def QMap.subscript {V : Type} (m : QMap (Option V)) (key : QString) : QMap (Option V) × Option V :=
  match m[key]? with
  | some value => (m, value)
  | none => (m.insert key none, none)

variable (Q : Qt)

namespace Indexer

/-- The constructor. -/
def new : Indexer := ⟨∅, [], 0⟩

/-- The object that a pointer points to. -/
def deref (x : Indexer) (pThread : Option IndexerThread) : Option IndexerThread :=
  pThread.filter fun t => x.threads.contains t

/-- What a `QMapIterator` over `m_pWorkers` meets, in the order of the keys. -/
def values (x : Indexer) : List (Option IndexerThread) := x.pWorkers.toList.map (·.2)

def isIndexing (x : Indexer) (sDir2Index : QString) : Bool := x.pWorkers.contains sDir2Index

/-- `add`; `exists_` is `QDir::exists` at that moment. -/
def add (exists_ : QString → Bool) (x : Indexer) (sDir2Index : QString) : Indexer :=
  if isempty sDir2Index true then x
  else if !exists_ sDir2Index then x
  else
    let key := normalizePath Q sDir2Index false
    if x.isIndexing key then x
    else
      let pThread : IndexerThread := ⟨x.ptr, key, sDir2Index⟩
      { pWorkers := x.pWorkers.insert key (some pThread)
        threads := x.threads ++ [pThread]
        ptr := x.ptr + 1 }

/-- `init`; `sDirs2Index` is the configured value. -/
def init (exists_ : QString → Bool) (x : Indexer) (sDirs2Index : QString) : Indexer :=
  (splitSkipEmpty (QChar.ofChar '|') sDirs2Index).foldl (add Q exists_) x

/-- `requestStopAll`: the threads that are asked to stop. -/
def requestStopAll (x : Indexer) : Option (List IndexerThread) := x.values.mapM x.deref

/-- The loop of `isStoppedAll`. -/
def stopped (x : Indexer) (isRunning : IndexerThread → Bool) : List (Option IndexerThread) → Option Bool
  | [] => some true
  | value :: i => do
    let pThread ← x.deref value
    if isRunning pThread then return false
    x.stopped isRunning i

def isStoppedAll (x : Indexer) (isRunning : IndexerThread → Bool) : Option Bool := x.stopped isRunning x.values

/-- The loop of `onQuit`, with `n` rounds left; `isRunning` is asked anew in each. Returns
`bErrorWhileStopping`. -/
def waitStopped (x : Indexer) (isRunning : ℕ → IndexerThread → Bool) : ℕ → Option Bool
  | 0 => some true
  | n + 1 => do
    if ← x.isStoppedAll (isRunning n) then return false
    x.waitStopped isRunning n

def onQuit (x : Indexer) (isRunning : ℕ → IndexerThread → Bool) : Option Indexer := do
  let _ ← x.requestStopAll
  let bErrorWhileStopping ← x.waitStopped isRunning 334
  -- to delete a null pointer does nothing
  let threads := if bErrorWhileStopping then x.threads else x.threads.filter fun t => !x.values.contains (some t)
  return { x with pWorkers := ∅, threads := threads }

/-- `~indexer`. -/
def destroy (x : Indexer) : Option Indexer := do
  let closed ← x.values.mapM x.deref
  return { x with pWorkers := ∅, threads := x.threads.filter fun t => !closed.contains t }

/-- `removeIndex`, but for the index directory; also the thread it stops and deletes. -/
def removeIndex (x : Indexer) (sDir2Index : QString) : Option (Indexer × Option IndexerThread) :=
  let sDir2Index := normalizePath Q sDir2Index false
  if !x.pWorkers.contains sDir2Index then some (x, none)
  else do
    let (pWorkers, value) := x.pWorkers.subscript sDir2Index
    let pWorkers := pWorkers.erase sDir2Index
    let pThread ← x.deref value
    return ({ x with pWorkers := pWorkers, threads := x.threads.erase pThread }, some pThread)

/-- `getIdxInfo`, but for what it fills in; also the thread whose worker it asks. -/
def getIdxInfo (x : Indexer) (sDir2Index : QString) (bAskLucy : Bool) : Option (Indexer × Option IndexerThread) :=
  if !bAskLucy then some (x, none)
  else
    match x.pWorkers.subscript sDir2Index with
    | (pWorkers, none) => some ({ x with pWorkers := pWorkers }, none)
    | (pWorkers, some pThread) => (x.deref pThread).map fun t => ({ x with pWorkers := pWorkers }, some t)

/-- The directories whose indexes `searcher::search` opens. -/
def searched (x : Indexer) : List QString := x.pWorkers.toList.map (·.1)

/-! ## Sequences of calls -/

inductive Call where
  | init (exists_ : QString → Bool) (sDirs2Index : QString)
  | add (exists_ : QString → Bool) (sDir2Index : QString)
  | removeIndex (sDir2Index : QString)
  | isIndexing (sDir2Index : QString)
  | getIdxInfo (sDir2Index : QString) (bAskLucy : Bool)

/-- One call; nothing where it meets a pointer that is null or dangling. -/
def step (x : Indexer) : Call → Option (Indexer × Unit)
  | .init exists_ sDirs2Index => some (x.init Q exists_ sDirs2Index, ())
  | .add exists_ sDir2Index => some (x.add Q exists_ sDir2Index, ())
  | .removeIndex sDir2Index => (x.removeIndex Q sDir2Index).map fun r => (r.1, ())
  | .isIndexing _ => some (x, ())
  | .getIdxInfo sDir2Index bAskLucy => (x.getIdxInfo sDir2Index bAskLucy).map fun r => (r.1, ())

end Indexer

end QDesktopSearch
