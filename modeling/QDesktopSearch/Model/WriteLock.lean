import QDesktopSearch.Model.Lucy

/-!
# The file `write.lock`

A writer has the lock from its start to `close`, a reader from its first deletion to the
commit. Each operation of a modifier is listed with the calls that it makes on the lock, in
order. `LockState` is the index directory of one root with the modifier of its worker: the
worker does its calls one by one, and searches on the root come between any two of them.
-/

namespace QDesktopSearch

/-- A call on the lock. -/
inductive LockCall where
  /-- `FSLock::obtain`, which creates the file. -/
  | obtain
  /-- `FSLock::release`, which unlinks the file. -/
  | release
  /-- `FSLockFactory::clearLock`, which unlinks a file that is left over. -/
  | clearLock
  deriving DecidableEq

variable {D T : Type*} (P : Engine D T)

/-! ## Calls of an operation -/

namespace IndexWriter

/-- `init`; a leftover file is cleared where the index is created. -/
def initLock (create : Bool) : List LockCall := (if create then [.clearLock] else []) ++ [.obtain]

/-- `closeInternal`. -/
def closeLock : List LockCall := [.release]

end IndexWriter

namespace IndexReader

/-- `acquireWriteLock`, before a deletion; `writeLock` is not null after the first one. -/
def acquireWriteLock (r : IndexReader D) : List LockCall := if r.hasChanges then [] else [.obtain]

/-- `doCommit`. -/
def commitLock (r : IndexReader D) : List LockCall := if r.hasChanges then [.release] else []

/-- `deleteDocuments`: the lock is taken where there is something to delete. -/
def deleteDocumentsLock (r : IndexReader D) (t : T) : List LockCall :=
  if r.termDocs P t = [] then [] else r.acquireWriteLock

end IndexReader

namespace IndexModifier

def createIndexWriterLock : IndexModifier D → List LockCall
  | .writer _ => []
  | .reader r => r.commitLock ++ IndexWriter.initLock false

def createIndexReaderLock : IndexModifier D → List LockCall
  | .reader _ => []
  | .writer _ => IndexWriter.closeLock

def flushLock : IndexModifier D → List LockCall
  | .writer _ => IndexWriter.closeLock ++ IndexWriter.initLock false
  | .reader r => r.commitLock

def deleteDocumentsLock (m : IndexModifier D) (t : T) : List LockCall :=
  m.createIndexReaderLock ++ (m.createIndexReader P).deleteDocumentsLock P t

def deleteDocumentLock (m : IndexModifier D) : List LockCall :=
  m.createIndexReaderLock ++ (m.createIndexReader P).acquireWriteLock

def closeLock : IndexModifier D → List LockCall
  | .writer _ => IndexWriter.closeLock
  | .reader r => r.commitLock

/-- The writer, or the reader with uncommitted deletions, has the lock. -/
def locked : IndexModifier D → Bool
  | .writer _ => true
  | .reader r => r.hasChanges

end IndexModifier

/-- An operation of the modifier that `lucyindexer` and the worker call. -/
inductive ModifierCall (D T : Type*) where
  | getIndexReader
  | deleteDocuments (t : T)
  | deleteDocument (docNum : ℕ)
  | flush
  | addDocument (doc : D)
  | termDocs (t : T)
  | docCount

namespace QIndexModifier

def call (m : QIndexModifier D) : ModifierCall D T → Option (QIndexModifier D)
  | .getIndexReader => some (m.getIndexReader P).1
  | .deleteDocuments t => some (m.deleteDocuments P t).1
  | .deleteDocument docNum => m.deleteDocument P docNum
  | .flush => some (m.flush P)
  | .addDocument doc => some (m.addDocument P doc)
  | .termDocs t => some (m.termDocs P t).1
  | .docCount => some m

def flushLock (m : QIndexModifier D) : List LockCall :=
  if m.bDocDeletionCalled then
    m.base.createIndexReaderLock ++ (m.getIndexReader P).2.commitLock ++
      (IndexModifier.reader (m.getIndexReader P).2.commit).flushLock
  else m.base.flushLock

def callLock (m : QIndexModifier D) : ModifierCall D T → List LockCall
  | .getIndexReader => m.base.createIndexReaderLock
  | .deleteDocuments t => m.base.deleteDocumentsLock P t
  | .deleteDocument _ => m.base.deleteDocumentLock P
  | .flush => m.flushLock P
  | .addDocument _ => m.base.createIndexWriterLock
  | .termDocs _ => m.base.createIndexReaderLock
  | .docCount => []

end QIndexModifier

/-! ## The worker and the searches on its root -/

structure LockState (D : Type*) where
  pIndexWriter : Option (QIndexModifier D)
  /-- The lock is obtained and not yet released. -/
  hasLock : Bool
  /-- `write.lock` is in the index directory. -/
  fileExists : Bool
  /-- What the worker's operation has still to do. -/
  todo : List LockCall

namespace LockState

/-- No modifier; the file may be left from a crash. -/
def start (fileExists : Bool) : LockState D := ⟨none, false, fileExists, []⟩

inductive Event (D T : Type*) where
  /-- `lucyindexer::open` on what is in the directory. -/
  | openIndex (dir : Directory D)
  /-- The worker calls an operation. -/
  | call (c : ModifierCall D T)
  /-- `lucyindexer::close`. -/
  | close
  /-- The next call on the lock. -/
  | lock
  /-- `lucysearcher::open`, for a search. -/
  | search

/-- `lucy::open`: the file is there if the application crashed. -/
def lucyOpen (s : LockState D) : LockState D := { s with fileExists := false }

def step (s : LockState D) : Event D T → Option (LockState D × Unit)
  | .openIndex dir =>
    if s.pIndexWriter.isNone ∧ s.todo = [] then
      (QIndexModifier.init dir dir.isNone).map fun m =>
        ({ s.lucyOpen with pIndexWriter := some m, todo := IndexWriter.initLock dir.isNone }, ())
    else none
  | .call c =>
    if s.todo = [] then
      s.pIndexWriter.bind fun m =>
        (m.call P c).map fun m' => ({ s with pIndexWriter := some m', todo := m.callLock P c }, ())
    else none
  | .close =>
    if s.todo = [] then
      s.pIndexWriter.map fun m => ({ s with pIndexWriter := none, todo := m.base.closeLock }, ())
    else none
  | .lock =>
    match s.todo with
    | [] => none
    | .obtain :: todo =>
      -- the file is created exclusively; else the wait for it times out
      if s.fileExists then none else some ({ s with hasLock := true, fileExists := true, todo := todo }, ())
    | .release :: todo => some ({ s with hasLock := false, fileExists := false, todo := todo }, ())
    | .clearLock :: todo => some ({ s with fileExists := false, todo := todo }, ())
  | .search => some (s.lucyOpen, ())

end LockState

end QDesktopSearch
