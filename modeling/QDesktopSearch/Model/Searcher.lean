import QDesktopSearch.Model.Application
import QDesktopSearch.Model.Commits

/-!
# `searcher`

`search` opens the index of every root that is registered, as it is on disk at that moment. A
worker is between two events, or in the middle of one: then its index goes through the commits
of the event, one by one, while the other workers run.
-/

namespace QDesktopSearch

variable (E : Env)

/-- The worker goes through a round without an interruption: a pass of `dir` and what follows it. -/
def Root.passes : Root → Root.Event → Bool
  | running l, .round r irq => (Worker.round E r ⟨l, 0, 0, irq⟩).any fun q => !q.2
  | _, _ => false

/-- Where a worker is. -/
inductive Activity where
  /-- With its index open, or without. -/
  | between (pLucyIndexer : Option Lucyindexer)
  /-- The commits still to come, where the event ends, and whether it is a complete pass. -/
  | busy (commits : List (SegmentInfos Document)) (root : Root) (passes : Bool)

/-- Workers and index directories; `passed` is kept to state properties of. -/
structure Desktop where
  worker : QString → Activity
  disk : Disk
  /-- The worker of this root has completed a pass. -/
  passed : QString → Bool

/-- The index that is left open. -/
def Root.pLucyIndexer : Root → Option Lucyindexer
  | running l => some l
  | stopped _ => none

namespace Desktop

/-- Nothing is indexed yet. -/
def start : Desktop := ⟨fun _ => .between none, fun _ => none, fun _ => false⟩

inductive Event where
  | begins (sDir2Index : QString) (e : Root.Event)
  /-- The next commit of the event that has begun, or its end. -/
  | goesOn (sDir2Index : QString)

/-- The root of a worker between two events. -/
def root (s : Desktop) (sDir2Index : QString) : Option Lucyindexer → Root
  | some l => .running l
  | none => .stopped (s.disk (sDirIndex E sDir2Index))

/-- No other worker has the index directory open; two that have it at once are not followed. -/
def free (x : Indexer) (s : Desktop) (sDir2Index : QString) : Bool :=
  x.searched.all fun key => key == sDir2Index || sDirIndex E key != sDirIndex E sDir2Index ||
    match s.worker key with
    | .between none => true
    | _ => false

/-- One event; `x` is the registry. -/
def step (x : Indexer) (s : Desktop) : Event → Option (Desktop × Unit)
  | .begins key e =>
    match s.worker key with
    | .between pLucyIndexer =>
      if x.searched.contains key && s.free E x key then
        let root := s.root E key pLucyIndexer
        (root.step E e).map fun r =>
          ({ s with worker := Function.update s.worker key (.busy (root.commits E e) r.1 (root.passes E e)) }, ())
      else none
    | .busy .. => none
  | .goesOn key =>
    match s.worker key with
    | .between _ => none
    | .busy (si :: commits) root passes =>
      some ({ s with
        worker := Function.update s.worker key (.busy commits root passes)
        disk := Function.update s.disk (sDirIndex E key) (some si) }, ())
    | .busy [] root passes =>
      some ({ s with
        worker := Function.update s.worker key (.between root.pLucyIndexer)
        passed := Function.update s.passed key (s.passed key || passes) }, ())

/-- Every worker has completed a pass. -/
def AllPassed (x : Indexer) (s : Desktop) : Prop := ∀ key ∈ x.searched, s.passed key = true

/-- `lucysearcher::open`: the last commit in the index directory of a root. -/
def openSearcher (s : Desktop) (sDir2Index : QString) : Option (SegmentInfos Document) :=
  s.disk (sDirIndex E sDir2Index)

/-- `searcher::search`: the hits of the `MultiSearcher`, index after index, where the query
matches; the order in which they are shown is left out. Nothing where an index is missing. -/
def search (x : Indexer) (s : Desktop) (query : Document → Bool) : Option (List Document) :=
  (x.searched.mapM (s.openSearcher E)).map fun searchables => searchables.flatMap fun si => si.docs.filter query

end Desktop

/-- `searcher::GetHitAttr`. -/
def GetHitAttr (m_hits : List Document) (iHitNr : ℕ) (sAttrName : QString) : QString :=
  (m_hits[iHitNr]?.bind fun d => d.get sAttrName).getD []

end QDesktopSearch
