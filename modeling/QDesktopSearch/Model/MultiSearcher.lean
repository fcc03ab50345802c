import Mathlib.Data.Rat.Defs
import QDesktopSearch.Lib.Heap
import QDesktopSearch.Model.Text

/-!
# `MultiSearcher` and `Hits`

A search over several indexes: each gives its best hits, sorted, and a `FieldDocSortedHitQueue`
merges them. `Hits` asks for the best 100 first, and again for more where a later hit is asked
for. A score is its value.
-/

namespace QDesktopSearch

/-- A call ends in an error of CLucene, or goes through a null pointer. -/
inductive Failure where
  | CLuceneError (what : String)
  | nullPointer
  deriving DecidableEq

/-- `SortField`, of the two types that `searcher` sorts by. -/
inductive SortField where
  | FIELD_SCORE
  | STRING (field : QString) (reverse : Bool)
  deriving DecidableEq

/-- The value by which a hit is sorted; a document may have no term in a field. -/
inductive SortValue where
  | score (value : ℚ)
  | string (value : Option QString)
  deriving DecidableEq, Inhabited

structure FieldDoc where
  doc : ℕ
  score : ℚ
  field : SortValue
  deriving DecidableEq, Inhabited

/-- The hits of a search, best first; `fields` is null where the query has no scorer. -/
structure TopFieldDocs where
  totalHits : ℕ
  fieldDocs : List FieldDoc
  fields : Option SortField

/-- `FieldDocSortedHitQueue::lessThan`: the first is sorted behind the second. -/
def FieldDocSortedHitQueue.lessThan (field : SortField) (docA docB : FieldDoc) : Bool :=
  match field, docA.field, docB.field with
  | .FIELD_SCORE, .score r1, .score r2 => r1 < r2
  | .STRING _ true, .string s1, .string s2 =>
    match s1, s2 with
    | _, none => false
    | none, some _ => true
    | some s1, some s2 => s1 < s2
  | .STRING _ false, .string s1, .string s2 =>
    match s1, s2 with
    | none, _ => false
    | some _, none => true
    | some s1, some s2 => s2 < s1
  | _, _, _ => false

/-- `Searchable`, as far as it is called. -/
structure Searchable (Query : Type*) where
  maxDoc : ℕ
  _search : Query → ℕ → SortField → Except Failure TopFieldDocs

/-- The searchables up to the first null pointer. -/
structure MultiSearcher (Query : Type*) where
  searchables : List (Searchable Query)

namespace MultiSearcher

variable {Query : Type*}

/-- The queue, which is made when the first index has answered. -/
def queue (docs : TopFieldDocs) : Option (SortField × Heap FieldDoc) → Except Failure (SortField × Heap FieldDoc)
  | some hq => .ok hq
  | none =>
    match docs.fields with
    | some fields => .ok (fields, ⟨0, fun _ => default⟩)
    | none => .error .nullPointer

/-- The loop of `_search` over the indexes that are left; `start` is the number of the first
document of the next one. -/
def loop (query : Query) (n : ℕ) (sort : SortField) : List (Searchable Query) → ℕ →
    Option (SortField × Heap FieldDoc) → ℕ → Except Failure (Option (SortField × Heap FieldDoc) × ℕ)
  | [], _, hq, totalHits => .ok (hq, totalHits)
  | searchable :: searchables, start, hq, totalHits =>
    match searchable._search query n sort with
    | .error e => .error e
    | .ok docs =>
      match queue docs hq with
      | .error e => .error e
      | .ok (fields, heap) =>
        let fieldDocs := docs.fieldDocs.map fun d => { d with doc := d.doc + start }
        let heap := Heap.insertAll (FieldDocSortedHitQueue.lessThan fields) n heap fieldDocs
        loop query n sort searchables (start + searchable.maxDoc) (some (fields, heap)) (totalHits + docs.totalHits)

def _search (s : MultiSearcher Query) (query : Query) (n : ℕ) (sort : SortField) : Except Failure TopFieldDocs :=
  match loop query n sort s.searchables 0 none 0 with
  | .error e => .error e
  | .ok (none, _) => .error .nullPointer
  | .ok (some (fields, heap), totalHits) =>
    .ok ⟨totalHits, heap.drain (FieldDocSortedHitQueue.lessThan fields) heap.size, some fields⟩

end MultiSearcher

/-- `Hits` of a `MultiSearcher`; of a hit its document number. -/
structure Hits (Query : Type*) where
  searcher : MultiSearcher Query
  query : Query
  sort : SortField
  hitDocs : List ℕ
  _length : ℕ
  _lengthAtStart : ℕ
  nDeletedHits : ℕ

namespace Hits

variable {Query : Type*}

/-- The hits so far are looked for among the new ones: how many are found, and how many are not. -/
def findStart : List ℕ → List ℕ → ℕ × ℕ
  | [], _ => (0, 0)
  | _ :: _, [] => (0, 0)
  | id1 :: hitDocs, id2 :: scoreDocs =>
    if id1 = id2 then
      let (i2, nDeletedHits) := findStart hitDocs scoreDocs
      (i2 + 1, nDeletedHits)
    else
      let (i2, nDeletedHits) := findStart hitDocs (id2 :: scoreDocs)
      (i2, nDeletedHits + 1)

/-- The hits of a new search are added; the deletions of a `MultiSearcher` cannot be counted. -/
def addDocs (h : Hits Query) (topDocs : TopFieldDocs) : Hits Query :=
  let scoreDocs := topDocs.fieldDocs.map (·.doc)
  let (start, nDeletedHits) := findStart h.hitDocs scoreDocs
  let stop := if scoreDocs.length < topDocs.totalHits then scoreDocs.length else topDocs.totalHits
  { h with
    hitDocs := h.hitDocs ++ (scoreDocs.take stop).drop start
    _length := topDocs.totalHits + nDeletedHits
    nDeletedHits := nDeletedHits }

def getMoreDocs (h : Hits Query) (m : ℕ) : Except Failure (Hits Query) :=
  let min := if h.hitDocs.length > m then h.hitDocs.length else m
  let n := min * 2
  match h.searcher._search h.query n h.sort with
  | .error e => .error e
  | .ok topDocs => .ok (h.addDocs topDocs)

/-- The constructor. -/
def new (searcher : MultiSearcher Query) (query : Query) (sort : SortField) : Except Failure (Hits Query) :=
  match getMoreDocs ⟨searcher, query, sort, [], 0, 0, 0⟩ 50 with
  | .error e => .error e
  | .ok h => .ok { h with _lengthAtStart := h._length }

def length (h : Hits Query) : ℕ := h._length

end Hits

end QDesktopSearch
