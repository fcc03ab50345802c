import Mathlib.Data.List.Lex
import Mathlib.Data.List.Sort
import Mathlib.Data.Prod.Lex
import QDesktopSearch.Model.Lucy
import QDesktopSearch.Model.MultiSearcher

/-!
# A sorted search in one index

`FieldCacheImpl::getStringIndex` numbers the terms of a field; a `FieldSortedHitQueue` sorts the
documents that a query finds by these numbers. A scorer gives the documents it visits, each with
its score. A term is at most as long as the index takes it, and a score is not normalized.
-/

namespace QDesktopSearch

/-- Code units by their value, as `_tcscmp` compares them. -/
instance : LinearOrder QChar where
  le_refl _ := UInt16.le_refl _
  le_trans _ _ _ := UInt16.le_trans
  le_antisymm _ _ := UInt16.le_antisymm
  le_total := UInt16.le_total
  lt_iff_le_not_ge a b := by
    rw [UInt16.not_le]
    exact ⟨fun h => ⟨UInt16.le_of_lt h, h⟩, And.right⟩
  toDecidableLE := inferInstance

/-- `Term::compareTo`: by field, then by text. -/
instance : LinearOrder Term := LinearOrder.lift' (fun t => toLex (t.field, t.text)) fun s t h => by
  obtain ⟨hfield, htext⟩ := Prod.mk.inj (toLex.injective h)
  cases s
  cases t
  simp_all

variable (E : Env)

/-- The terms under which a document is indexed. -/
def Document.terms (d : Document) : List Term :=
  d.flatMap fun f => (if f.tokenized then E.tokens f.value else [f.value]).map fun text => ⟨f.name, text⟩

/-- `IndexReader::terms`: the terms from `t` on, in their order; those of deleted documents count. -/
def IndexReader.terms (r : IndexReader Document) (t : Term) : List Term :=
  ((r.slots.flatMap fun s => s.val.terms E).dedup.filter (t ≤ ·)).insertionSort (· ≤ ·)

/-! ## `FieldCacheImpl` -/

/-- `FieldCache::StringIndex`: the terms by number, of which the first is null, and the number
of a term of each document. -/
structure StringIndex where
  order : List ℕ
  lookup : List (Option QString)

namespace FieldCacheImpl

/-- The loop of `getStringIndex` over the terms that are left. -/
def getStringIndexLoop (reader : IndexReader Document) (field : QString) : List Term → StringIndex →
    Except Failure StringIndex
  | [], value => .ok value
  | term :: termEnum, value =>
    if term.field ≠ field then .ok value
    else
      let t := value.lookup.length
      -- we expect that there is at most one term per document
      if t ≥ reader.maxDoc + 1 then .error (.CLuceneError "there are more terms than documents in field")
      else
        let order := (reader.termDocs E.engine term).foldl (fun order doc => order.set doc t) value.order
        getStringIndexLoop reader field termEnum ⟨order, value.lookup ++ [some term.text]⟩

def getStringIndex (reader : IndexReader Document) (field : QString) : Except Failure StringIndex :=
  let retLen := reader.maxDoc
  let value : StringIndex := ⟨List.replicate retLen 0, [none]⟩
  if retLen > 0 then
    match reader.terms E ⟨field, []⟩ with
    | [] => .error (.CLuceneError "no terms in field")
    | termEnum => getStringIndexLoop E reader field termEnum value
  else .ok value

end FieldCacheImpl

/-! ## `FieldSortedHitQueue` -/

/-- The comparators for the two types that `searcher` sorts by. -/
inductive ScoreDocComparator where
  | Relevance
  | String (index : StringIndex)

namespace ScoreDocComparator

def compare (comparator : ScoreDocComparator) (i j : FieldDoc) : ℤ :=
  match comparator with
  | .Relevance => if i.score > j.score then -1 else if i.score < j.score then 1 else 0
  | .String index =>
    let i := index.order.getD i.doc 0
    let j := index.order.getD j.doc 0
    if i < j then -1 else if i > j then 1 else 0

def sortValue (comparator : ScoreDocComparator) (i : FieldDoc) : SortValue :=
  match comparator with
  | .Relevance => .score i.score
  | .String index => .string (index.lookup.getD (index.order.getD i.doc 0) none)

end ScoreDocComparator

def SortField.getReverse : SortField → Bool
  | .FIELD_SCORE => false
  | .STRING _ reverse => reverse

namespace FieldSortedHitQueue

/-- `getCachedComparator`. -/
def getCachedComparator (reader : IndexReader Document) : SortField → Except Failure ScoreDocComparator
  | .FIELD_SCORE => .ok .Relevance
  | .STRING field _ =>
    match FieldCacheImpl.getStringIndex E reader field with
    | .error e => .error e
    | .ok index => .ok (.String index)

/-- `lessThan`: the first is sorted behind the second. -/
def lessThan (sort : SortField) (comparator : ScoreDocComparator) (docA docB : FieldDoc) : Bool :=
  let c := if sort.getReverse then comparator.compare docB docA else comparator.compare docA docB
  if c = 0 then docA.doc > docB.doc else c > 0

/-- `fillFields`. -/
def fillFields (comparator : ScoreDocComparator) (doc : FieldDoc) : FieldDoc :=
  { doc with field := comparator.sortValue doc }

end FieldSortedHitQueue

/-! ## `IndexSearcher` -/

/-- An open index, and what the scorer of a query visits there; a query may have no scorer. A
scorer visits documents that are not deleted, each once. -/
structure IndexSearcher (Query : Type*) where
  reader : IndexReader Document
  scorer : Query → Except Failure (Option (List (ℕ × ℚ)))
  visits : ∀ {query scored}, scorer query = .ok (some scored) →
    (scored.map (·.1)).Nodup ∧ ∀ d ∈ scored, (reader.document d.1).isSome = true

namespace IndexSearcher

variable {Query : Type*}

/-- `SortedTopDocsCollector::collect` ignores what has no score. -/
def collect (scored : List (ℕ × ℚ)) : List FieldDoc :=
  (scored.filter fun d => 0 < d.2).map fun d => ⟨d.1, d.2, default⟩

def _search (x : IndexSearcher Query) (query : Query) (nDocs : ℕ) (sort : SortField) : Except Failure TopFieldDocs :=
  match x.scorer query with
  | .error e => .error e
  | .ok none => .ok ⟨0, [], none⟩
  | .ok (some scored) =>
    match FieldSortedHitQueue.getCachedComparator E x.reader sort with
    | .error e => .error e
    | .ok comparator =>
      let lessThan := FieldSortedHitQueue.lessThan sort comparator
      let hq := (collect scored).foldl (fun hq fd => (Heap.insert lessThan nDocs hq fd).2) ⟨0, fun _ => default⟩
      let fieldDocs := (hq.drain lessThan hq.size).map (FieldSortedHitQueue.fillFields comparator)
      .ok ⟨(collect scored).length, fieldDocs, some sort⟩

def searchable (x : IndexSearcher Query) : Searchable Query := ⟨x.reader.maxDoc, x._search E⟩

end IndexSearcher

/-- `MultiSearcher::doc`, over its indexes. -/
def MultiSearcher.doc {Query : Type*} : List (IndexSearcher Query) → ℕ → Option Document
  | [], _ => none
  | x :: searchables, n =>
    if n < x.reader.maxDoc then x.reader.document n else doc searchables (n - x.reader.maxDoc)

/-- `Hits::getHitDoc`; of a hit its document number. -/
def Hits.getHitDoc {Query : Type*} (h : Hits Query) (n : ℕ) : Except Failure (ℕ × Hits Query) :=
  if n ≥ h._lengthAtStart then .error (.CLuceneError "Not a valid hit number")
  else
    match if n ≥ h.hitDocs.length then h.getMoreDocs n else .ok h with
    | .error e => .error e
    | .ok h =>
      if n ≥ h._length then .error (.CLuceneError "Not a valid hit number")
      else
        match h.hitDocs[n]? with
        | some id => .ok (id, h)
        | none => .error .nullPointer  -- behind the end of the vector

end QDesktopSearch
