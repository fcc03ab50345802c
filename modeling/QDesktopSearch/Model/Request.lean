import QDesktopSearch.Model.MultiSearcher

/-!
# `searcher` between requests

The members of `searcher` that belong to a request, and the calls that change them. An error of
CLucene escapes from where it is thrown, as nothing catches it, and leaves the members as they
are at that moment.
-/

namespace QDesktopSearch

/-- A search string and the field it is for. -/
abbrev SearchInput := QString × QString

/-- What `searcher` calls: the parser, with the analyzer of the program, and the indexes. -/
structure CLucene (Query : Type*) where
  /-- `QueryParser::parse` of a text for a field. -/
  parse : QString → QString → Except Failure Query
  /-- `lucysearcher::open` and `getSearcher` for a root. -/
  openSearcher : QString → Except Failure (Searchable (List Query))

/-- The default of `BooleanQuery::getMaxClauseCount`. -/
def LUCENE_BOOLEANQUERY_MAXCLAUSECOUNT : ℕ := 1024

/-- Null pointers are `none`; a `BooleanQuery` is the list of its clauses, which are all `SHOULD`. -/
structure Searcher (Query : Type*) where
  m_lucysearchables : List (Searchable (List Query))
  m_pMultiSearcher : Option (MultiSearcher (List Query))
  m_lpSearchinputs : List SearchInput
  m_query : Option (List Query)
  m_query4highlight : Option (List Query)
  m_sort : Option SortField
  m_hits : Option (Hits (List Query))

namespace Searcher

variable {Query : Type*} (C : CLucene Query)

/-- `cleanup`. -/
def cleanup (_ : Searcher Query) : Searcher Query := ⟨[], none, [], none, none, none, none⟩

def getHitCount (s : Searcher Query) : ℕ :=
  match s.m_hits with
  | none => 0
  | some m_hits => m_hits.length

/-- `BooleanQuery::add`. -/
def add (clauses : Option (List Query)) (query : Query) : Except Failure (Option (List Query)) :=
  match clauses with
  | none => .error .nullPointer
  | some clauses =>
    if clauses.length ≥ LUCENE_BOOLEANQUERY_MAXCLAUSECOUNT then .error (.CLuceneError "Too Many Clauses")
    else .ok (some (clauses ++ [query]))

/-- The loop of `search` over the roots. -/
def openSearchers : List QString → Searcher Query → Except Failure Unit × Searcher Query
  | [], s => (.ok (), s)
  | sDir2Index :: roots, s =>
    match C.openSearcher sDir2Index with
    | .error e => (.error e, s)
    | .ok pLucySearcher => openSearchers roots { s with m_lucysearchables := s.m_lucysearchables ++ [pLucySearcher] }

/-- The text that is parsed for the highlighting. -/
def text4highlight (sSearchString : QString) : QString := replaceAll (qs "*") [] sSearchString

/-- The loop of `search` over the inputs. -/
def addInputs : List SearchInput → Searcher Query → Except Failure Unit × Searcher Query
  | [], s => (.ok (), s)
  | (sSearchString, sSearchField) :: inputs, s =>
    match C.parse sSearchString sSearchField with
    | .error e => (.error e, s)
    | .ok query =>
      match add s.m_query query with
      | .error e => (.error e, s)
      | .ok m_query =>
        let s := { s with m_query := m_query }
        match C.parse (text4highlight sSearchString) sSearchField with
        | .error e => (.error e, s)
        | .ok query4highlight =>
          match add s.m_query4highlight query4highlight with
          | .error e => (.error e, s)
          | .ok m_query4highlight => addInputs inputs { s with m_query4highlight := m_query4highlight }

/-- `Searcher::search` of the `MultiSearcher`, with the sort and the queries that are set. -/
def newHits (s : Searcher Query) : Except Failure (Hits (List Query)) :=
  match s.m_pMultiSearcher, s.m_query, s.m_sort with
  | some m_pMultiSearcher, some m_query, some m_sort => Hits.new m_pMultiSearcher m_query m_sort
  | _, _, _ => .error .nullPointer

/-- `search`, over the roots that are registered; the number of hits or how it fails. -/
def search (roots : List QString) (lpSearchinputs : List SearchInput) (s : Searcher Query) :
    Except Failure ℕ × Searcher Query :=
  let s := { cleanup s with m_lpSearchinputs := lpSearchinputs }
  if lpSearchinputs.length < 1 then (.ok 0, s)
  else
    match openSearchers C roots s with
    | (.error e, s) => (.error e, s)
    | (.ok (), s) =>
      let s := { s with m_pMultiSearcher := some ⟨s.m_lucysearchables⟩, m_query := some [], m_query4highlight := some [] }
      match addInputs C lpSearchinputs s with
      | (.error e, s) => (.error e, s)
      | (.ok (), s) =>
        let s := { s with m_sort := some .FIELD_SCORE }
        match newHits s with
        | .error e => (.error e, s)
        | .ok m_hits => (.ok m_hits.length, { s with m_hits := some m_hits })

/-- `Qt::SortOrder`. -/
inductive SortOrder where
  | AscendingOrder
  | DescendingOrder
  deriving DecidableEq

def sortBy (sSortFieldName : QString) (order : SortOrder) (s : Searcher Query) : Except Failure Unit × Searcher Query :=
  match s.m_pMultiSearcher with
  | none => (.ok (), s)  -- not yet searched
  | some _ =>
    let bReverse := decide (order = .AscendingOrder)
    let s := { s with m_hits := none, m_sort := some (.STRING sSortFieldName bReverse) }
    match newHits s with
    | .error e => (.error e, s)
    | .ok m_hits => (.ok (), { s with m_hits := some m_hits })

end Searcher

end QDesktopSearch
