import QDesktopSearch.Proof.Session
import QDesktopSearch.Proof.SortedHits

/-!
# Sorting the hits by file

`search_iff`: a sorted search goes through where the unsorted one does and every index that is
searched fits its words. `page_best`: a page has the best hits, by the greatest words of their paths.

`Searcher.sortBy_sorts`: what decides whether `sortBy` sorts by path is therefore the greatest
word of each path. There must not be more words than documents, and the order of these words,
the wrong way round for either direction, must be that of the paths.
-/

namespace QDesktopSearch

open Heap

variable {Query : Type*} {E : Env} {sort : SortField} {query : Query} {n : ℕ}

/-! ## When a search goes through -/

/-- The index can be sorted. -/
def SortField.Applies (E : Env) (r : IndexReader Document) : SortField → Prop
  | .FIELD_SCORE => True
  | .STRING field _ => Fits E field r

theorem getCachedComparator_ok_iff {r : IndexReader Document} :
    (∃ comparator, FieldSortedHitQueue.getCachedComparator E r sort = .ok comparator) ↔ sort.Applies E r := by
  match sort with
  | .FIELD_SCORE => exact iff_of_true ⟨_, rfl⟩ trivial
  | .STRING field reverse =>
    rw [SortField.Applies, ← getStringIndex_ok_iff, FieldSortedHitQueue.getCachedComparator]
    cases FieldCacheImpl.getStringIndex E r field with
    | error e =>
      refine iff_of_false ?_ ?_
      · rintro ⟨_, h⟩
        cases h
      · rintro ⟨_, h⟩
        cases h
    | ok index => exact iff_of_true ⟨_, rfl⟩ ⟨_, rfl⟩

namespace IndexSearcher

variable {x : IndexSearcher Query}

/-- The query has a scorer in the index. -/
def Scores (query : Query) (x : IndexSearcher Query) : Prop := ∃ scored, x.scorer query = .ok (some scored)

theorem answers_iff : MultiSearcher.Answers query n sort (x.searchable E) ↔
    (∃ scored, x.scorer query = .ok scored) ∧ (x.Scores query → sort.Applies E x.reader) := by
  rw [← getCachedComparator_ok_iff]
  change (∃ docs, x._search E query n sort = .ok docs) ↔ _
  constructor
  · rintro ⟨docs, h⟩
    rcases search_eq_ok.1 h with ⟨hscorer, -⟩ | ⟨scored, comparator, hscorer, hcomparator, -⟩
    · refine ⟨⟨none, hscorer⟩, ?_⟩
      rintro ⟨scored, hscored⟩
      rw [hscorer] at hscored
      cases hscored
    · exact ⟨⟨some scored, hscorer⟩, fun _ => ⟨comparator, hcomparator⟩⟩
  · rintro ⟨⟨scored, hscorer⟩, hcomparator⟩
    cases scored with
    | none => exact ⟨_, search_eq_ok.2 (Or.inl ⟨hscorer, rfl⟩)⟩
    | some scored =>
      obtain ⟨comparator, hcomparator⟩ := hcomparator ⟨scored, hscorer⟩
      exact ⟨_, search_eq_ok.2 (Or.inr ⟨scored, comparator, hscorer, hcomparator, rfl⟩)⟩

theorem fields_iff {docs : TopFieldDocs} (h : x._search E query n sort = .ok docs) :
    docs.fields ≠ none ↔ x.Scores query := by
  rcases search_eq_ok.1 h with ⟨hscorer, rfl⟩ | ⟨scored, comparator, hscorer, -, rfl⟩
  · refine iff_of_false (fun hne => hne rfl) ?_
    rintro ⟨scored, hscored⟩
    rw [hscorer] at hscored
    cases hscored
  · exact iff_of_true (Option.some_ne_none _) ⟨scored, hscorer⟩

end IndexSearcher

namespace MultiSearcher

variable {xs : List (IndexSearcher Query)} {start : ℕ}

/-- The query can be evaluated: there is an index, no scorer fails and the first index has one. -/
structure Evaluates (query : Query) (xs : List (IndexSearcher Query)) : Prop where
  indexes : xs ≠ []
  scorers : ∀ x ∈ xs, ∃ scored, x.scorer query = .ok scored
  first : ∀ x ∈ xs.head?, x.Scores query

/-- **When a search goes through**, whatever the page. -/
theorem search_iff : (∃ docs, _search ⟨xs.map (·.searchable E)⟩ query n sort = .ok docs) ↔
    Evaluates query xs ∧ ∀ x ∈ xs, x.Scores query → sort.Applies E x.reader := by
  rw [search_ok_iff]
  simp only [List.forall_mem_map, IndexSearcher.answers_iff, ne_eq, List.map_eq_nil_iff, HasScorer, List.head?_map]
  constructor
  · rintro ⟨hne, hanswers, hfirst⟩
    refine ⟨⟨hne, fun x hx => (hanswers x hx).1, fun x hx => ?_⟩, fun x hx => (hanswers x hx).2⟩
    have hanswer : Answers query n sort (x.searchable E) :=
      IndexSearcher.answers_iff.2 (hanswers x (List.mem_of_mem_head? hx))
    obtain ⟨docs, hdocs⟩ := hanswer
    have hx' : x.searchable E ∈ xs.head?.map (·.searchable E) := Option.mem_map_of_mem _ hx
    exact (IndexSearcher.fields_iff hdocs).1 (hfirst _ hx' docs hdocs)
  · rintro ⟨⟨hne, hscorers, hfirst⟩, happlies⟩
    refine ⟨hne, fun x hx => ⟨hscorers x hx, happlies x hx⟩, fun y hy docs hdocs => ?_⟩
    obtain ⟨x, hx, rfl⟩ := Option.mem_map.1 hy
    exact (IndexSearcher.fields_iff hdocs).2 (hfirst x hx)

/-! ## The hits by their numbers -/

/-- What the query finds in the indexes, by number. -/
def found (query : Query) : List (IndexSearcher Query) → ℕ → List ℕ
  | [], _ => []
  | x :: xs, start => (x.found query).map (fun fd => fd.doc + start) ++ found query xs (start + x.reader.maxDoc)

theorem entries_doc (E : Env) (sort : SortField) : (entries E sort query xs start).map (·.doc) = found query xs start := by
  induction xs generalizing start with
  | nil => rfl
  | cons x xs ih =>
    rw [entries, found, List.map_append, ih, IndexSearcher.entries, List.map_map]
    rfl

theorem found_ge {m : ℕ} (h : m ∈ found query xs start) : start ≤ m := by
  induction xs generalizing start with
  | nil => exact absurd h List.not_mem_nil
  | cons x xs ih =>
    rcases List.mem_append.1 h with h | h
    · obtain ⟨fd, -, rfl⟩ := List.mem_map.1 h
      exact Nat.le_add_left _ _
    · have hge := ih h
      omega

/-- The numbers tell the documents apart. -/
theorem found_nodup : (found query xs start).Nodup := by
  induction xs generalizing start with
  | nil => exact List.nodup_nil
  | cons x xs ih =>
    have hone : ((x.found query).map fun fd => fd.doc + start).Nodup := by
      have hnodup : ((x.found query).map (·.doc)).Nodup := IndexSearcher.found_nodup
      have hshift := hnodup.map fun a b (hab : a + start = b + start) => Nat.add_right_cancel hab
      rwa [List.map_map] at hshift
    rw [found, List.nodup_append]
    refine ⟨hone, ih, fun a ha b hb hab => ?_⟩
    obtain ⟨fd, hfd, rfl⟩ := List.mem_map.1 ha
    have hlt := IndexSearcher.found_lt hfd
    have hge := found_ge hb
    omega

/-- **The value of a hit** is that of the document that its number denotes. -/
theorem entries_value {fd : FieldDoc} (h : fd ∈ entries E sort query xs start) :
    fd.field = sort.valueOf E (doc xs (fd.doc - start)) fd.score := by
  induction xs generalizing start with
  | nil => exact absurd h List.not_mem_nil
  | cons x xs ih =>
    rcases List.mem_append.1 h with h | h
    · obtain ⟨fd', hfd', rfl⟩ := List.mem_map.1 h
      rw [doc, Nat.add_sub_cancel, if_pos (IndexSearcher.found_lt hfd')]
    · have hdoc : fd.doc ∈ found query xs (start + x.reader.maxDoc) := by
        rw [← entries_doc]
        exact List.mem_map_of_mem h
      have hge := found_ge hdoc
      rw [ih h, doc, if_neg (by omega), Nat.sub_sub]

/-- The greatest word of the path of a hit. -/
def pathWord (E : Env) (xs : List (IndexSearcher Query)) (m : ℕ) : WithBot QString :=
  lastWordAt E FIELDNAME_ABSPATHNAME (doc xs m)

/-- The first hit is sorted behind the second, by these words. -/
def wordBehind (E : Env) (reverse : Bool) (xs : List (IndexSearcher Query)) (a b : ℕ) : Bool :=
  (SortField.STRING FIELDNAME_ABSPATHNAME reverse).behind (.string (pathWord E xs a)) (.string (pathWord E xs b))

/-- A page of a search. -/
theorem page_spec (h : ∃ docs, _search ⟨xs.map (·.searchable E)⟩ query n sort = .ok docs) :
    ∃ fds : List FieldDoc, Hits.Page ⟨xs.map (·.searchable E)⟩ query sort (found query xs 0).length n (fds.map (·.doc)) ∧
      Best sort.behindBy n (entries E sort query xs 0) fds ∧ fds.Pairwise fun a b => sort.behindBy a b = false := by
  obtain ⟨docs, hdocs⟩ := h
  obtain ⟨htotal, hbest, hsorted⟩ := search_spec hdocs
  rw [← entries_doc E sort, List.length_map]
  exact ⟨docs.fieldDocs, ⟨docs, hdocs, htotal, rfl⟩, hbest, hsorted⟩

/-- **A page sorted by path** has the best hits by the greatest words. -/
theorem page_best {reverse : Bool}
    (h : ∃ docs, _search ⟨xs.map (·.searchable E)⟩ query n (.STRING FIELDNAME_ABSPATHNAME reverse) = .ok docs) :
    ∃ ids, Hits.Page ⟨xs.map (·.searchable E)⟩ query (.STRING FIELDNAME_ABSPATHNAME reverse)
      (found query xs 0).length n ids ∧ Hits.BestPage (wordBehind E reverse xs) (found query xs 0) n ids := by
  obtain ⟨fds, hpage, hbest, hsorted⟩ := page_spec h
  have hvalue : ∀ fd ∈ entries E (.STRING FIELDNAME_ABSPATHNAME reverse) query xs 0,
      fd.field = .string (pathWord E xs fd.doc) := fun fd hfd => entries_value hfd
  have hbehind : ∀ a ∈ entries E (.STRING FIELDNAME_ABSPATHNAME reverse) query xs 0,
      ∀ b ∈ entries E (.STRING FIELDNAME_ABSPATHNAME reverse) query xs 0,
      wordBehind E reverse xs a.doc b.doc = (SortField.STRING FIELDNAME_ABSPATHNAME reverse).behindBy a b := by
    intro a ha b hb
    rw [SortField.behindBy, hvalue a ha, hvalue b hb, wordBehind]
  have hin : ∀ fd ∈ fds, fd ∈ entries E (.STRING FIELDNAME_ABSPATHNAME reverse) query xs 0 :=
    fun fd hfd => Multiset.mem_coe.1 (hbest.mem (Multiset.mem_coe.2 hfd))
  refine ⟨_, hpage, ?_, ?_⟩
  · have hmap := hbest.map (wordBehind E reverse xs) (·.doc) fun a ha b hb hab => by
      rwa [hbehind a ha b hb] at hab
    rwa [Multiset.map_coe, Multiset.map_coe, entries_doc] at hmap
  · rw [List.pairwise_map]
    refine hsorted.imp_of_mem fun ha hb hab => ?_
    rwa [hbehind _ (hin _ ha) _ (hin _ hb)]

end MultiSearcher

/-! ## Sorting by file -/

namespace Searcher

open MultiSearcher

/-- Paths in the order that is asked for. -/
def SortOrder.InOrder : SortOrder → QString → QString → Prop
  | .AscendingOrder, a, b => a ≤ b
  | .DescendingOrder, a, b => b ≤ a

variable {xs : List (IndexSearcher (List Query))} {queries : List Query} {order : SortOrder} {s : Searcher Query}

/-- The stored path of a hit. -/
def pathname (xs : List (IndexSearcher (List Query))) (m : ℕ) : QString :=
  ((doc xs m).bind fun d => d.get FIELDNAME_ABSPATHNAME).getD []

/-- `sortBy` goes through, and the rows are then what the query finds in the order of the paths. -/
def SortsByFile (xs : List (IndexSearcher (List Query))) (queries : List Query) (order : SortOrder)
    (s : Searcher Query) : Prop :=
  ∃ s' hits rows, sortBy FIELDNAME_ABSPATHNAME order s = (.ok (), s') ∧ s'.m_hits = some hits ∧ hits.Shows rows ∧
    rows.Perm (found queries xs 0) ∧ rows.Pairwise fun a b => order.InOrder (pathname xs a) (pathname xs b)

/-- The indexes that are searched have no more words in the paths than documents. -/
def FitsAll (E : Env) (xs : List (IndexSearcher (List Query))) (queries : List Query) : Prop :=
  ∀ x ∈ xs, x.Scores queries → Fits E FIELDNAME_ABSPATHNAME x.reader

/-- A hit with a greater word than another has no greater path. -/
def Reversed (E : Env) (xs : List (IndexSearcher (List Query))) (queries : List Query) : Prop :=
  ∀ a ∈ found queries xs 0, ∀ b ∈ found queries xs 0, pathWord E xs b < pathWord E xs a →
    pathname xs a ≤ pathname xs b

/-- Hits with the same greatest word have the same path, and are on one page. -/
def TiesHarmless (E : Env) (xs : List (IndexSearcher (List Query))) (queries : List Query) : Prop :=
  ∀ a ∈ found queries xs 0, ∀ b ∈ found queries xs 0, a ≠ b → pathWord E xs a = pathWord E xs b →
    pathname xs a = pathname xs b ∧ (found queries xs 0).length ≤ 100

/-- The words are compared the wrong way round for the order that is asked for. -/
theorem wordBehind_false_iff {a b : ℕ} : wordBehind E (decide (order = .AscendingOrder)) xs a b = false ↔
    match order with
    | .AscendingOrder => pathWord E xs b ≤ pathWord E xs a
    | .DescendingOrder => pathWord E xs a ≤ pathWord E xs b := by
  rw [← not_iff_not, Bool.not_eq_false]
  cases order with
  | AscendingOrder => exact decide_eq_true_iff.trans not_le.symm
  | DescendingOrder => exact decide_eq_true_iff.trans not_le.symm

/-- **Rows sorted by the words** are in the order of the paths where that is the order of the words. -/
theorem inOrder_of_words {rows : List ℕ} (hrev : Reversed E xs queries) (hties : TiesHarmless E xs queries)
    (hperm : rows.Perm (found queries xs 0))
    (hsorted : rows.Pairwise fun a b => wordBehind E (decide (order = .AscendingOrder)) xs a b = false) :
    rows.Pairwise fun a b => order.InOrder (pathname xs a) (pathname xs b) := by
  have hboth := hsorted.and (hperm.nodup_iff.2 found_nodup)
  refine hboth.imp_of_mem fun {a b} ha hb hab => ?_
  obtain ⟨hwords, hne⟩ := hab
  have ha := hperm.mem_iff.1 ha
  have hb := hperm.mem_iff.1 hb
  rw [wordBehind_false_iff] at hwords
  cases order with
  | AscendingOrder =>
    rcases lt_or_eq_of_le hwords with hlt | heq
    · exact hrev a ha b hb hlt
    · exact (hties a ha b hb hne heq.symm).1.le
  | DescendingOrder =>
    rcases lt_or_eq_of_le hwords with hlt | heq
    · exact hrev b hb a ha hlt
    · exact (hties a ha b hb hne heq).1.ge

/-- **Rows sorted by the words and by the paths** at once show that the orders agree. -/
theorem reversed_of_rows {rows : List ℕ} (hperm : rows.Perm (found queries xs 0))
    (hsorted : rows.Pairwise fun a b => wordBehind E (decide (order = .AscendingOrder)) xs a b = false)
    (hpaths : rows.Pairwise fun a b => order.InOrder (pathname xs a) (pathname xs b)) : Reversed E xs queries := by
  intro a ha b hb hlt
  have hne : a ≠ b := fun h => lt_irrefl _ (h ▸ hlt)
  let R : ℕ → ℕ → Prop := fun a b =>
    wordBehind E (decide (order = .AscendingOrder)) xs a b = false ∧ order.InOrder (pathname xs a) (pathname xs b)
  -- one of the two stands before the other
  have hboth : rows.Pairwise fun a b => R a b ∨ R b a := (hsorted.and hpaths).imp Or.inl
  have hsymm : Std.Symm fun a b => R a b ∨ R b a := ⟨fun _ _ h => h.symm⟩
  have hor := hboth.forall (hperm.mem_iff.2 ha) (hperm.mem_iff.2 hb) hne
  simp only [R, wordBehind_false_iff] at hor
  cases order with
  | AscendingOrder => exact hor.elim (fun h => h.2) fun h => absurd hlt (not_lt.2 h.1)
  | DescendingOrder => exact hor.elim (fun h => absurd hlt (not_lt.2 h.1)) fun h => h.2

/-- `sortBy` after a search makes new hits. -/
theorem sortsByFile_iff {ms : MultiSearcher (List Query)} (hms : s.m_pMultiSearcher = some ms)
    (hquery : s.m_query = some queries) : SortsByFile xs queries order s ↔
      ∃ hits rows, Hits.new ms queries (.STRING FIELDNAME_ABSPATHNAME (decide (order = .AscendingOrder))) = .ok hits ∧
        hits.Shows rows ∧ rows.Perm (found queries xs 0) ∧
          rows.Pairwise fun a b => order.InOrder (pathname xs a) (pathname xs b) := by
  unfold SortsByFile sortBy
  simp only [hms, newHits, hquery]
  cases Hits.new ms queries (.STRING FIELDNAME_ABSPATHNAME (decide (order = .AscendingOrder))) with
  | error e =>
    refine iff_of_false ?_ ?_
    · rintro ⟨s', hits, rows, h, -⟩
      cases h
    · rintro ⟨hits, rows, h, -⟩
      cases h
  | ok hits =>
    constructor
    · rintro ⟨s', hits', rows, h, hhits, hrest⟩
      cases h
      exact ⟨hits', rows, congrArg _ (Option.some.inj hhits), hrest⟩
    · rintro ⟨hits', rows, h, hrest⟩
      cases h
      exact ⟨_, hits, rows, rfl, rfl, hrest⟩

/-- **The pages after `sortBy`**, in a request whose search has gone through. -/
theorem pages (order : SortOrder) (hevaluates : Evaluates queries xs) (hfits : FitsAll E xs queries) (n : ℕ) :
    ∃ ids, Hits.Page ⟨xs.map (·.searchable E)⟩ queries
        (.STRING FIELDNAME_ABSPATHNAME (decide (order = .AscendingOrder))) (found queries xs 0).length n ids ∧
      Hits.BestPage (wordBehind E (decide (order = .AscendingOrder)) xs) (found queries xs 0) n ids :=
  page_best (search_iff.2 ⟨hevaluates, hfits⟩)

/-- **Where the words fit and agree** the hits are sorted. -/
theorem shows_sorted (hevaluates : Evaluates queries xs) (hfits : FitsAll E xs queries) (hrev : Reversed E xs queries)
    (hties : TiesHarmless E xs queries) :
    ∃ hits rows, Hits.new ⟨xs.map (·.searchable E)⟩ queries
        (.STRING FIELDNAME_ABSPATHNAME (decide (order = .AscendingOrder))) = .ok hits ∧ hits.Shows rows ∧
      rows.Perm (found queries xs 0) ∧ rows.Pairwise fun a b => order.InOrder (pathname xs a) (pathname xs b) := by
  -- all hits are on one page if it is asked for
  obtain ⟨rows, hpage, hbest⟩ := pages order hevaluates hfits (max 100 (found queries xs 0).length)
  have hperm : rows.Perm (found queries xs 0) :=
    Multiset.coe_eq_coe.1 (hbest.best.eq_all (Nat.le_max_right _ _))
  have hlength := hperm.length_eq
  have hfirst : Hits.Page ⟨xs.map (·.searchable E)⟩ queries
      (.STRING FIELDNAME_ABSPATHNAME (decide (order = .AscendingOrder))) rows.length 100 (rows.take 100) ∧
      (100 < rows.length → ∀ n, Hits.Page ⟨xs.map (·.searchable E)⟩ queries
        (.STRING FIELDNAME_ABSPATHNAME (decide (order = .AscendingOrder))) rows.length n (rows.take n)) := by
    rw [hlength]
    by_cases hmany : 100 < (found queries xs 0).length
    · -- no two hits tie
      have hstrict : rows.Pairwise fun a b => wordBehind E (decide (order = .AscendingOrder)) xs b a = true := by
        have hboth := hbest.sorted.and (hperm.nodup_iff.2 found_nodup)
        refine hboth.imp_of_mem fun {a b} ha hb hab => ?_
        obtain ⟨hwords, hne⟩ := hab
        by_contra hnot
        rw [Bool.not_eq_true, wordBehind_false_iff] at hnot
        rw [wordBehind_false_iff] at hwords
        have heq : pathWord E xs a = pathWord E xs b := by
          cases order with
          | AscendingOrder => exact le_antisymm hnot hwords
          | DescendingOrder => exact le_antisymm hwords hnot
        have hone := (hties a (hperm.mem_iff.1 ha) b (hperm.mem_iff.1 hb) hne heq).2
        omega
      have hpages : ∀ n, Hits.Page ⟨xs.map (·.searchable E)⟩ queries
          (.STRING FIELDNAME_ABSPATHNAME (decide (order = .AscendingOrder))) (found queries xs 0).length n
            (rows.take n) := by
        intro n
        obtain ⟨ids, hpage', hbest'⟩ := pages order hevaluates hfits n
        have hsame : (found queries xs 0 : Multiset ℕ) = rows := Multiset.coe_eq_coe.2 hperm.symm
        have hbestn := hbest'.best
        rw [hsame] at hbestn
        rwa [← hbestn.eq_take hstrict hbest'.sorted]
      exact ⟨hpages 100, fun _ => hpages⟩
    · have hmax : max 100 (found queries xs 0).length = 100 := by omega
      rw [hmax] at hpage
      rw [List.take_of_length_le (by omega)]
      exact ⟨hpage, fun h => absurd h hmany⟩
  obtain ⟨hits, hnew, hshows⟩ := Hits.shows_of_pages hfirst.1 hfirst.2
  exact ⟨hits, rows, hnew, hshows, hperm, inOrder_of_words hrev hties hperm hbest.sorted⟩

/-- **Sorted hits** are only there where the words fit and agree. -/
theorem sorted_only (hevaluates : Evaluates queries xs) {hits : Hits (List Query)} {rows : List ℕ}
    (hnew : Hits.new ⟨xs.map (·.searchable E)⟩ queries
      (.STRING FIELDNAME_ABSPATHNAME (decide (order = .AscendingOrder))) = .ok hits) (hshows : hits.Shows rows)
    (hperm : rows.Perm (found queries xs 0))
    (hpaths : rows.Pairwise fun a b => order.InOrder (pathname xs a) (pathname xs b)) :
    FitsAll E xs queries ∧ Reversed E xs queries := by
  obtain ⟨docs, hdocs, -⟩ := Hits.new_ok_iff.1 hnew
  have hfits : FitsAll E xs queries := (search_iff.1 ⟨docs, hdocs⟩).2
  have hsorted := Hits.rows_sorted (pages order hevaluates hfits) hnew hshows hperm found_nodup
  exact ⟨hfits, reversed_of_rows hperm hsorted hpaths⟩

/-- **The unsorted hits** are as many as the query finds, and these where they are on one page. -/
theorem search_shows {C : CLucene Query} {roots : List QString} {inputs : List SearchInput} {s₀ : Searcher Query}
    {n : ℕ} (hne : inputs ≠ []) (hopened : Opened C roots (xs.map (·.searchable E)))
    (hqueries : Parsed C id inputs queries) (hsearch : search C roots inputs s₀ = (.ok n, s)) :
    n = (found queries xs 0).length ∧ ((found queries xs 0).length ≤ 100 →
      ∃ hits rows, s.m_hits = some hits ∧ hits.Shows rows ∧ rows.Perm (found queries xs 0)) := by
  obtain ⟨xs', qs, hs, hits, hopened', -, hqueries', -, hhits, rfl, rfl⟩ := (search_ok_iff hne).1 hsearch
  obtain rfl := hopened'.unique hopened
  obtain rfl := hqueries'.unique hqueries
  obtain ⟨docs, hdocs, -⟩ := Hits.new_ok_iff.1 hhits
  obtain ⟨fds, hpage, hbest, -⟩ := page_spec ⟨docs, hdocs⟩
  have hlength : (fds.map (·.doc)).length ≤ (found qs xs 0).length := by
    have hcard := hbest.card
    rw [Multiset.coe_card, Multiset.coe_card] at hcard
    rw [← entries_doc E .FIELD_SCORE, List.length_map, List.length_map]
    omega
  refine ⟨congrArg Hits._length ((Hits.new_spec hpage hlength hits).1 hhits), fun hone => ?_⟩
  have hperm : (fds.map (·.doc)).Perm (found qs xs 0) := by
    rw [← entries_doc E .FIELD_SCORE] at hone ⊢
    rw [List.length_map] at hone
    exact (Multiset.coe_eq_coe.1 (hbest.eq_all hone)).map _
  have hrows : (fds.map (·.doc)).take 100 = fds.map (·.doc) := List.take_of_length_le (by omega)
  rw [← hperm.length_eq] at hpage
  obtain ⟨hits', hnew, hshows⟩ := Hits.shows_of_pages (by rwa [hrows]) fun hmany => by omega
  rw [hhits] at hnew
  obtain rfl := Except.ok.inj hnew
  exact ⟨hits, _, rfl, hshows, hperm⟩

section Request

variable {C : CLucene Query} {roots : List QString} {inputs : List SearchInput} {s₀ : Searcher Query}

/-- What a search that has gone through leaves for `sortBy`. -/
theorem sortsByFile_request (hne : inputs ≠ []) (hopened : Opened C roots (xs.map (·.searchable E)))
    (hqueries : Parsed C id inputs queries) (hsearch : search C roots inputs s₀ = (.ok n, s)) :
    Evaluates queries xs ∧ s.m_pMultiSearcher = some ⟨xs.map (·.searchable E)⟩ ∧ s.m_query = some queries := by
  obtain ⟨xs', qs, hs, hits, hopened', -, hqueries', -, hhits, -, rfl⟩ := (search_ok_iff hne).1 hsearch
  obtain rfl := hopened'.unique hopened
  obtain rfl := hqueries'.unique hqueries
  obtain ⟨docs, hdocs, -⟩ := Hits.new_ok_iff.1 hhits
  exact ⟨(MultiSearcher.search_iff.1 ⟨docs, hdocs⟩).1, rfl, rfl⟩

/-- **What sorting by file needs.** -/
theorem sortsByFile_only (hne : inputs ≠ []) (hopened : Opened C roots (xs.map (·.searchable E)))
    (hqueries : Parsed C id inputs queries) (hsearch : search C roots inputs s₀ = (.ok n, s))
    (hsorts : SortsByFile xs queries order s) : FitsAll E xs queries ∧ Reversed E xs queries := by
  obtain ⟨hevaluates, hms, hquery⟩ := sortsByFile_request hne hopened hqueries hsearch
  obtain ⟨hits, rows, hnew, hshows, hperm, hpaths⟩ := (sortsByFile_iff hms hquery).1 hsorts
  exact sorted_only hevaluates hnew hshows hperm hpaths

end Request

/-- **When the hits are sorted by file**, after a search that has gone through: the indexes must
fit, and a greater word must go with a path that is not greater. That is enough where no two hits
tie, or those that do have the same path and are on the first page. -/
theorem sortBy_sorts (E : Env) (C : CLucene Query) {roots : List QString} {inputs : List SearchInput}
    {s₀ s : Searcher Query} {n : ℕ} {xs : List (IndexSearcher (List Query))} {queries : List Query} (hne : inputs ≠ [])
    (hopened : Opened C roots (xs.map (·.searchable E))) (hqueries : Parsed C id inputs queries)
    (hsearch : search C roots inputs s₀ = (.ok n, s)) (order : SortOrder) :
    (SortsByFile xs queries order s → FitsAll E xs queries ∧ Reversed E xs queries) ∧
      (FitsAll E xs queries ∧ Reversed E xs queries ∧ TiesHarmless E xs queries → SortsByFile xs queries order s) := by
  refine ⟨sortsByFile_only hne hopened hqueries hsearch, ?_⟩
  rintro ⟨hfits, hrev, hties⟩
  obtain ⟨hevaluates, hms, hquery⟩ := sortsByFile_request hne hopened hqueries hsearch
  exact (sortsByFile_iff hms hquery).2 (shows_sorted hevaluates hfits hrev hties)

end Searcher

/-! ## Two files -/

/-- An environment with the analyzer of the program. -/
def analyzingEnv : Env :=
  { sampleEnv with tokens := fun v => (QueryParser.analyze asciiTables v).map fun t => t.termBuffer.map UInt16.ofNat }

/-- What `Lucyindexer.index` leaves of these files in a new index. -/
def writtenIndex (paths : List String) : SegmentInfos Document :=
  let info : QFileInfo := ⟨true, 10, 7000, qs "/", [], []⟩
  let index (l : Lucyindexer) (path : String) : Lucyindexer :=
    l.index analyzingEnv (qs path) (enrichMetaContents (qs path) ∅ info) info
  ((Lucyindexer.open? none).bind fun l => (paths.foldl index l).close analyzingEnv).getD []

/-- The documents of so many files, with the same score. -/
def allOf (n : ℕ) : List (ℕ × ℚ) := (List.range n).map fun k => (k, 1)

/-- The index under a query that finds every file, as that for the size of the files does. -/
def sampleSearcher (paths : List String)
    (h : ∀ n < paths.length, ((IndexReader.openOn (writtenIndex paths)).document n).isSome = true) :
    IndexSearcher (List QDesktopSearch.Query) where
  reader := IndexReader.openOn (writtenIndex paths)
  scorer _ := .ok (some (allOf paths.length))
  visits := by
    intro query scored hs
    obtain rfl : allOf paths.length = scored := Option.some.inj (Except.ok.inj hs)
    refine ⟨?_, fun d hd => ?_⟩
    · rw [allOf, List.map_map]
      exact List.nodup_range.map fun a b h => h
    · obtain ⟨k, hk, rfl⟩ := List.mem_map.1 hd
      exact h k (List.mem_range.1 hk)

namespace Searcher

open MultiSearcher

section Sample

variable {paths : List String}
  {h : ∀ n < paths.length, ((IndexReader.openOn (writtenIndex paths)).document n).isSome = true}

theorem sample_found {queries : List QDesktopSearch.Query} :
    found queries [sampleSearcher paths h] 0 = List.range paths.length := by
  have hall : IndexSearcher.collect (allOf paths.length) = (List.range paths.length).map fun k => ⟨k, 1, default⟩ := by
    have hpos : (allOf paths.length).filter (fun d => 0 < d.2) = allOf paths.length := by
      rw [List.filter_eq_self]
      intro d hd
      obtain ⟨k, -, rfl⟩ := List.mem_map.1 hd
      exact decide_eq_true one_pos
    rw [IndexSearcher.collect, hpos, allOf, List.map_map]
    rfl
  rw [found, found, List.append_nil, IndexSearcher.found]
  simp only [sampleSearcher, hall, List.map_map]
  exact List.map_id _

/-- The program over one root. -/
def sampleRoot (x : IndexSearcher (List QDesktopSearch.Query)) : CLucene QDesktopSearch.Query where
  parse := QueryParser.parse asciiTables
  openSearcher _ := .ok (x.searchable analyzingEnv)

theorem sample_opened : Opened (sampleRoot (sampleSearcher paths h)) [qs "/"]
    ([sampleSearcher paths h].map (·.searchable analyzingEnv)) := .cons rfl .nil

/-- A search of the sample goes through. -/
theorem sample_search (s₀ : Searcher QDesktopSearch.Query) : ∃ q n s,
    Parsed (sampleRoot (sampleSearcher paths h)) id [(qs "10", qs "size")] [q] ∧
      search (sampleRoot (sampleSearcher paths h)) [qs "/"] [(qs "10", qs "size")] s₀ = (.ok n, s) := by
  have haccepts : ∀ f : QString → QString, (QueryParser.parse asciiTables (f (qs "10")) (qs "size")).isOk = true →
      ∃ q, Parsed (sampleRoot (sampleSearcher paths h)) f [(qs "10", qs "size")] [q] := by
    intro f hok
    cases hparse : QueryParser.parse asciiTables (f (qs "10")) (qs "size") with
    | error e =>
      rw [hparse] at hok
      cases hok
    | ok q => exact ⟨q, .cons hparse .nil⟩
  obtain ⟨q, hq⟩ := haccepts id (by decide +kernel)
  obtain ⟨q', hq'⟩ := haccepts text4highlight (by decide +kernel)
  have hscorer : ∀ x ∈ [sampleSearcher paths h], ∃ scored, x.scorer [q] = .ok (some scored) := by
    intro x hx
    obtain rfl := List.mem_singleton.1 hx
    exact ⟨_, rfl⟩
  obtain ⟨docs, hdocs⟩ : ∃ docs, MultiSearcher._search ⟨[sampleSearcher paths h].map (·.searchable analyzingEnv)⟩ [q]
      100 .FIELD_SCORE = .ok docs := by
    refine MultiSearcher.search_iff.2 ⟨⟨List.cons_ne_nil _ _, fun x hx => ?_, fun x hx => ?_⟩, fun _ _ _ => trivial⟩
    · obtain ⟨scored, hscored⟩ := hscorer x hx
      exact ⟨some scored, hscored⟩
    · exact hscorer x (List.mem_of_mem_head? hx)
  exact ⟨q, _, _, hq, (search_ok_iff (List.cons_ne_nil _ _)).2 ⟨_, [q], [q'], _, sample_opened, by decide, hq, hq',
    Hits.new_ok_iff.2 ⟨docs, hdocs, rfl⟩, rfl, rfl⟩⟩

end Sample

example : (IndexReader.openOn (writtenIndex ["/x", "/y"])).docs.all
    (Document.hasTerm analyzingEnv.tokens ⟨qs "size", qs "10"⟩) = true := by decide +kernel

/-- A file whose path has two words. -/
theorem one_live : ∀ n < ["/d/x"].length, ((IndexReader.openOn (writtenIndex ["/d/x"])).document n).isSome = true := by
  decide +kernel

/-- Two files whose paths have one word each. -/
theorem two_live :
    ∀ n < ["/x", "/y"].length, ((IndexReader.openOn (writtenIndex ["/x", "/y"])).document n).isSome = true := by
  decide +kernel

/-- Two files of which the first has the greater word. -/
theorem reversed_live :
    ∀ n < ["/X/y", "/x"].length, ((IndexReader.openOn (writtenIndex ["/X/y", "/x"])).document n).isSome = true := by
  decide +kernel

theorem sortBy_sorts_reversed : let start : Searcher QDesktopSearch.Query := ⟨[], none, [], none, none, none, none⟩
    ∃ q n s, search (sampleRoot (sampleSearcher _ reversed_live)) [qs "/"] [(qs "10", qs "size")] start = (.ok n, s) ∧
      SortsByFile [sampleSearcher _ reversed_live] [q] .AscendingOrder s := by
  intro start
  obtain ⟨q, n, s, hqueries, hsearch⟩ := sample_search (h := reversed_live) start
  refine ⟨q, n, s, hsearch, (sortBy_sorts analyzingEnv _ (List.cons_ne_nil _ _) sample_opened hqueries hsearch
    .AscendingOrder).2 ⟨?_, ?_, ?_⟩⟩
  · intro x hx _
    obtain rfl := List.mem_singleton.1 hx
    refine ⟨Or.inr ?_, by decide +kernel⟩
    decide +kernel
  · have hall : ∀ a < 2, ∀ b < 2, pathWord analyzingEnv [sampleSearcher _ reversed_live] b <
        pathWord analyzingEnv [sampleSearcher _ reversed_live] a →
        pathname [sampleSearcher _ reversed_live] a ≤ pathname [sampleSearcher _ reversed_live] b := by decide +kernel
    intro a ha b hb
    rw [sample_found] at ha hb
    exact hall a (List.mem_range.1 ha) b (List.mem_range.1 hb)
  · have hall : ∀ a < 2, ∀ b < 2, a ≠ b → pathWord analyzingEnv [sampleSearcher _ reversed_live] a ≠
        pathWord analyzingEnv [sampleSearcher _ reversed_live] b := by decide +kernel
    intro a ha b hb hne heq
    rw [sample_found] at ha hb
    exact absurd heq (hall a (List.mem_range.1 ha) b (List.mem_range.1 hb) hne)

/-- One file whose path has two words cannot be sorted at all, and two with one word each are
sorted in the opposite order. -/
theorem sortBy_unsorted : let start : Searcher QDesktopSearch.Query := ⟨[], none, [], none, none, none, none⟩
    (∃ q n s, Parsed (sampleRoot (sampleSearcher _ one_live)) id [(qs "10", qs "size")] [q] ∧
      search (sampleRoot (sampleSearcher _ one_live)) [qs "/"] [(qs "10", qs "size")] start = (.ok n, s) ∧
        ¬SortsByFile [sampleSearcher _ one_live] [q] .AscendingOrder s) ∧
    ∃ q n s, Parsed (sampleRoot (sampleSearcher _ two_live)) id [(qs "10", qs "size")] [q] ∧
      search (sampleRoot (sampleSearcher _ two_live)) [qs "/"] [(qs "10", qs "size")] start = (.ok n, s) ∧
        ¬SortsByFile [sampleSearcher _ two_live] [q] .AscendingOrder s := by
  intro start
  constructor
  · obtain ⟨q, n, s, hqueries, hsearch⟩ := sample_search (h := one_live) start
    refine ⟨q, n, s, hqueries, hsearch, fun hsorts => ?_⟩
    obtain ⟨hfits, -⟩ := sortsByFile_only (List.cons_ne_nil _ _) sample_opened hqueries hsearch hsorts
    -- two words and one document
    have hmany : ¬((sampleSearcher _ one_live).reader.words analyzingEnv FIELDNAME_ABSPATHNAME).dedup.length ≤
        (sampleSearcher _ one_live).reader.maxDoc := by decide +kernel
    exact hmany (hfits _ List.mem_cons_self ⟨_, rfl⟩).2
  · obtain ⟨q, n, s, hqueries, hsearch⟩ := sample_search (h := two_live) start
    refine ⟨q, n, s, hqueries, hsearch, fun hsorts => ?_⟩
    obtain ⟨-, hrev⟩ := sortsByFile_only (List.cons_ne_nil _ _) sample_opened hqueries hsearch hsorts
    -- the second file has the greater word and the greater path
    have hword : pathWord analyzingEnv [sampleSearcher _ two_live] 0 < pathWord analyzingEnv [sampleSearcher _ two_live] 1 := by
      decide +kernel
    have hpath : ¬pathname [sampleSearcher _ two_live] 1 ≤ pathname [sampleSearcher _ two_live] 0 := by decide +kernel
    have hall : ∀ k < 2, k ∈ found [q] [sampleSearcher _ two_live] 0 := by
      intro k hk
      rw [sample_found]
      exact List.mem_range.2 hk
    exact hpath (hrev 1 (hall 1 (by omega)) 0 (hall 0 (by omega)) hword)

end Searcher

end QDesktopSearch
