import Mathlib.Algebra.Order.Field.Rat
import Mathlib.Order.OrderDual
import QDesktopSearch.Proof.Request
import QDesktopSearch.Proof.StringIndex

/-!
# The hits of a sorted search

`IndexSearcher.search_spec`: an index gives its best documents, sorted by their values.
`MultiSearcher.search_spec`: so does the search over several, with the best of all of them. Of
documents with the same value neither says which are given, nor in which order.
-/

namespace QDesktopSearch

open Heap

variable {Query : Type*} {E : Env} {sort : SortField} {query : Query} {n : ℕ}

/-! ## Values -/

namespace SortValue

/-- The value as a score. -/
def toScore : SortValue → ℚ
  | .score value => value
  | .string _ => 0

/-- The value as a word; no word is the least. -/
def toWord : SortValue → WithBot QString
  | .score _ => ⊥
  | .string value => value

end SortValue

namespace SortField

/-- Hits with the first value are sorted behind those with the second. -/
def behind : SortField → SortValue → SortValue → Bool
  | .FIELD_SCORE, a, b => a.toScore < b.toScore
  | .STRING _ true, a, b => a.toWord < b.toWord
  | .STRING _ false, a, b => b.toWord < a.toWord

/-- A value of the type that is sorted by. -/
def HasType : SortField → SortValue → Prop
  | .FIELD_SCORE, a => a = .score a.toScore
  | .STRING _ _, a => a = .string a.toWord

/-- Hits by their values. -/
def behindBy (sort : SortField) (a b : FieldDoc) : Bool := sort.behind a.field b.field

/-- What compares keys orders what they are the keys of. -/
theorem weakOrder_of_key {α κ : Type*} [LinearOrder κ] {lt : α → α → Bool} (key : α → κ)
    (h : ∀ a b, lt a b = true ↔ key a < key b) : WeakOrder lt := by
  have hfalse : ∀ a b, lt a b = false ↔ key b ≤ key a := by
    intro a b
    rw [← not_lt, ← h, Bool.not_eq_true]
  constructor
  · intro a b hab
    rw [hfalse]
    exact ((h a b).1 hab).le
  · intro a b c hab hbc
    rw [hfalse] at hab hbc ⊢
    exact hbc.trans hab

theorem behind_weakOrder {α : Type*} (value : α → SortValue) : WeakOrder fun a b => sort.behind (value a) (value b) := by
  match sort with
  | .FIELD_SCORE => exact weakOrder_of_key (fun a => (value a).toScore) fun a b => decide_eq_true_iff
  | .STRING _ true => exact weakOrder_of_key (fun a => (value a).toWord) fun a b => decide_eq_true_iff
  | .STRING _ false =>
    exact weakOrder_of_key (fun a => OrderDual.toDual (value a).toWord) fun a b => decide_eq_true_iff

theorem behindBy_weakOrder : WeakOrder sort.behindBy := behind_weakOrder FieldDoc.field

/-- The comparison of two words, of which either may be missing. -/
theorem word_lt_iff (s t : Option QString) : (SortValue.string s).toWord < (SortValue.string t).toWord ↔
    match s, t with
    | _, none => False
    | none, some _ => True
    | some s, some t => s < t := by
  match s, t with
  | _, none => exact iff_of_false not_lt_bot id
  | none, some t => exact iff_of_true (WithBot.bot_lt_coe t) trivial
  | some s, some t => exact WithBot.coe_lt_coe

/-- The queue that merges compares by the values. -/
theorem lessThan_agrees : AgreeOn (fun a : FieldDoc => sort.HasType a.field)
    (FieldDocSortedHitQueue.lessThan sort) sort.behindBy := by
  intro a b ha hb
  obtain ⟨_, _, va⟩ := a
  obtain ⟨_, _, vb⟩ := b
  match sort with
  | .FIELD_SCORE =>
    obtain ⟨sa, rfl⟩ : ∃ s, va = .score s := ⟨_, ha⟩
    obtain ⟨sb, rfl⟩ : ∃ s, vb = .score s := ⟨_, hb⟩
    rfl
  | .STRING field reverse =>
    obtain ⟨sa, rfl⟩ : ∃ s, va = .string s := ⟨_, ha⟩
    obtain ⟨sb, rfl⟩ : ∃ s, vb = .string s := ⟨_, hb⟩
    rw [behindBy, Bool.eq_iff_iff]
    cases reverse with
    | true =>
      rw [behind, decide_eq_true_eq, word_lt_iff]
      cases sa <;> cases sb <;> simp [FieldDocSortedHitQueue.lessThan]
    | false =>
      rw [behind, decide_eq_true_eq, word_lt_iff]
      cases sa <;> cases sb <;> simp [FieldDocSortedHitQueue.lessThan]

end SortField

/-! ## One index -/

/-- The greatest word of what a number denotes. -/
def lastWordAt (E : Env) (field : QString) : Option Document → WithBot QString
  | none => ⊥
  | some d => d.lastWord E field

/-- The value of a document for a sort. -/
def SortField.valueOf (E : Env) (sort : SortField) (d : Option Document) (score : ℚ) : SortValue :=
  match sort with
  | .FIELD_SCORE => .score score
  | .STRING field _ => .string (lastWordAt E field d)

theorem SortField.valueOf_hasType {d : Option Document} {score : ℚ} : sort.HasType (sort.valueOf E d score) := by
  match sort with
  | .FIELD_SCORE => rfl
  | .STRING _ _ => rfl

namespace FieldSortedHitQueue

variable {r : IndexReader Document} {comparator : ScoreDocComparator}

/-- The comparator of words is a string index. -/
theorem getCachedComparator_string {field : QString} {reverse : Bool}
    (h : getCachedComparator E r (.STRING field reverse) = .ok comparator) :
    ∃ index, comparator = .String index ∧ index.Indexes E r (r.fieldTerms E field) := by
  rw [getCachedComparator] at h
  cases hindex : FieldCacheImpl.getStringIndex E r field with
  | error e =>
    rw [hindex] at h
    cases h
  | ok index =>
    rw [hindex] at h
    obtain ⟨index', hindex', hindexes⟩ := getStringIndex_spec.1 (getStringIndex_ok_iff.1 ⟨index, hindex⟩)
    rw [hindex] at hindex'
    obtain rfl : index = index' := Except.ok.inj hindex'
    exact ⟨index, (Except.ok.inj h).symm, hindexes⟩

/-- A comparison in three ways, and a tie. -/
theorem threeWay_iff {κ : Type*} [LinearOrder κ] (x y : κ) (p : Prop) [Decidable p] :
    (if (if x < y then -1 else if y < x then 1 else 0 : ℤ) = 0 then decide p
      else decide (0 < (if x < y then -1 else if y < x then 1 else 0 : ℤ))) = true ↔ y < x ∨ ¬x < y ∧ p := by
  rcases lt_trichotomy x y with hlt | heq | hgt
  · have hnot := hlt.asymm
    simp [hlt, hnot]
  · simp [heq]
  · have hnot := hgt.asymm
    simp [hgt, hnot]

/-- **The queue** compares by the values, and by the numbers where the values tie. -/
theorem lessThan_iff (h : getCachedComparator E r sort = .ok comparator) (a b : FieldDoc) :
    lessThan sort comparator a b = true ↔ sort.behind (comparator.sortValue a) (comparator.sortValue b) = true ∨
      sort.behind (comparator.sortValue b) (comparator.sortValue a) = false ∧ b.doc < a.doc := by
  match sort with
  | .FIELD_SCORE =>
    obtain rfl : ScoreDocComparator.Relevance = comparator := Except.ok.inj h
    rw [SortField.behind, SortField.behind, decide_eq_true_eq, decide_eq_false_iff_not]
    exact threeWay_iff b.score a.score (b.doc < a.doc)
  | .STRING field reverse =>
    obtain ⟨index, rfl, hindexes⟩ := getCachedComparator_string h
    have hword : ∀ a, (ScoreDocComparator.sortValue (.String index) a).toWord = index.value a.doc := fun a => rfl
    have horder : ∀ a b, index.order.getD a 0 < index.order.getD b 0 ↔ index.value a < index.value b :=
      fun a b => hindexes.order_lt_iff IndexReader.fieldTerms_pairwise
    cases reverse with
    | true =>
      rw [SortField.behind, SortField.behind, decide_eq_true_eq, decide_eq_false_iff_not, hword, hword, ← horder,
        ← horder]
      exact threeWay_iff (index.order.getD b.doc 0) (index.order.getD a.doc 0) (b.doc < a.doc)
    | false =>
      rw [SortField.behind, SortField.behind, decide_eq_true_eq, decide_eq_false_iff_not, hword, hword, ← horder,
        ← horder]
      exact threeWay_iff (index.order.getD a.doc 0) (index.order.getD b.doc 0) (b.doc < a.doc)

theorem lessThan_weakOrder (h : getCachedComparator E r sort = .ok comparator) :
    WeakOrder (lessThan sort comparator) :=
  (SortField.behind_weakOrder comparator.sortValue).tieBreak (lessThan_iff h)

/-- **The value of a live document.** -/
theorem sortValue_eq (h : getCachedComparator E r sort = .ok comparator) (a : FieldDoc)
    (hlive : (r.document a.doc).isSome = true) :
    comparator.sortValue a = sort.valueOf E (r.document a.doc) a.score := by
  match sort with
  | .FIELD_SCORE =>
    obtain rfl : ScoreDocComparator.Relevance = comparator := Except.ok.inj h
    rfl
  | .STRING field reverse =>
    obtain ⟨index, rfl, hindexes⟩ := getCachedComparator_string h
    obtain ⟨d, hd⟩ := Option.isSome_iff_exists.1 hlive
    rw [hd]
    exact congrArg SortValue.string (hindexes.value_document hd)

end FieldSortedHitQueue

namespace IndexSearcher

variable {x : IndexSearcher Query} {docs : TopFieldDocs} {start : ℕ}

/-- The documents that the query finds. -/
def found (x : IndexSearcher Query) (query : Query) : List FieldDoc :=
  match x.scorer query with
  | .ok (some scored) => collect scored
  | _ => []

/-- These with their values, numbered from `start` on. -/
def entries (E : Env) (sort : SortField) (query : Query) (start : ℕ) (x : IndexSearcher Query) : List FieldDoc :=
  (x.found query).map fun fd => ⟨fd.doc + start, fd.score, sort.valueOf E (x.reader.document fd.doc) fd.score⟩

theorem found_live {fd : FieldDoc} (h : fd ∈ x.found query) : (x.reader.document fd.doc).isSome = true := by
  unfold found at h
  split at h
  · rename_i scored hscorer
    obtain ⟨d, hd, rfl⟩ := List.mem_map.1 h
    exact (x.visits hscorer).2 d (List.mem_filter.1 hd).1
  · exact absurd h List.not_mem_nil

theorem found_lt {fd : FieldDoc} (h : fd ∈ x.found query) : fd.doc < x.reader.maxDoc := by
  obtain ⟨d, hd⟩ := Option.isSome_iff_exists.1 (found_live h)
  obtain ⟨s, hs, -⟩ := Option.bind_eq_some_iff.1 hd
  rw [IndexReader.maxDoc_eq]
  exact (List.getElem?_eq_some_iff.1 hs).1

theorem found_nodup : ((x.found query).map (·.doc)).Nodup := by
  unfold found
  split
  · rename_i scored hscorer
    rw [collect, List.map_map]
    exact (x.visits hscorer).1.sublist (List.filter_sublist.map _)
  · exact List.nodup_nil

theorem entries_hasType {fd : FieldDoc} (h : fd ∈ x.entries E sort query start) : sort.HasType fd.field := by
  obtain ⟨_, _, rfl⟩ := List.mem_map.1 h
  exact SortField.valueOf_hasType

/-- What the queue of an index gives, the last first. -/
def queued (comparator : ScoreDocComparator) (sort : SortField) (n : ℕ) (scored : List (ℕ × ℚ)) : List FieldDoc :=
  let lessThan := FieldSortedHitQueue.lessThan sort comparator
  let hq := (collect scored).foldl (fun hq fd => (Heap.insert lessThan n hq fd).2) ⟨0, fun _ => default⟩
  hq.drain lessThan hq.size

/-- **How a search in one index comes to its end.** -/
theorem search_eq_ok : x._search E query n sort = .ok docs ↔
    (x.scorer query = .ok none ∧ docs = ⟨0, [], none⟩) ∨
      ∃ scored comparator, x.scorer query = .ok (some scored) ∧
        FieldSortedHitQueue.getCachedComparator E x.reader sort = .ok comparator ∧
        docs = ⟨(collect scored).length,
          (queued comparator sort n scored).map (FieldSortedHitQueue.fillFields comparator), some sort⟩ := by
  unfold _search
  cases x.scorer query with
  | error e => simp
  | ok scored =>
    cases scored with
    | none => simp [eq_comm]
    | some scored =>
      cases FieldSortedHitQueue.getCachedComparator E x.reader sort with
      | error e => simp
      | ok comparator =>
        simp only [queued]
        constructor
        · intro h
          exact Or.inr ⟨scored, comparator, rfl, rfl, (Except.ok.inj h).symm⟩
        · rintro (⟨h, -⟩ | ⟨_, _, h, h', rfl⟩)
          · cases h
          · cases h
            cases h'
            rfl

/-- The queue keeps the best of what is collected, sorted. -/
theorem queued_spec (n : ℕ) (scored : List (ℕ × ℚ))
    (hcomparator : FieldSortedHitQueue.getCachedComparator E x.reader sort = .ok comparator) :
    Best (FieldSortedHitQueue.lessThan sort comparator) n (collect scored) (queued comparator sort n scored) ∧
      (queued comparator sort n scored).Pairwise fun a b => FieldSortedHitQueue.lessThan sort comparator a b = false := by
  have hlt := FieldSortedHitQueue.lessThan_weakOrder hcomparator
  have hempty : Keeps (FieldSortedHitQueue.lessThan sort comparator) n 0 ⟨0, fun _ => default⟩ := keeps_empty
  have hkeeps := hempty.foldl hlt (collect scored)
  obtain ⟨hcontents, hsorted⟩ := drain_spec hlt hkeeps.ordered
  have hbest := hkeeps.best
  rw [← hcontents, zero_add] at hbest
  exact ⟨hbest, hsorted⟩

/-- **The hits of one index** are the best of what the query finds, sorted by their values. -/
theorem search_spec (h : x._search E query n sort = .ok docs) (start : ℕ) :
    let fieldDocs := docs.fieldDocs.map fun d => { d with doc := d.doc + start }
    docs.totalHits = (x.entries E sort query start).length ∧ (docs.fields ≠ none → docs.fields = some sort) ∧
      Best sort.behindBy n (x.entries E sort query start) fieldDocs ∧
        fieldDocs.Pairwise fun a b => sort.behindBy a b = false := by
  rcases search_eq_ok.1 h with ⟨hscorer, rfl⟩ | ⟨scored, comparator, hscorer, hcomparator, rfl⟩
  · have hnone : x.entries E sort query start = [] := by rw [entries, found, hscorer, List.map_nil]
    rw [hnone]
    refine ⟨rfl, fun hne => absurd rfl hne, ⟨Nat.zero_le _, 0, rfl, ?_, Or.inl rfl⟩, List.Pairwise.nil⟩
    exact fun d hd => absurd hd (Multiset.notMem_zero d)
  · have hfound : x.found query = collect scored := by rw [found, hscorer]
    obtain ⟨hbest, hsorted⟩ := queued_spec n scored hcomparator
    -- what is behind by its value is behind in the queue
    have hless : ∀ a b, sort.behindBy (FieldSortedHitQueue.fillFields comparator a)
        (FieldSortedHitQueue.fillFields comparator b) = true →
        FieldSortedHitQueue.lessThan sort comparator a b = true :=
      fun a b hab => (FieldSortedHitQueue.lessThan_iff hcomparator a b).2 (Or.inl hab)
    have hentries : x.entries E sort query start = (collect scored).map fun a =>
        { FieldSortedHitQueue.fillFields comparator a with doc := a.doc + start } := by
      rw [entries, hfound]
      refine List.map_congr_left fun a ha => ?_
      rw [FieldSortedHitQueue.fillFields, FieldSortedHitQueue.sortValue_eq hcomparator a (found_live (hfound ▸ ha))]
    rw [List.map_map, hentries]
    refine ⟨(List.length_map _).symm, fun _ => rfl, ?_, ?_⟩
    · have hmap := hbest.map sort.behindBy
        (fun a => ({ FieldSortedHitQueue.fillFields comparator a with doc := a.doc + start } : FieldDoc))
        fun a _ b _ hab => hless a b hab
      rwa [Multiset.map_coe, Multiset.map_coe] at hmap
    · rw [List.pairwise_map]
      refine hsorted.imp fun hab => Bool.eq_false_iff.2 fun hne => ?_
      rw [hless _ _ hne] at hab
      exact absurd hab (by simp)

end IndexSearcher

/-! ## Several indexes -/

namespace MultiSearcher

variable {xs : List (IndexSearcher Query)} {start totalHits : ℕ}

/-- What the query finds in the indexes, numbered one after the other. -/
def entries (E : Env) (sort : SortField) (query : Query) : List (IndexSearcher Query) → ℕ → List FieldDoc
  | [], _ => []
  | x :: xs, start => x.entries E sort query start ++ entries E sort query xs (start + x.reader.maxDoc)

theorem entries_hasType {fd : FieldDoc} (h : fd ∈ entries E sort query xs start) : sort.HasType fd.field := by
  induction xs generalizing start with
  | nil => exact absurd h List.not_mem_nil
  | cons x xs ih =>
    rcases List.mem_append.1 h with h | h
    · exact IndexSearcher.entries_hasType h
    · exact ih h

/-- **The loop** keeps the best of what it has seen. -/
theorem loop_spec (start totalHits : ℕ) {all : Multiset FieldDoc} {heap : Heap FieldDoc}
    (hanswers : ∀ x ∈ xs, Answers query n sort (x.searchable E)) (hk : Keeps sort.behindBy n all heap)
    (htyped : ∀ fd ∈ all, sort.HasType fd.field) :
    ∃ heap', loop query n sort (xs.map (·.searchable E)) start (some (sort, heap)) totalHits =
        .ok (some (sort, heap'), totalHits + (entries E sort query xs start).length) ∧
      Keeps sort.behindBy n (all + entries E sort query xs start) heap' := by
  induction xs generalizing start totalHits all heap with
  | nil => exact ⟨heap, rfl, by simpa [entries] using hk⟩
  | cons x xs ih =>
    obtain ⟨⟨docs, hdocs⟩, hrest⟩ := List.forall_mem_cons.1 hanswers
    obtain ⟨htotal, -, hbest, hsorted⟩ := IndexSearcher.search_spec hdocs start
    have htyped' : ∀ fd ∈ docs.fieldDocs.map fun d => { d with doc := d.doc + start }, sort.HasType fd.field :=
      fun fd hfd => IndexSearcher.entries_hasType (hbest.mem hfd)
    have hcongr := insertAll_congr SortField.lessThan_agrees SortField.behindBy_weakOrder hk htyped htyped'
    have hinsert := hk.insertAll SortField.behindBy_weakOrder hsorted
    rw [List.map_cons, loop, hdocs]
    simp only [queue]
    have hkeeps : Keeps sort.behindBy n (all + (x.entries E sort query start : Multiset FieldDoc)) _ :=
      ⟨hinsert.ordered, hbest.add SortField.behindBy_weakOrder hinsert.best⟩
    have htyped'' : ∀ fd ∈ all + (x.entries E sort query start : Multiset FieldDoc), sort.HasType fd.field := by
      intro fd hfd
      rcases Multiset.mem_add.1 hfd with hfd | hfd
      · exact htyped fd hfd
      · exact IndexSearcher.entries_hasType hfd
    obtain ⟨heap', hloop, hheap⟩ := ih (start + x.reader.maxDoc) (totalHits + docs.totalHits) hrest hkeeps htyped''
    refine ⟨heap', ?_, ?_⟩
    · rw [entries, List.length_append, ← htotal, ← Nat.add_assoc, hcongr]
      exact hloop
    · rw [entries, ← Multiset.coe_add, ← add_assoc]
      exact hheap

/-- **The hits of the indexes** are the best of what the query finds, sorted by their values. -/
theorem search_spec {docs : TopFieldDocs} (h : _search ⟨xs.map (·.searchable E)⟩ query n sort = .ok docs) :
    docs.totalHits = (entries E sort query xs 0).length ∧
      Best sort.behindBy n (entries E sort query xs 0) docs.fieldDocs ∧
        docs.fieldDocs.Pairwise fun a b => sort.behindBy a b = false := by
  obtain ⟨hne, hanswers, hscorer⟩ := search_ok_iff.1 ⟨docs, h⟩
  simp only [List.forall_mem_map] at hanswers
  obtain ⟨heap, hloop, hkeeps⟩ := loop_spec 0 0 hanswers (keeps_empty (a := fun _ => default))
    fun fd hfd => absurd hfd (Multiset.notMem_zero fd)
  -- the first index makes the queue
  have hfirst : loop query n sort (xs.map (·.searchable E)) 0 none 0 =
      loop query n sort (xs.map (·.searchable E)) 0 (some (sort, ⟨0, fun _ => default⟩)) 0 := by
    cases xs with
    | nil => exact absurd rfl hne
    | cons x xs =>
      obtain ⟨docs', hdocs'⟩ := hanswers x List.mem_cons_self
      have hfields := (IndexSearcher.search_spec hdocs' 0).2.1 (hscorer _ rfl docs' hdocs')
      rw [List.map_cons, loop, loop, hdocs']
      simp only [queue, hfields]
  rw [_search, hfirst, hloop] at h
  obtain rfl := Except.ok.inj h
  rw [zero_add] at hkeeps
  have htyped : ∀ fd ∈ heap.contents, sort.HasType fd.field := fun fd hfd => entries_hasType (hkeeps.best.mem hfd)
  have hcongr := drain_congr SortField.lessThan_agrees SortField.behindBy_weakOrder hkeeps.ordered htyped
  obtain ⟨hcontents, hsorted⟩ := drain_spec SortField.behindBy_weakOrder hkeeps.ordered
  simp only [hcongr]
  refine ⟨Nat.zero_add _, ?_, hsorted⟩
  rw [hcontents]
  exact hkeeps.best

end MultiSearcher

end QDesktopSearch
