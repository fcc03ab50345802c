import Mathlib.Data.List.Forall2
import QDesktopSearch.Model.QueryParser

/-!
# A request is answered or leaves pieces

`search` tears down what there is of the last request and builds the members for the new one;
each step may fail. `openSearchers_iff`, `addInputs_iff` and `MultiSearcher.search_ok_iff` say
when the steps go through. `search_total_iff`: the number of hits is returned and the members
belong together exactly if all of them do.
-/

namespace QDesktopSearch

variable {Query : Type*}

/-! ## Searching the indexes -/

namespace MultiSearcher

variable {query : Query} {n : ℕ} {sort : SortField} {x : Searchable Query} {xs : List (Searchable Query)}
  {start totalHits : ℕ} {hq : SortField × Heap FieldDoc}

/-- The index answers. -/
def Answers (query : Query) (n : ℕ) (sort : SortField) (x : Searchable Query) : Prop :=
  ∃ docs, x._search query n sort = .ok docs

/-- **With a queue** the loop goes through exactly if every index answers; it has a queue then. -/
theorem loop_some_iff : (∃ r, loop query n sort xs start (some hq) totalHits = .ok r) ↔
    ∀ x ∈ xs, Answers query n sort x := by
  induction xs generalizing start hq totalHits with
  | nil => exact iff_of_true ⟨_, rfl⟩ fun x hx => absurd hx List.not_mem_nil
  | cons x xs ih =>
    rw [loop, List.forall_mem_cons]
    cases hx : x._search query n sort with
    | error e =>
      refine iff_of_false ?_ ?_
      · rintro ⟨r, hr⟩
        cases hr
      · rintro ⟨⟨docs, hdocs⟩, -⟩
        rw [hx] at hdocs
        cases hdocs
    | ok docs =>
      have hanswers : Answers query n sort x := ⟨docs, hx⟩
      simp only [queue]
      rw [and_iff_right hanswers]
      exact ih

theorem loop_some {r : Option (SortField × Heap FieldDoc) × ℕ}
    (h : loop query n sort xs start (some hq) totalHits = .ok r) : r.1.isSome = true := by
  induction xs generalizing start hq totalHits with
  | nil =>
    cases h
    rfl
  | cons x xs ih =>
    rw [loop] at h
    cases hx : x._search query n sort with
    | error e =>
      rw [hx] at h
      cases h
    | ok docs =>
      rw [hx] at h
      exact ih h

/-- The query has a scorer in the first index, whose answer makes the queue. -/
def HasScorer (query : Query) (n : ℕ) (sort : SortField) (xs : List (Searchable Query)) : Prop :=
  ∀ x ∈ xs.head?, ∀ docs, x._search query n sort = .ok docs → docs.fields ≠ none

/-- **A search goes through** exactly if there is an index, each answers, and the first with
the fields it has sorted by. -/
theorem search_ok_iff {s : MultiSearcher Query} : (∃ docs, s._search query n sort = .ok docs) ↔
    s.searchables ≠ [] ∧ (∀ x ∈ s.searchables, Answers query n sort x) ∧ HasScorer query n sort s.searchables := by
  obtain ⟨xs⟩ := s
  cases xs with
  | nil =>
    refine iff_of_false ?_ fun h => h.1 rfl
    rintro ⟨docs, hdocs⟩
    cases hdocs
  | cons x xs =>
    have hloop : (∃ docs, (MultiSearcher.mk (x :: xs))._search query n sort = .ok docs) ↔
        ∃ r, loop query n sort (x :: xs) 0 none 0 = .ok r ∧ r.1.isSome = true := by
      rw [_search]
      cases hl : loop query n sort (x :: xs) 0 none 0 with
      | error e =>
        refine iff_of_false ?_ ?_
        · rintro ⟨docs, hdocs⟩
          cases hdocs
        · rintro ⟨r, hr, -⟩
          cases hr
      | ok r =>
        obtain ⟨hq, totalHits⟩ := r
        cases hq with
        | none =>
          refine iff_of_false ?_ ?_
          · rintro ⟨docs, hdocs⟩
            cases hdocs
          · rintro ⟨r, hr, hsome⟩
            cases hr
            cases hsome
        | some hq => exact iff_of_true ⟨_, rfl⟩ ⟨_, rfl, rfl⟩
    rw [hloop, and_iff_right (List.cons_ne_nil x xs), List.forall_mem_cons, loop]
    cases hx : x._search query n sort with
    | error e =>
      refine iff_of_false ?_ ?_
      · rintro ⟨r, hr, -⟩
        cases hr
      · rintro ⟨⟨⟨docs, hdocs⟩, -⟩, -⟩
        rw [hx] at hdocs
        cases hdocs
    | ok docs =>
      have hanswers : Answers query n sort x := ⟨docs, hx⟩
      have hscorer : HasScorer query n sort (x :: xs) ↔ docs.fields ≠ none := by
        constructor
        · intro h
          exact h x rfl docs hx
        · intro h y hy docs' hdocs'
          obtain rfl : x = y := Option.some.inj hy
          rw [hx] at hdocs'
          obtain rfl : docs = docs' := Except.ok.inj hdocs'
          exact h
      rw [hscorer, and_iff_right hanswers]
      cases hfields : docs.fields with
      | none =>
        simp only [queue, hfields]
        refine iff_of_false ?_ fun h => h.2 rfl
        rintro ⟨r, hr, -⟩
        cases hr
      | some fields =>
        simp only [queue, hfields]
        rw [← loop_some_iff, and_iff_left (by simp)]
        constructor
        · rintro ⟨r, hr, -⟩
          exact ⟨r, hr⟩
        · rintro ⟨r, hr⟩
          exact ⟨r, hr, loop_some hr⟩

end MultiSearcher

/-- The first search of new hits. -/
theorem Hits.new_ok_iff {searcher : MultiSearcher Query} {query : Query} {sort : SortField} {h : Hits Query} :
    Hits.new searcher query sort = .ok h ↔ ∃ docs, searcher._search query 100 sort = .ok docs ∧
      h = { Hits.addDocs ⟨searcher, query, sort, [], 0, 0, 0⟩ docs with _lengthAtStart := docs.totalHits } := by
  have hmore : Hits.getMoreDocs (⟨searcher, query, sort, [], 0, 0, 0⟩ : Hits Query) 50 =
      (searcher._search query 100 sort).map (Hits.addDocs ⟨searcher, query, sort, [], 0, 0, 0⟩) := by
    have hpage : (if ([] : List ℕ).length > 50 then ([] : List ℕ).length else 50) * 2 = 100 := rfl
    unfold Hits.getMoreDocs
    dsimp only
    rw [hpage]
    cases searcher._search query 100 sort <;> rfl
  rw [Hits.new, hmore]
  cases searcher._search query 100 sort with
  | error e =>
    refine iff_of_false (fun hh => by cases hh) ?_
    rintro ⟨docs, hdocs, -⟩
    cases hdocs
  | ok docs =>
    constructor
    · intro hh
      cases hh
      exact ⟨docs, rfl, rfl⟩
    · rintro ⟨docs', hdocs, rfl⟩
      cases hdocs
      rfl

/-! ## The steps of a request -/

section Results

variable {α β : Type*} {call : α → Except Failure β} {l : List α}

/-- Calls one after the other have results exactly if none of them fails. -/
theorem exists_results : (∃ results, List.Forall₂ (fun a b => call a = .ok b) l results) ↔
    ∀ a ∈ l, ∃ b, call a = .ok b := by
  induction l with
  | nil => exact iff_of_true ⟨[], .nil⟩ fun a h => absurd h List.not_mem_nil
  | cons a l ih =>
    rw [List.forall_mem_cons, ← ih]
    constructor
    · rintro ⟨results, h⟩
      cases h with
      | cons hx h => exact ⟨⟨_, hx⟩, _, h⟩
    · rintro ⟨⟨b, hx⟩, results, h⟩
      exact ⟨b :: results, .cons hx h⟩

theorem results_unique {results results' : List β} (h : List.Forall₂ (fun a b => call a = .ok b) l results)
    (h' : List.Forall₂ (fun a b => call a = .ok b) l results') : results = results' := by
  induction h generalizing results' with
  | nil =>
    cases h'
    rfl
  | cons hx _ ih =>
    cases h' with
    | cons hx' h' =>
      rw [hx] at hx'
      cases hx'
      rw [ih h']

end Results

namespace Searcher

variable (C : CLucene Query)

/-- The searchers of the roots. -/
def Opened (roots : List QString) (xs : List (Searchable (List Query))) : Prop :=
  List.Forall₂ (fun sDir2Index x => C.openSearcher sDir2Index = .ok x) roots xs

/-- The queries of the inputs, each text first changed by `f`. -/
def Parsed (f : QString → QString) (inputs : List SearchInput) (queries : List Query) : Prop :=
  List.Forall₂ (fun input query => C.parse (f input.1) input.2 = .ok query) inputs queries

/-- The parser accepts the text. -/
def Accepts (text field : QString) : Prop := ∃ query, C.parse text field = .ok query

variable {C}

/-- All roots are opened exactly if each can be; the searchers are those of the roots. -/
theorem openSearchers_iff {roots : List QString} {s s' : Searcher Query} : openSearchers C roots s = (.ok (), s') ↔
    ∃ xs, Opened C roots xs ∧ s' = { s with m_lucysearchables := s.m_lucysearchables ++ xs } := by
  induction roots generalizing s with
  | nil =>
    rw [openSearchers]
    constructor
    · intro h
      cases h
      exact ⟨[], .nil, by rw [List.append_nil]⟩
    · rintro ⟨xs, hxs, rfl⟩
      cases hxs
      rw [List.append_nil]
  | cons root roots ih =>
    rw [openSearchers]
    cases hopen : C.openSearcher root with
    | error e =>
      refine iff_of_false (fun h => by cases h) ?_
      rintro ⟨xs, hxs, -⟩
      cases hxs with
      | cons hx _ =>
        rw [hopen] at hx
        cases hx
    | ok x =>
      simp only [ih]
      constructor
      · rintro ⟨xs, hxs, rfl⟩
        exact ⟨x :: xs, .cons hopen hxs, by simp⟩
      · rintro ⟨xs, hxs, rfl⟩
        cases hxs with
        | cons hx hxs =>
          rw [hopen] at hx
          cases hx
          exact ⟨_, hxs, by simp⟩

theorem add_room {qs : List Query} {q : Query} (h : qs.length < LUCENE_BOOLEANQUERY_MAXCLAUSECOUNT) :
    add (some qs) q = .ok (some (qs ++ [q])) := if_neg (Nat.not_le.2 h)

theorem add_full {qs : List Query} {q : Query} (h : LUCENE_BOOLEANQUERY_MAXCLAUSECOUNT ≤ qs.length) :
    add (some qs) q = .error (.CLuceneError "Too Many Clauses") := if_pos h

/-- **The loop over the inputs** goes through exactly if there is room for the clauses and both
texts of each input are accepted; the clauses are those of the inputs. -/
theorem addInputs_iff {inputs : List SearchInput} {s s' : Searcher Query} {qs hs : List Query}
    (hq : s.m_query = some qs) (hh : s.m_query4highlight = some hs) (hlen : qs.length = hs.length)
    (hroom : qs.length ≤ LUCENE_BOOLEANQUERY_MAXCLAUSECOUNT) : addInputs C inputs s = (.ok (), s') ↔
      qs.length + inputs.length ≤ LUCENE_BOOLEANQUERY_MAXCLAUSECOUNT ∧
        ∃ qs' hs', Parsed C id inputs qs' ∧ Parsed C text4highlight inputs hs' ∧
          s' = { s with m_query := some (qs ++ qs'), m_query4highlight := some (hs ++ hs') } := by
  induction inputs generalizing s qs hs with
  | nil =>
    rw [addInputs]
    constructor
    · intro h
      cases h
      refine ⟨hroom, [], [], .nil, .nil, ?_⟩
      rw [List.append_nil, List.append_nil, ← hq, ← hh]
    · rintro ⟨-, qs', hs', hqs, hhs, rfl⟩
      cases hqs
      cases hhs
      rw [List.append_nil, List.append_nil, ← hq, ← hh]
  | cons input inputs ih =>
    obtain ⟨text, field⟩ := input
    rw [addInputs, hq, hh, List.length_cons]
    -- where a text is not accepted both sides are false
    have hrejected : ∀ {f : QString → QString} {e : Failure} {rs : List Query}, C.parse (f text) field = .error e →
        ¬Parsed C f ((text, field) :: inputs) rs := by
      intro f e rs he hp
      cases hp with
      | cons hx _ =>
        rw [he] at hx
        cases hx
    cases hparse : C.parse text field with
    | error e =>
      refine iff_of_false (fun h => by cases h) ?_
      rintro ⟨-, qs', hs', hqs, -⟩
      exact hrejected hparse hqs
    | ok q =>
      by_cases hfull : LUCENE_BOOLEANQUERY_MAXCLAUSECOUNT ≤ qs.length
      · simp only [add_full hfull]
        refine iff_of_false (fun h => by cases h) ?_
        rintro ⟨hle, -⟩
        omega
      · simp only [add_room (Nat.not_le.1 hfull), add_room (hlen ▸ Nat.not_le.1 hfull)]
        cases hparse' : C.parse (text4highlight text) field with
        | error e =>
          refine iff_of_false (fun h => by cases h) ?_
          rintro ⟨-, qs', hs', -, hhs, -⟩
          exact hrejected hparse' hhs
        | ok q' =>
          simp only
          rw [@ih _ (qs ++ [q]) (hs ++ [q']) rfl rfl (by simp [hlen]) (by simp; omega)]
          have hcount : (qs ++ [q]).length + inputs.length = qs.length + (inputs.length + 1) := by
            rw [List.length_append, List.length_singleton]
            omega
          rw [hcount]
          refine and_congr_right fun _ => ?_
          constructor
          · rintro ⟨qs', hs', hqs, hhs, rfl⟩
            exact ⟨q :: qs', q' :: hs', .cons hparse hqs, .cons hparse' hhs, by simp⟩
          · rintro ⟨qs', hs', hqs, hhs, rfl⟩
            cases hqs with
            | cons hx hqs =>
              cases hhs with
              | cons hx' hhs =>
                rw [id, hparse] at hx
                rw [hparse'] at hx'
                cases hx
                cases hx'
                exact ⟨_, _, hqs, hhs, by simp⟩

/-- The inputs have queries exactly if the parser accepts each text. -/
theorem exists_parsed {f : QString → QString} {inputs : List SearchInput} :
    (∃ queries, Parsed C f inputs queries) ↔ ∀ input ∈ inputs, Accepts C (f input.1) input.2 :=
  exists_results

theorem Parsed.unique {f : QString → QString} {inputs : List SearchInput} {qs qs' : List Query}
    (h : Parsed C f inputs qs) (h' : Parsed C f inputs qs') : qs = qs' :=
  results_unique h h'

theorem Opened.unique {roots : List QString} {xs xs' : List (Searchable (List Query))}
    (h : Opened C roots xs) (h' : Opened C roots xs') : xs = xs' :=
  results_unique h h'

/-! ## A request -/

/-- The members belong to one request, or to none. -/
inductive Consistent (C : CLucene Query) (s : Searcher Query) : Prop
  | none : s.m_lpSearchinputs = [] → s.m_query = none → s.m_query4highlight = none → s.m_hits = none →
      s.m_pMultiSearcher = none → Consistent C s
  | request (queries queries4highlight : List Query) (hits : Hits (List Query)) :
      Parsed C id s.m_lpSearchinputs queries → Parsed C text4highlight s.m_lpSearchinputs queries4highlight →
      s.m_query = some queries → s.m_query4highlight = some queries4highlight → s.m_hits = some hits →
      hits.query = queries → s.m_pMultiSearcher = some hits.searcher → Consistent C s

/-- The indexes answer the query, in the search with which `Hits` begins. -/
def Executes (xs : List (Searchable (List Query))) (queries : List Query) : Prop :=
  (∀ x ∈ xs, MultiSearcher.Answers queries 100 .FIELD_SCORE x) ∧ MultiSearcher.HasScorer queries 100 .FIELD_SCORE xs

/-- **The members after a request** that has gone through. -/
theorem search_ok_iff {roots : List QString} {inputs : List SearchInput} {s s' : Searcher Query} {n : ℕ}
    (hne : inputs ≠ []) : search C roots inputs s = (.ok n, s') ↔
      ∃ xs qs hs hits, Opened C roots xs ∧ inputs.length ≤ LUCENE_BOOLEANQUERY_MAXCLAUSECOUNT ∧
        Parsed C id inputs qs ∧ Parsed C text4highlight inputs hs ∧ Hits.new ⟨xs⟩ qs .FIELD_SCORE = .ok hits ∧
        n = hits.length ∧ s' = ⟨xs, some ⟨xs⟩, inputs, some qs, some hs, some .FIELD_SCORE, some hits⟩ := by
  have hlen : ¬inputs.length < 1 := by
    have hpos := List.length_pos_iff.2 hne
    omega
  rw [search, if_neg hlen]
  cases hopen : openSearchers C roots { cleanup s with m_lpSearchinputs := inputs } with
  | mk r s₁ =>
    cases r with
    | error e =>
      refine iff_of_false (fun h => by cases h) ?_
      rintro ⟨xs, _, _, _, hxs, -⟩
      rw [openSearchers_iff.2 ⟨xs, hxs, rfl⟩] at hopen
      cases hopen
    | ok u =>
      obtain ⟨xs, hxs, rfl⟩ := openSearchers_iff.1 hopen
      simp only [cleanup, List.nil_append]
      have hiff := fun s' => @addInputs_iff _ C inputs ⟨xs, some ⟨xs⟩, inputs, some [], some [], none, none⟩ s' [] []
        rfl rfl rfl (Nat.zero_le _)
      simp only [List.length_nil, Nat.zero_add, List.nil_append] at hiff
      cases hadd : addInputs C inputs ⟨xs, some ⟨xs⟩, inputs, some [], some [], none, none⟩ with
      | mk r s₂ =>
        cases r with
        | error e =>
          refine iff_of_false (fun h => by cases h) ?_
          rintro ⟨xs', qs, hs, _, _, hle, hqs, hhs, -⟩
          rw [(hiff _).2 ⟨hle, qs, hs, hqs, hhs, rfl⟩] at hadd
          cases hadd
        | ok u =>
          obtain ⟨hle, qs, hs, hqs, hhs, rfl⟩ := (hiff s₂).1 hadd
          simp only [newHits]
          cases hhits : Hits.new ⟨xs⟩ qs .FIELD_SCORE with
          | error e =>
            refine iff_of_false (fun h => by cases h) ?_
            rintro ⟨xs', qs', hs', hits, hxs', -, hqs', -, hhits', -⟩
            rw [hxs'.unique hxs, hqs'.unique hqs, hhits] at hhits'
            cases hhits'
          | ok hits =>
            constructor
            · intro h
              cases h
              exact ⟨xs, qs, hs, hits, hxs, hle, hqs, hhs, hhits, rfl, rfl⟩
            · rintro ⟨xs', qs', hs', hits', hxs', -, hqs', hhs', hhits', rfl, rfl⟩
              obtain rfl := hxs'.unique hxs
              obtain rfl := hqs'.unique hqs
              obtain rfl := hhs'.unique hhs
              rw [hhits] at hhits'
              cases hhits'
              rfl

/-- The first search goes through where some index is searched and all answer. -/
theorem new_hits_iff {xs : List (Searchable (List Query))} {queries : List Query} :
    (∃ hits, Hits.new ⟨xs⟩ queries .FIELD_SCORE = .ok hits) ↔ xs ≠ [] ∧ Executes xs queries := by
  have hsearch : (∃ docs, MultiSearcher._search ⟨xs⟩ queries 100 .FIELD_SCORE = .ok docs) ↔ _ :=
    MultiSearcher.search_ok_iff
  rw [Executes, ← hsearch]
  simp only [Hits.new_ok_iff]
  constructor
  · rintro ⟨hits, docs, hdocs, -⟩
    exact ⟨docs, hdocs⟩
  · rintro ⟨docs, hdocs⟩
    exact ⟨_, docs, hdocs, rfl⟩

theorem Opened.ne_nil {roots : List QString} {xs : List (Searchable (List Query))} (h : Opened C roots xs) :
    xs ≠ [] ↔ roots ≠ [] := by
  cases h with
  | nil => exact iff_of_false (fun h => h rfl) (fun h => h rfl)
  | cons _ _ => exact iff_of_true (List.cons_ne_nil _ _) (List.cons_ne_nil _ _)

/-- **When `search` returns** the number of hits of consistent members: for no input at all, or
where some root is registered, every index opens, the parser accepts both texts of each input,
there is room for their clauses and the indexes answer. -/
theorem search_total_iff (C : CLucene Query) (roots : List QString) (lpSearchinputs : List SearchInput)
    (s : Searcher Query) :
    (∃ iHits s', search C roots lpSearchinputs s = (.ok iHits, s') ∧ s'.getHitCount = iHits ∧ Consistent C s') ↔
      lpSearchinputs = [] ∨ (roots ≠ [] ∧ lpSearchinputs.length ≤ LUCENE_BOOLEANQUERY_MAXCLAUSECOUNT ∧
        (∀ input ∈ lpSearchinputs, Accepts C input.1 input.2 ∧ Accepts C (text4highlight input.1) input.2) ∧
        ∃ xs, Opened C roots xs ∧ ∀ queries, Parsed C id lpSearchinputs queries → Executes xs queries) := by
  by_cases hne : lpSearchinputs = []
  · subst hne
    exact iff_of_true ⟨0, _, rfl, rfl, .none rfl rfl rfl rfl rfl⟩ (Or.inl rfl)
  · rw [or_iff_right hne]
    simp only [search_ok_iff hne]
    constructor
    · rintro ⟨n, s', ⟨xs, qs, hs, hits, hxs, hle, hqs, hhs, hhits, -, -⟩, -, -⟩
      obtain ⟨hxne, hexecutes⟩ := new_hits_iff.1 ⟨hits, hhits⟩
      refine ⟨hxs.ne_nil.1 hxne, hle, fun input hinput => ?_, xs, hxs, fun queries hqueries => ?_⟩
      · have hmain := exists_parsed.1 ⟨qs, hqs⟩ input hinput
        have hhighlight := exists_parsed.1 ⟨hs, hhs⟩ input hinput
        exact ⟨hmain, hhighlight⟩
      · rwa [hqueries.unique hqs]
    · rintro ⟨hroots, hle, haccepts, xs, hxs, hexecutes⟩
      obtain ⟨qs, hqs⟩ := (exists_parsed (C := C) (f := id)).2 fun input hinput => (haccepts input hinput).1
      obtain ⟨hs, hhs⟩ := (exists_parsed (C := C) (f := text4highlight)).2 fun input hinput => (haccepts input hinput).2
      obtain ⟨hits, hhits⟩ := new_hits_iff.2 ⟨hxs.ne_nil.2 hroots, hexecutes qs hqs⟩
      obtain ⟨docs, -, hdocs⟩ := Hits.new_ok_iff.1 hhits
      refine ⟨hits.length, _, ⟨xs, qs, hs, hits, hxs, hle, hqs, hhs, hhits, rfl, rfl⟩, rfl, ?_⟩
      exact .request qs hs hits hqs hhs rfl rfl rfl (by rw [hdocs]; rfl) (by rw [hdocs]; rfl)

/-- The parser, and an empty index for each root. -/
def sampleCLucene : CLucene QDesktopSearch.Query where
  parse := QueryParser.parse asciiTables
  openSearcher _ := .ok ⟨1, fun _ _ sort => .ok ⟨0, [], some sort⟩⟩

/-- Without a root no text is searched, and with one no text that is not a query. -/
theorem search_escapes : let start : Searcher QDesktopSearch.Query := ⟨[], none, [], none, none, none, none⟩
    (¬∃ iHits s', search sampleCLucene [] [(qs "text", qs "contents")] start = (.ok iHits, s') ∧
      s'.getHitCount = iHits ∧ Consistent sampleCLucene s') ∧
    ¬∃ iHits s', search sampleCLucene [qs "/d"] [(qs "(", qs "contents")] start = (.ok iHits, s') ∧
      s'.getHitCount = iHits ∧ Consistent sampleCLucene s' := by
  intro start
  have hroots : (search sampleCLucene [] [(qs "text", qs "contents")] start).1.isOk = false := by decide +kernel
  have hparser : (search sampleCLucene [qs "/d"] [(qs "(", qs "contents")] start).1.isOk = false := by decide +kernel
  constructor
  · rintro ⟨iHits, s', hsearch, -⟩
    rw [hsearch] at hroots
    cases hroots
  · rintro ⟨iHits, s', hsearch, -⟩
    rw [hsearch] at hparser
    cases hparser

end Searcher

end QDesktopSearch
