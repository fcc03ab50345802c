import QDesktopSearch.Proof.SortedSearch

/-!
# Sorting the hits by file

`Hits` asks for its hits page by page: the first 100, and twice as many as the row that is read
where it is beyond those. Where the pages are beginnings of one list the rows are those of that
list (`Hits.shows_of_pages`), and however the pages are, the rows are sorted as soon as each hit is
one row (`Hits.rows_sorted`).

`Searcher.sortBy_sorts`: what decides whether `sortBy` sorts by path is the greatest word of each
path. The words must be no more than the documents, and their order, reversed, must be that of
the paths.
-/

namespace QDesktopSearch

open Heap

variable {Query : Type*}

/-! ## Reading rows -/

namespace Hits

/-- Rows are read one after the other. -/
def reads : Hits Query → List ℕ → Except Failure (List ℕ)
  | _, [] => .ok []
  | h, n :: ns =>
    match h.getHitDoc n with
    | .error e => .error e
    | .ok (id, h) =>
      match h.reads ns with
      | .error e => .error e
      | .ok ids => .ok (id :: ids)

/-- The hits have these rows, in whatever order they are read. -/
def Shows (h : Hits Query) (rows : List ℕ) : Prop :=
  h.length = rows.length ∧
    ∀ ns : List ℕ, (∀ n ∈ ns, n < rows.length) → h.reads ns = .ok (ns.map fun n => rows.getD n 0)

variable {searcher : MultiSearcher Query} {query : Query} {sort : SortField} {h : Hits Query} {rows all : List ℕ}

/-- The page of the first `n` hits. -/
def Page (searcher : MultiSearcher Query) (query : Query) (sort : SortField) (total n : ℕ) (ids : List ℕ) : Prop :=
  ∃ docs, searcher._search query n sort = .ok docs ∧ docs.totalHits = total ∧ docs.fieldDocs.map (·.doc) = ids

/-- Hits of a search of which some pages have been read. -/
structure Reading (searcher : MultiSearcher Query) (query : Query) (sort : SortField) (total : ℕ)
    (h : Hits Query) : Prop where
  searcher : h.searcher = searcher
  query : h.query = query
  sort : h.sort = sort
  start : h._lengthAtStart = total
  length : total ≤ h._length

theorem findStart_nil (ids : List ℕ) : findStart [] ids = (0, 0) := by
  cases ids <;> rfl

/-- Hits that the new ones begin with are found, all of them. -/
theorem findStart_append (ids ids' : List ℕ) : findStart ids (ids ++ ids') = (ids.length, 0) := by
  induction ids with
  | nil => exact findStart_nil _
  | cons id ids ih => rw [List.cons_append, findStart, if_pos rfl, ih, List.length_cons]

/-- **The first page.** -/
theorem new_spec {total : ℕ} {ids : List ℕ} (hpage : Page searcher query sort total 100 ids) (hle : ids.length ≤ total)
    (h : Hits Query) : Hits.new searcher query sort = .ok h ↔
      h = ⟨searcher, query, sort, ids, total, total, 0⟩ := by
  obtain ⟨docs, hdocs, htotal, hids⟩ := hpage
  have hadd : addDocs (⟨searcher, query, sort, [], 0, 0, 0⟩ : Hits Query) docs =
      ⟨searcher, query, sort, ids, total, 0, 0⟩ := by
    have hstop : (if ids.length < total then ids.length else total) = ids.length := by
      split <;> omega
    simp only [addDocs, hids, findStart_nil, htotal, hstop, List.take_length, List.drop_zero, List.nil_append,
      Nat.add_zero]
  rw [new_ok_iff]
  constructor
  · rintro ⟨docs', hdocs', rfl⟩
    rw [hdocs] at hdocs'
    obtain rfl := Except.ok.inj hdocs'
    rw [hadd, htotal]
  · rintro rfl
    exact ⟨docs, hdocs, by rw [hadd, htotal]⟩

/-- **A row that is there** is read without a search. -/
theorem getHitDoc_there {total n : ℕ} (hr : Reading searcher query sort total h) (hn : n < total)
    (hthere : n < h.hitDocs.length) : h.getHitDoc n = .ok (h.hitDocs.getD n 0, h) := by
  have hstart := hr.start
  have hlength := hr.length
  rw [getHitDoc, if_neg (by omega), if_neg (by omega)]
  simp only
  rw [if_neg (by omega), List.getElem?_eq_getElem hthere, List.getD_eq_getElem?_getD, List.getElem?_eq_getElem hthere]
  rfl

/-- **The next page**: what it has more than the hits so far is added to them. -/
theorem getMoreDocs_spec {total n : ℕ} {ids : List ℕ} (hr : Reading searcher query sort total h)
    (hpage : Page searcher query sort total (n * 2) ids) (hle : ids.length ≤ total) (hbeyond : h.hitDocs.length ≤ n) :
    ∃ h', h.getMoreDocs n = .ok h' ∧ Reading searcher query sort total h' ∧
      h'.hitDocs = h.hitDocs ++ ids.drop (findStart h.hitDocs ids).1 := by
  obtain ⟨docs, hdocs, htotal, hids⟩ := hpage
  have hstop : (if ids.length < total then ids.length else total) = ids.length := by
    split <;> omega
  refine ⟨h.addDocs docs, ?_, ⟨hr.searcher, hr.query, hr.sort, hr.start, ?_⟩, ?_⟩
  · rw [getMoreDocs, if_neg (by omega), hr.searcher, hr.query, hr.sort]
    simp only [hdocs]
  · simp only [addDocs, htotal]
    omega
  · simp only [addDocs, hids, htotal, hstop, List.take_length]

/-- **A row that is not there yet.** -/
theorem getHitDoc_beyond {total n : ℕ} {ids : List ℕ} (hr : Reading searcher query sort total h)
    (hpage : Page searcher query sort total (n * 2) ids) (hle : ids.length ≤ total) (hbeyond : h.hitDocs.length ≤ n)
    (hn : n < total) : ∃ h', Reading searcher query sort total h' ∧
      h'.hitDocs = h.hitDocs ++ ids.drop (findStart h.hitDocs ids).1 ∧
        (n < h'.hitDocs.length → h.getHitDoc n = .ok (h'.hitDocs.getD n 0, h')) ∧
        (h'.hitDocs.length ≤ n → h.getHitDoc n = .error .nullPointer) := by
  obtain ⟨h', hmore, hr', hhits⟩ := getMoreDocs_spec hr hpage hle hbeyond
  have hstart := hr.start
  have hlength := hr'.length
  have hget : h.getHitDoc n = (h'.hitDocs[n]?).elim (.error .nullPointer) fun id => .ok (id, h') := by
    rw [getHitDoc, if_neg (by omega), if_pos (by omega), hmore]
    simp only
    rw [if_neg (by omega)]
    cases h'.hitDocs[n]? <;> rfl
  refine ⟨h', hr', hhits, fun hlt => ?_, fun hge => ?_⟩
  · rw [hget, List.getElem?_eq_getElem hlt, List.getD_eq_getElem?_getD, List.getElem?_eq_getElem hlt]
    rfl
  · rw [hget, List.getElem?_eq_none hge, Option.elim_none]

/-! ## Pages of one list -/

/-- What has been read so far is a beginning of the rows, with the first page at least. -/
structure Begins (rows : List ℕ) (h : Hits Query) : Prop where
  hits : h.hitDocs = rows.take h.hitDocs.length
  first : min 100 rows.length ≤ h.hitDocs.length

/-- **A row is read**: it is that of the list. -/
theorem getHitDoc_row (hpages : 100 < rows.length → ∀ n, Page searcher query sort rows.length n (rows.take n))
    (hr : Reading searcher query sort rows.length h) (hb : Begins rows h) {n : ℕ} (hn : n < rows.length) :
    ∃ h', h.getHitDoc n = .ok (rows.getD n 0, h') ∧ Reading searcher query sort rows.length h' ∧ Begins rows h' := by
  have hrow : ∀ {l : List ℕ}, l = rows.take l.length → n < l.length → l.getD n 0 = rows.getD n 0 := by
    intro l hl hlt
    rw [hl, List.getD_eq_getElem?_getD, List.getElem?_take_of_lt hlt, List.getD_eq_getElem?_getD]
  by_cases hthere : n < h.hitDocs.length
  · refine ⟨h, ?_, hr, hb⟩
    rw [getHitDoc_there hr hn hthere, hrow hb.hits hthere]
  · have hfirst := hb.first
    have hmany : 100 < rows.length := by omega
    obtain ⟨h', hr', hhits, hget, -⟩ := getHitDoc_beyond hr (hpages hmany (n * 2))
      (by rw [List.length_take]; omega) (by omega) hn
    -- the hits so far are the beginning of the new page
    have hsplit : rows.take (n * 2) = h.hitDocs ++ (rows.take (n * 2)).drop h.hitDocs.length := by
      have htake := List.take_append_drop h.hitDocs.length (rows.take (n * 2))
      rw [List.take_take, Nat.min_eq_left (by omega), ← hb.hits] at htake
      exact htake.symm
    have hstart : (findStart h.hitDocs (rows.take (n * 2))).1 = h.hitDocs.length := by
      rw [hsplit, findStart_append]
    have hall : h'.hitDocs = rows.take (n * 2) := by
      rw [hhits, hstart, ← hsplit]
    have hlen : h'.hitDocs.length = min (n * 2) rows.length := by rw [hall, List.length_take]
    have hrows : h'.hitDocs = rows.take h'.hitDocs.length := by
      rw [hlen, hall, List.take_eq_take_iff]
      omega
    refine ⟨h', ?_, hr', hrows, by omega⟩
    rw [hget (by omega), hrow hrows (by omega)]

/-- **Pages that are beginnings of one list** show that list. -/
theorem shows_of_pages (hfirst : Page searcher query sort rows.length 100 (rows.take 100))
    (hpages : 100 < rows.length → ∀ n, Page searcher query sort rows.length n (rows.take n)) :
    ∃ h, Hits.new searcher query sort = .ok h ∧ h.Shows rows := by
  have hle : (rows.take 100).length ≤ rows.length := by
    rw [List.length_take]
    omega
  refine ⟨_, (new_spec hfirst hle _).2 rfl, rfl, ?_⟩
  have hreads : ∀ ns (h : Hits Query), Reading searcher query sort rows.length h → Begins rows h →
      (∀ n ∈ ns, n < rows.length) → h.reads ns = .ok (ns.map fun n => rows.getD n 0) := by
    intro ns
    induction ns with
    | nil => exact fun h _ _ _ => rfl
    | cons n ns ih =>
      intro h hr hb hns
      obtain ⟨hn, hns⟩ := List.forall_mem_cons.1 hns
      obtain ⟨h', hget, hr', hb'⟩ := getHitDoc_row hpages hr hb hn
      simp only [reads, hget, ih h' hr' hb' hns, List.map_cons]
  intro ns hns
  refine hreads ns _ ⟨rfl, rfl, rfl, rfl, Nat.le_refl _⟩ ⟨?_, ?_⟩ hns
  · rw [List.length_take, List.take_eq_take_iff]
    omega
  · rw [List.length_take]

/-! ## Pages of the best hits -/

section Sorted

variable {lt : ℕ → ℕ → Bool}

/-- The page of the best `n` hits. -/
structure BestPage (lt : ℕ → ℕ → Bool) (all : List ℕ) (n : ℕ) (ids : List ℕ) : Prop where
  best : Best lt n all ids
  sorted : ids.Pairwise fun a b => lt a b = false

theorem BestPage.length_le {n : ℕ} {ids : List ℕ} (h : BestPage lt all n ids) : ids.length ≤ all.length := by
  have hcard := h.best.card
  rw [Multiset.coe_card, Multiset.coe_card] at hcard
  omega

/-- **The rows up to one** are those of the first page and some hits that are sorted. -/
theorem rows_upto {total : ℕ} {first : List ℕ}
    (hpages : ∀ n, ∃ ids, Page searcher query sort total n ids ∧ ids.length ≤ total ∧ BestPage lt all n ids)
    (hshows : Shows (⟨searcher, query, sort, first, total, total, 0⟩ : Hits Query) rows) {j : ℕ} (hj : j < rows.length) :
    ∃ more : List ℕ, (∀ id ∈ more, id ∈ all) ∧ more.Pairwise (fun a b => lt a b = false) ∧
      j < (first ++ more).length ∧ ∀ i ≤ j, rows.getD i 0 = (first ++ more).getD i 0 := by
  obtain ⟨hlength, hreads⟩ := hshows
  have htotal : total = rows.length := hlength
  have hr : Reading searcher query sort total ⟨searcher, query, sort, first, total, total, 0⟩ :=
    ⟨rfl, rfl, rfl, rfl, Nat.le_refl _⟩
  by_cases hthere : j < first.length
  · refine ⟨[], fun id hid => absurd hid List.not_mem_nil, List.Pairwise.nil, by rwa [List.append_nil], fun i hi => ?_⟩
    have hread := hreads [i] fun n hn => by
      rw [List.mem_singleton.1 hn]
      omega
    have hget := getHitDoc_there (n := i) hr (by omega) (by simp only; omega)
    simp only [reads, hget, List.map_cons, List.map_nil, Except.ok.injEq, List.cons.injEq, and_true] at hread
    rw [List.append_nil]
    exact hread.symm
  · obtain ⟨ids, hpage, hle, hbest⟩ := hpages (j * 2)
    obtain ⟨h', hr', hhits, hget, hget'⟩ := getHitDoc_beyond hr hpage hle (by simp only; omega) (by omega : j < total)
    have hinside : j < h'.hitDocs.length := by
      by_contra hge
      have hread := hreads [j] fun n hn => by rwa [List.mem_singleton.1 hn]
      simp only [reads, hget' (by omega)] at hread
      cases hread
    refine ⟨_, fun id hid => ?_, hbest.sorted.sublist (List.drop_sublist _ _), by rwa [hhits] at hinside, fun i hi => ?_⟩
    · exact Multiset.mem_coe.1 (hbest.best.mem (Multiset.mem_coe.2 (List.mem_of_mem_drop hid)))
    · -- row `j` is read first, and then row `i`, which is there
      have hread := hreads [j, i] fun n hn => by
        rcases List.mem_cons.1 hn with rfl | hn
        · exact hj
        · rw [List.mem_singleton.1 hn]
          omega
      have hi' := getHitDoc_there (n := i) hr' (by omega) (by omega)
      simp only [reads, hget hinside, hi', List.map_cons, List.map_nil, Except.ok.injEq, List.cons.injEq,
        and_true] at hread
      rw [hhits] at hread
      exact hread.2.symm

/-- **Rows of which each hit is one** are sorted. -/
theorem rows_sorted (hpages : ∀ n, ∃ ids, Page searcher query sort all.length n ids ∧ BestPage lt all n ids)
    (hnew : Hits.new searcher query sort = .ok h) (hshows : h.Shows rows) (hperm : rows.Perm all) (hnodup : all.Nodup) :
    rows.Pairwise fun a b => lt a b = false := by
  obtain ⟨first, hfirst, hbest⟩ := hpages 100
  obtain rfl := (new_spec hfirst hbest.length_le h).1 hnew
  have hrows : rows.Nodup := hperm.nodup_iff.2 hnodup
  rw [List.pairwise_iff_getElem]
  intro i j hi hj hij
  obtain ⟨more, hmem, hsorted, hinside, hupto⟩ := rows_upto
    (fun n => (hpages n).imp fun ids hids => ⟨hids.1, hids.2.length_le, hids.2⟩) hshows hj
  have hat : ∀ k, k ≤ j → ∀ hk : k < rows.length, ∀ hk' : k < (first ++ more).length, rows[k] = (first ++ more)[k] := by
    intro k hkj hk hk'
    have heq := hupto k hkj
    rwa [List.getD_eq_getElem?_getD, List.getD_eq_getElem?_getD, List.getElem?_eq_getElem hk,
      List.getElem?_eq_getElem hk'] at heq
  rw [hat i (by omega) hi (by omega), hat j (Nat.le_refl j) hj hinside]
  by_cases hjf : j < first.length
  · rw [List.getElem_append_left (by omega), List.getElem_append_left hjf]
    exact List.pairwise_iff_getElem.1 hbest.sorted i j (by omega) hjf hij
  · rw [List.length_append] at hinside
    rw [List.getElem_append_right (by omega : first.length ≤ j)]
    have hmore : more[j - first.length] ∈ more := List.getElem_mem _
    by_cases hif : i < first.length
    · rw [List.getElem_append_left hif]
      obtain ⟨-, dropped, hall, hdropped, -⟩ := hbest.best
      apply hdropped _ ?_ _ (Multiset.mem_coe.2 (List.getElem_mem hif))
      have hin : more[j - first.length] ∈ (first : Multiset ℕ) + dropped := by
        rw [← hall]
        exact Multiset.mem_coe.2 (hmem _ hmore)
      refine (Multiset.mem_add.1 hin).resolve_left fun hin => ?_
      -- it would be a row before
      obtain ⟨k, hk, hkj⟩ := List.getElem_of_mem (Multiset.mem_coe.1 hin)
      have hsame : rows[k] = rows[j] := by
        rw [hat k (by omega) (by omega) (by rw [List.length_append]; omega), hat j (Nat.le_refl j) hj
          (by rw [List.length_append]; omega), List.getElem_append_left hk,
          List.getElem_append_right (by omega : first.length ≤ j), hkj]
      have hkj := (hrows.getElem_inj_iff).1 hsame
      omega
    · rw [List.getElem_append_right (by omega : first.length ≤ i)]
      exact List.pairwise_iff_getElem.1 hsorted _ _ _ _ (by omega)

end Sorted

end Hits

end QDesktopSearch
