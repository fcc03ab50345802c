import QDesktopSearch.Proof.MultiSegmentReader

/-!
# An index before and after its segments are merged

* `rankAt_add`: the numbers of a segment's documents go on where those of the segments before it end.
* `mergedPostings_docs`: what a term has in the new segment is what it finds in the others, under new numbers.
* `mergeTerms_found`: after any requests and deletions, merging changes the numbers of the documents and nothing else.
-/

namespace QDesktopSearch

theorem Part.Reads.run {p : Part} {r : SegmentReader} (hok : p.OK) (h : p.Reads r) (requests : List SegmentReader.Request) :
    p.Reads (r.run requests) := by
  induction requests generalizing r with
  | nil => exact h
  | cons request requests ih => exact ih (SegmentReader.ask_spec hok h request).2

namespace MultiSegmentReader

open SegmentMerger

/-! ## New numbers -/

/-- The number that a document gets: how many documents before it are not deleted. -/
def rankAt (parts : List Part) (n : ℕ) : ℕ := Nat.count (fun j => deletedAt parts j = false) n

variable {parts : List Part} {base n : ℕ} {x : MultiSegmentReader} {t : Term} {p : Part}

theorem count_congr {f g : ℕ → Bool} (h : ∀ j < n, f j = g j) :
    Nat.count (fun j => f j = false) n = Nat.count (fun j => g j = false) n := by
  induction n with
  | zero => rfl
  | succ n ih => rw [Nat.count_succ, Nat.count_succ, ih fun j hj => h j (Nat.lt_succ_of_lt hj), h n (Nat.lt_succ_self n)]

theorem rankAt_of_le (hn : n ≤ p.docCount) : rankAt (p :: parts) n = p.rank n := by
  refine count_congr fun j hj => ?_
  rw [deletedAt_cons, if_pos (by omega)]

/-- The numbers of a segment's documents go on where those of the segments before it end. -/
theorem rankAt_add : rankAt (p :: parts) (p.docCount + n) = p.numDocs + rankAt parts n := by
  rw [rankAt, Nat.count_add, ← rankAt, rankAt_of_le le_rfl, ← Part.numDocs]
  congr 1
  refine count_congr fun j _ => ?_
  rw [deletedAt_cons, if_neg (by omega), Nat.add_sub_cancel_left]

theorem le_of_mem_live (hok : ∀ p ∈ parts, p.OK) {d : ℕ × ℕ}
    (hd : d ∈ joined (startsOf parts base)
      (parts.map fun p => SegmentTermDocs.liveDocs p.isDeleted (p.terms.postings t))) : base ≤ d.1 := by
  rw [joined_live hok] at hd
  exact le_of_mem_allDocs (List.mem_of_mem_filter hd)

/-- **The postings of a term** in the new segment are the documents that it finds in the others, with new numbers. -/
theorem mergedPostings_docs (base : ℕ) (hok : ∀ p ∈ parts, p.OK) (b : ℕ) :
    (mergedPostings parts b t).map (fun q => (q.doc, q.freq)) =
      (joined (startsOf parts base) (parts.map fun p => SegmentTermDocs.liveDocs p.isDeleted (p.terms.postings t))).map
        fun d => (b + rankAt parts (d.1 - base), d.2) := by
  induction parts generalizing base b with
  | nil => rfl
  | cons p parts ih =>
    obtain ⟨hp, hrest⟩ := List.forall_mem_cons.1 hok
    rw [mergedPostings, List.map_append, ih (base + p.docCount) hrest, startsOf, List.map_cons, joined_cons, List.map_append]
    congr 1
    · -- the documents of the first segment
      rw [Part.renumbered, shift, SegmentTermDocs.liveDocs, List.map_map, List.map_map, List.map_map]
      refine List.map_congr_left fun q hq => ?_
      have hmem := List.mem_of_mem_filter hq
      have hlt := hp.doc_lt _ (Inverted.mem_of_postings (List.ne_nil_of_mem hmem)) q hmem
      simp only [Function.comp_apply, Nat.add_sub_cancel_left]
      rw [rankAt_of_le hlt.le]
      rfl
    · -- those of the others come after all of them
      refine List.map_congr_left fun d hd => ?_
      have hle := le_of_mem_live hrest hd
      rw [show d.1 - base = p.docCount + (d.1 - (base + p.docCount)) by omega, rankAt_add, Nat.add_assoc]

/-! ## The new segment -/

variable {interval : ℕ} {readers reopened : List SegmentReader}

theorem mergedPart_numDocs : (mergedPart parts interval).numDocs = (parts.map Part.numDocs).sum :=
  Nat.count_of_forall fun _ _ => rfl

/-- **What a term finds** in the new segment. -/
theorem mergedPart_docs (hok : ∀ p ∈ parts, p.OK) :
    SegmentTermDocs.liveDocs (mergedPart parts interval).isDeleted ((mergedPart parts interval).terms.postings t) =
      (docsOf parts t).map fun d => (rankAt parts d.1, d.2) := by
  have hall : ∀ ps : List Posting, ps.filter (fun q => !(mergedPart parts interval).isDeleted q.doc) = ps :=
    fun ps => List.filter_eq_self.2 fun _ _ => rfl
  have hdocs := mergedPostings_docs (t := t) 0 hok 0
  simp only [Nat.zero_add, Nat.sub_zero] at hdocs
  rw [SegmentTermDocs.liveDocs, hall, docsOf, ← hdocs]
  exact congrArg _ postings_mergedTerms

/-- What `mergeMiddle` asserts. -/
theorem mergedDocs_eq_numDocs (hok : ∀ p ∈ parts, p.OK) (h : List.Forall₂ Opens parts readers) :
    mergedDocs readers = (readers.map SegmentReader.numDocs).sum := by
  have hreads := reads_of_opens hok h
  rw [mergedDocs_eq hreads, mergedNumDocs]
  exact congrArg List.sum (map_eq_of_forall₂ hreads fun p r hr => hr.numDocs).symm

/-- **Merging an index**, after any requests: when its segments are opened again with what has been deleted from them, and
merged, the documents are counted right, and a reader of the new segment has as many and finds for every term the same
ones, under the numbers that are left when the deleted documents are not counted. -/
theorem mergeTerms_found (hok : ∀ p ∈ parts, p.OK) (h : List.Forall₂ Opens parts readers) {requests : List Request}
    (hrange : ∀ request ∈ requests, InRange (maxDocOf parts) request)
    (hreopened : List.Forall₂ Opens (requests.foldl after parts) reopened)
    (hfits : SegmentMerger.Fits (requests.foldl after parts) interval) :
    let x := (initialise readers).run requests
    mergedDocs reopened = (reopened.map SegmentReader.numDocs).sum ∧
    ∃ files r, mergeTerms reopened interval = .ok files ∧ SegmentReader.get files (mergedDocs reopened) none = .ok r ∧
      r.numDocs = x.numDocs.1 ∧ ∀ (t : Term) (asked : List SegmentReader.Request) (calls : List Feed.Call),
        let found := docsOf (requests.foldl after parts) t
        Feed.Answers False found calls (Feed.answers (x.termDocs t).1 calls) ∧
          Feed.Answers True (found.map fun d => (Nat.count (fun n => x.isDeleted n = false) d.1, d.2)) calls
            (Feed.answers ((r.run asked).termDocs t).1 calls) := by
  have hready := run_ready (initialise_ready hok (reads_of_opens hok h)) hrange
  obtain ⟨files, r, hmerge, hget, hr⟩ := mergeTerms_reads hready.ok hfits hreopened
  refine ⟨mergedDocs_eq_numDocs hready.ok hreopened, files, r, hmerge, hget, ?_,
    fun t asked calls => ⟨(hready.termDocs t).1.answers, ?_⟩⟩
  · rw [hr.numDocs, mergedPart_numDocs, hready.numDocs.1]
  · have hmerged : (mergedPart (requests.foldl after parts) interval).OK := segmentOK hready.ok hfits
    have hfeeds := ((hr.run hmerged asked).termDocs hmerged t).1
    rw [mergedPart_docs hready.ok] at hfeeds
    -- up to a document that is found, the reader tells what is deleted
    have hnumber : ∀ d ∈ docsOf (requests.foldl after parts) t,
        (Nat.count (fun n => ((initialise readers).run requests).isDeleted n = false) d.1, d.2) =
          (rankAt (requests.foldl after parts) d.1, d.2) := by
      intro d hd
      have hlt := lt_of_mem_docsOf hready.ok hd
      exact congrArg (·, d.2) (count_congr fun j hj => hready.isDeleted (hj.trans hlt))
    rw [List.map_congr_left hnumber]
    exact hfeeds.answers

theorem mergeTerms_found_two :
    let requests : List Request := [.deleteDocument 3, .numDocs]
    ∃ r₁ r₂ r₃, Opens .three r₁ ∧ Opens .two r₂ ∧ Opens (Part.delete .two 0) r₃ ∧
      let x := (initialise [r₁, r₂]).run requests
      mergedDocs [r₁, r₃] = ([r₁, r₃].map SegmentReader.numDocs).sum ∧
      ∃ files r, mergeTerms [r₁, r₃] 2 = .ok files ∧ SegmentReader.get files (mergedDocs [r₁, r₃]) none = .ok r ∧
        r.numDocs = x.numDocs.1 ∧ ∀ (t : Term) (asked : List SegmentReader.Request) (calls : List Feed.Call),
          let found := docsOf (requests.foldl after [.three, .two]) t
          Feed.Answers False found calls (Feed.answers (x.termDocs t).1 calls) ∧
            Feed.Answers True (found.map fun d => (Nat.count (fun n => x.isDeleted n = false) d.1, d.2)) calls
              (Feed.answers ((r.run asked).termDocs t).1 calls) := by
  intro requests
  have hterms : mergedTerms [.three, Part.delete .two 0] = [(⟨[98], [97]⟩, [⟨1, [0, 3]⟩, ⟨2, [4]⟩]), (⟨[99], [97]⟩, [])] := by
    -- deleting leaves the terms
    rw [mergedTerms, show [Part.three, Part.delete .two 0].map dictionary = [Part.three, Part.two].map dictionary from rfl,
      union_three_two]
    decide
  have hfits : SegmentMerger.Fits [.three, Part.delete .two 0] 2 := by
    refine ⟨by decide, by decide, by decide, by decide, ?_, ?_, ?_, ?_, ?_, ?_⟩ <;> rw [hterms] <;> decide
  obtain ⟨r₁, hr₁⟩ := exists_opens Part.three_ok
  obtain ⟨r₂, hr₂⟩ := exists_opens Part.two_ok
  obtain ⟨r₃, hr₃⟩ := exists_opens (p := Part.delete .two 0) Part.two_ok
  have hreopened : List.Forall₂ Opens [.three, Part.delete .two 0] [r₁, r₃] := .cons hr₁ (.cons hr₃ .nil)
  exact ⟨r₁, r₂, r₃, hr₁, hr₂, hr₃,
    mergeTerms_found Part.three_two_ok (.cons hr₁ (.cons hr₂ .nil)) inRange_three_two hreopened hfits⟩

end MultiSegmentReader

end QDesktopSearch
