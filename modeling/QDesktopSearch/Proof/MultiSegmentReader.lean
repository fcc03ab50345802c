import QDesktopSearch.Model.MultiSegmentReader
import QDesktopSearch.Proof.SegmentMerger
import QDesktopSearch.Proof.TermScorer

/-!
# The segments of an index, read together

* `readerIndexLoop_spec`: the search leads to the last segment that begins at or before a document.
* `Ready.ask`: one request, with what it changes.
* `MultiSegmentReader.initialise_responses`: over any requests, deletions among them, the segments answer as their
  terms and what has been deleted so far would.
* `docsOf_foldl`, `MultiSegmentReader.deleteDocuments_found`: deleting by a term takes its documents away, and no others.
-/

namespace QDesktopSearch

/-! ## Deletions -/

namespace Part

variable {p : Part} {r : SegmentReader} {n : ℕ}

def delete (p : Part) (n : ℕ) : Part := { p with deletedDocs := some (Function.update p.isDeleted n true) }

theorem Reads.docFreq (hok : p.OK) (h : p.Reads r) (t : Term) :
    (r.docFreq t).1 = (p.terms.postings t).length ∧ p.Reads (r.docFreq t).2 :=
  SegmentReader.ask_spec hok h (.docFreq t)

/-- The documents of a term in the segment. -/
theorem Reads.termDocs (hok : p.OK) (h : p.Reads r) (t : Term) :
    Feed.Feeds True (SegmentTermDocs.liveDocs p.isDeleted (p.terms.postings t)) (r.termDocs t).1 ∧
      p.Reads (r.termDocs t).2 := by
  obtain ⟨htells, hr⟩ := SegmentReader.Reads.tells hok h t
  have hfeeds := htells.feeds hok
    (y := .new r.freqStream r.isDeleted r.getSkipInterval r.getMaxSkipLevels) h.freqFile h.getSkipInterval
    h.getMaxSkipLevels
  refine ⟨?_, hr⟩
  rw [← h.isDeleted]
  exact hfeeds

theorem Reads.doDelete (h : p.Reads r) (n : ℕ) : (p.delete n).Reads (r.doDelete n) := by
  refine ⟨h._fieldInfos, h.maxDoc, ?_, h.tis, h.freqFile, h.proxFile⟩
  have hdeleted : (r.deletedDocs.getD fun _ => false) = p.isDeleted := by
    rw [h.deletedDocs]
    funext m
    rw [Part.isDeleted]
    cases p.deletedDocs <;> rfl
  rw [SegmentReader.doDelete, hdeleted]
  rfl

end Part

namespace MultiSegmentReader

/-! ## The segment of a document -/

/-- The last of some numbers that is not beyond another. -/
structure LastAt (starts : List ℕ) (n i : ℕ) : Prop where
  lt : i < starts.length
  le : starts.getD i 0 ≤ n
  above : ∀ j, i < j → j < starts.length → n < starts.getD j 0

variable {starts : List ℕ} {n i j k : ℕ}

theorem LastAt.unique (hi : LastAt starts n i) (hj : LastAt starts n j) : i = j := by
  rcases lt_trichotomy i j with hlt | heq | hlt
  · exact absurd hj.le (not_le.2 (hi.above j hlt hj.lt))
  · exact heq
  · exact absurd hi.le (not_le.2 (hj.above i hlt hi.lt))

theorem getD_mono (h : starts.Pairwise (· ≤ ·)) (hij : i ≤ j) (hj : j < starts.length) : starts.getD i 0 ≤ starts.getD j 0 := by
  rcases hij.eq_or_lt with rfl | hlt
  · exact le_rfl
  · rw [List.getD_eq_getElem _ _ (hlt.trans hj), List.getD_eq_getElem _ _ hj]
    exact List.pairwise_iff_getElem.1 h i j (hlt.trans hj) hj hlt

theorem scanLast_spec (h : starts.Pairwise (· ≤ ·)) (hi : i < starts.length) (hn : starts.getD i 0 = n)
    (hk : starts.length ≤ i + k) :
    LastAt starts n (scanLast starts n k i) := by
  induction k generalizing i with
  | zero => omega
  | succ k ih =>
    rw [scanLast]
    by_cases hnext : starts[i + 1]? = some n
    · rw [if_pos hnext]
      obtain ⟨hlt, heq⟩ := List.getElem?_eq_some_iff.1 hnext
      exact ih hlt ((List.getD_eq_getElem _ _ hlt).trans heq) (by omega)
    · rw [if_neg hnext]
      refine ⟨hi, hn.le, fun j hij hj => ?_⟩
      -- the next one is not less, and it is another
      have hlt : i + 1 < starts.length := by omega
      have hle : starts.getD i 0 ≤ starts.getD (i + 1) 0 := getD_mono h (Nat.le_succ i) hlt
      have hne : starts.getD (i + 1) 0 ≠ n := fun heq => hnext (by
        rw [List.getElem?_eq_getElem hlt, ← List.getD_eq_getElem _ 0 hlt, heq])
      have hmono : starts.getD (i + 1) 0 ≤ starts.getD j 0 := getD_mono h hij hj
      omega

/-- What the search knows: what stands before `lo` is not beyond the document, what stands behind `hi` is. -/
structure Between (starts : List ℕ) (n : ℕ) (lo hi : ℤ) : Prop where
  lo_nonneg : 0 ≤ lo
  lo_le : lo ≤ hi + 1
  hi_lt : hi < starts.length
  below : 0 < lo → starts.getD (lo - 1).toNat 0 ≤ n
  above : ∀ j : ℕ, hi < j → j < starts.length → n < starts.getD j 0

theorem Between.last {lo hi : ℤ} (h : Between starts n lo hi) (hlt : hi < lo) (hne : starts ≠ [])
    (hfirst : starts.getD 0 0 ≤ n) :
    ∃ i : ℕ, hi = i ∧ LastAt starts n i := by
  obtain rfl : lo = hi + 1 := by have := h.lo_le; omega
  have hpos : 0 ≤ hi := by
    by_contra hneg
    -- then already the first would be beyond
    have habove := h.above 0 (by omega) (List.length_pos_iff.2 hne)
    omega
  refine ⟨hi.toNat, by omega, by have := h.hi_lt; omega, ?_, fun j hj hlt => h.above j (by omega) hlt⟩
  have hbelow := h.below (by omega)
  rwa [Int.add_sub_cancel] at hbelow

/-- **The search** leads to the last segment that begins at or before the document. -/
theorem readerIndexLoop_spec {lo hi : ℤ} (hs : starts.Pairwise (· ≤ ·)) (h : Between starts n lo hi) (hk : hi + 1 - lo ≤ k)
    (hne : starts ≠ []) (hfirst : starts.getD 0 0 ≤ n) : ∃ i : ℕ, readerIndexLoop n starts k lo hi = i ∧ LastAt starts n i := by
  induction k generalizing lo hi with
  | zero => exact h.last (by omega) hne hfirst
  | succ k ih =>
    unfold readerIndexLoop
    by_cases hge : hi ≥ lo
    · rw [if_pos hge]
      dsimp only
      have hlo := h.lo_nonneg
      have hhi := h.hi_lt
      obtain ⟨hmlo, hmhi⟩ : lo ≤ (lo + hi) / 2 ∧ (lo + hi) / 2 ≤ hi := by omega
      generalize (lo + hi) / 2 = mid at hmlo hmhi ⊢
      obtain ⟨m, rfl⟩ : ∃ m : ℕ, mid = m := ⟨mid.toNat, by omega⟩
      have hm : m < starts.length := by omega
      rw [Int.toNat_natCast]
      by_cases hless : n < starts.getD m 0
      · rw [if_pos hless]
        refine ih ⟨hlo, by omega, by omega, h.below, fun j hj hlt => ?_⟩ (by push_cast at hk; omega)
        exact hless.trans_le (getD_mono hs (by omega) hlt)
      · rw [if_neg hless]
        by_cases hmore : n > starts.getD m 0
        · rw [if_pos hmore]
          refine ih ⟨by omega, by omega, hhi, fun _ => ?_, h.above⟩ (by push_cast at hk; omega)
          rw [Int.add_sub_cancel, Int.toNat_natCast]
          exact hmore.le
        · rw [if_neg hmore, show starts.getD m 0 = n by omega]
          exact ⟨_, rfl, scanLast_spec hs hm (by omega) (Nat.le_add_left _ _)⟩
    · rw [if_neg hge]
      exact h.last (by omega) hne hfirst

/-! ## Several segments -/

/-- Where the documents of each segment begin. -/
def startsOf : List Part → (base : ℕ) → List ℕ
  | [], _ => []
  | p :: parts, base => base :: startsOf parts (base + p.docCount)

def maxDocOf (parts : List Part) : ℕ := (parts.map Part.docCount).sum

/-- The segment of a document, and the number that the document has there. -/
def locate : List Part → ℕ → ℕ × ℕ
  | [], n => (0, n)
  | p :: parts, n =>
    if n < p.docCount then (0, n)
    else
      let r := locate parts (n - p.docCount)
      (r.1 + 1, r.2)

def deletedAt (parts : List Part) (n : ℕ) : Bool := (parts[(locate parts n).1]?).any (·.isDeleted (locate parts n).2)

def deleteAt (parts : List Part) (n : ℕ) : List Part := parts.modify (locate parts n).1 (·.delete (locate parts n).2)

/-- The documents of a term that are not deleted. -/
def docsOf (parts : List Part) (t : Term) : List (ℕ × ℕ) :=
  joined (startsOf parts 0) (parts.map fun p => SegmentTermDocs.liveDocs p.isDeleted (p.terms.postings t))

variable {parts : List Part} {base : ℕ} {x : MultiSegmentReader} {t : Term}

theorem startsOf_length : (startsOf parts base).length = parts.length := by
  induction parts generalizing base with
  | nil => rfl
  | cons p parts ih => exact congrArg (· + 1) ih

theorem le_of_mem_startsOf {s : ℕ} (hs : s ∈ startsOf parts base) : base ≤ s := by
  induction parts generalizing base with
  | nil => exact absurd hs (by simp [startsOf])
  | cons p parts ih =>
    rcases List.mem_cons.1 hs with rfl | hs
    · exact le_rfl
    · exact (Nat.le_add_right _ _).trans (ih hs)

theorem startsOf_pairwise : (startsOf parts base).Pairwise (· ≤ ·) := by
  induction parts generalizing base with
  | nil => exact .nil
  | cons p parts ih => exact List.pairwise_cons.2 ⟨fun s hs => (Nat.le_add_right _ _).trans (le_of_mem_startsOf hs), ih⟩

/-- **A document** lies in the last segment that begins at or before it. -/
theorem locate_spec (base : ℕ) (hn : n < maxDocOf parts) : LastAt (startsOf parts base) (base + n) (locate parts n).1 ∧
    (startsOf parts base).getD (locate parts n).1 0 + (locate parts n).2 = base + n := by
  induction parts generalizing base n with
  | nil => exact absurd hn (Nat.not_lt_zero _)
  | cons p parts ih =>
    have hsum : maxDocOf (p :: parts) = p.docCount + maxDocOf parts := List.sum_cons
    rw [locate]
    by_cases hfirst : n < p.docCount
    · rw [if_pos hfirst]
      refine ⟨⟨Nat.succ_pos _, Nat.le_add_right _ _, fun j hj hlt => ?_⟩, rfl⟩
      have hmem : (startsOf (p :: parts) base).getD j 0 ∈ startsOf parts (base + p.docCount) := by
        obtain ⟨j, rfl⟩ := Nat.exists_eq_succ_of_ne_zero hj.ne'
        rw [startsOf, List.getD_cons_succ]
        have hlt' : j < (startsOf parts (base + p.docCount)).length := Nat.lt_of_succ_lt_succ hlt
        rw [List.getD_eq_getElem _ _ hlt']
        exact List.getElem_mem hlt'
      have hle := le_of_mem_startsOf hmem
      omega
    · rw [if_neg hfirst]
      obtain ⟨hlast, hat⟩ := ih (n := n - p.docCount) (base + p.docCount) (by omega)
      rw [show base + p.docCount + (n - p.docCount) = base + n by omega] at hlast hat
      refine ⟨⟨Nat.succ_lt_succ hlast.lt, hlast.le, fun j hj hlt => ?_⟩, hat⟩
      obtain ⟨j, rfl⟩ := Nat.exists_eq_succ_of_ne_zero (Nat.ne_of_gt (Nat.zero_lt_of_lt hj))
      exact hlast.above j (Nat.lt_of_succ_lt_succ hj) (Nat.lt_of_succ_lt_succ hlt)

theorem startsOf_modify {f : Part → Part} (hf : ∀ p, (f p).docCount = p.docCount) :
    startsOf (parts.modify i f) base = startsOf parts base := by
  induction parts generalizing i base with
  | nil => cases i <;> rfl
  | cons p parts ih =>
    cases i with
    | zero => rw [List.modify_zero_cons, startsOf, startsOf, hf]
    | succ i => rw [List.modify_succ_cons, startsOf, startsOf, ih]

theorem maxDocOf_modify {f : Part → Part} (hf : ∀ p, (f p).docCount = p.docCount) :
    maxDocOf (parts.modify i f) = maxDocOf parts := by
  induction parts generalizing i with
  | nil => cases i <;> rfl
  | cons p parts ih =>
    have hsum : ∀ (p : Part) (ps : List Part), maxDocOf (p :: ps) = p.docCount + maxDocOf ps := fun p ps => List.sum_cons
    cases i with
    | zero => rw [List.modify_zero_cons, hsum, hsum, hf]
    | succ i => rw [List.modify_succ_cons, hsum, hsum, ih]

theorem startsOf_deleteAt : startsOf (deleteAt parts n) base = startsOf parts base := startsOf_modify fun _ => rfl

theorem maxDocOf_deleteAt : maxDocOf (deleteAt parts n) = maxDocOf parts := maxDocOf_modify fun _ => rfl

theorem forall₂_modify {α β : Type*} {R : α → β → Prop} {f : α → α} {g : β → β} {l : List α} {l' : List β}
    (h : List.Forall₂ R l l')
    (hfg : ∀ a b, R a b → R (f a) (g b)) : List.Forall₂ R (l.modify i f) (l'.modify i g) := by
  induction h generalizing i with
  | nil => cases i <;> exact .nil
  | cons hab hrest ih =>
    cases i with
    | zero => exact .cons (hfg _ _ hab) hrest
    | succ i => exact .cons hab ih

theorem forall_modify {α : Type*} {q : α → Prop} {f : α → α} {l : List α} (h : ∀ a ∈ l, q a) (hf : ∀ a, q a → q (f a)) :
    ∀ a ∈ l.modify i f, q a := by
  induction l generalizing i with
  | nil => cases i <;> exact h
  | cons a l ih =>
    obtain ⟨ha, hl⟩ := List.forall_mem_cons.1 h
    cases i with
    | zero => exact List.forall_mem_cons.2 ⟨hf a ha, hl⟩
    | succ i => exact List.forall_mem_cons.2 ⟨ha, ih hl⟩

theorem ok_deleteAt (hok : ∀ p ∈ parts, p.OK) : ∀ p ∈ deleteAt parts n, p.OK := forall_modify hok fun _ h => h

/-- Every document of a term lies in a segment. -/
theorem lt_of_mem_joined (hok : ∀ p ∈ parts, p.OK) {d : ℕ × ℕ}
    (hd : d ∈ joined (startsOf parts base) (parts.map fun p => SegmentTermDocs.liveDocs p.isDeleted (p.terms.postings t))) :
    d.1 < base + maxDocOf parts := by
  induction parts generalizing base with
  | nil => exact absurd hd (by simp [joined, startsOf])
  | cons p parts ih =>
    have hsum : maxDocOf (p :: parts) = p.docCount + maxDocOf parts := List.sum_cons
    obtain ⟨hp, hrest⟩ := List.forall_mem_cons.1 hok
    rw [startsOf, List.map_cons, joined_cons] at hd
    rcases List.mem_append.1 hd with hd | hd
    · obtain ⟨e, he, rfl⟩ := List.mem_map.1 hd
      obtain ⟨q, hq, rfl⟩ := List.mem_map.1 he
      have hq := List.mem_of_mem_filter hq
      have hlt := hp.doc_lt _ (Inverted.mem_of_postings (List.ne_nil_of_mem hq)) q hq
      dsimp only
      omega
    · have hlt := ih hrest hd
      omega

theorem lt_of_mem_docsOf (hok : ∀ p ∈ parts, p.OK) {d : ℕ × ℕ} (hd : d ∈ docsOf parts t) : d.1 < maxDocOf parts := by
  have hlt := lt_of_mem_joined hok hd
  omega

/-! ## What has been deleted -/

theorem deletedAt_cons {p : Part} :
    deletedAt (p :: parts) n = if n < p.docCount then p.isDeleted n else deletedAt parts (n - p.docCount) := by
  rw [deletedAt, locate]
  split <;> rfl

theorem deleteAt_cons {p : Part} :
    deleteAt (p :: parts) n = if n < p.docCount then p.delete n :: parts else p :: deleteAt parts (n - p.docCount) := by
  rw [deleteAt, locate]
  split <;> rfl

/-- **Deleting a document** deletes this one, and no other. -/
theorem deletedAt_deleteAt (hj : j < maxDocOf parts) :
    deletedAt (deleteAt parts j) n = (deletedAt parts n || decide (n = j)) := by
  induction parts generalizing n j with
  | nil => exact absurd hj (Nat.not_lt_zero _)
  | cons p parts ih =>
    have hsum : maxDocOf (p :: parts) = p.docCount + maxDocOf parts := List.sum_cons
    have hother : ¬ (n < p.docCount ↔ j < p.docCount) → decide (n = j) = false :=
      fun hne => decide_eq_false (by rintro rfl; exact hne Iff.rfl)
    rw [deleteAt_cons, deletedAt_cons]
    by_cases hfirst : j < p.docCount
    · rw [if_pos hfirst, deletedAt_cons]
      show (if n < p.docCount then _ else _) = _
      by_cases hn : n < p.docCount
      · rw [if_pos hn, if_pos hn]
        show Function.update p.isDeleted j true n = _
        by_cases heq : n = j
        · rw [heq, Function.update_self, decide_eq_true rfl, Bool.or_true]
        · rw [Function.update_of_ne heq, decide_eq_false heq, Bool.or_false]
      · rw [if_neg hn, if_neg hn, hother (by tauto), Bool.or_false]
        rfl
    · rw [if_neg hfirst, deletedAt_cons]
      by_cases hn : n < p.docCount
      · rw [if_pos hn, if_pos hn, hother (by tauto), Bool.or_false]
      · rw [if_neg hn, if_neg hn, ih (by omega)]
        exact congrArg _ (decide_eq_decide.2 (by omega))

theorem deletedAt_foldl {l : List (ℕ × ℕ)} (hl : ∀ d ∈ l, d.1 < maxDocOf parts) :
    deletedAt (l.foldl (fun parts d => deleteAt parts d.1) parts) n = (deletedAt parts n || decide (n ∈ l.map Prod.fst)) := by
  induction l generalizing parts with
  | nil => simp
  | cons d l ih =>
    obtain ⟨hd, hl⟩ := List.forall_mem_cons.1 hl
    rw [List.foldl_cons, ih fun e he => by rw [maxDocOf_deleteAt]; exact hl e he, deletedAt_deleteAt hd, Bool.or_assoc,
      ← Bool.decide_or]
    exact congrArg _ (decide_eq_decide.2 (by rw [List.map_cons, List.mem_cons]))

/-- The documents of a term, deleted or not. -/
def allDocs (parts : List Part) (base : ℕ) (t : Term) : List (ℕ × ℕ) :=
  joined (startsOf parts base) (parts.map fun p => (p.terms.postings t).map fun q => (q.doc, q.freq))

theorem allDocs_cons {p : Part} : allDocs (p :: parts) base t =
    shift base ((p.terms.postings t).map fun q => (q.doc, q.freq)) ++ allDocs parts (base + p.docCount) t := rfl

theorem le_of_mem_allDocs {d : ℕ × ℕ} (hd : d ∈ allDocs parts base t) : base ≤ d.1 := by
  induction parts generalizing base with
  | nil => exact absurd hd (by simp [allDocs, joined, startsOf])
  | cons p parts ih =>
    rw [allDocs_cons] at hd
    rcases List.mem_append.1 hd with hd | hd
    · obtain ⟨e, -, rfl⟩ := List.mem_map.1 hd
      exact Nat.le_add_right _ _
    · exact (Nat.le_add_right _ _).trans (ih hd)

theorem joined_live (hok : ∀ p ∈ parts, p.OK) :
    joined (startsOf parts base) (parts.map fun p => SegmentTermDocs.liveDocs p.isDeleted (p.terms.postings t)) =
      (allDocs parts base t).filter fun d => !deletedAt parts (d.1 - base) := by
  induction parts generalizing base with
  | nil => rfl
  | cons p parts ih =>
    obtain ⟨hp, hrest⟩ := List.forall_mem_cons.1 hok
    rw [allDocs_cons, List.filter_append, startsOf, List.map_cons, joined_cons, ih hrest]
    congr 1
    · -- in the first segment its own deletions count
      rw [shift, shift, SegmentTermDocs.liveDocs, List.map_map, List.map_map, List.filter_map]
      refine congrArg _ (List.filter_congr fun q hq => ?_)
      have hlt := hp.doc_lt _ (Inverted.mem_of_postings (List.ne_nil_of_mem hq)) q hq
      simp only [Function.comp_apply, Nat.add_sub_cancel_left]
      rw [deletedAt_cons, if_pos hlt]
    · refine List.filter_congr fun d hd => ?_
      have hle := le_of_mem_allDocs hd
      rw [deletedAt_cons, if_neg (by omega), Nat.sub_sub]

/-- **What is found** are the documents that have not been deleted. -/
theorem docsOf_eq (hok : ∀ p ∈ parts, p.OK) : docsOf parts t = (allDocs parts 0 t).filter fun d => !deletedAt parts d.1 :=
  joined_live hok

theorem allDocs_deleteAt : allDocs (deleteAt parts n) base t = allDocs parts base t := by
  induction parts generalizing n base with
  | nil => rw [deleteAt, List.modify_nil]
  | cons p parts ih =>
    rw [deleteAt_cons]
    split
    · rfl
    · rw [allDocs_cons, allDocs_cons, ih]

/-- **After `deleteDocuments`** the documents of the term are found no longer, and all others still are. -/
theorem docsOf_foldl {l : List (ℕ × ℕ)} (hok : ∀ p ∈ parts, p.OK) (hl : ∀ d ∈ l, d.1 < maxDocOf parts) (s : Term) :
    docsOf (l.foldl (fun parts d => deleteAt parts d.1) parts) s =
      (docsOf parts s).filter fun d => decide (d.1 ∉ l.map Prod.fst) := by
  have hall : ∀ (l : List (ℕ × ℕ)) (parts : List Part), (∀ p ∈ parts, p.OK) →
      (∀ p ∈ l.foldl (fun parts d => deleteAt parts d.1) parts, p.OK) ∧
        allDocs (l.foldl (fun parts d => deleteAt parts d.1) parts) 0 s = allDocs parts 0 s := by
    intro l
    induction l with
    | nil => exact fun parts hok => ⟨hok, rfl⟩
    | cons d l ih =>
      intro parts hok
      obtain ⟨hok', hdocs⟩ := ih (deleteAt parts d.1) (ok_deleteAt hok)
      exact ⟨hok', hdocs.trans allDocs_deleteAt⟩
  obtain ⟨hok', hdocs⟩ := hall l parts hok
  rw [docsOf_eq hok', docsOf_eq hok, hdocs, List.filter_filter]
  refine List.filter_congr fun d _ => ?_
  rw [deletedAt_foldl hl, Bool.not_or, Bool.and_comm, ← decide_not]

/-! ## The reader -/

variable {readers : List SegmentReader}

theorem startsLoop_eq (h : List.Forall₂ Part.Reads parts readers) :
    startsLoop readers base = (startsOf parts base, base + maxDocOf parts) := by
  induction h generalizing base with
  | nil => rfl
  | @cons p r parts readers hr hrest ih =>
    have hsum : maxDocOf (p :: parts) = p.docCount + maxDocOf parts := List.sum_cons
    rw [startsLoop, hr.maxDoc, ih, startsOf, hsum, Nat.add_assoc]

/-- What a reader of some segments keeps. -/
structure Ready (parts : List Part) (x : MultiSegmentReader) : Prop where
  ok : ∀ p ∈ parts, p.OK
  readers : List.Forall₂ Part.Reads parts x.subReaders
  starts : x.starts = startsOf parts 0
  counted : ∀ m, x._numDocs = some m → m = (parts.map Part.numDocs).sum

theorem initialise_ready (hok : ∀ p ∈ parts, p.OK) (h : List.Forall₂ Part.Reads parts readers) :
    Ready parts (initialise readers) := by
  refine ⟨hok, h, ?_, fun m hm => absurd hm (by simp [initialise])⟩
  rw [initialise, startsLoop_eq h]

theorem Ready.both (h : Ready parts x) : List.Forall₂ (fun p r => p.OK ∧ p.Reads r) parts x.subReaders :=
  (List.forall₂_and_left _ _).2 ⟨h.ok, h.readers⟩

theorem map_eq_of_forall₂ {α β γ : Type*} {R : α → β → Prop} {f : α → γ} {g : β → γ} {l : List α} {l' : List β}
    (h : List.Forall₂ R l l')
    (hfg : ∀ a b, R a b → g b = f a) : l'.map g = l.map f := by
  induction h with
  | nil => rfl
  | cons hab hrest ih => rw [List.map_cons, List.map_cons, hfg _ _ hab, ih]

theorem Ready.numDocs (h : Ready parts x) : x.numDocs.1 = (parts.map Part.numDocs).sum ∧ Ready parts x.numDocs.2 := by
  have hsum : (x.subReaders.map SegmentReader.numDocs).sum = (parts.map Part.numDocs).sum :=
    congrArg List.sum (map_eq_of_forall₂ h.readers fun p r hr => hr.numDocs)
  rw [MultiSegmentReader.numDocs]
  cases hcached : x._numDocs with
  | none => exact ⟨hsum, h.ok, h.readers, h.starts, fun m hm => (Option.some_inj.1 hm).symm.trans hsum⟩
  | some m => exact ⟨h.counted m hcached, h⟩

/-- **The segment of a document** is found. -/
theorem Ready.readerIndex (h : Ready parts x) (hn : n < maxDocOf parts) :
    x.readerIndex n = (locate parts n).1 ∧ n - x.starts.getD (locate parts n).1 0 = (locate parts n).2 := by
  obtain ⟨hlast, hat⟩ := locate_spec 0 hn
  rw [Nat.zero_add] at hlast hat
  have hne : startsOf parts 0 ≠ [] := List.ne_nil_of_length_pos (Nat.zero_lt_of_lt hlast.lt)
  have hfirst : (startsOf parts 0).getD 0 0 ≤ n := by
    obtain _ | ⟨p, parts⟩ := parts
    · exact absurd rfl hne
    · exact Nat.zero_le _
  have hbetween : Between (startsOf parts 0) n 0 ((startsOf parts 0).length - 1) :=
    ⟨le_rfl, by omega, by omega, fun hpos => absurd hpos (by omega), fun j hj hlt => by omega⟩
  obtain ⟨i, hi, hlast'⟩ := readerIndexLoop_spec (k := (startsOf parts 0).length) startsOf_pairwise hbetween
      (by omega) hne hfirst
  rw [MultiSegmentReader.readerIndex, h.starts, hi, Int.toNat_natCast]
  exact ⟨hlast'.unique hlast, by omega⟩

theorem Ready.isDeleted (h : Ready parts x) (hn : n < maxDocOf parts) : x.isDeleted n = deletedAt parts n := by
  obtain ⟨hi, hat⟩ := h.readerIndex hn
  have hmap : x.subReaders.map SegmentReader.isDeleted = parts.map Part.isDeleted :=
    map_eq_of_forall₂ h.readers fun p r hr => hr.isDeleted
  have hget := congrArg (·[(locate parts n).1]?) hmap
  simp only [List.getElem?_map] at hget
  have hany := congrArg (fun o => Option.any (· (locate parts n).2) o) hget
  simp only [Option.any_map] at hany
  rw [MultiSegmentReader.isDeleted, hi, hat, deletedAt]
  exact hany

theorem Ready.doDelete (h : Ready parts x) (hn : n < maxDocOf parts) : Ready (deleteAt parts n) (x.doDelete n) := by
  obtain ⟨hi, hat⟩ := h.readerIndex hn
  refine ⟨ok_deleteAt h.ok, ?_, ?_, fun m hm => absurd hm (by simp [MultiSegmentReader.doDelete])⟩
  · rw [MultiSegmentReader.doDelete, hi, hat]
    exact forall₂_modify h.readers fun p r hr => hr.doDelete _
  · rw [startsOf_deleteAt]
    exact h.starts

/-- The segments have been asked for a term. -/
theorem Ready.asked (h : Ready parts x) {α : Type*} (f : SegmentReader → α × SegmentReader)
    (hf : ∀ p r, p.OK → Part.Reads p r → p.Reads (f r).2) :
    Ready parts { x with subReaders := (x.subReaders.map f).map Prod.snd } := by
  refine ⟨h.ok, ?_, h.starts, h.counted⟩
  rw [List.forall₂_map_right_iff, List.forall₂_map_right_iff]
  exact h.both.imp fun p r hr => hf p r hr.1 hr.2

theorem Ready.docFreq (h : Ready parts x) (t : Term) :
    (x.docFreq t).1 = (parts.map fun p => (p.terms.postings t).length).sum ∧ Ready parts (x.docFreq t).2 := by
  refine ⟨?_, h.asked _ fun p r hok hr => (hr.docFreq hok t).2⟩
  rw [MultiSegmentReader.docFreq]
  dsimp only
  rw [List.map_map]
  exact congrArg List.sum (map_eq_of_forall₂ h.both fun p r hr => (hr.2.docFreq hr.1 t).1)

/-- **The documents of a term** in all segments. -/
theorem Ready.termDocs (h : Ready parts x) (t : Term) :
    Feed.Feeds False (docsOf parts t) (x.termDocs t).1 ∧ Ready parts (x.termDocs t).2 := by
  refine ⟨?_, h.asked _ fun p r hok hr => (hr.termDocs hok t).2⟩
  rw [docsOf, ← h.starts]
  refine MultiTermDocs.feeds ?_ ?_
  · rw [List.forall₂_map_left_iff, List.forall₂_map_right_iff, List.forall₂_map_right_iff]
    exact h.both.imp fun p r hr => (hr.2.termDocs hr.1 t).1.of_full
  · rw [h.starts, startsOf_length, List.length_map, List.length_map]
    exact h.readers.length_eq

/-- **The loop of `deleteDocuments`** deletes what the enumeration gives. -/
theorem deleteLoop_spec {docs : MultiTermDocs SegmentTermDocs} {l : List (ℕ × ℕ)} {c : ℕ} (h : Ready parts x)
    (hdocs : Feed.Feeds False l docs)
    (hl : ∀ d ∈ l, d.1 < maxDocOf parts) (hk : Feed.left docs < k) : (deleteLoop k docs c x).1 = c + l.length ∧
      Ready (l.foldl (fun parts d => deleteAt parts d.1) parts) (deleteLoop k docs c x).2 := by
  induction k generalizing docs l c parts x with
  | zero => omega
  | succ k ih =>
    have hnext := hdocs.next
    rw [deleteLoop]
    generalize Feed.next docs = r at hnext ⊢
    by_cases hr : r.1 = true
    · obtain ⟨l', rfl, hdocs', hleft⟩ := hnext.found hr
      obtain ⟨hd, hl'⟩ := List.forall_mem_cons.1 hl
      rw [if_pos hr, List.foldl_cons, List.length_cons]
      obtain ⟨hcount, hready⟩ := ih (c := c + 1) (h.doDelete hd) hdocs'
          (fun d hd => by rw [maxDocOf_deleteAt]; exact hl' d hd) (by omega)
      exact ⟨by omega, hready⟩
    · obtain ⟨rfl, -⟩ := hnext.exhausted (by simpa using hr)
      rw [if_neg hr]
      exact ⟨rfl, h⟩

/-! ## Requests -/

/-- What the segments answer to a request, with what has been deleted so far. -/
def Meets (parts : List Part) : Request → Response → Prop
  | .numDocs, .number m => m = (parts.map Part.numDocs).sum
  | .isDeleted n, .deleted b => b = deletedAt parts n
  | .docFreq t, .number m => m = (parts.map fun p => (p.terms.postings t).length).sum
  | .termDocs t calls, .termDocs as => Feed.Answers False (docsOf parts t) calls as
  | .deleteDocument _, .done => True
  | .deleteDocuments t, .number m => m = (docsOf parts t).length
  | _, _ => False

/-- What a request makes of the segments. -/
def after (parts : List Part) : Request → List Part
  | .deleteDocument n => deleteAt parts n
  | .deleteDocuments t => (docsOf parts t).foldl (fun parts d => deleteAt parts d.1) parts
  | _ => parts

/-- A request is for a document of the index. -/
def InRange (maxDoc : ℕ) : Request → Prop
  | .isDeleted n => n < maxDoc
  | .deleteDocument n => n < maxDoc
  | _ => True

/-- Responses to requests, one after the other. -/
inductive MeetsAll : List Part → List Request → List Response → Prop
  | nil (parts : List Part) : MeetsAll parts [] []
  | cons {parts : List Part} {request : Request} {response : Response} {requests : List Request} {responses : List Response}
    (hmeets : Meets parts request response) (hrest : MeetsAll (after parts request) requests responses) :
    MeetsAll parts (request :: requests) (response :: responses)

theorem maxDocOf_after {request : Request} : maxDocOf (after parts request) = maxDocOf parts := by
  have hfold : ∀ (l : List (ℕ × ℕ)) (parts : List Part), maxDocOf (l.foldl (fun parts d => deleteAt parts d.1) parts) =
      maxDocOf parts := by
    intro l
    induction l with
    | nil => exact fun _ => rfl
    | cons d l ih => exact fun parts => (ih _).trans maxDocOf_deleteAt
  cases request with
  | deleteDocument n => exact maxDocOf_deleteAt
  | deleteDocuments t => exact hfold _ _
  | _ => rfl

/-- **One request.** -/
theorem Ready.ask (h : Ready parts x) (request : Request) (hrange : InRange (maxDocOf parts) request) :
    Meets parts request (x.ask request).1 ∧ Ready (after parts request) (x.ask request).2 := by
  cases request with
  | numDocs => exact h.numDocs
  | isDeleted n => exact ⟨h.isDeleted hrange, h⟩
  | docFreq t => exact h.docFreq t
  | termDocs t calls =>
    obtain ⟨hfeeds, hready⟩ := h.termDocs t
    exact ⟨hfeeds.answers, hready⟩
  | deleteDocument n => exact ⟨trivial, h.doDelete hrange⟩
  | deleteDocuments t =>
    obtain ⟨hfeeds, hready⟩ := h.termDocs t
    obtain ⟨hcount, hready'⟩ := deleteLoop_spec (c := 0) hready hfeeds (fun d hd => lt_of_mem_docsOf h.ok hd)
        (Nat.lt_succ_self _)
    exact ⟨hcount.trans (Nat.zero_add _), hready'⟩

theorem responses_spec (h : Ready parts x) {requests : List Request}
    (hrange : ∀ request ∈ requests, InRange (maxDocOf parts) request) :
    MeetsAll parts requests (x.responses requests) := by
  induction requests generalizing parts x with
  | nil => exact .nil _
  | cons request requests ih =>
    obtain ⟨hfirst, hrest⟩ := List.forall_mem_cons.1 hrange
    obtain ⟨hmeets, hready⟩ := h.ask request hfirst
    refine .cons hmeets (ih hready ?_)
    rw [maxDocOf_after]
    exact hrest

/-- **The segments of an index, read together**: whatever is asked of them and deleted from them, in whatever order, they
answer as their terms and what has been deleted so far would. -/
theorem initialise_responses (hok : ∀ p ∈ parts, p.OK) (h : List.Forall₂ SegmentMerger.Opens parts readers)
    {requests : List Request}
    (hrange : ∀ request ∈ requests, InRange (maxDocOf parts) request) :
    MeetsAll parts requests ((initialise readers).responses requests) :=
  responses_spec (initialise_ready hok (SegmentMerger.reads_of_opens hok h)) hrange

theorem initialise_responses_two :
    let requests : List Request :=
      [.numDocs, .deleteDocuments ⟨[98], [97]⟩, .isDeleted 4, .termDocs ⟨[98], [97]⟩ [.next], .deleteDocument 3, .numDocs]
    ∃ r₁ r₂, SegmentMerger.Opens .three r₁ ∧ SegmentMerger.Opens .two r₂ ∧ (∀ request ∈ requests, InRange 5 request) ∧
      MeetsAll [.three, .two] requests ((initialise [r₁, r₂]).responses requests) := by
  intro requests
  have hrange : ∀ request ∈ requests, InRange 5 request := by
    intro request hrequest
    simp only [requests, List.mem_cons, List.not_mem_nil, or_false] at hrequest
    rcases hrequest with rfl | rfl | rfl | rfl | rfl | rfl <;> simp [InRange]
  obtain ⟨r₁, hr₁⟩ := SegmentMerger.exists_opens Part.three_ok
  obtain ⟨r₂, hr₂⟩ := SegmentMerger.exists_opens Part.two_ok
  exact ⟨r₁, r₂, hr₁, hr₂, hrange, initialise_responses Part.three_two_ok (.cons hr₁ (.cons hr₂ .nil)) hrange⟩

/-- What requests make of the reader, one after the other. -/
theorem run_ready (h : Ready parts x) {requests : List Request}
    (hrange : ∀ request ∈ requests, InRange (maxDocOf parts) request) :
    Ready (requests.foldl after parts) (x.run requests) := by
  induction requests generalizing parts x with
  | nil => exact h
  | cons request requests ih =>
    obtain ⟨hfirst, hrest⟩ := List.forall_mem_cons.1 hrange
    refine ih (h.ask request hfirst).2 ?_
    rw [maxDocOf_after]
    exact hrest

/-- **Deleting by a term**, after any requests: as many documents are deleted as the term finds, and from then on every
term finds what it found before but these. -/
theorem deleteDocuments_found (hok : ∀ p ∈ parts, p.OK) (h : List.Forall₂ SegmentMerger.Opens parts readers)
    {requests : List Request}
    (hrange : ∀ request ∈ requests, InRange (maxDocOf parts) request) (t s : Term) (calls : List Feed.Call) :
    let found := docsOf (requests.foldl after parts)
    let r := ((initialise readers).run requests).deleteDocuments t
    r.1 = (found t).length ∧
      Feed.Answers False ((found s).filter fun d => decide (d.1 ∉ (found t).map Prod.fst)) calls
          (Feed.answers (r.2.termDocs s).1 calls) := by
  have hready := run_ready (initialise_ready hok (SegmentMerger.reads_of_opens hok h)) hrange
  obtain ⟨hnumber, hready'⟩ := hready.ask (.deleteDocuments t) trivial
  obtain ⟨hfeeds, -⟩ := hready'.termDocs s
  dsimp only
  rw [← docsOf_foldl hready.ok (fun d hd => lt_of_mem_docsOf hready.ok hd)]
  exact ⟨hnumber, hfeeds.answers⟩

theorem inRange_three_two : ∀ request ∈ [Request.deleteDocument 3, .numDocs], InRange (maxDocOf [.three, .two]) request := by
  intro request hrequest
  rcases List.mem_pair.1 hrequest with rfl | rfl
  · show 3 < 5
    decide
  · trivial

theorem deleteDocuments_found_two :
    let requests : List Request := [.deleteDocument 3, .numDocs]
    let found := docsOf (requests.foldl after [.three, .two])
    ∃ r₁ r₂, SegmentMerger.Opens .three r₁ ∧ SegmentMerger.Opens .two r₂ ∧
      let r := ((initialise [r₁, r₂]).run requests).deleteDocuments ⟨[98], [97]⟩
      r.1 = (found ⟨[98], [97]⟩).length ∧
        Feed.Answers False ((found ⟨[99], [97]⟩).filter fun d => decide (d.1 ∉ (found ⟨[98], [97]⟩).map Prod.fst))
          [.next, .skipTo 4]
          (Feed.answers (r.2.termDocs ⟨[99], [97]⟩).1 [.next, .skipTo 4]) := by
  intro requests found
  obtain ⟨r₁, hr₁⟩ := SegmentMerger.exists_opens Part.three_ok
  obtain ⟨r₂, hr₂⟩ := SegmentMerger.exists_opens Part.two_ok
  exact ⟨r₁, r₂, hr₁, hr₂, deleteDocuments_found Part.three_two_ok (.cons hr₁ (.cons hr₂ .nil)) inRange_three_two _ _ _⟩

end MultiSegmentReader

end QDesktopSearch
