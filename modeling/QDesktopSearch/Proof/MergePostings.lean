import Mathlib.Data.Nat.Count
import QDesktopSearch.Lib.Merge
import QDesktopSearch.Model.SegmentMerger
import QDesktopSearch.Proof.Segment

/-!
# The postings of a term, from several segments

* `newDoc_spec`: a document that is not deleted gets as its number how many such documents come before it.
* `addAll_spec`: postings in ascending order are written, and none is refused.
* `Stands`: a segment on its way, and what is copied from it.
-/

namespace QDesktopSearch

/-- A segment that is merged: its terms, and which of its documents are deleted. -/
structure Part where
  fieldInfos : FieldInfos
  interval : ℕ
  docCount : ℕ
  terms : Inverted
  deletedDocs : Option (ℕ → Bool)

namespace Part

def isDeleted (p : Part) (doc : ℕ) : Bool := p.deletedDocs.any (· doc)

/-- How many documents before one are not deleted. -/
def rank (p : Part) (doc : ℕ) : ℕ := Nat.count (fun j => p.isDeleted j = false) doc

def numDocs (p : Part) : ℕ := p.rank p.docCount

/-- The postings of a term, with new numbers. -/
def renumbered (p : Part) (base : ℕ) (t : Term) : List Posting :=
  ((p.terms.postings t).filter fun q => !p.isDeleted q.doc).map fun q => ⟨base + p.rank q.doc, q.positions⟩

def OK (p : Part) : Prop := SegmentOK p.fieldInfos p.interval p.docCount p.terms

/-- A reader of the segment, whatever has been asked of it. -/
def Reads (p : Part) (r : SegmentReader) : Prop :=
  SegmentReader.Reads p.fieldInfos p.interval p.docCount p.terms p.deletedDocs r

variable {p : Part} {r : SegmentReader} {base : ℕ} {t : Term} {q : Posting}

theorem rank_lt {i j : ℕ} (hlive : p.isDeleted i = false) (hij : i < j) : p.rank i < p.rank j := Nat.count_strict_mono hlive hij

theorem Reads.isDeleted (h : p.Reads r) : r.isDeleted = p.isDeleted := SegmentReader.Reads.isDeleted h

theorem count_add (n : ℕ) : p.rank n + (List.range n).countP p.isDeleted = n := by
  induction n with
  | zero => rfl
  | succ n ih =>
    have hsucc : p.rank (n + 1) = p.rank n + if p.isDeleted n = false then 1 else 0 := Nat.count_succ _ _
    rw [hsucc, List.range_succ, List.countP_append, List.countP_singleton]
    cases p.isDeleted n <;> simp <;> omega

theorem countP_live (n : ℕ) : (List.range n).countP (fun j => !p.isDeleted j) = p.rank n := by
  induction n with
  | zero => rfl
  | succ n ih =>
    have hsucc : p.rank (n + 1) = p.rank n + if p.isDeleted n = false then 1 else 0 := Nat.count_succ _ _
    rw [hsucc, List.range_succ, List.countP_append, List.countP_singleton, ih]
    cases p.isDeleted n <;> rfl

/-- **The documents of a segment** are counted. -/
theorem Reads.numDocs (h : p.Reads r) : r.numDocs = p.numDocs := by
  rw [SegmentReader.numDocs, h.maxDoc, h.deletedDocs, Part.numDocs]
  have hadd := p.count_add p.docCount
  cases hdeleted : p.deletedDocs with
  | none =>
    have hnone : p.isDeleted = fun _ => false := by
      funext n
      rw [Part.isDeleted, hdeleted]
      rfl
    rw [hnone, List.countP_false] at hadd
    exact hadd.symm
  | some deletedDocs =>
    have hsome : p.isDeleted = deletedDocs := by
      funext n
      rw [Part.isDeleted, hdeleted]
      rfl
    rw [hsome] at hadd
    dsimp only [Option.elim]
    omega

/-! ## New numbers -/

theorem docMapLoop_get {isDeleted : ℕ → Bool} {n i j k : ℕ} (hk : k < n) (hlive : isDeleted (i + k) = false) :
    (SegmentMergeInfo.docMapLoop isDeleted n i j).getD k 0 = j + Nat.count (fun l => isDeleted (i + l) = false) k := by
  induction n generalizing i j k with
  | zero => omega
  | succ n ih =>
    cases k with
    | zero =>
      rw [Nat.add_zero] at hlive
      rw [SegmentMergeInfo.docMapLoop, hlive]
      simp
    | succ k =>
      rw [show i + (k + 1) = i + 1 + k by omega] at hlive
      have hcount : Nat.count (fun l => isDeleted (i + l) = false) (k + 1) =
          (if isDeleted i = false then 1 else 0) + Nat.count (fun l => isDeleted (i + 1 + l) = false) k := by
        rw [Nat.count_succ', Nat.add_comm]
        simp only [Nat.add_zero, Nat.add_assoc, Nat.add_comm 1]
      rw [hcount, SegmentMergeInfo.docMapLoop]
      -- a deleted document gets no number, and takes none away
      cases hdel : isDeleted i with
      | true =>
        rw [if_pos rfl, List.getD_cons_succ, ih (by omega) hlive]
        simp
      | false =>
        rw [if_neg (by simp), List.getD_cons_succ, ih (by omega) hlive]
        push_cast
        simp
        ring

/-- **A document that is not deleted** gets as its number how many such documents come before it. -/
theorem newDoc_spec {smi : SegmentMergeInfo} (h : p.Reads r) (hbase : smi.base = base)
    (hmap : smi.docMap = SegmentMergeInfo.getDocMap r) {doc : ℕ} (hdoc : doc < p.docCount) (hlive : p.isDeleted doc = false) :
    smi.newDoc doc = (base + p.rank doc : ℕ) := by
  rw [SegmentMergeInfo.newDoc, hmap, SegmentMergeInfo.getDocMap, SegmentReader.hasDeletions, h.deletedDocs, h.isDeleted,
    h.maxDoc, hbase]
  cases hdeleted : p.deletedDocs with
  | none =>
    have hrank : p.rank doc = doc := by
      have hadd := p.count_add doc
      have hnone : p.isDeleted = fun _ => false := by
        funext n
        rw [Part.isDeleted, hdeleted]
        rfl
      rw [hnone, List.countP_false] at hadd
      exact hadd
    rw [hrank]
    simp
    ring
  | some deletedDocs =>
    rw [Option.isSome_some, if_pos rfl, Option.elim_some, docMapLoop_get hdoc (by rwa [Nat.zero_add])]
    simp only [Nat.zero_add]
    rw [Part.rank]
    push_cast
    ring

/-- The new numbers go up, and lie in the range of the segment. -/
theorem renumbered_pairwise (base : ℕ) (t : Term) (h : p.OK) : (p.renumbered base t).Pairwise (fun q q' => q.doc < q'.doc) ∧
    ∀ q ∈ p.renumbered base t, base ≤ q.doc ∧ q.doc < base + p.numDocs := by
  by_cases hnil : p.terms.postings t = []
  · rw [renumbered, hnil]
    exact ⟨.nil, fun q hq => absurd hq (by simp)⟩
  have hmem := Inverted.mem_of_postings hnil
  have hok := (h.postings _ hmem).ok
  refine ⟨?_, fun q hq => ?_⟩
  · rw [renumbered, List.pairwise_map, List.pairwise_filter]
    exact hok.ascending.imp fun hlt hlive _ => Nat.add_lt_add_left (rank_lt (by simpa using hlive) hlt) _
  · obtain ⟨q, hfilter, rfl⟩ := List.mem_map.1 hq
    obtain ⟨hpostings, hlive⟩ := List.mem_filter.1 hfilter
    exact ⟨Nat.le_add_right _ _, Nat.add_lt_add_left (rank_lt (by simpa using hlive) (h.doc_lt _ hmem q hpostings)) _⟩

/-- A segment of three documents, the first of which is deleted. -/
def three : Part := ⟨[[98]], 2, 3, [(⟨[98], [97]⟩, [⟨0, [1]⟩, ⟨2, [0, 3]⟩])], some (· = 0)⟩

/-- A segment of two documents. -/
def two : Part := ⟨[[98], [99]], 2, 2, [(⟨[98], [97]⟩, [⟨1, [4]⟩]), (⟨[99], [97]⟩, [⟨0, [2]⟩])], none⟩

theorem three_ok : three.OK := by
  refine ⟨by decide, by decide, by decide, by decide, by decide, by decide, by decide, by simp [three], by decide,
    by decide, fun d hd => ?_, by decide, by decide, by decide⟩
  obtain rfl := List.mem_singleton.1 hd
  exact ⟨by decide, by decide, ⟨by decide, by decide, by decide⟩, by unfold PositionsOK; decide, by decide,
    by decide, by decide⟩

theorem two_ok : two.OK := by
  refine ⟨by decide, by decide, by decide, by decide, by decide, by decide, by decide, by simp [two], by decide, by decide,
    fun d hd => ?_, by decide, by decide, by decide⟩
  rcases List.mem_pair.1 hd with rfl | rfl <;>
    exact ⟨by decide, by decide, ⟨by decide, by decide, by decide⟩, by unfold PositionsOK; decide, by decide,
      by decide, by decide⟩

theorem three_two_ok : ∀ p ∈ [three, two], p.OK := by
  intro p hp
  rcases List.mem_pair.1 hp with rfl | rfl
  · exact three_ok
  · exact two_ok

end Part

/-! ## Writing -/

namespace SegmentMerger

/-- Documents with their positions are written one after the other. -/
def addAll : List (ℤ × List ℕ) → PostingsWriter → Except Failure PostingsWriter
  | [], w => .ok w
  | d :: ds, w =>
    match addPosting w d.1 d.2 with
    | .error e => .error e
    | .ok w => addAll ds w

theorem addAll_append {ds es : List (ℤ × List ℕ)} {w : PostingsWriter} : addAll (ds ++ es) w =
    match addAll ds w with
    | .error e => .error e
    | .ok w => addAll es w := by
  induction ds generalizing w with
  | nil => rfl
  | cons d ds ih =>
    rw [List.cons_append, addAll, addAll]
    cases addPosting w d.1 d.2 with
    | error e => rfl
    | ok w => exact ih

/-- Reading and writing by turns is reading all and writing all. -/
theorem appendLoop_eq {τ : Type*} [Occurrences τ] {newDoc : ℕ → ℤ} {n : ℕ} {x : τ} {w : PostingsWriter} :
    appendLoop newDoc n x w =
    (addAll ((Occurrences.all n x).1.map fun d => (newDoc d.1, d.2)) w).map fun w => ((Occurrences.all n x).2, w) := by
  induction n generalizing x w with
  | zero => rfl
  | succ n ih =>
    rw [appendLoop, Occurrences.all]
    dsimp only
    by_cases hr : (Occurrences.next x).1 = true
    · rw [if_pos hr, if_pos hr, List.map_cons, addAll]
      dsimp only
      cases addPosting w _ _ with
      | error e => rfl
      | ok w => exact ih
    · rw [if_neg hr, if_neg hr]
      rfl

/-- Postings, as the merger copies them. -/
def asCopied (qs : List Posting) : List (ℤ × List ℕ) := qs.map fun q => ((q.doc : ℤ), q.positions)

/-- **Postings in ascending order** are written, and none is refused. -/
theorem addAll_spec {qs : List Posting} {w : PostingsWriter} (hqs : qs.Pairwise fun q q' => q.doc < q'.doc)
    (hw : 0 < w.df → ∀ q ∈ qs, w.lastDoc < q.doc) : addAll (asCopied qs) w = .ok (qs.foldl PostingsWriter.add w) := by
  induction qs generalizing w with
  | nil => rfl
  | cons q qs ih =>
    obtain ⟨hq, hqs⟩ := List.pairwise_cons.1 hqs
    have hadd : addPosting w q.doc q.positions = .ok (w.add q) := by
      rw [addPosting, if_neg]
      · rw [Int.toNat_natCast]
      · rintro (hneg | ⟨hdf, hle⟩)
        · omega
        · have := hw hdf q List.mem_cons_self
          omega
    rw [asCopied, List.map_cons, addAll, hadd]
    exact ih hqs fun _ => hq

/-! ## Segments -/

/-- What is copied from a segment. -/
def copied (smi : SegmentMergeInfo) : List (ℤ × List ℕ) :=
  let postings := smi.postings.seek (some smi.termEnum.termInfo)
  (Occurrences.all (Occurrences.left postings + 1) postings).1.map fun d => (smi.newDoc d.1, d.2)

/-- A segment from which the postings have been copied. -/
def drained (smi : SegmentMergeInfo) : SegmentMergeInfo :=
  let postings := smi.postings.seek (some smi.termEnum.termInfo)
  { smi with postings := (Occurrences.all (Occurrences.left postings + 1) postings).2 }

theorem appendPostings_eq {smis : List SegmentMergeInfo} {w : PostingsWriter} :
    appendPostings smis w = (addAll (smis.flatMap copied) w).map fun w => (smis.map drained, w) := by
  induction smis generalizing w with
  | nil => rfl
  | cons smi smis ih =>
    rw [appendPostings, appendLoop_eq, List.flatMap_cons, addAll_append]
    rw [show ((Occurrences.all _ _).1.map fun d => (smi.newDoc d.1, d.2)) = copied smi from rfl]
    cases addAll (copied smi) w with
    | error e => rfl
    | ok w =>
      dsimp only [Except.map]
      rw [ih]
      cases addAll (smis.flatMap copied) w with
      | error e => rfl
      | ok w => rfl

/-- **A term is merged**, where what is copied is in ascending order. -/
theorem mergeTermInfo_spec {x : SegmentOutput} {term : Term} {smis : List SegmentMergeInfo} {qs : List Posting}
    (hcopied : smis.flatMap copied = asCopied qs) (hqs : qs.Pairwise fun q q' => q.doc < q'.doc) :
    mergeTermInfo x term smis = .ok (smis.map drained, x.addTerm term qs) := by
  rw [mergeTermInfo, appendPostings_eq, hcopied, addAll_spec hqs fun h => absurd h (Nat.lt_irrefl 0)]
  rfl

open PostingsFiles

/-- The dictionary of a segment. -/
def entriesIn (p : Part) : List IndexTerm := entriesOf (dictionaryOf p.docCount p.terms)

/-- A segment that is merged stands on a term, or before the first one. -/
structure Stands (p : Part) (base : ℕ) (cur : IndexTerm) (rest : List IndexTerm) (smi : SegmentMergeInfo) : Prop where
  base_eq : smi.base = base
  of : SegmentTermEnum.Of p.fieldInfos false (entriesIn p) (tisFile p.fieldInfos p.interval (entriesIn p)) smi.termEnum
  stands : ∃ k, SegmentTermEnum.At p.fieldInfos false (entriesIn p) k cur rest smi.termEnum
  files : SegmentTermPositions.Over (noFiles.afterTerms p.docCount p.terms).freqOut
    (noFiles.afterTerms p.docCount p.terms).proxOut p.isDeleted
    16 10 smi.postings
  newDoc : ∀ doc < p.docCount, p.isDeleted doc = false → smi.newDoc doc = (base + p.rank doc : ℕ)

variable {p : Part} {base : ℕ} {cur e : IndexTerm} {rest : List IndexTerm} {smi : SegmentMergeInfo} {r : SegmentReader}

theorem new_stands (base : ℕ) (h : p.Reads r) : Stands p base IndexTerm.start (entriesIn p) (.new base r) where
  base_eq := rfl
  of := h.tis.orig.1
  stands := ⟨0, h.tis.orig.2⟩
  files := by
    have hover := SegmentReader.Reads.files h
    rwa [h.isDeleted] at hover
  newDoc doc hdoc hlive := Part.newDoc_spec h rfl rfl hdoc hlive

/-- **On to the next term.** -/
theorem Stands.next (h : p.OK) (hs : Stands p base cur (e :: rest) smi) :
    smi.next.1 = true ∧ Stands p base e rest smi.next.2 := by
  obtain ⟨k, hat⟩ := hs.stands
  obtain ⟨hnext, hof, hat'⟩ := SegmentTermEnum.next_spec h.dictionary.readable hs.of hat
  exact ⟨hnext, hs.base_eq, hof, ⟨_, hat'⟩, hs.files, hs.newDoc⟩

theorem Stands.next_end (hs : Stands p base cur [] smi) : smi.next.1 = false := by
  obtain ⟨k, hat⟩ := hs.stands
  exact (SegmentTermEnum.next_end hs.of hat).1

theorem Stands.term (hs : Stands p base cur rest smi) : smi.term = some cur.term := by
  obtain ⟨k, hat⟩ := hs.stands
  exact hat.term

/-- **From a segment** the postings of the term are copied that are not deleted. -/
theorem Stands.copied (h : p.OK) (hs : Stands p base cur rest smi) (hmem : cur ∈ entriesIn p) :
    copied smi = asCopied (p.renumbered base cur.term) ∧ Stands p base cur rest (drained smi) := by
  obtain ⟨k, hat⟩ := hs.stands
  obtain ⟨⟨t, info⟩, hinfo, rfl⟩ := List.mem_map.1 hmem
  obtain ⟨htells, hdf⟩ := SegmentReader.tells_of_mem h hinfo hat.info
  obtain ⟨L, tail, hps, hbefore, hinterval, hprox, hok⟩ := htells.before h hdf hs.files
  obtain ⟨hall, hend⟩ := (SegmentTermPositions.closed hok hprox).all hbefore (Nat.lt_succ_self _)
  refine ⟨?_, hs.base_eq, hs.of, ⟨k, hat⟩, ?_, hs.newDoc⟩
  · rw [SegmentMerger.copied]
    dsimp only
    rw [hall, SegmentTermPositions.occurrences, asCopied, Part.renumbered, List.map_map, List.map_map]
    refine List.map_congr_left fun q hq => ?_
    obtain ⟨hq, hlive⟩ := List.mem_filter.1 hq
    -- the number of the document is that of the map
    have hterms := Inverted.mem_of_postings (List.ne_nil_of_mem hq)
    exact congrArg (·, q.positions) (hs.newDoc _ (h.doc_lt _ hterms q hq) (by simpa using hlive))
  · have hover := hend.files
    rw [hinterval] at hover
    exact hover

end SegmentMerger

end QDesktopSearch
