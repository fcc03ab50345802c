import QDesktopSearch.Model.Segment
import QDesktopSearch.Proof.Positions
import QDesktopSearch.Proof.TermInfosWriter

/-!
# Segments, from terms to bytes and back

* `foldl_addTerm`: the dictionary has every term that has postings, with where they are.
* `located`: they are there still when everything has been written.
* `SegmentReader.writeSegment_responses`: whatever is asked of a reader of the files, the terms and their
  postings answer it.
-/

namespace QDesktopSearch

open IndexTerm

/-- The terms of a segment, with their postings. -/
abbrev Inverted := List (Term × List Posting)

namespace Inverted

/-- The postings of a term, none where the segment has not got it. -/
def postings (terms : Inverted) (t : Term) : List Posting := (terms.lookup t).getD []

variable {terms : Inverted} {t : Term} {ps : List Posting}

theorem postings_of_mem (h : (terms.map Prod.fst).Nodup) (hmem : (t, ps) ∈ terms) : terms.postings t = ps := by
  rw [postings]
  induction terms with
  | nil => exact absurd hmem (by simp)
  | cons d terms ih =>
    obtain ⟨s, qs⟩ := d
    rw [List.map_cons, List.nodup_cons] at h
    rcases List.mem_cons.1 hmem with heq | htail
    · obtain ⟨rfl, rfl⟩ := Prod.mk.inj heq
      rw [List.lookup_cons_self, Option.getD_some]
    · have hne : t ≠ s := by
        rintro rfl
        exact h.1 (List.mem_map.2 ⟨_, htail, rfl⟩)
      rw [List.lookup_cons, beq_eq_false_iff_ne.2 hne]
      exact ih h.2 htail

/-- What postings there are have been given. -/
theorem mem_of_postings (h : terms.postings t ≠ []) : (t, terms.postings t) ∈ terms := by
  rw [postings] at h ⊢
  induction terms with
  | nil => exact absurd rfl h
  | cons d terms ih =>
    obtain ⟨s, qs⟩ := d
    by_cases heq : t = s
    · rw [heq, List.lookup_cons_self, Option.getD_some]
      exact List.mem_cons_self
    · rw [List.lookup_cons, beq_eq_false_iff_ne.2 heq] at h ⊢
      exact List.mem_cons_of_mem _ (ih h)

end Inverted

namespace PostingsFiles

variable {x y : PostingsFiles} {docCount : ℕ} {ps : List Posting} {terms : Inverted} {t : Term} {ti : TermInfo}

/-- The files behind the postings of some terms. -/
def afterTerms (docCount : ℕ) (x : PostingsFiles) (terms : Inverted) : PostingsFiles :=
  terms.foldl (fun x d => (x.appendPostings docCount d.2).1) x

/-- What the dictionary is told of some terms. -/
def infos (docCount : ℕ) : PostingsFiles → Inverted → List (Term × TermInfo)
  | _, [] => []
  | x, (t, ps) :: terms =>
    (if (x.appendPostings docCount ps).2.docFreq > 0 then [(t, (x.appendPostings docCount ps).2)] else []) ++
      infos docCount (x.appendPostings docCount ps).1 terms

/-- The postings of a term that can be written, whatever has been written before. -/
structure Writes (skipInterval maxSkipLevels docCount : ℕ) (ps : List Posting) : Prop where
  interval : 1 < skipInterval
  levels : 0 < maxSkipLevels
  ok : PostingsOK ps
  positions : PositionsOK ps
  length_le : ps.length ≤ docCount
  freq_lt : (freqBytes 0 ps).length < 2 ^ 31
  prox_lt : (proxBytes ps).length < 2 ^ 31

theorem Writes.takes (h : Writes x.skipInterval x.maxSkipLevels docCount ps) : x.Takes docCount ps :=
  ⟨h.interval, h.levels, h.ok, h.length_le, h.freq_lt, h.prox_lt⟩

/-- The files grow at their ends. -/
structure Extends (x y : PostingsFiles) : Prop where
  freqOut : ∃ more, y.freqOut = x.freqOut ++ more
  proxOut : ∃ more, y.proxOut = x.proxOut ++ more
  skipInterval : y.skipInterval = x.skipInterval
  maxSkipLevels : y.maxSkipLevels = x.maxSkipLevels

theorem Extends.refl : Extends x x := ⟨⟨[], (List.append_nil _).symm⟩, ⟨[], (List.append_nil _).symm⟩, rfl, rfl⟩

theorem Extends.trans {z : PostingsFiles} (h : Extends x y) (h' : Extends y z) : Extends x z := by
  obtain ⟨⟨a, ha⟩, ⟨b, hb⟩, hi, hl⟩ := h
  obtain ⟨⟨a', ha'⟩, ⟨b', hb'⟩, hi', hl'⟩ := h'
  refine ⟨⟨a ++ a', ?_⟩, ⟨b ++ b', ?_⟩, hi'.trans hi, hl'.trans hl⟩
  · rw [ha', ha, List.append_assoc]
  · rw [hb', hb, List.append_assoc]

theorem Extends.freq_le (h : Extends x y) : x.freqOut.length ≤ y.freqOut.length := by
  obtain ⟨more, hmore⟩ := h.freqOut
  rw [hmore, List.length_append]
  exact Nat.le_add_right _ _

theorem Extends.prox_le (h : Extends x y) : x.proxOut.length ≤ y.proxOut.length := by
  obtain ⟨more, hmore⟩ := h.proxOut
  rw [hmore, List.length_append]
  exact Nat.le_add_right _ _

theorem extends_appendPostings (h : Writes x.skipInterval x.maxSkipLevels docCount ps) :
    Extends x (x.appendPostings docCount ps).1 := by
  rw [appendPostings_spec h.takes]
  exact ⟨⟨_, List.append_assoc _ _ _⟩, ⟨_, rfl⟩, rfl, rfl⟩

theorem extends_afterTerms (h : ∀ d ∈ terms, Writes x.skipInterval x.maxSkipLevels docCount d.2) :
    Extends x (afterTerms docCount x terms) := by
  induction terms generalizing x with
  | nil => exact .refl
  | cons d terms ih =>
    have hfirst := extends_appendPostings (h d List.mem_cons_self)
    refine hfirst.trans (ih fun d' hd' => ?_)
    rw [hfirst.skipInterval, hfirst.maxSkipLevels]
    exact h d' (List.mem_cons_of_mem _ hd')

/-- Where the postings of a term are: behind what the files had at some time, and before what has been written since. -/
structure Located (docCount : ℕ) (x y : PostingsFiles) (ps : List Posting) (ti : TermInfo) (z : PostingsFiles) : Prop where
  before : Extends x z
  info : ti = (z.appendPostings docCount ps).2
  after : Extends (z.appendPostings docCount ps).1 y

/-- **The dictionary** is told where the postings of each term are, and told nothing else. -/
theorem located (h : ∀ d ∈ terms, Writes x.skipInterval x.maxSkipLevels docCount d.2) (hti : (t, ti) ∈ infos docCount x terms) :
    ∃ ps z, (t, ps) ∈ terms ∧ 0 < ps.length ∧ Located docCount x (afterTerms docCount x terms) ps ti z := by
  induction terms generalizing x with
  | nil => exact absurd hti (by simp [infos])
  | cons d terms ih =>
    obtain ⟨t', ps'⟩ := d
    have hwrites := h _ List.mem_cons_self
    have hfirst := extends_appendPostings hwrites
    have hrest : ∀ d ∈ terms, Writes (x.appendPostings docCount ps').1.skipInterval
        (x.appendPostings docCount ps').1.maxSkipLevels
        docCount d.2 := by
      intro d hd
      rw [hfirst.skipInterval, hfirst.maxSkipLevels]
      exact h d (List.mem_cons_of_mem _ hd)
    rw [infos] at hti
    rcases List.mem_append.1 hti with hti | hti
    · split at hti
      · rename_i hpos
        obtain ⟨rfl, rfl⟩ := Prod.mk.inj (List.mem_singleton.1 hti)
        rw [appendPostings_spec hwrites.takes] at hpos
        exact ⟨ps', x, List.mem_cons_self, hpos, .refl, rfl, extends_afterTerms hrest⟩
      · exact absurd hti (by simp)
    · obtain ⟨ps, z, hmem, hpos, hbefore, hinfo, hafter⟩ := ih hrest hti
      exact ⟨ps, z, List.mem_cons_of_mem _ hmem, hpos, hfirst.trans hbefore, hinfo, hafter⟩

/-- **Every term that has postings** is in the dictionary. -/
theorem mem_infos {ps : List Posting} (h : ∀ d ∈ terms, Writes x.skipInterval x.maxSkipLevels docCount d.2)
    (hmem : (t, ps) ∈ terms)
    (hpos : 0 < ps.length) : ∃ ti, (t, ti) ∈ infos docCount x terms := by
  induction terms generalizing x with
  | nil => exact absurd hmem (by simp)
  | cons d terms ih =>
    have hwrites := h _ List.mem_cons_self
    have hfirst := extends_appendPostings hwrites
    rcases List.mem_cons.1 hmem with rfl | hmem
    · refine ⟨(x.appendPostings docCount ps).2, List.mem_append_left _ ?_⟩
      rw [if_pos (by rw [appendPostings_spec hwrites.takes]; exact hpos)]
      exact List.mem_singleton_self _
    · obtain ⟨ti, hti⟩ := ih (x := (x.appendPostings docCount d.2).1) (fun d' hd' => by
        rw [hfirst.skipInterval, hfirst.maxSkipLevels]
        exact h d' (List.mem_cons_of_mem _ hd')) hmem
      exact ⟨ti, List.mem_append_right _ hti⟩

/-- The terms of the dictionary are in the order they came in. -/
theorem infos_sublist : List.Sublist ((infos docCount x terms).map Prod.fst) (terms.map Prod.fst) := by
  induction terms generalizing x with
  | nil => exact .slnil
  | cons d terms ih =>
    rw [infos, List.map_append, List.map_cons]
    split
    · exact ih.cons_cons _
    · exact ih.cons _

/-- The pointers go up. -/
theorem infos_pairwise (h : ∀ d ∈ terms, Writes x.skipInterval x.maxSkipLevels docCount d.2) :
    (infos docCount x terms).Pairwise fun a b => a.2.freqPointer ≤ b.2.freqPointer ∧ a.2.proxPointer ≤ b.2.proxPointer := by
  induction terms generalizing x with
  | nil => exact .nil
  | cons d terms ih =>
    have hwrites := h _ List.mem_cons_self
    have hfirst := extends_appendPostings hwrites
    have hrest : ∀ d' ∈ terms, Writes (x.appendPostings docCount d.2).1.skipInterval
        (x.appendPostings docCount d.2).1.maxSkipLevels
        docCount d'.2 := by
      intro d' hd'
      rw [hfirst.skipInterval, hfirst.maxSkipLevels]
      exact h d' (List.mem_cons_of_mem _ hd')
    rw [infos]
    refine List.pairwise_append.2 ⟨?_, ih hrest, ?_⟩
    · split
      · exact List.pairwise_singleton _ _
      · exact .nil
    · rintro a ha ⟨t, ti⟩ hti
      obtain ⟨ps, z, hmem, -, hbefore, rfl, -⟩ := located hrest hti
      split at ha
      · rw [List.mem_singleton.1 ha, appendPostings_spec hwrites.takes]
        have hz : Writes z.skipInterval z.maxSkipLevels docCount ps := by
          rw [hbefore.skipInterval, hbefore.maxSkipLevels]
          exact hrest _ hmem
        rw [appendPostings_spec hz.takes]
        exact ⟨(hfirst.trans hbefore).freq_le, (hfirst.trans hbefore).prox_le⟩
      · exact absurd ha (by simp)

end PostingsFiles

/-! ## The files of a segment -/

/-- All terms of a segment are written. -/
def writeSegment (fieldInfos : FieldInfos) (interval docCount : ℕ) (terms : Inverted) : SegmentFiles :=
  (terms.foldl (fun x d => x.addTerm d.1 d.2) (SegmentOutput.new fieldInfos interval docCount)).close

/-- No files yet. -/
def noFiles : PostingsFiles := ⟨[], [], 16, 10⟩

/-- What the dictionary of a segment is told. -/
def dictionaryOf (docCount : ℕ) (terms : Inverted) : List (Term × TermInfo) := noFiles.infos docCount terms

/-- **The dictionary** has every term that has postings. -/
theorem foldl_addTerm {x : SegmentOutput} {terms : Inverted} : terms.foldl (fun x d => x.addTerm d.1 d.2) x =
    ⟨x.files.afterTerms x.docCount terms,
      (x.files.infos x.docCount terms).foldl (fun w d => w.add d.1 d.2) x.termInfosWriter, x.docCount⟩ := by
  induction terms generalizing x with
  | nil => rfl
  | cons d terms ih =>
    rw [List.foldl_cons, ih, PostingsFiles.infos, List.foldl_append]
    unfold SegmentOutput.addTerm SegmentOutput.endTerm PostingsFiles.appendPostings
    dsimp only
    split <;> rfl

theorem foldl_add_fieldInfos {w : TermInfosWriter} {dict : List (Term × TermInfo)} :
    (dict.foldl (fun w d => w.add d.1 d.2) w).fieldInfos = w.fieldInfos := by
  induction dict generalizing w with
  | nil => rfl
  | cons d dict ih => exact ih

theorem writeSegment_eq {fieldInfos : FieldInfos} {interval docCount : ℕ} {terms : Inverted} :
    writeSegment fieldInfos interval docCount terms =
    ⟨fieldInfos, (writeDictionary fieldInfos interval (dictionaryOf docCount terms)).1,
      (writeDictionary fieldInfos interval (dictionaryOf docCount terms)).2, (noFiles.afterTerms docCount terms).freqOut,
      (noFiles.afterTerms docCount terms).proxOut⟩ := by
  rw [writeSegment, foldl_addTerm, SegmentOutput.close]
  dsimp only
  rw [foldl_add_fieldInfos]
  rfl

/-- A segment that can be written and read. -/
structure SegmentOK (fieldInfos : FieldInfos) (interval docCount : ℕ) (terms : Inverted) : Prop where
  fields_lt : fieldInfos.length < 2 ^ 31
  interval_pos : 0 < interval
  interval_lt : interval < 2 ^ 31
  docCount_lt : docCount < 2 ^ 31
  length_lt : terms.length < 2 ^ 31
  ascending : (start.term :: terms.map Prod.fst).Pairwise (· < ·)
  field : ∀ d ∈ terms, d.1.field ∈ fieldInfos
  text : ∀ d ∈ terms, ∀ c ∈ d.1.text, c ≠ 0
  text_lt : ∀ d ∈ terms, d.1.text.length < 2 ^ 31
  doc_lt : ∀ d ∈ terms, ∀ p ∈ d.2, p.doc < docCount
  postings : ∀ d ∈ terms, PostingsFiles.Writes 16 10 docCount d.2
  tis_lt : (writeSegment fieldInfos interval docCount terms).tis.length < 2 ^ 63
  frq_lt : (writeSegment fieldInfos interval docCount terms).frq.length < 2 ^ 63
  prx_lt : (writeSegment fieldInfos interval docCount terms).prx.length < 2 ^ 63

namespace SegmentOK

variable {fieldInfos : FieldInfos} {interval docCount : ℕ} {terms : Inverted} {t : Term} {ti : TermInfo} {ps : List Posting}

/-- Where the postings of a term of the dictionary are. -/
theorem located (h : SegmentOK fieldInfos interval docCount terms) (hti : (t, ti) ∈ dictionaryOf docCount terms) :
    ∃ ps z, (t, ps) ∈ terms ∧ 0 < ps.length ∧
      PostingsFiles.Located docCount noFiles (noFiles.afterTerms docCount terms) ps ti z ∧
      PostingsFiles.Writes z.skipInterval z.maxSkipLevels docCount ps := by
  obtain ⟨ps, z, hmem, hpos, hlocated⟩ := PostingsFiles.located h.postings hti
  refine ⟨ps, z, hmem, hpos, hlocated, ?_⟩
  rw [hlocated.before.skipInterval, hlocated.before.maxSkipLevels]
  exact h.postings _ hmem

/-- **The dictionary** of a segment can be written and read. -/
theorem dictionary (h : SegmentOK fieldInfos interval docCount terms) :
    DictionaryOK fieldInfos interval (entriesOf (dictionaryOf docCount terms)) := by
  have hsublist : List.Sublist ((dictionaryOf docCount terms).map Prod.fst) (terms.map Prod.fst) := PostingsFiles.infos_sublist
  have hascending : Ascending (entriesOf (dictionaryOf docCount terms)) := by
    have hpairs := h.ascending.sublist (hsublist.cons_cons start.term)
    -- the empty term stands before the others, as in the dictionary
    have hmap : start.term :: (dictionaryOf docCount terms).map Prod.fst =
        (start :: entriesOf (dictionaryOf docCount terms)).map IndexTerm.term := by
      rw [List.map_cons, entriesOf, List.map_map]
      rfl
    rw [hmap, List.pairwise_map] at hpairs
    exact hpairs
  have hlength : (dictionaryOf docCount terms).length ≤ terms.length := by
    have := hsublist.length_le
    rwa [List.length_map, List.length_map] at this
  refine ⟨⟨h.fields_lt, fun e he => ?_, List.pairwise_cons.2 ⟨fun e he => ⟨Nat.zero_le _, Nat.zero_le _, ?_⟩, ?_⟩⟩, hascending,
    h.interval_pos, h.interval_lt, ?_, ?_⟩
  · obtain ⟨⟨t, ti⟩, hti, rfl⟩ := List.mem_map.1 he
    obtain ⟨ps, z, hmem, -, ⟨hbefore, rfl, hafter⟩, hwrites⟩ := h.located hti
    have hfreq := hafter.freq_le
    have hprox := hafter.prox_le
    have hfrq := h.frq_lt
    have hprx := h.prx_lt
    rw [writeSegment_eq] at hfrq hprx
    rw [PostingsFiles.appendPostings_spec hwrites.takes] at hfreq hprox ⊢
    simp only [List.length_append] at hfreq hprox hfrq hprx
    have hdocs := h.docCount_lt
    have hle := hwrites.length_le
    exact ⟨.inr (h.field _ hmem), h.text _ hmem, h.text_lt _ hmem, by dsimp only; omega, by dsimp only; omega,
      by dsimp only; omega, hwrites.freq_lt, Nat.two_pow_pos 63⟩
  · exact Nat.zero_le _
  · rw [entriesOf, List.pairwise_map]
    exact (PostingsFiles.infos_pairwise h.postings).imp fun hle => ⟨hle.1, hle.2, Nat.le_refl _⟩
  · rw [entriesOf, List.length_map]
    exact hlength.trans_lt h.length_lt
  · have htis := h.tis_lt
    -- the file is its header and the terms, and closing it changes no length
    have hne : ∀ e ∈ entriesOf (dictionaryOf docCount terms), e.term ≠ start.term :=
      fun e he => ((List.pairwise_cons.1 hascending).1 e he).ne'
    obtain ⟨-, hholds, -⟩ := TermInfosWriter.foldl_add_spec fieldInfos h.interval_pos hne
    have hfold : (entriesOf (dictionaryOf docCount terms)).foldl (fun w e => w.add e.term e.info)
        (TermInfosWriter.new fieldInfos interval) =
        (dictionaryOf docCount terms).foldl (fun w d => w.add d.1 d.2) (TermInfosWriter.new fieldInfos interval) :=
      List.foldl_map
    rw [hfold] at hholds
    rw [writeSegment_eq, writeDictionary] at htis
    dsimp only at htis
    rw [hholds.close_spec, List.length_append, header_length] at htis
    rw [endOf, List.take_length]
    exact htis

end SegmentOK

/-! ## Reading -/

namespace SegmentReader

open PostingsFiles

variable {fieldInfos : FieldInfos} {interval docCount : ℕ} {terms : Inverted} {deletedDocs : Option (ℕ → Bool)}
    {r : SegmentReader} {t : Term}

/-- A reader of the files of a segment. -/
structure Reads (fieldInfos : FieldInfos) (interval docCount : ℕ) (terms : Inverted) (deletedDocs : Option (ℕ → Bool))
    (r : SegmentReader) :
    Prop where
  _fieldInfos : r._fieldInfos = fieldInfos
  maxDoc : r.maxDoc = docCount
  deletedDocs : r.deletedDocs = deletedDocs
  tis : TermInfosReader.Ready fieldInfos interval (entriesOf (dictionaryOf docCount terms)) r.tis
  freqFile : r.freqStream.file = (noFiles.afterTerms docCount terms).freqOut
  proxFile : r.proxStream.file = (noFiles.afterTerms docCount terms).proxOut

/-- **A reader** of the files that have been written. -/
theorem get_spec (deletedDocs : Option (ℕ → Bool)) (h : SegmentOK fieldInfos interval docCount terms) :
    ∃ r, get (writeSegment fieldInfos interval docCount terms) docCount deletedDocs = .ok r ∧
      Reads fieldInfos interval docCount terms deletedDocs r := by
  obtain ⟨tis, htis, hready⟩ := TermInfosReader.new_ready h.dictionary
  refine ⟨⟨fieldInfos, docCount, deletedDocs, tis, ⟨_, 0⟩, ⟨_, 0⟩⟩, ?_, rfl, rfl, rfl, hready, rfl, rfl⟩
  rw [get, writeSegment_eq, writeDictionary_eq h.dictionary]
  dsimp only
  rw [htis]
  rfl

theorem Reads.getSkipInterval (h : Reads fieldInfos interval docCount terms deletedDocs r) : r.getSkipInterval = 16 := by
  rw [SegmentReader.getSkipInterval, h.tis.orig.1.skipInterval]
  rfl

theorem Reads.getMaxSkipLevels (h : Reads fieldInfos interval docCount terms deletedDocs r) : r.getMaxSkipLevels = 10 := by
  rw [SegmentReader.getMaxSkipLevels, h.tis.orig.1.maxSkipLevels]
  rfl

/-- What the dictionary tells of a term: where its postings are, if there are any. -/
inductive Tells (docCount : ℕ) (terms : Inverted) (t : Term) : Option TermInfo → Prop
  | absent (hnone : terms.postings t = []) : Tells docCount terms t none
  | empty (ti : TermInfo) (hnone : terms.postings t = []) (hdf : ti.docFreq = 0) : Tells docCount terms t (some ti)
  | found (ti : TermInfo) (z : PostingsFiles) (hwrites : Writes z.skipInterval z.maxSkipLevels docCount (terms.postings t))
    (hinterval : z.skipInterval = 16) (hlevels : z.maxSkipLevels = 10)
    (hti : PostingsFiles.Tells z.skipInterval ti (z.appendPostings docCount (terms.postings t)).2)
    (hafter : PostingsFiles.Extends (z.appendPostings docCount (terms.postings t)).1 (noFiles.afterTerms docCount terms)) :
    Tells docCount terms t (some ti)

/-- What the dictionary has tells where postings are. -/
theorem tells_of_mem (h : SegmentOK fieldInfos interval docCount terms) {info ti : TermInfo}
    (hinfo : (t, info) ∈ dictionaryOf docCount terms)
    (hsame : ti.Same info) : Tells docCount terms t (some ti) ∧ ti.docFreq ≠ 0 := by
  have hnodup : (terms.map Prod.fst).Nodup := (List.pairwise_cons.1 h.ascending).2.imp ne_of_lt
  obtain ⟨ps, z, hterms, hpos, ⟨hbefore, rfl, hafter⟩, hwrites⟩ := h.located hinfo
  have hps := Inverted.postings_of_mem hnodup hterms
  have hdf := hsame.docFreq
  rw [appendPostings_spec hwrites.takes] at hdf
  refine ⟨?_, by dsimp only at hdf; omega⟩
  rw [← hps] at hsame hafter hwrites
  refine .found ti z hwrites hbefore.skipInterval hbefore.maxSkipLevels
    ⟨hsame.docFreq, hsame.freqPointer, hsame.proxPointer, ?_⟩ hafter
  rw [hbefore.skipInterval]
  exact hsame.skipOffset

/-- **The dictionary** tells the truth. -/
theorem tells_of_lookup (h : SegmentOK fieldInfos interval docCount terms) {ti : Option TermInfo}
    (hti : Option.Rel TermInfo.Same ti (TermInfosReader.lookup (entriesOf (dictionaryOf docCount terms)) t)) :
    Tells docCount terms t ti := by
  -- a term with postings would have been told to the dictionary
  have habsent : (∀ ti, (t, ti) ∉ dictionaryOf docCount terms) → terms.postings t = [] := by
    intro hnot
    by_contra hne
    obtain ⟨ti, hti⟩ := mem_infos (x := noFiles) h.postings (Inverted.mem_of_postings hne) (List.length_pos_iff.2 hne)
    exact hnot ti hti
  unfold TermInfosReader.lookup at hti
  split at hti
  · rename_i hnil
    obtain _ | _ := hti
    refine .absent (habsent fun ti hti => ?_)
    rw [List.map_eq_nil_iff.1 hnil] at hti
    exact absurd hti (by simp)
  · cases hfind : (IndexTerm.start :: entriesOf (dictionaryOf docCount terms)).find? (fun e => e.term = t) with
    | none =>
      rw [hfind] at hti
      obtain _ | _ := hti
      refine .absent (habsent fun ti hti => ?_)
      have hnot := List.find?_eq_none.1 hfind ⟨t, ti, 0⟩ (List.mem_cons_of_mem _ (List.mem_map.2 ⟨_, hti, rfl⟩))
      exact absurd rfl (of_decide_eq_false (Bool.eq_false_iff.2 hnot))
    | some e =>
      have hterm : e.term = t := by simpa using List.find?_some hfind
      rw [hfind] at hti
      obtain ⟨hsame⟩ | _ := hti
      rename_i ti
      rcases List.mem_cons.1 (List.mem_of_find?_eq_some hfind) with rfl | hmem
      · -- the empty term is found, and has no postings
        refine .empty ti ?_ hsame.docFreq
        by_contra hne
        have hmem := List.mem_map_of_mem (f := Prod.fst) (Inverted.mem_of_postings hne)
        exact absurd hterm ((List.pairwise_cons.1 h.ascending).1 _ hmem).ne
      · obtain ⟨⟨s, info⟩, hinfo, rfl⟩ := List.mem_map.1 hmem
        dsimp only at hterm hsame
        obtain rfl := hterm
        exact (tells_of_mem h hinfo hsame).1

/-- **The documents of a term**, whatever a `TermDocs` of the segment has been used for before. -/
theorem Tells.feeds (h : SegmentOK fieldInfos interval docCount terms) {ti : Option TermInfo} (hti : Tells docCount terms t ti)
    {y : SegmentTermDocs} (hfile : y.freqStream.file = (noFiles.afterTerms docCount terms).freqOut)
    (hinterval : y.skipInterval = 16)
    (hlevels : y.maxSkipLevels = 10) :
    Feed.Feeds True (SegmentTermDocs.liveDocs y.deletedDocs (terms.postings t)) (y.seek ti) := by
  cases hti with
  | absent hnone =>
    rw [hnone]
    exact SegmentTermDocs.feeds_none (by decide) hinterval rfl rfl
  | empty ti hnone hdf =>
    rw [hnone]
    exact SegmentTermDocs.feeds_none (by decide) hinterval hdf rfl
  | found ti z hwrites hz hz' hti hafter =>
    obtain ⟨more, hmore⟩ := hafter.freqOut
    have hlt := h.frq_lt
    rw [writeSegment_eq] at hlt
    rw [hmore] at hfile hlt
    have hon := on_seek hwrites.takes hti hfile hlt (hinterval.trans hz.symm) (hlevels.trans hz'.symm)
    exact SegmentTermDocs.feeds hon

/-- **The positions of a term**, whatever a `TermPositions` of the segment has been used for before. -/
theorem Tells.before (h : SegmentOK fieldInfos interval docCount terms) {ti : TermInfo} (hti : Tells docCount terms t (some ti))
    (hdf : ti.docFreq ≠ 0) {deletedDocs : ℕ → Bool} {y : SegmentTermPositions}
    (hover : SegmentTermPositions.Over (noFiles.afterTerms docCount terms).freqOut
      (noFiles.afterTerms docCount terms).proxOut deletedDocs
      16 10 y) : ∃ L tail, L.ps = terms.postings t ∧
        SegmentTermPositions.Before L (noFiles.afterTerms docCount terms).freqOut
          (noFiles.afterTerms docCount terms).proxOut tail deletedDocs
          10 (SegmentTermPositions.occurrences deletedDocs (terms.postings t)) [] (y.seek (some ti)) ∧
        L.interval = 16 ∧ (noFiles.afterTerms docCount terms).proxOut.drop L.proxBase = proxBytes L.ps ++ tail ∧
            PositionsOK L.ps := by
  cases hti with
  | empty ti hnone hzero => exact absurd hzero hdf
  | found ti z hwrites hz hz' hti hafter =>
    obtain ⟨more, hmore⟩ := hafter.freqOut
    obtain ⟨moreProx, hmoreProx⟩ := hafter.proxOut
    have hlt := h.frq_lt
    rw [writeSegment_eq] at hlt
    rw [hmore, hmoreProx, ← hz, ← hz'] at hover
    rw [hmore] at hlt
    have hbefore := before_seek hwrites.takes hti hover hlt
    rw [hmore, hmoreProx, ← hz']
    exact ⟨z.layout (terms.postings t), moreProx, rfl, hbefore, hz, proxOut_layout hwrites.takes, hwrites.positions⟩

theorem Tells.gives (h : SegmentOK fieldInfos interval docCount terms) {ti : Option TermInfo} (hti : Tells docCount terms t ti)
    {deletedDocs : ℕ → Bool} {y : SegmentTermPositions}
    (hover : SegmentTermPositions.Over (noFiles.afterTerms docCount terms).freqOut
      (noFiles.afterTerms docCount terms).proxOut deletedDocs
      16 10 y) : Occurrences.Gives (SegmentTermPositions.occurrences deletedDocs (terms.postings t)) [] (y.seek ti) := by
  cases hti with
  | absent hnone =>
    rw [hnone]
    exact SegmentTermPositions.gives_none (by decide) hover.skipInterval_eq rfl rfl
  | empty ti hnone hdf =>
    rw [hnone]
    exact SegmentTermPositions.gives_none (by decide) hover.skipInterval_eq hdf rfl
  | found ti z hwrites hz hz' hti hafter =>
    by_cases hdf : ti.docFreq = 0
    · have hlength : (terms.postings t).length = 0 := by
        rw [hti.docFreq, appendPostings_spec hwrites.takes] at hdf
        exact hdf
      rw [List.length_eq_zero_iff.1 hlength]
      exact SegmentTermPositions.gives_none (by decide) hover.skipInterval_eq hdf rfl
    · obtain ⟨L, tail, -, hbefore, -, hprox, hok⟩ := Tells.before h (.found ti z hwrites hz hz' hti hafter) hdf hover
      exact .of_closed (SegmentTermPositions.closed hok hprox) hbefore

/-! ## Requests -/

/-- What the terms and their postings answer to a request. -/
def Meets (terms : Inverted) (deletedDocs : ℕ → Bool) : Request → Response → Prop
  | .docFreq t, .docFreq n => n = (terms.postings t).length
  | .termDocs t calls, .termDocs as => Feed.Answers True (SegmentTermDocs.liveDocs deletedDocs (terms.postings t)) calls as
  | .termPositions t calls, .termPositions as =>
    Occurrences.Answers (SegmentTermPositions.occurrences deletedDocs (terms.postings t)) [] calls as
  | _, _ => False

theorem docFreq_of_tells {ti : Option TermInfo} (hti : Tells docCount terms t ti) :
    ti.elim 0 TermInfo.docFreq = (terms.postings t).length := by
  cases hti with
  | absent hnone => rw [hnone]; rfl
  | empty ti hnone hdf =>
    rw [hnone]
    exact hdf
  | found ti z hwrites hz hz' hti hafter =>
    rw [appendPostings_spec hwrites.takes] at hti
    exact hti.docFreq

/-- **The dictionary** is asked for a term. -/
theorem Reads.tells (h : SegmentOK fieldInfos interval docCount terms)
    (hr : Reads fieldInfos interval docCount terms deletedDocs r) (t : Term) :
    Tells docCount terms t (r.tis.get t).1 ∧
      Reads fieldInfos interval docCount terms deletedDocs { r with tis := (r.tis.get t).2 } := by
  obtain ⟨hti, hready⟩ := TermInfosReader.get_spec h.dictionary hr.tis t
  exact ⟨tells_of_lookup h hti, hr._fieldInfos, hr.maxDoc, hr.deletedDocs, hready, hr.freqFile, hr.proxFile⟩

theorem Reads.files (hr : Reads fieldInfos interval docCount terms deletedDocs r) :
    SegmentTermPositions.Over (noFiles.afterTerms docCount terms).freqOut
      (noFiles.afterTerms docCount terms).proxOut r.isDeleted 16 10
      r.positions :=
  ⟨hr.freqFile, hr.proxFile, rfl, hr.getSkipInterval, hr.getMaxSkipLevels⟩

theorem Reads.isDeleted (hr : Reads fieldInfos interval docCount terms deletedDocs r) :
    r.isDeleted = fun n => deletedDocs.any (· n) := by
  funext n
  rw [SegmentReader.isDeleted, hr.deletedDocs]

/-- **One request.** -/
theorem ask_spec (h : SegmentOK fieldInfos interval docCount terms)
    (hr : Reads fieldInfos interval docCount terms deletedDocs r)
    (request : Request) : Meets terms (fun n => deletedDocs.any (· n)) request (r.ask request).1 ∧
      Reads fieldInfos interval docCount terms deletedDocs (r.ask request).2 := by
  rw [← hr.isDeleted]
  cases request with
  | docFreq t =>
    obtain ⟨htells, hr'⟩ := hr.tells h t
    exact ⟨docFreq_of_tells htells, hr'⟩
  | termDocs t calls =>
    obtain ⟨htells, hr'⟩ := hr.tells h t
    have hfeeds := htells.feeds h (y := .new r.freqStream r.isDeleted r.getSkipInterval r.getMaxSkipLevels) hr.freqFile
      hr.getSkipInterval hr.getMaxSkipLevels
    exact ⟨hfeeds.answers, hr'⟩
  | termPositions t calls =>
    obtain ⟨htells, hr'⟩ := hr.tells h t
    exact ⟨(htells.gives h hr.files).answers, hr'⟩

theorem responses_spec (h : SegmentOK fieldInfos interval docCount terms)
    (hr : Reads fieldInfos interval docCount terms deletedDocs r)
    (requests : List Request) : List.Forall₂ (Meets terms fun n => deletedDocs.any (· n)) requests (r.responses requests) := by
  induction requests generalizing r with
  | nil => exact .nil
  | cons request requests ih =>
    obtain ⟨hmeets, hr'⟩ := ask_spec h hr request
    exact .cons hmeets (ih hr')

/-- **From terms to bytes and back**: whatever is asked of a segment that has been written, in whatever order, the terms
and their postings answer it. -/
theorem writeSegment_responses (h : SegmentOK fieldInfos interval docCount terms) (deletedDocs : Option (ℕ → Bool))
    (requests : List Request) :
    ∃ r, get (writeSegment fieldInfos interval docCount terms) docCount deletedDocs = .ok r ∧
      List.Forall₂ (Meets terms fun n => deletedDocs.any (· n)) requests (r.responses requests) := by
  obtain ⟨r, hget, hr⟩ := get_spec deletedDocs h
  exact ⟨r, hget, responses_spec h hr requests⟩

theorem writeSegment_responses_two :
    let terms : Inverted := [(⟨[98], [97, 98]⟩, [⟨0, [1]⟩, ⟨2, [0, 3]⟩]), (⟨[99], [97]⟩, [⟨1, [4, 4]⟩])]
    let requests : List Request := [.termPositions ⟨[98], [97, 98]⟩ [.next, .skipTo 1, .nextPosition], .docFreq ⟨[98], [97]⟩]
    ∃ r, get (writeSegment [[98], [99]] 2 3 terms) 3 (some (· = 0)) = .ok r ∧
      List.Forall₂ (Meets terms fun n => (some fun m => decide (m = 0)).any (· n)) requests (r.responses requests) := by
  refine writeSegment_responses ⟨by decide, by decide, by decide, by decide, by decide, by decide, by decide, by simp,
    by decide, by decide, fun d hd => ?_, by decide, by decide, by decide⟩ _ _
  simp only [List.mem_cons, List.not_mem_nil, or_false] at hd
  rcases hd with rfl | rfl <;>
    exact ⟨by decide, by decide, ⟨by decide, by decide, by decide⟩, by unfold PositionsOK; decide, by decide,
      by decide, by decide⟩

end SegmentReader

end QDesktopSearch
