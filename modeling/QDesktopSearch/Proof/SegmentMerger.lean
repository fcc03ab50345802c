import QDesktopSearch.Proof.MergePostings

/-!
# Merging segments

* `mergeLoop_spec`: the queue gives the terms of all segments, each once and in order, with their postings.
* `mergeTerms_spec`: the files of the new segment are those of its terms.
* `postings_mergedTerms`: every term has there what the segments have for it, one after the other, under new numbers.
* `mergeTerms_responses`: whatever is asked of the new segment, the terms of the others answer it.
-/

namespace QDesktopSearch

namespace SegmentMerger

open SegmentMergeQueue Heap

/-! ## The order of the queue -/

def key (smi : SegmentMergeInfo) : Term ×ₗ ℕ := toLex (smi.term.getD ⟨[], []⟩, smi.base)

theorem lessThan_iff {a b : SegmentMergeInfo} : lessThan a b = true ↔ key a < key b := by
  rw [lessThan, key, key, Prod.Lex.lt_iff]
  dsimp only [ofLex_toLex]
  split
  · rename_i heq
    rw [heq]
    simp
  · rename_i hne
    simp [hne]

theorem lessThan_false {a b : SegmentMergeInfo} : lessThan a b = false ↔ key b ≤ key a := by
  rw [← not_lt, ← lessThan_iff, Bool.not_eq_true]

theorem weakOrder : WeakOrder lessThan where
  asymm hab := lessThan_false.2 (lessThan_iff.1 hab).le
  trans hab hbc := lessThan_false.2 ((lessThan_false.1 hbc).trans (lessThan_false.1 hab))

/-! ## Segments on their way -/

/-- A segment on its way: its terms from the one on which it stands, and what is in the queue for it. -/
structure Cell where
  part : Part
  base : ℕ
  rest : List IndexTerm
  smi : Option SegmentMergeInfo

namespace Cell

variable {c : Cell} {t : Term}

/-- A segment is in the queue as long as it has terms. -/
inductive Valid : Cell → Prop
  | gone (p : Part) (base : ℕ) : Valid ⟨p, base, [], none⟩
  | here (p : Part) (base : ℕ) (cur : IndexTerm) (rest : List IndexTerm) (smi : SegmentMergeInfo)
    (hs : Stands p base cur rest smi)
    (hsuffix : cur :: rest <:+ entriesIn p) : Valid ⟨p, base, cur :: rest, some smi⟩

/-- The terms that are ahead. -/
def terms (c : Cell) : List Term := c.rest.map IndexTerm.term

end Cell

/-- A segment goes on, if it can. -/
def advanced (smi : SegmentMergeInfo) : Option SegmentMergeInfo := if smi.next.1 then some smi.next.2 else none

/-- What becomes of a segment when a term has been merged. -/
def moved (t : Term) (smi : SegmentMergeInfo) : Option SegmentMergeInfo :=
  if smi.term = some t then advanced (drained smi) else some smi

namespace Cell

variable {c : Cell} {t : Term}

/-- A term has been merged. -/
def pass (t : Term) (c : Cell) : Cell :=
  if c.terms.head? = some t then ⟨c.part, c.base, c.rest.tail, c.smi.bind (moved t)⟩ else c

theorem pass_part : (c.pass t).part = c.part := by
  unfold pass
  split <;> rfl

theorem pass_base : (c.pass t).base = c.base := by
  unfold pass
  split <;> rfl

theorem pass_terms : (c.pass t).terms = if c.terms.head? = some t then c.terms.tail else c.terms := by
  unfold pass
  split
  · exact List.map_tail
  · rfl

theorem Valid.term (h : c.Valid) {smi : SegmentMergeInfo} (hsmi : c.smi = some smi) : smi.term = c.terms.head? := by
  cases h with
  | gone p base => exact absurd hsmi (by simp)
  | here p base cur rest smi' hs hsuffix =>
    obtain rfl := Option.some_inj.1 hsmi
    exact hs.term

/-- What is in the queue stands on a term. -/
theorem Valid.head (h : c.Valid) {smi : SegmentMergeInfo} (hsmi : c.smi = some smi) :
    ∃ t, c.terms.head? = some t ∧ smi.term = some t := by
  have hterm := h.term hsmi
  cases h with
  | gone p base => exact absurd hsmi (by simp)
  | here p base cur rest smi' hs hsuffix => exact ⟨cur.term, rfl, hterm⟩

/-- What stands on a term is in the queue. -/
theorem Valid.queued (h : c.Valid) (ht : c.terms.head? = some t) : ∃ smi, c.smi = some smi ∧ smi.term = some t := by
  cases h with
  | gone p base => exact absurd ht (by simp [terms])
  | here p base cur rest smi hs hsuffix => exact ⟨smi, rfl, hs.term.trans ht⟩

/-- **A term has been merged**, and the segments that have it go on. -/
theorem Valid.pass (hok : c.part.OK) (h : c.Valid) : (c.pass t).Valid ∧ (c.pass t).smi = c.smi.bind (moved t) := by
  cases h with
  | gone p base =>
    rw [Cell.pass, if_neg (by simp [terms])]
    exact ⟨.gone p base, rfl⟩
  | here p base cur rest smi hs hsuffix =>
    have hterm : (some smi).bind (moved t) = if some cur.term = some t then advanced (drained smi) else some smi := by
      rw [Option.bind_some, moved, hs.term]
    rw [Cell.pass, show (⟨p, base, cur :: rest, some smi⟩ : Cell).terms.head? = some cur.term from rfl]
    by_cases ht : some cur.term = some t
    · rw [if_pos ht]
      dsimp only
      rw [hterm, if_pos ht]
      obtain ⟨-, hs'⟩ := hs.copied hok (hsuffix.subset List.mem_cons_self)
      refine ⟨?_, rfl⟩
      obtain _ | ⟨e, rest⟩ := rest
      · rw [advanced, if_neg (by rw [hs'.next_end]; simp)]
        exact .gone p base
      · obtain ⟨hnext, hs''⟩ := hs'.next hok
        rw [advanced, if_pos hnext]
        exact .here _ _ _ _ _ hs'' ((List.suffix_cons _ _).trans hsuffix)
    · rw [if_neg ht]
      rw [hterm, if_neg ht]
      exact ⟨.here p base cur rest smi hs hsuffix, rfl⟩

end Cell

/-! ## The queue -/

theorem restore_spec {q : Heap SegmentMergeInfo} (smis : List SegmentMergeInfo) (ho : q.IsOrdered lessThan) :
    (smis.foldl restore q).IsOrdered lessThan ∧
      (smis.foldl restore q).contents = (smis.filterMap advanced : Multiset _) + q.contents := by
  induction smis generalizing q with
  | nil => exact ⟨ho, (Multiset.zero_add _).symm⟩
  | cons smi smis ih =>
    rw [List.foldl_cons, List.filterMap_cons, restore, advanced]
    by_cases hnext : smi.next.1 = true
    · rw [if_pos hnext, if_pos hnext]
      obtain ⟨hput, hcontents⟩ := put_spec (x := smi.next.2) weakOrder ho
      obtain ⟨hordered, hall⟩ := ih hput
      refine ⟨hordered, ?_⟩
      rw [hall, hcontents, Multiset.add_cons, ← Multiset.cons_add]
      rfl
    · rw [if_neg hnext, if_neg hnext]
      exact ih ho

/-- Some are changed, the others are kept. -/
theorem filterMap_split {α : Type*} (p : α → Prop) [DecidablePred p] (g : α → Option α) (s : Multiset α) :
    (s.filter p).filterMap g + s.filter (fun x => ¬ p x) = s.filterMap fun x => if p x then g x else some x := by
  induction s using Multiset.induction with
  | empty => rfl
  | cons a s ih =>
    by_cases ha : p a
    · rw [Multiset.filter_cons_of_pos _ ha, Multiset.filter_cons_of_neg (p := fun x => ¬ p x) _ (not_not.2 ha)]
      cases hg : g a with
      | none => rw [Multiset.filterMap_cons_none _ _ hg, Multiset.filterMap_cons_none _ _ (by rw [if_pos ha]; exact hg), ih]
      | some b =>
        rw [Multiset.filterMap_cons_some _ _ _ hg, Multiset.filterMap_cons_some _ _ _ (by rw [if_pos ha]; exact hg),
          Multiset.cons_add, ih]
    · rw [Multiset.filter_cons_of_neg _ ha, Multiset.filter_cons_of_pos (p := fun x => ¬ p x) _ ha, Multiset.add_cons, ih]
      exact (Multiset.filterMap_cons_some _ a s (if_neg ha)).symm

/-- The postings of a term in all segments, with new numbers. -/
def postingsOf (cells : List Cell) (t : Term) : List Posting := cells.flatMap fun c => c.part.renumbered c.base t

/-- The segments and the queue, between two terms. -/
structure Going (cells : List Cell) (q : Heap SegmentMergeInfo) : Prop where
  ok : ∀ c ∈ cells, c.part.OK
  valid : ∀ c ∈ cells, c.Valid
  ordered : q.IsOrdered lessThan
  contents : q.contents = (cells.filterMap Cell.smi : Multiset _)
  passed : ∀ c ∈ cells, ∀ e ∈ entriesIn c.part, e.term ∈ c.terms ∨ ∀ c' ∈ cells, ∀ s ∈ c'.terms, e.term < s
  bases : cells.Pairwise fun c c' => c.base + c.part.numDocs ≤ c'.base

variable {cells : List Cell} {c : Cell} {q : Heap SegmentMergeInfo} {t : Term} {smi : SegmentMergeInfo}

theorem Cell.Valid.pairwise (hok : c.part.OK) (h : c.Valid) : c.terms.Pairwise (· < ·) := by
  cases h with
  | gone p base => exact .nil
  | here p base cur rest smi hs hsuffix =>
    have hascending := (List.pairwise_cons.1 hok.dictionary.ascending).2
    exact List.pairwise_map.2 (hascending.sublist hsuffix.sublist)

theorem Going.pairwise (h : Going cells q) : ∀ l ∈ cells.map Cell.terms, l.Pairwise (· < ·) := by
  intro l hl
  obtain ⟨c, hc, rfl⟩ := List.mem_map.1 hl
  exact (h.valid c hc).pairwise (h.ok c hc)

theorem Going.mem_iff (h : Going cells q) : smi ∈ q.contents ↔ ∃ c ∈ cells, c.smi = some smi := by
  rw [h.contents, Multiset.mem_coe, List.mem_filterMap]

/-- **The top of the queue** stands on the least term. -/
theorem Going.top_least (h : Going cells q) (hne : q.size ≠ 0) :
    ∃ t, (q.heap 1).term = some t ∧ Merge.Least t (cells.map Cell.terms) := by
  have hpos : 0 < q.size := Nat.pos_of_ne_zero hne
  obtain ⟨c, hc, hsmi⟩ := h.mem_iff.1 (top_mem hpos)
  obtain ⟨t, hhead, hterm⟩ := (h.valid c hc).head hsmi
  refine ⟨t, hterm, ⟨_, List.mem_map_of_mem hc, hhead⟩, fun l hl s hs => ?_⟩
  obtain ⟨c', hc', rfl⟩ := List.mem_map.1 hl
  obtain ⟨smi', hsmi', hterm'⟩ := (h.valid c' hc').queued hs
  -- the bases count only where the terms are the same
  have hle := lessThan_false.1 (h.ordered.top_le weakOrder (h.mem_iff.2 ⟨_, hc', hsmi'⟩))
  rw [key, key, hterm, hterm', Prod.Lex.le_iff] at hle
  rcases hle with hlt | ⟨heq, -⟩
  · exact le_of_lt hlt
  · exact le_of_eq heq

/-- The segments that are popped with the top. -/
def group (q : Heap SegmentMergeInfo) (t : Term) : List SegmentMergeInfo × Heap SegmentMergeInfo :=
  let r := (q.pop lessThan).2.popWhile lessThan (fun smi => smi.term = some t) (q.pop lessThan).2.size
  ((q.pop lessThan).1 :: r.1, r.2)

/-- **Those that stand on the term** are popped, in the order of their bases. -/
theorem Going.group_spec (h : Going cells q) (hne : q.size ≠ 0) (ht : (q.heap 1).term = some t)
    (hleast : Merge.Least t (cells.map Cell.terms)) :
    (group q t).2.IsOrdered lessThan ∧ ((group q t).1 : Multiset _) = q.contents.filter (fun smi => smi.term = some t) ∧
      (group q t).2.contents = q.contents.filter (fun smi => ¬ smi.term = some t) ∧
      (group q t).1.Pairwise fun a b => a.base ≤ b.base := by
  have hpos : 0 < q.size := Nat.pos_of_ne_zero hne
  obtain ⟨hord, hcontents⟩ := pop_spec weakOrder h.ordered hpos
  have hmem : ∀ a ∈ (q.pop lessThan).2.contents, a ∈ q.contents := by
    intro a ha
    rw [← hcontents]
    exact Multiset.mem_cons_of_mem ha
  -- nothing in the queue stands on a lesser term
  have hle : ∀ a ∈ q.contents, ∃ s, a.term = some s ∧ t ≤ s := by
    intro a ha
    obtain ⟨c, hc, hsmi⟩ := h.mem_iff.1 ha
    obtain ⟨s, hhead, hterm⟩ := (h.valid c hc).head hsmi
    exact ⟨s, hterm, hleast.le _ (List.mem_map_of_mem hc) _ hhead⟩
  obtain ⟨hordered, hpopped, hleft, hpairs⟩ :=
    popWhile_spec (p := fun smi : SegmentMergeInfo => decide (smi.term = some t)) weakOrder hord (Nat.le_refl _)
    fun a ha b hb hb' hba => by
      obtain ⟨s, hs, hts⟩ := hle a (hmem a ha)
      have hb' : b.term = some t := of_decide_eq_true hb'
      have hkey := lessThan_false.1 hba
      rw [key, key, hs, hb', Prod.Lex.le_iff] at hkey
      have hst : s ≤ t := by
        rcases hkey with hlt | ⟨heq, -⟩
        · exact le_of_lt hlt
        · exact le_of_eq heq
      rw [hs, le_antisymm hst hts]
      exact decide_eq_true rfl
  simp only [decide_eq_true_eq] at hpopped hleft
  have htop : (q.pop lessThan).1.term = some t := ht
  have hall : ((group q t).1 : Multiset _) = q.contents.filter (fun smi => smi.term = some t) := by
    rw [← hcontents, Multiset.filter_cons_of_pos (p := fun smi : SegmentMergeInfo => smi.term = some t) _ htop, ← hpopped]
    rfl
  refine ⟨hordered, hall, ?_, ?_⟩
  · rw [← hcontents, Multiset.filter_cons_of_neg
      (p := fun smi : SegmentMergeInfo => ¬ smi.term = some t) _ (not_not.2 htop), ← hleft]
    rfl
  · have hterms : ∀ a ∈ (group q t).1, a.term = some t := by
      intro a ha
      have : a ∈ ((group q t).1 : Multiset _) := ha
      rw [hall] at this
      exact (Multiset.mem_filter.1 this).2
    have hall' : (group q t).1.Pairwise fun a b => lessThan b a = false := by
      refine List.pairwise_cons.2 ⟨fun b hb => ?_, hpairs⟩
      have hb' : b ∈ (((q.pop lessThan).2.popWhile lessThan (fun smi => smi.term = some t)
          (q.pop lessThan).2.size).1 : Multiset _) := hb
      rw [hpopped] at hb'
      exact h.ordered.top_le weakOrder (hmem b (Multiset.mem_of_mem_filter hb'))
    refine hall'.imp_of_mem fun {a b} ha hb hab => ?_
    have hkey := lessThan_false.1 hab
    rw [key, key, hterms a ha, hterms b hb, Prod.Lex.le_iff] at hkey
    rcases hkey with hlt | ⟨-, hle⟩
    · exact absurd hlt (lt_irrefl _)
    · exact hle

/-! ## The postings of a term -/

/-- A term that a segment has not got has no postings there. -/
theorem renumbered_eq_nil {p : Part} {base : ℕ} (hok : p.OK) (hnot : ∀ e ∈ entriesIn p, e.term ≠ t) :
    p.renumbered base t = [] := by
  have hnil : p.terms.postings t = [] := by
    by_contra hne
    obtain ⟨ti, hti⟩ := PostingsFiles.mem_infos (x := noFiles) hok.postings (Inverted.mem_of_postings hne)
        (List.length_pos_iff.2 hne)
    exact hnot ⟨t, ti, 0⟩ (List.mem_map.2 ⟨_, hti, rfl⟩) rfl
  rw [Part.renumbered, hnil]
  rfl

/-- Each of the segments that stand on the term is in the queue. -/
theorem forall₂_group (h : ∀ c ∈ cells, c.Valid) : List.Forall₂ (fun smi c => Cell.smi c = some smi)
    ((cells.filterMap Cell.smi).filter fun smi => smi.term = some t) (cells.filter fun c => c.terms.head? = some t) := by
  induction cells with
  | nil => exact .nil
  | cons c cells ih =>
    have hrest := ih fun c' hc' => h c' (List.mem_cons_of_mem _ hc')
    have hvalid := h c List.mem_cons_self
    cases hsmi : c.smi with
    | none =>
      have hhead : c.terms.head? ≠ some t := fun ht => by
        obtain ⟨smi, hsome, -⟩ := hvalid.queued ht
        exact absurd (hsmi.symm.trans hsome) (by simp)
      rw [List.filterMap_cons_none hsmi, List.filter_cons_of_neg (by simpa using hhead)]
      exact hrest
    | some smi =>
      rw [List.filterMap_cons_some hsmi]
      by_cases ht : c.terms.head? = some t
      · rw [List.filter_cons_of_pos (by simpa using (hvalid.term hsmi).trans ht), List.filter_cons_of_pos (by simpa using ht)]
        exact .cons hsmi hrest
      · rw [List.filter_cons_of_neg (by rw [hvalid.term hsmi]; simpa using ht), List.filter_cons_of_neg (by simpa using ht)]
        exact hrest

/-- The postings of the segments, in the order of these, are in ascending order. -/
theorem pairwise_flatMap {cs : List Cell} (hok : ∀ c ∈ cs, c.part.OK)
    (hcs : cs.Pairwise fun c c' => c.base + c.part.numDocs ≤ c'.base ∨ c.part.numDocs = 0 ∨ c'.part.numDocs = 0) :
    (postingsOf cs t).Pairwise fun q q' => q.doc < q'.doc := by
  refine List.pairwise_flatMap.2
    ⟨fun c hc => (Part.renumbered_pairwise _ _ (hok c hc)).1, hcs.imp_of_mem fun {c c'} hc hc' hle q hq q' hq' => ?_⟩
  have hlow := (Part.renumbered_pairwise _ _ (hok c hc)).2 q hq
  have hhigh := (Part.renumbered_pairwise _ _ (hok c' hc')).2 q' hq'
  omega

/-- What is copied from segments that stand on the term. -/
theorem flatMap_copied {smis : List SegmentMergeInfo} {cs : List Cell}
    (h : List.Forall₂ (fun smi c => Cell.smi c = some smi) smis cs)
    (hok : ∀ c ∈ cs, c.part.OK) (hvalid : ∀ c ∈ cs, c.Valid) (ht : ∀ c ∈ cs, c.terms.head? = some t) :
    smis.flatMap copied = asCopied (postingsOf cs t) ∧ List.Forall₂ (fun smi c => smi.base = Cell.base c) smis cs := by
  induction h with
  | nil => exact ⟨rfl, .nil⟩
  | @cons smi c smis cs hsmi hrest ih =>
    obtain ⟨hflat, hbases⟩ := ih (fun c' hc' => hok c' (List.mem_cons_of_mem _ hc'))
      (fun c' hc' => hvalid c' (List.mem_cons_of_mem _ hc'))
      fun c' hc' => ht c' (List.mem_cons_of_mem _ hc')
    have hhead := ht c List.mem_cons_self
    have hokc := hok c List.mem_cons_self
    cases hvalid c List.mem_cons_self with
    | gone p base => exact absurd hsmi (by simp)
    | here p base cur rest smi' hs hsuffix =>
      obtain rfl : smi' = smi := Option.some_inj.1 hsmi
      obtain rfl : cur.term = t := Option.some_inj.1 hhead
      obtain ⟨hcopied, -⟩ := hs.copied hokc (hsuffix.subset List.mem_cons_self)
      refine ⟨?_, .cons hs.base_eq hbases⟩
      rw [List.flatMap_cons, hcopied, hflat, asCopied, asCopied, asCopied, postingsOf, postingsOf, List.flatMap_cons,
        List.map_append]

/-- A segment that does not stand on the least term has no postings of it. -/
theorem Going.others (h : Going cells q) (hleast : Merge.Least t (cells.map Cell.terms)) (hc : c ∈ cells)
    (hhead : c.terms.head? ≠ some t) :
    c.part.renumbered c.base t = [] := by
  refine renumbered_eq_nil (h.ok c hc) fun e he het => ?_
  obtain ⟨l, hl, hlt⟩ := hleast.mem
  obtain ⟨c', hc', rfl⟩ := List.mem_map.1 hl
  rcases h.passed c hc e he with hahead | hbehind
  · -- the term is ahead in this segment, so that it stands on it
    have hpairs := (h.valid c hc).pairwise (h.ok c hc)
    have hle := hleast.le _ (List.mem_map_of_mem hc)
    rw [het] at hahead
    generalize c.terms = l at hahead hhead hpairs hle
    obtain _ | ⟨s, l⟩ := l
    · exact absurd hahead (by simp)
    · rcases List.mem_cons.1 hahead with rfl | htail
      · exact hhead rfl
      · exact absurd (hle s rfl) (not_le.2 ((List.pairwise_cons.1 hpairs).1 _ htail))
  · have hlt := hbehind c' hc' t (List.mem_of_mem_head? hlt)
    rw [het] at hlt
    exact absurd hlt (lt_irrefl _)

theorem postingsOf_filter {p : Cell → Prop} [DecidablePred p] (h : ∀ c ∈ cells, ¬ p c → c.part.renumbered c.base t = []) :
    postingsOf (cells.filter fun c => p c) t = postingsOf cells t := by
  induction cells with
  | nil => rfl
  | cons c cells ih =>
    have hrest := ih fun c' hc' => h c' (List.mem_cons_of_mem _ hc')
    by_cases hp : p c
    · rw [List.filter_cons_of_pos (by simpa using hp), postingsOf, List.flatMap_cons, ← postingsOf, hrest]
      rfl
    · rw [List.filter_cons_of_neg (by simpa using hp), hrest, postingsOf, postingsOf, List.flatMap_cons,
        h c List.mem_cons_self hp, List.nil_append]

/-- **Whatever order the queue gives the segments in**, the postings are those of the segments in their order. -/
theorem Going.group_copied (h : Going cells q) (hne : q.size ≠ 0) (ht : (q.heap 1).term = some t)
    (hleast : Merge.Least t (cells.map Cell.terms)) :
    (group q t).1.flatMap copied = asCopied (postingsOf cells t) ∧
      (postingsOf cells t).Pairwise fun q q' => q.doc < q'.doc := by
  obtain ⟨-, hgroup, -, hpairs⟩ := h.group_spec hne ht hleast
  have hascending : (postingsOf cells t).Pairwise fun q q' => q.doc < q'.doc := pairwise_flatMap h.ok (h.bases.imp .inl)
  refine ⟨?_, hascending⟩
  -- the segments of the group, in the order of the queue
  rw [h.contents, Multiset.filter_coe, Multiset.coe_eq_coe] at hgroup
  obtain ⟨cs, hcs, hperm⟩ := List.perm_comp_forall₂ hgroup (forall₂_group h.valid)
  have hmem : ∀ c ∈ cs, c ∈ cells ∧ c.terms.head? = some t := by
    intro c hc
    simpa using hperm.mem_iff.1 hc
  obtain ⟨hflat, hbases⟩ := flatMap_copied hcs (fun c hc => h.ok c (hmem c hc).1) (fun c hc => h.valid c (hmem c hc).1)
    fun c hc => (hmem c hc).2
  rw [hflat]
  congr 1
  -- the queue gives them by their bases, and ranges that overlap are empty
  have hle : cs.Pairwise fun c c' => c.base ≤ c'.base := by
    have := List.forall₂_iff_get.1 hbases
    rw [List.pairwise_iff_getElem] at hpairs ⊢
    intro i j hi hj hij
    have hi' : i < (group q t).1.length := by rw [this.1]; exact hi
    have hj' : j < (group q t).1.length := by rw [this.1]; exact hj
    have hle := hpairs i j hi' hj' hij
    have hbase := this.2 i hi' hi
    have hbase' := this.2 j hj' hj
    rw [List.get_eq_getElem, List.get_eq_getElem] at hbase hbase'
    dsimp only at hbase hbase'
    omega
  have hsymm : cs.Pairwise fun c c' => c.base + c.part.numDocs ≤ c'.base ∨ c'.base + c'.part.numDocs ≤ c.base := by
    refine (hperm.pairwise_iff fun {a b} hab => hab.symm).2 ?_
    exact (h.bases.imp .inl).sublist (List.filter_sublist)
  have hsorted : (postingsOf cs t).Pairwise fun q q' => q.doc < q'.doc := by
    refine pairwise_flatMap (fun c hc => h.ok c (hmem c hc).1) ((hle.and hsymm).imp fun ⟨hle, hsep⟩ => ?_)
    omega
  have hfilter : postingsOf (cells.filter fun c => c.terms.head? = some t) t = postingsOf cells t :=
    postingsOf_filter fun c hc hhead => h.others hleast hc hhead
  have hall : (postingsOf cs t).Perm (postingsOf cells t) := by
    rw [← hfilter]
    exact hperm.flatMap_right _
  exact hall.eq_of_pairwise (fun a b _ _ hab hba => absurd hab hba.asymm) hsorted hascending

theorem postingsOf_pass {s : Term} : postingsOf (cells.map (Cell.pass s)) t = postingsOf cells t := by
  rw [postingsOf, postingsOf, List.flatMap_map]
  exact congrArg (cells.flatMap ·) (funext fun c => by rw [Cell.pass_part, Cell.pass_base])

theorem terms_pass {s : Term} : (cells.map (Cell.pass s)).map Cell.terms = Merge.pass s (cells.map Cell.terms) := by
  rw [Merge.pass, List.map_map, List.map_map]
  refine List.map_congr_left fun c _ => Cell.pass_terms.trans ?_
  by_cases hhead : c.terms.head? = some s
  · exact (if_pos hhead).trans (if_pos hhead).symm
  · exact (if_neg hhead).trans (if_neg hhead).symm

/-- **One term is merged.** -/
theorem Going.step (h : Going cells q) (hne : q.size ≠ 0) (ht : (q.heap 1).term = some t)
    (hleast : Merge.Least t (cells.map Cell.terms)) :
    Going (cells.map (Cell.pass t)) (((group q t).1.map drained).reverse.foldl restore (group q t).2) := by
  obtain ⟨hordered, hgroup, hleft, -⟩ := h.group_spec hne ht hleast
  obtain ⟨hrestored, hcontents⟩ := restore_spec ((group q t).1.map drained).reverse hordered
  refine ⟨?_, ?_, hrestored, ?_, ?_, ?_⟩
  · intro c hc
    obtain ⟨c, hc', rfl⟩ := List.mem_map.1 hc
    rw [Cell.pass_part]
    exact h.ok c hc'
  · intro c hc
    obtain ⟨c, hc', rfl⟩ := List.mem_map.1 hc
    exact ((h.valid c hc').pass (h.ok c hc')).1
  · -- those of the group have gone on, the others are as they were
    -- the order in which they are put back does not matter
    have hgoes : (((group q t).1.map drained).reverse.filterMap advanced : Multiset _) =
        (q.contents.filter fun smi => smi.term = some t).filterMap fun smi => advanced (drained smi) := by
      rw [← hgroup, List.filterMap_reverse, Multiset.coe_reverse, List.filterMap_map, Multiset.filterMap_coe]
      rfl
    have hall : (cells.map (Cell.pass t)).filterMap Cell.smi = (cells.filterMap Cell.smi).filterMap (moved t) := by
      rw [List.filterMap_map, List.filterMap_filterMap]
      exact List.filterMap_congr fun c hc => ((h.valid c hc).pass (h.ok c hc)).2
    rw [hcontents, hgoes, hleft, filterMap_split, hall, ← Multiset.filterMap_coe, ← h.contents]
    rfl
  · intro c hc e he
    obtain ⟨c, hc', rfl⟩ := List.mem_map.1 hc
    rw [Cell.pass_part] at he
    have hbehind : ∀ c' ∈ cells.map (Cell.pass t), ∀ s ∈ c'.terms, t < s := by
      intro c' hc' s hs
      have hmem : c'.terms ∈ (cells.map (Cell.pass t)).map Cell.terms := List.mem_map_of_mem hc'
      rw [terms_pass] at hmem
      exact hleast.lt_of_mem_pass h.pairwise hmem hs
    rw [Cell.pass_terms]
    rcases h.passed c hc' e he with hahead | hpassed
    · by_cases het : e.term = t
      · rw [het]
        exact .inr hbehind
      · left
        split
        · rename_i hhead
          generalize c.terms = l at hahead hhead
          obtain _ | ⟨s, l⟩ := l
          · exact absurd hahead (by simp)
          · exact (List.mem_cons.1 hahead).resolve_left fun heq => het (heq.trans (Option.some_inj.1 hhead))
        · exact hahead
    · obtain ⟨l, hl, hhead⟩ := hleast.mem
      obtain ⟨c₁, hc₁, rfl⟩ := List.mem_map.1 hl
      exact .inr fun c' hc' s hs => (hpassed c₁ hc₁ t (List.mem_of_mem_head? hhead)).trans (hbehind c' hc' s hs)
  · rw [List.pairwise_map]
    exact h.bases.imp fun {c c'} hle => by rwa [Cell.pass_base, Cell.pass_base, Cell.pass_part]

/-- **The queue gives the terms of all segments**, each once and in order, with their postings. -/
theorem mergeLoop_spec {n : ℕ} {x : SegmentOutput} (h : Going cells q) (hn : (Merge.union (cells.map Cell.terms)).length < n) :
    mergeLoop n x q = .ok ((Merge.union (cells.map Cell.terms)).foldl (fun x t => x.addTerm t (postingsOf cells t)) x) := by
  induction n generalizing x cells q with
  | zero => omega
  | succ n ih =>
    rw [mergeLoop]
    by_cases hempty : q.size = 0
    · rw [if_pos hempty, Merge.union_nil]
      · rfl
      · intro l hl
        obtain ⟨c, hc, rfl⟩ := List.mem_map.1 hl
        -- a segment with a term would be in the queue
        refine List.head?_eq_none_iff.1 (Option.eq_none_iff_forall_ne_some.2 fun t ht => ?_)
        obtain ⟨smi, hsmi, -⟩ := (h.valid c hc).queued ht
        have hmem : smi ∈ q.contents := h.mem_iff.2 ⟨_, hc, hsmi⟩
        rw [contents_eq_zero hempty] at hmem
        exact absurd hmem (Multiset.notMem_zero _)
    · rw [if_neg hempty]
      obtain ⟨t, ht, hleast⟩ := h.top_least hempty
      -- one term is taken, and the rest is done by the induction
      obtain ⟨hcopied, hascending⟩ := h.group_copied hempty ht hleast
      have hunion := Merge.union_pass h.pairwise hleast
      rw [hunion, List.length_cons] at hn
      have htop : (q.pop lessThan).1.term = some t := ht
      dsimp only
      rw [htop]
      dsimp only
      rw [show mergeTermInfo x t ((q.pop lessThan).1 :: ((q.pop lessThan).2.popWhile lessThan (fun smi => smi.term = some t)
        (q.pop lessThan).2.size).1) = .ok ((group q t).1.map drained, x.addTerm t (postingsOf cells t)) from
          mergeTermInfo_spec hcopied hascending]
      dsimp only
      refine (ih (h.step hempty ht hleast) (by rw [terms_pass]; omega)).trans ?_
      rw [hunion, List.foldl_cons, terms_pass]
      simp only [postingsOf_pass]

/-! ## All segments -/

/-- A segment before its first term has been merged. -/
def initial (p : Part) (r : SegmentReader) (base : ℕ) : Cell := ⟨p, base, entriesIn p, advanced (.new base r)⟩

def initials : List Part → List SegmentReader → (base : ℕ) → List Cell
  | p :: parts, r :: readers, base => initial p r base :: initials parts readers (base + p.numDocs)
  | _, _, _ => []

variable {parts : List Part} {readers : List SegmentReader} {p : Part} {r : SegmentReader} {base : ℕ}

theorem valid_initial (hok : p.OK) (h : p.Reads r) : (initial p r base).Valid := by
  have hs := new_stands base h
  rw [initial]
  cases hes : entriesIn p with
  | nil =>
    rw [hes] at hs
    rw [advanced, if_neg (by rw [hs.next_end]; simp)]
    exact .gone p base
  | cons e es =>
    rw [hes] at hs
    obtain ⟨hnext, hs'⟩ := hs.next hok
    rw [advanced, if_pos hnext]
    exact .here p base e es _ hs' (by rw [hes])

theorem mem_initials (h : List.Forall₂ Part.Reads parts readers) (hc : c ∈ initials parts readers base) :
    ∃ p ∈ parts, ∃ r b, p.Reads r ∧ base ≤ b ∧ c = initial p r b := by
  induction h generalizing base with
  | nil => exact absurd hc (by simp [initials])
  | @cons p r parts readers hr hrest ih =>
    rw [initials] at hc
    rcases List.mem_cons.1 hc with rfl | hc
    · exact ⟨p, List.mem_cons_self, r, base, hr, Nat.le_refl _, rfl⟩
    · obtain ⟨p', hp', r', b, hr', hle, hc⟩ := ih hc
      exact ⟨p', List.mem_cons_of_mem _ hp', r', b, hr', (Nat.le_add_right _ _).trans hle, hc⟩

theorem initials_bases (h : List.Forall₂ Part.Reads parts readers) :
    (initials parts readers base).Pairwise fun c c' => c.base + c.part.numDocs ≤ c'.base := by
  induction h generalizing base with
  | nil => exact .nil
  | cons hr hrest ih =>
    rw [initials]
    refine List.pairwise_cons.2 ⟨fun c hc => ?_, ih⟩
    obtain ⟨p', -, r', b, -, hle, rfl⟩ := mem_initials hrest hc
    exact hle

theorem fillQueue_spec (base : ℕ) (h : List.Forall₂ Part.Reads parts readers) (ho : q.IsOrdered lessThan) :
    (fillQueue readers base q).IsOrdered lessThan ∧
      (fillQueue readers base q).contents = ((initials parts readers base).filterMap Cell.smi : Multiset _) + q.contents := by
  induction h generalizing base q with
  | nil => exact ⟨ho, (Multiset.zero_add _).symm⟩
  | @cons p r parts readers hr hrest ih =>
    obtain ⟨hput, hcontents⟩ := restore_spec [.new base r] ho
    rw [List.foldl_cons, List.foldl_nil] at hput hcontents
    obtain ⟨hordered, hall⟩ := ih (base + r.numDocs) hput
    rw [fillQueue]
    refine ⟨hordered, ?_⟩
    rw [hall, hcontents, hr.numDocs, initials]
    cases hadv : advanced (.new base r) with
    | none =>
      have hsmi : (initial p r base).smi = none := hadv
      rw [List.filterMap_cons_none hadv, List.filterMap_cons_none hsmi, List.filterMap_nil, Multiset.coe_nil, Multiset.zero_add]
    | some smi =>
      have hsmi : (initial p r base).smi = some smi := hadv
      rw [List.filterMap_cons_some hadv, List.filterMap_cons_some hsmi, List.filterMap_nil, ← Multiset.cons_coe,
        ← Multiset.cons_coe, Multiset.coe_nil, Multiset.cons_add, Multiset.cons_add, Multiset.zero_add, Multiset.add_cons]

/-- **The queue is filled.** -/
theorem going_initials (hok : ∀ p ∈ parts, p.OK) (h : List.Forall₂ Part.Reads parts readers) :
    Going (initials parts readers 0) (fillQueue readers 0 ⟨0, fun _ => default⟩) := by
  obtain ⟨hordered, hcontents⟩ := fillQueue_spec (q := ⟨0, fun _ => default⟩) 0 h fun i hi hle => by dsimp only at hle; omega
  refine ⟨fun c hc => ?_, fun c hc => ?_, hordered, ?_, fun c hc e he => ?_, initials_bases h⟩
  · obtain ⟨p, hp, r, b, hr, -, rfl⟩ := mem_initials h hc
    exact hok p hp
  · obtain ⟨p, hp, r, b, hr, -, rfl⟩ := mem_initials h hc
    exact valid_initial (hok p hp) hr
  · rw [hcontents, contents_eq_zero rfl, Multiset.add_zero]
  · obtain ⟨p, hp, r, b, hr, -, rfl⟩ := mem_initials h hc
    exact .inl (List.mem_map_of_mem he)

/-! ## The new segment -/

/-- The terms of a segment that have postings. -/
def dictionary (p : Part) : List Term := (p.terms.filter fun d => d.2 ≠ []).map Prod.fst

/-- The postings of a term in all segments, of which the first has a base. -/
def mergedPostings : List Part → (base : ℕ) → Term → List Posting
  | [], _, _ => []
  | p :: parts, base, t => p.renumbered base t ++ mergedPostings parts (base + p.numDocs) t

/-- **What merging is for**: the terms of all segments, with their postings. -/
def mergedTerms (parts : List Part) : Inverted :=
  (Merge.union (parts.map dictionary)).map fun t => (t, mergedPostings parts 0 t)

def mergedNumDocs (parts : List Part) : ℕ := (parts.map Part.numDocs).sum

/-- The names of the fields of all segments. -/
def mergedFields (parts : List Part) : FieldInfos := (parts.flatMap Part.fieldInfos).foldl addField []

theorem entriesIn_terms (hok : p.OK) : (entriesIn p).map IndexTerm.term = dictionary p := by
  -- by induction on the terms, over the files that grow with them
  have hinfos : ∀ (x : PostingsFiles) (terms : Inverted),
      (∀ d ∈ terms, PostingsFiles.Writes x.skipInterval x.maxSkipLevels p.docCount d.2) →
        (x.infos p.docCount terms).map Prod.fst = (terms.filter fun d => d.2 ≠ []).map Prod.fst := by
    intro x terms h
    induction terms generalizing x with
    | nil => rfl
    | cons d terms ih =>
      have hwrites := h d List.mem_cons_self
      have hfirst := PostingsFiles.extends_appendPostings hwrites
      have hrest := ih (x.appendPostings p.docCount d.2).1 fun d' hd' => by
        rw [hfirst.skipInterval, hfirst.maxSkipLevels]
        exact h d' (List.mem_cons_of_mem _ hd')
      have hdf : (x.appendPostings p.docCount d.2).2.docFreq = d.2.length := by
        rw [PostingsFiles.appendPostings_spec hwrites.takes]
      rw [PostingsFiles.infos, List.map_append, hrest, hdf]
      by_cases hnil : d.2 = []
      · rw [if_neg (by rw [hnil]; simp), List.filter_cons_of_neg (by simpa using hnil)]
        rfl
      · rw [if_pos (List.length_pos_iff.2 hnil), List.filter_cons_of_pos (by simpa using hnil)]
        rfl
  rw [dictionary, ← hinfos noFiles p.terms hok.postings, entriesIn, entriesOf, List.map_map]
  rfl

theorem postingsOf_initials (h : List.Forall₂ Part.Reads parts readers) :
    postingsOf (initials parts readers base) t = mergedPostings parts base t := by
  induction h generalizing base with
  | nil => rfl
  | cons hr hrest ih => rw [initials, postingsOf, List.flatMap_cons, ← postingsOf, ih, mergedPostings, initial]

theorem terms_initials (base : ℕ) (hok : ∀ p ∈ parts, p.OK) (h : List.Forall₂ Part.Reads parts readers) :
    (initials parts readers base).map Cell.terms = parts.map dictionary := by
  induction h generalizing base with
  | nil => rfl
  | @cons p r parts readers hr hrest ih =>
    rw [initials, List.map_cons, List.map_cons, ih _ fun p' hp' => hok p' (List.mem_cons_of_mem _ hp'),
      ← entriesIn_terms (hok p List.mem_cons_self)]
    rfl

theorem mergedDocs_eq (h : List.Forall₂ Part.Reads parts readers) : mergedDocs readers = mergedNumDocs parts := by
  rw [mergedDocs, mergedNumDocs]
  refine congrArg List.sum ?_
  induction h with
  | nil => rfl
  | @cons p r parts readers hr hrest ih =>
    rw [List.map_cons, List.map_cons, ih, hr.maxDoc, hr.isDeleted, Part.countP_live]
    rfl

theorem mergeFieldInfos_eq (h : List.Forall₂ Part.Reads parts readers) : mergeFieldInfos readers = mergedFields parts := by
  rw [mergeFieldInfos, mergedFields]
  refine congrArg _ ?_
  induction h with
  | nil => rfl
  | cons hr hrest ih => rw [List.flatMap_cons, List.flatMap_cons, ih, hr._fieldInfos]

/-- **The files of the new segment** are those of its terms. -/
theorem mergeTerms_spec (hok : ∀ p ∈ parts, p.OK) (h : List.Forall₂ Part.Reads parts readers) (interval : ℕ) :
    mergeTerms readers interval =
      .ok (writeSegment (mergedFields parts) interval (mergedNumDocs parts) (mergedTerms parts)) := by
  have hterms := terms_initials 0 hok h
  have hsizes : (readers.map fun r => r.tis.origEnum.size.toNat).sum = ((parts.map dictionary).flatten).length := by
    rw [List.length_flatten, List.map_map]
    refine congrArg List.sum ?_
    clear hterms
    induction h with
    | nil => rfl
    | @cons p r parts readers hr hrest ih =>
      rw [List.map_cons, List.map_cons, ih fun p' hp' => hok p' (List.mem_cons_of_mem _ hp'), hr.tis.orig.1.size,
        Int.toNat_natCast, Function.comp_apply, ← entriesIn_terms (hok p List.mem_cons_self), List.length_map]
      rfl
  have hlength := Merge.union_length_le (parts.map dictionary)
  rw [mergeTerms, mergeLoop_spec (going_initials hok h) (by rw [hterms, hsizes]; omega), mergedDocs_eq h,
    mergeFieldInfos_eq h, hterms, writeSegment, mergedTerms, List.foldl_map]
  simp only [postingsOf_initials h]
  rfl

/-! ## What is asked of the new segment -/

variable {interval : ℕ}

theorem mem_dictionary {p : Part} : t ∈ dictionary p ↔ ∃ ps, (t, ps) ∈ p.terms ∧ ps ≠ [] := by
  rw [dictionary, List.mem_map]
  constructor
  · rintro ⟨⟨s, ps⟩, hmem, rfl⟩
    obtain ⟨hmem, hne⟩ := List.mem_filter.1 hmem
    exact ⟨ps, hmem, of_decide_eq_true hne⟩
  · rintro ⟨ps, hmem, hne⟩
    exact ⟨(t, ps), List.mem_filter.2 ⟨hmem, decide_eq_true hne⟩, rfl⟩

theorem mem_mergedTerms {d : Term × List Posting} :
    d ∈ mergedTerms parts ↔ d.2 = mergedPostings parts 0 d.1 ∧ ∃ p ∈ parts, d.1 ∈ dictionary p := by
  rw [mergedTerms, List.mem_map]
  constructor
  · rintro ⟨t, ht, rfl⟩
    obtain ⟨l, hl, ht⟩ := Merge.mem_union.1 ht
    obtain ⟨p, hp, rfl⟩ := List.mem_map.1 hl
    exact ⟨rfl, p, hp, ht⟩
  · rintro ⟨hps, p, hp, ht⟩
    exact ⟨d.1, Merge.mem_union.2 ⟨_, List.mem_map_of_mem hp, ht⟩, Prod.ext rfl hps.symm⟩

theorem mergedTerms_fst : (mergedTerms parts).map Prod.fst = Merge.union (parts.map dictionary) := by
  rw [mergedTerms, List.map_map]
  exact List.map_id' _

/-- The postings of the new segment are those of the others, with new numbers. -/
theorem mem_mergedPostings {q : Posting} (hok : ∀ p ∈ parts, p.OK) (hq : q ∈ mergedPostings parts base t) :
    (∃ p ∈ parts, ∃ q' ∈ p.terms.postings t, q.positions = q'.positions) ∧ base ≤ q.doc ∧
      q.doc < base + mergedNumDocs parts := by
  induction parts generalizing base with
  | nil => exact absurd hq (by simp [mergedPostings])
  | cons p parts ih =>
    have hsum : mergedNumDocs (p :: parts) = p.numDocs + mergedNumDocs parts := List.sum_cons
    rcases List.mem_append.1 hq with hq | hq
    · have hrange := (Part.renumbered_pairwise _ _ (hok p List.mem_cons_self)).2 q hq
      obtain ⟨q', hq', rfl⟩ := List.mem_map.1 hq
      exact ⟨⟨p, List.mem_cons_self, q', List.mem_of_mem_filter hq', rfl⟩, hrange.1, by omega⟩
    · obtain ⟨⟨p', hp', hq'⟩, hlow, hhigh⟩ := ih (fun p' hp' => hok p' (List.mem_cons_of_mem _ hp')) hq
      exact ⟨⟨p', List.mem_cons_of_mem _ hp', hq'⟩, by omega, by omega⟩

theorem mergedPostings_pairwise (base : ℕ) (t : Term) (hok : ∀ p ∈ parts, p.OK) :
    (mergedPostings parts base t).Pairwise fun q q' => q.doc < q'.doc := by
  induction parts generalizing base with
  | nil => exact .nil
  | cons p parts ih =>
    have hrest : ∀ p' ∈ parts, p'.OK := fun p' hp' => hok p' (List.mem_cons_of_mem _ hp')
    obtain ⟨hfirst, hrange⟩ := Part.renumbered_pairwise base t (hok p List.mem_cons_self)
    refine List.pairwise_append.2 ⟨hfirst, ih _ hrest, fun q hq q' hq' => ?_⟩
    have hbelow := hrange q hq
    have habove := (mem_mergedPostings hrest hq').2
    omega

/-- A term that no segment has has no postings. -/
theorem mergedPostings_eq_nil (h : ∀ p ∈ parts, p.terms.postings t = []) : mergedPostings parts base t = [] := by
  induction parts generalizing base with
  | nil => rfl
  | cons p parts ih =>
    rw [mergedPostings, Part.renumbered, h p List.mem_cons_self, ih fun p' hp' => h p' (List.mem_cons_of_mem _ hp')]
    rfl

/-- **Every term** has in the new segment the postings that the others have for it. -/
theorem postings_mergedTerms : (mergedTerms parts).postings t = mergedPostings parts 0 t := by
  by_cases ht : t ∈ (mergedTerms parts).map Prod.fst
  · obtain ⟨d, hd, rfl⟩ := List.mem_map.1 ht
    have hnodup : ((mergedTerms parts).map Prod.fst).Nodup := by
      rw [mergedTerms_fst]
      exact Merge.union_pairwise.imp ne_of_lt
    rw [Inverted.postings_of_mem hnodup hd]
    exact (mem_mergedTerms.1 hd).1
  · have hnone : (mergedTerms parts).postings t = [] := by
      by_contra hne
      exact ht (List.mem_map_of_mem (Inverted.mem_of_postings hne))
    rw [hnone]
    refine (mergedPostings_eq_nil fun p hp => ?_).symm
    by_contra hne
    refine ht (mergedTerms_fst ▸ Merge.mem_union.2
      ⟨_, List.mem_map_of_mem hp, mem_dictionary.2 ⟨_, Inverted.mem_of_postings hne, hne⟩⟩)

theorem mem_foldl_addField {names : List QString} {fieldInfos : FieldInfos} {name : QString} :
    name ∈ names.foldl addField fieldInfos ↔ name ∈ fieldInfos ∨ name ∈ names := by
  induction names generalizing fieldInfos with
  | nil => simp
  | cons n names ih =>
    rw [List.foldl_cons, ih, addField, List.mem_cons]
    by_cases hn : n ∈ fieldInfos
    · rw [if_pos (List.contains_iff_mem.2 hn)]
      constructor
      · rintro (h | h)
        · exact .inl h
        · exact .inr (.inr h)
      · rintro (h | rfl | h)
        · exact .inl h
        · exact .inl hn
        · exact .inr h
    · rw [if_neg (mt List.contains_iff_mem.1 hn), List.mem_append, List.mem_singleton, or_assoc]

/-- The new segment is not too large for its files. -/
structure Fits (parts : List Part) (interval : ℕ) : Prop where
  fields_lt : (mergedFields parts).length < 2 ^ 31
  interval_pos : 0 < interval
  interval_lt : interval < 2 ^ 31
  numDocs_lt : mergedNumDocs parts < 2 ^ 31
  terms_lt : (mergedTerms parts).length < 2 ^ 31
  freq_lt : ∀ d ∈ mergedTerms parts, (freqBytes 0 d.2).length < 2 ^ 31
  prox_lt : ∀ d ∈ mergedTerms parts, (proxBytes d.2).length < 2 ^ 31
  tis_lt : (writeSegment (mergedFields parts) interval (mergedNumDocs parts) (mergedTerms parts)).tis.length < 2 ^ 63
  frq_lt : (writeSegment (mergedFields parts) interval (mergedNumDocs parts) (mergedTerms parts)).frq.length < 2 ^ 63
  prx_lt : (writeSegment (mergedFields parts) interval (mergedNumDocs parts) (mergedTerms parts)).prx.length < 2 ^ 63

/-- The postings of a term can be written. -/
theorem writes_mergedPostings (hok : ∀ p ∈ parts, p.OK) (hdocs : mergedNumDocs parts < 2 ^ 31)
    (hfreq : (freqBytes 0 (mergedPostings parts 0 t)).length < 2 ^ 31)
    (hprox : (proxBytes (mergedPostings parts 0 t)).length < 2 ^ 31) :
    PostingsFiles.Writes 16 10 (mergedNumDocs parts) (mergedPostings parts 0 t) := by
  have hascending := mergedPostings_pairwise 0 t hok
  have hbelow : ∀ q ∈ mergedPostings parts 0 t, q.doc < mergedNumDocs parts := fun q hq => by
    have := (mem_mergedPostings hok hq).2.2
    omega
  -- each posting is one of a segment that could be written
  have hfrom : ∀ q ∈ mergedPostings parts 0 t, ∃ ps q', PostingsOK ps ∧ PositionsOK ps ∧ q' ∈ ps ∧
      q.positions = q'.positions := by
    intro q hq
    obtain ⟨⟨p, hp, q', hq', heq⟩, -⟩ := mem_mergedPostings hok hq
    have hwrites := (hok p hp).postings _ (Inverted.mem_of_postings (List.ne_nil_of_mem hq'))
    exact ⟨_, q', hwrites.ok, hwrites.positions, hq', heq⟩
  refine ⟨by decide, by decide, ⟨hascending, fun q hq => (hbelow q hq).trans hdocs, fun q hq => ?_⟩,
    fun q hq => ?_, ?_, hfreq, hprox⟩
  · obtain ⟨ps, q', hps, -, hq', heq⟩ := hfrom q hq
    have hlt := hps.freq_lt q' hq'
    rw [Posting.freq] at hlt ⊢
    rwa [heq]
  · obtain ⟨ps, q', -, hps, hq', heq⟩ := hfrom q hq
    rw [heq]
    exact hps q' hq'
  · -- different documents, all of them below the number of documents
    have hnodup : ((mergedPostings parts 0 t).map Posting.doc).Nodup := (List.pairwise_map.2 hascending).imp ne_of_lt
    have hsubset : (mergedPostings parts 0 t).map Posting.doc ⊆ List.range (mergedNumDocs parts) := by
      intro doc hdoc
      obtain ⟨q, hq, rfl⟩ := List.mem_map.1 hdoc
      exact List.mem_range.2 (hbelow q hq)
    have hle := (List.subperm_of_subset hnodup hsubset).length_le
    rwa [List.length_map, List.length_range] at hle

/-- **The new segment** can be written and read. -/
theorem segmentOK (hok : ∀ p ∈ parts, p.OK) (h : Fits parts interval) :
    SegmentOK (mergedFields parts) interval (mergedNumDocs parts) (mergedTerms parts) := by
  have hfrom : ∀ d ∈ mergedTerms parts, ∃ p ∈ parts, ∃ ps, (d.1, ps) ∈ p.terms := by
    intro d hd
    obtain ⟨-, p, hp, ht⟩ := mem_mergedTerms.1 hd
    obtain ⟨ps, hps, -⟩ := mem_dictionary.1 ht
    exact ⟨p, hp, ps, hps⟩
  refine ⟨h.fields_lt, h.interval_pos, h.interval_lt, h.numDocs_lt, h.terms_lt, List.pairwise_cons.2 ⟨fun t ht => ?_, ?_⟩,
    fun d hd => ?_, fun d hd => ?_, fun d hd => ?_, fun d hd q hq => ?_, fun d hd => ?_, h.tis_lt, h.frq_lt, h.prx_lt⟩
  · obtain ⟨d, hd, rfl⟩ := List.mem_map.1 ht
    obtain ⟨p, hp, ps, hps⟩ := hfrom d hd
    exact (List.pairwise_cons.1 (hok p hp).ascending).1 _ (List.mem_map.2 ⟨_, hps, rfl⟩)
  · rw [mergedTerms_fst]
    exact Merge.union_pairwise
  · obtain ⟨p, hp, ps, hps⟩ := hfrom d hd
    exact mem_foldl_addField.2 (.inr (List.mem_flatMap.2 ⟨p, hp, (hok p hp).field (d.1, ps) hps⟩))
  · obtain ⟨p, hp, ps, hps⟩ := hfrom d hd
    exact (hok p hp).text (d.1, ps) hps
  · obtain ⟨p, hp, ps, hps⟩ := hfrom d hd
    exact (hok p hp).text_lt (d.1, ps) hps
  · rw [(mem_mergedTerms.1 hd).1] at hq
    have := (mem_mergedPostings hok hq).2.2
    omega
  · have hfreq := h.freq_lt d hd
    have hprox := h.prox_lt d hd
    rw [(mem_mergedTerms.1 hd).1] at hfreq hprox ⊢
    exact writes_mergedPostings hok h.numDocs_lt hfreq hprox

/-- A reader of a segment that has been written. -/
def Opens (p : Part) (r : SegmentReader) : Prop :=
  SegmentReader.get (writeSegment p.fieldInfos p.interval p.docCount p.terms) p.docCount p.deletedDocs = .ok r

theorem exists_opens {p : Part} (h : p.OK) : ∃ r, Opens p r := by
  obtain ⟨r, hget, -⟩ := SegmentReader.get_spec p.deletedDocs h
  exact ⟨r, hget⟩

theorem reads_of_opens (hok : ∀ p ∈ parts, p.OK) (h : List.Forall₂ Opens parts readers) :
    List.Forall₂ Part.Reads parts readers := by
  induction h with
  | nil => exact .nil
  | @cons p r parts readers hr hrest ih =>
    refine .cons ?_ (ih fun p' hp' => hok p' (List.mem_cons_of_mem _ hp'))
    obtain ⟨r', hget, hreads⟩ := SegmentReader.get_spec p.deletedDocs (hok p List.mem_cons_self)
    rw [Opens, hget] at hr
    exact Except.ok.inj hr ▸ hreads

/-- What merging makes of some segments. -/
def mergedPart (parts : List Part) (interval : ℕ) : Part :=
  ⟨mergedFields parts, interval, mergedNumDocs parts, mergedTerms parts, none⟩

/-- **The new segment** is read. -/
theorem mergeTerms_reads (hok : ∀ p ∈ parts, p.OK) (hfits : Fits parts interval) (h : List.Forall₂ Opens parts readers) :
    ∃ files r, mergeTerms readers interval = .ok files ∧ SegmentReader.get files (mergedDocs readers) none = .ok r ∧
      (mergedPart parts interval).Reads r := by
  have hreads := reads_of_opens hok h
  obtain ⟨r, hget, hr⟩ := SegmentReader.get_spec none (segmentOK hok hfits)
  refine ⟨_, r, mergeTerms_spec hok hreads interval, ?_, hr⟩
  rw [mergedDocs_eq hreads]
  exact hget

/-- **Segments are merged**, and whatever is asked of the new one, the terms of the others answer it, with the postings
that are not deleted. -/
theorem mergeTerms_responses (hok : ∀ p ∈ parts, p.OK) (hfits : Fits parts interval) (h : List.Forall₂ Opens parts readers)
    (requests : List SegmentReader.Request) :
    ∃ files r, mergeTerms readers interval = .ok files ∧ SegmentReader.get files (mergedDocs readers) none = .ok r ∧
      List.Forall₂ (SegmentReader.Meets (mergedTerms parts) fun _ => false) requests (r.responses requests) := by
  obtain ⟨files, r, hmerge, hget, hr⟩ := mergeTerms_reads hok hfits h
  exact ⟨files, r, hmerge, hget, SegmentReader.responses_spec (segmentOK hok hfits) hr requests⟩

theorem union_three_two : Merge.union ([Part.three, Part.two].map dictionary) = [⟨[98], [97]⟩, ⟨[99], [97]⟩] := by
  -- the order of the terms is not computed, but characterised
  refine Merge.eq_of_mem_iff Merge.union_pairwise (by decide) fun t => ?_
  rw [Merge.mem_union]
  simp [Part.three, Part.two, dictionary]

theorem mergeTerms_responses_two :
    let requests : List SegmentReader.Request :=
      [.termPositions ⟨[98], [97]⟩ [.next, .nextPosition, .skipTo 2], .docFreq ⟨[99], [97]⟩]
    ∃ r₁ r₂ files r, Opens .three r₁ ∧ Opens .two r₂ ∧ mergeTerms [r₁, r₂] 2 = .ok files ∧
      SegmentReader.get files (mergedDocs [r₁, r₂]) none = .ok r ∧
      List.Forall₂ (SegmentReader.Meets (mergedTerms [.three, .two]) fun _ => false) requests (r.responses requests) := by
  intro requests
  have hterms : mergedTerms [.three, .two] = [(⟨[98], [97]⟩, [⟨1, [0, 3]⟩, ⟨3, [4]⟩]), (⟨[99], [97]⟩, [⟨2, [2]⟩])] := by
    rw [mergedTerms, union_three_two]
    decide
  have hfits : Fits [.three, .two] 2 := by
    refine ⟨by decide, by decide, by decide, by decide, ?_, ?_, ?_, ?_, ?_, ?_⟩ <;> rw [hterms] <;> decide
  obtain ⟨r₁, hr₁⟩ := exists_opens Part.three_ok
  obtain ⟨r₂, hr₂⟩ := exists_opens Part.two_ok
  obtain ⟨files, r, hmerge⟩ := mergeTerms_responses Part.three_two_ok hfits (.cons hr₁ (.cons hr₂ .nil)) requests
  exact ⟨r₁, r₂, files, r, hr₁, hr₂, hmerge⟩

end SegmentMerger

end QDesktopSearch
