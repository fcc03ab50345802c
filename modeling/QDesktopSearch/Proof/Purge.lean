import QDesktopSearch.Proof.Indexing
import QDesktopSearch.Proof.Numbering

/-!
# `delDeletedFilesFromIdx`

`docAt` is what the scan decides about a number, read off the slots at entry.

* `scanDoc_spec`, `scan_spec`: the scan deletes and records numbers that `docAt` decides
  to delete, all of them below its start when it is not interrupted, and every number it
  passes to the reader is in range and denotes what it denoted at entry.
* `delDocs_steady`, `delDocs_docs`: the second loop deletes by id.
-/

namespace QDesktopSearch

open Slots

variable {E : Env}

/-! ## What is read off a stored document -/

/-- The document has a path and an id. -/
structure Document.Stored (d : Document) : Prop where
  pathname : (d.get FIELDNAME_ABSPATHNAME).isSome
  fnAndDate : (d.get ID_FNANDDATE).isSome

/-- Loading a field selects it. -/
theorem Document.get_load {d : Document} (names : List QString) {name : QString} (h : name ∈ names) :
    (d.load names).get name = d.get name := by
  unfold Document.get Document.load
  rw [List.find?_filter]
  have hiff : (fun f : Field => decide (names.contains f.name = true ∧ (f.name == name) = true)) =
      fun f => f.name == name := by
    funext f
    rw [Bool.eq_iff_iff, decide_eq_true_eq]
    constructor
    · intro hf; exact hf.2
    · intro hf
      refine ⟨?_, hf⟩
      rw [beq_iff_eq.1 hf, List.contains_iff_mem]
      exact h
  rw [hiff]

/-- The scan reads the path of the document. -/
theorem Document.load_pathname {d : Document} :
    (d.load [FIELDNAME_ABSPATHNAME, ID_FNANDDATE]).get FIELDNAME_ABSPATHNAME = d.get FIELDNAME_ABSPATHNAME :=
  Document.get_load _ (by simp)

/-- And its id. -/
theorem Document.load_fnAndDate {d : Document} :
    (d.load [FIELDNAME_ABSPATHNAME, ID_FNANDDATE]).get ID_FNANDDATE = d.get ID_FNANDDATE :=
  Document.get_load _ (by simp)

namespace Worker

/-- The path and id by which the scan deletes a live document, if it does. -/
def condemned (fs : FileSystem) (d : Document) : Option (QString × QString) :=
  let doc := d.load [FIELDNAME_ABSPATHNAME, ID_FNANDDATE]
  if doc.length ≠ 2 then none
  else
    match doc.get FIELDNAME_ABSPATHNAME, doc.get ID_FNANDDATE with
    | some sAbsPathName, some sid =>
      if isempty sAbsPathName true || fs.exists_ sAbsPathName || isempty sid true then none
      else some (sAbsPathName, sid)
    | _, _ => none

/-- The record of the scan about a number, if it deletes it. -/
def docAt (fs : FileSystem) (sl : List (Slot Document)) (i : ℕ) : Option DOC :=
  match sl[i]? with
  | some ⟨d, false⟩ => (condemned fs d).map fun c => ⟨c.2, c.1, i⟩
  | _ => none

variable {fs : FileSystem} {sl : List (Slot Document)} {i n : ℕ} {doc : DOC} {s s' : Scan}

theorem docAt_eq_some : docAt fs sl i = some doc ↔
    ∃ d, LiveAt sl i d ∧ condemned fs d = some (doc.sAbsFileName, doc.sid_fnanddate) ∧ doc.iDocNr = i := by
  unfold docAt LiveAt
  constructor
  · intro h
    split at h
    · rename_i d hd
      obtain ⟨⟨p, sid⟩, hc, rfl⟩ := Option.map_eq_some_iff.1 h
      exact ⟨d, hd, hc, rfl⟩
    · exact absurd h (by simp)
  · rintro ⟨d, hd, hc, rfl⟩
    rw [hd]
    simp [hc]

/-- Marking other numbers changes nothing about this one. -/
theorem docAt_marks {ns : List ℕ} (h : i ∉ ns) : docAt fs (marks sl ns) i = docAt fs sl i := by
  unfold docAt
  rw [marks_getElem?_of_not_mem h]

/-! ## The scan -/

/-- The modifier of a scan. -/
def Scan.modifier (s : Scan) : QIndexModifier Document := s.worker.pLucyIndexer.pIndexWriter

/-- From `s` to `s'` over number `i`: the documents of `doc?` are deleted and recorded. -/
structure Scanned (sl : List (Slot Document)) (s s' : Scan) (i : ℕ) (doc? : Option DOC) : Prop where
  steady : s'.modifier.Steady (marks sl (doc?.toList.map (·.iDocNr)))
  committed : s'.modifier.committed = s.modifier.committed
  bNewIndex : s'.worker.pLucyIndexer.bNewIndex = s.worker.pLucyIndexer.bNewIndex
  docs : s'.docs2BeDeleted = s.docs2BeDeleted ++ doc?.toList
  accesses : ∃ as, s'.accesses = s.accesses ++ as ∧
    ∀ a ∈ as, a.docNum = i ∧ a.pReader.slots = sl ∧ (a.call = .deleteDocument → doc?.isSome)

/-- A call of `getIndexReader` deletes nothing and is recorded. -/
theorem Scanned.getIndexReader (call : DocCall) (hc : call ≠ .deleteDocument) (h : Scanned sl s s' i none) :
    (s'.getIndexReader E call i).2.slots = sl ∧ Scanned sl s (s'.getIndexReader E call i).1 i none := by
  have hst : s'.modifier.Steady sl := h.steady
  obtain ⟨hs, hst', hcom, -⟩ := QIndexModifier.getIndexReader_steady (P := E.engine) hst
  refine ⟨hs, hst', hcom.trans h.committed, h.bNewIndex, h.docs, ?_⟩
  obtain ⟨as, has, hall⟩ := h.accesses
  refine ⟨as ++ [⟨call, i, (s'.getIndexReader E call i).2⟩], ?_, ?_⟩
  · rw [← List.append_assoc, ← has]; rfl
  · intro a ha
    rw [List.mem_append, List.mem_singleton] at ha
    rcases ha with ha | rfl
    · exact hall a ha
    · exact ⟨rfl, hs, fun h => absurd h hc⟩

/-- `deleteDocument` of the number that is scanned. -/
theorem Scanned.deleteDocument (doc : DOC) (h : Scanned sl s s' i none) (hi : i < sl.length) (hdoc : doc.iDocNr = i) :
    ∃ s'', s'.deleteDocument E doc = some s'' ∧ Scanned sl s s'' i (some doc) ∧ s''.worker.irq = s'.worker.irq := by
  have hst : s'.modifier.Steady sl := h.steady
  obtain ⟨hs, hst', hcom, -⟩ := QIndexModifier.getIndexReader_steady (P := E.engine) hst
  obtain ⟨m, hm, hst'', hcom', -⟩ := QIndexModifier.deleteDocument_steady (P := E.engine) hst' hi
  have hdel : s'.deleteDocument E doc = some
      { (s'.getIndexReader E .deleteDocument doc.iDocNr).1 with
        worker := { s'.worker with pLucyIndexer := { s'.worker.pLucyIndexer with pIndexWriter := m } }
        docs2BeDeleted := s'.docs2BeDeleted ++ [doc] } := by
    subst hdoc
    simp only [Scan.deleteDocument, Scan.getIndexReader, Option.map_eq_some_iff]
    exact ⟨m, hm, rfl⟩
  refine ⟨_, hdel, ⟨?_, ?_, h.bNewIndex, ?_, ?_⟩, rfl⟩
  · show m.Steady (marks sl [doc.iDocNr])
    rw [hdoc, marks_cons, marks_nil]
    exact hst''
  · show m.committed = _
    rw [hcom', hcom]
    exact h.committed
  · show s'.docs2BeDeleted ++ [doc] = _
    rw [h.docs]
    simp
  · obtain ⟨as, has, hall⟩ := h.accesses
    refine ⟨as ++ [⟨.deleteDocument, i, (s'.getIndexReader E .deleteDocument doc.iDocNr).2⟩], ?_, ?_⟩
    · rw [← List.append_assoc, ← has, ← hdoc]; rfl
    · intro a ha
      rw [List.mem_append, List.mem_singleton] at ha
      rcases ha with ha | rfl
      · exact ⟨(hall a ha).1, (hall a ha).2.1, fun _ => rfl⟩
      · exact ⟨rfl, hs, fun _ => rfl⟩

theorem isInterruptionRequested_irq_none {w w' : Worker} {b : Bool} (h : w.irq = none)
    (hw : w.isInterruptionRequested = (b, w')) : b = false ∧ w'.irq = none := by
  rw [isInterruptionRequested_none h] at hw
  simp only [Prod.mk.injEq] at hw
  exact ⟨hw.1.symm, hw.2 ▸ h⟩

/-- A check leaves the scan where it is. -/
theorem Scanned.check {w : Worker} {b : Bool} {doc? : Option DOC} (h : Scanned sl s s' i doc?)
    (hw : s'.worker.isInterruptionRequested = (b, w)) : Scanned sl s { s' with worker := w } i doc? := by
  have hl := isInterruptionRequested_indexer hw
  refine ⟨?_, ?_, ?_, h.docs, h.accesses⟩
  · show w.pLucyIndexer.pIndexWriter.Steady _
    rw [hl]; exact h.steady
  · show w.pLucyIndexer.pIndexWriter.committed = _
    rw [hl]; exact h.committed
  · show w.pLucyIndexer.bNewIndex = _
    rw [hl]; exact h.bNewIndex

/-- **One round of the scan** goes through; it does what `docAt` says, or nothing if it is
interrupted. -/
theorem scanDoc_spec (hst : s.modifier.Steady sl) (hi : i < sl.length)
    (hstored : ∀ d, LiveAt sl i d → d.Stored) :
    ∃ s' brk doc?, scanDoc E fs s i = some (s', brk) ∧ Scanned sl s s' i doc? ∧
      (doc? = none ∨ doc? = docAt fs sl i) ∧
      (s.worker.irq = none → brk = false ∧ s'.worker.irq = none ∧ doc? = docAt fs sl i) := by
  have h₀ : Scanned sl s s i none :=
    ⟨hst, rfl, rfl, by simp, [], by simp, fun a ha => absurd ha List.not_mem_nil⟩
  rcases hirq : s.worker.isInterruptionRequested with ⟨_ | _, w⟩
  swap
  · -- the check at the head of the loop
    refine ⟨{ s with worker := w }, true, none, by simp [scanDoc, hirq], h₀.check hirq, Or.inl rfl, ?_⟩
    intro h
    exact absurd (isInterruptionRequested_irq_none h hirq).1 (by simp)
  · have h₁ := h₀.check hirq
    obtain ⟨hr₁, h₂⟩ := Scanned.getIndexReader (E := E) .isDeleted (by simp) h₁
    obtain ⟨hr₂, h₃⟩ := Scanned.getIndexReader (E := E) .document (by simp) h₂
    obtain ⟨⟨d, deleted⟩, hsl⟩ : ∃ x, sl[i]? = some x := ⟨sl[i], List.getElem?_eq_getElem hi⟩
    have hirq₃ : ∀ hn : s.worker.irq = none, w.irq = none := fun hn => (isInterruptionRequested_irq_none hn hirq).2
    simp only [scanDoc, hirq, IndexReader.isDeleted, IndexReader.document, hr₁, hr₂, hsl]
    cases deleted with
    | true =>
      -- a hole: `isDeleted` is the only call
      exact ⟨_, false, none, rfl, h₂, Or.inl rfl, fun hn => ⟨rfl, hirq₃ hn, by simp [docAt, hsl]⟩⟩
    | false =>
      obtain ⟨p, hp⟩ := Option.isSome_iff_exists.1 (hstored d hsl).pathname
      obtain ⟨sid, hsid⟩ := Option.isSome_iff_exists.1 (hstored d hsl).fnAndDate
      rw [← Document.load_pathname] at hp
      rw [← Document.load_fnAndDate] at hsid
      have hdoc : docAt fs sl i = if (d.load [FIELDNAME_ABSPATHNAME, ID_FNANDDATE]).length ≠ 2 then none
          else if isempty p true || fs.exists_ p || isempty sid true then none else some ⟨sid, p, i⟩ := by
        simp only [docAt, hsl, condemned, hp, hsid]
        split
        · rfl
        · split <;> rfl
      generalize hs₃ : (Scan.getIndexReader E (Scan.getIndexReader E _ DocCall.isDeleted i).1 DocCall.document i).1 = s₃ at h₃ ⊢
      have hirq₃ : ∀ hn : s.worker.irq = none, s₃.worker.irq = none := by
        intro hn
        rw [← hs₃]; exact hirq₃ hn
      simp only [Option.map_some, Option.bind_some, Bool.false_eq_true, ↓reduceIte, bind, pure, hp, hsid]
      rw [hdoc]
      by_cases hlen : (d.load [FIELDNAME_ABSPATHNAME, ID_FNANDDATE]).length ≠ 2
      · rw [if_pos hlen, if_pos hlen]
        exact ⟨s₃, false, none, rfl, h₃, Or.inl rfl, fun hn => ⟨rfl, hirq₃ hn, rfl⟩⟩
      rw [if_neg hlen, if_neg hlen]
      by_cases hblank : isempty p true = true
      · rw [if_pos hblank, if_pos (by simp [hblank])]
        exact ⟨s₃, false, none, rfl, h₃, Or.inl rfl, fun hn => ⟨rfl, hirq₃ hn, rfl⟩⟩
      rw [if_neg hblank]
      by_cases hex : fs.exists_ p = true
      · rw [if_pos hex, if_pos (by simp [hex])]
        exact ⟨s₃, false, none, rfl, h₃, Or.inl rfl, fun hn => ⟨rfl, hirq₃ hn, rfl⟩⟩
      rw [if_neg hex]
      -- the file is gone: a second check before the deletion
      rcases hirq₄ : s₃.worker.isInterruptionRequested with ⟨_ | _, w₄⟩
      swap
      · refine ⟨{ s₃ with worker := w₄ }, true, none, rfl, h₃.check hirq₄, Or.inl rfl, fun hn => ?_⟩
        exact absurd (isInterruptionRequested_irq_none (hirq₃ hn) hirq₄).1 (by simp)
      have h₄ := h₃.check hirq₄
      have hirq₅ := fun hn => (isInterruptionRequested_irq_none (hirq₃ hn) hirq₄).2
      dsimp only
      by_cases hid : isempty sid true = true
      · rw [if_pos hid, if_pos (by simp [hid])]
        exact ⟨_, false, none, rfl, h₄, Or.inl rfl, fun hn => ⟨rfl, hirq₅ hn, rfl⟩⟩
      rw [if_neg hid, if_neg (by simp [hblank, hex, hid])]
      obtain ⟨s₅, hs₅, h₅, hirq₆⟩ := Scanned.deleteDocument (E := E) ⟨sid, p, i⟩ h₄ hi rfl
      rw [hs₅]
      exact ⟨s₅, false, _, rfl, h₅, Or.inr rfl, fun hn => ⟨rfl, hirq₆.trans (hirq₅ hn), rfl⟩⟩

/-- The records of an uninterrupted scan that starts below `n`. -/
def docsBelow (fs : FileSystem) (sl : List (Slot Document)) (n : ℕ) : List DOC :=
  (List.range n).reverse.filterMap (docAt fs sl)

theorem docsBelow_succ : docsBelow fs sl (n + 1) = (docAt fs sl n).toList ++ docsBelow fs sl n := by
  rw [docsBelow, List.range_succ, List.reverse_append, List.reverse_singleton, List.singleton_append,
    List.filterMap_cons, docsBelow]
  cases docAt fs sl n <;> rfl

theorem mem_docsBelow : doc ∈ docsBelow fs sl n ↔ doc.iDocNr < n ∧ docAt fs sl doc.iDocNr = some doc := by
  unfold docsBelow
  simp only [List.mem_filterMap, List.mem_reverse, List.mem_range]
  constructor
  · rintro ⟨i, hi, h⟩
    obtain ⟨-, -, -, rfl⟩ := docAt_eq_some.1 h
    exact ⟨hi, h⟩
  · rintro ⟨hi, h⟩
    exact ⟨_, hi, h⟩

/-- Marking numbers from `n` on changes no record below. -/
theorem docsBelow_marks {ns : List ℕ} (h : ∀ i ∈ ns, n ≤ i) : docsBelow fs (marks sl ns) n = docsBelow fs sl n := by
  unfold docsBelow
  apply List.filterMap_congr
  intro i hi
  rw [List.mem_reverse, List.mem_range] at hi
  apply docAt_marks
  intro hmem
  have := h i hmem
  omega

/-- From `s` to `s'` over the numbers below `n`: the documents of `ds` are deleted and recorded. -/
structure ScannedBelow (sl : List (Slot Document)) (s s' : Scan) (n : ℕ) (ds : List DOC) : Prop where
  steady : s'.modifier.Steady (marks sl (ds.map (·.iDocNr)))
  committed : s'.modifier.committed = s.modifier.committed
  bNewIndex : s'.worker.pLucyIndexer.bNewIndex = s.worker.pLucyIndexer.bNewIndex
  docs : s'.docs2BeDeleted = s.docs2BeDeleted ++ ds
  accesses : ∃ as, s'.accesses = s.accesses ++ as ∧
    ∀ a ∈ as, a.docNum < n ∧ (∃ ns, a.pReader.slots = marks sl ns ∧ a.docNum ∉ ns) ∧
      (a.call = .deleteDocument → ∃ doc ∈ ds, doc.iDocNr = a.docNum)

/-- The number of a record that a round makes. -/
theorem iDocNr_eq {doc? : Option DOC} (hdoc : doc? = none ∨ doc? = docAt fs sl n) (hi : i ∈ doc?.toList.map (·.iDocNr)) :
    i = n := by
  obtain ⟨doc, hmem, rfl⟩ := List.mem_map.1 hi
  rcases hdoc with rfl | rfl
  · exact absurd hmem List.not_mem_nil
  · rw [Option.mem_toList] at hmem
    obtain ⟨-, -, -, he⟩ := docAt_eq_some.1 hmem
    exact he

/-- One round as a scan that ends with it. -/
theorem Scanned.below {doc? : Option DOC} (h : Scanned sl s s' n doc?) (hdoc : doc? = none ∨ doc? = docAt fs sl n) :
    ScannedBelow sl s s' (n + 1) doc?.toList := by
  obtain ⟨as, has, hall⟩ := h.accesses
  refine ⟨h.steady, h.committed, h.bNewIndex, h.docs, as, has, ?_⟩
  intro a ha
  obtain ⟨hnr, hsl, hdel⟩ := hall a ha
  refine ⟨by omega, ⟨[], hsl, by simp⟩, fun hc => ?_⟩
  obtain ⟨doc, hd⟩ := Option.isSome_iff_exists.1 (hdel hc)
  have hmem : doc ∈ doc?.toList := by rw [hd]; simp
  exact ⟨doc, hmem, (iDocNr_eq hdoc (List.mem_map_of_mem hmem)).trans hnr.symm⟩

/-- A scan from `n` down is its first round and a scan below. -/
theorem ScannedBelow.trans {s₁ s₂ : Scan} {ds₁ ds₂ : List DOC} (h₁ : ScannedBelow sl s s₁ (n + 1) ds₁)
    (hnum : ∀ i ∈ ds₁.map (·.iDocNr), i = n)
    (h₂ : ScannedBelow (marks sl (ds₁.map (·.iDocNr))) s₁ s₂ n ds₂) : ScannedBelow sl s s₂ (n + 1) (ds₁ ++ ds₂) := by
  obtain ⟨as₁, has₁, hall₁⟩ := h₁.accesses
  obtain ⟨as₂, has₂, hall₂⟩ := h₂.accesses
  refine ⟨?_, h₂.committed.trans h₁.committed, h₂.bNewIndex.trans h₁.bNewIndex, ?_, as₁ ++ as₂, ?_, ?_⟩
  · rw [List.map_append, marks_append]
    exact h₂.steady
  · rw [h₂.docs, h₁.docs, List.append_assoc]
  · rw [has₂, has₁, List.append_assoc]
  · intro a ha
    rcases List.mem_append.1 ha with ha | ha
    · -- the first round, on the slots at entry
      obtain ⟨hlt, hns, hdel⟩ := hall₁ a ha
      refine ⟨hlt, hns, fun hc => ?_⟩
      obtain ⟨doc, hmem, he⟩ := hdel hc
      exact ⟨doc, List.mem_append_left _ hmem, he⟩
    · -- a later round is at a number below `n`, so not at the one that the first round marked
      obtain ⟨hlt, ⟨ns, hns, hni⟩, hdel⟩ := hall₂ a ha
      have hslots : a.pReader.slots = marks sl (ds₁.map (·.iDocNr) ++ ns) := hns.trans (marks_append _ ns).symm
      refine ⟨by omega, ⟨_, hslots, ?_⟩, fun hc => ?_⟩
      · rw [List.mem_append, not_or]
        refine ⟨fun hmem => ?_, hni⟩
        have := hnum _ hmem
        omega
      · obtain ⟨doc, hmem, he⟩ := hdel hc
        exact ⟨doc, List.mem_append_right _ hmem, he⟩

/-- **The scan goes through.** It records some of the documents that `docAt` decides to
delete, all of them when it is not interrupted, and marks their numbers. -/
theorem scan_spec (fs : FileSystem) (hst : s.modifier.Steady sl) (hn : n ≤ sl.length) (hstored : ∀ d ∈ live sl, d.Stored) :
    ∃ s' ds, scan E fs n s = some s' ∧ ScannedBelow sl s s' n ds ∧ ds.Sublist (docsBelow fs sl n) ∧
      (s.worker.irq = none → s'.worker.irq = none ∧ ds = docsBelow fs sl n) := by
  induction n generalizing s sl with
  | zero =>
    refine ⟨s, [], rfl, ⟨hst, rfl, rfl, by simp, [], by simp, ?_⟩, List.nil_sublist _, fun h => ⟨h, rfl⟩⟩
    intro a ha
    exact absurd ha List.not_mem_nil
  | succ n ih =>
    obtain ⟨s₁, brk, doc?, hscan, h₁, hdoc, hirq⟩ :=
      scanDoc_spec (E := E) (i := n) hst (by omega) fun d hd => hstored d hd.mem
    have hsub₁ : (doc?.toList).Sublist (docAt fs sl n).toList := by
      rcases hdoc with rfl | rfl
      · exact List.nil_sublist _
      · exact List.Sublist.refl _
    rw [scan, hscan, Option.bind_some]
    dsimp only
    split
    · -- the scan breaks off here
      rename_i hbrk
      refine ⟨s₁, doc?.toList, rfl, h₁.below hdoc, ?_, ?_⟩
      · rw [docsBelow_succ]
        exact hsub₁.trans (List.sublist_append_left _ _)
      · intro h
        exact absurd ((hirq h).1) (by simp [hbrk])
    · -- the rest of the scan sees the slots with this number marked
      have hstored₁ : ∀ d ∈ live (marks sl (doc?.toList.map (·.iDocNr))), d.Stored :=
        fun d hd => hstored d ((live_marks_sublist _).subset hd)
      obtain ⟨s₂, ds, hs₂, h₂, hsub, hfull⟩ := ih h₁.steady (by rw [marks_length]; omega) hstored₁
      have hbelow : docsBelow fs (marks sl (doc?.toList.map (·.iDocNr))) n = docsBelow fs sl n :=
        docsBelow_marks fun i hi => (iDocNr_eq hdoc hi).ge
      rw [hbelow] at hsub hfull
      refine ⟨s₂, doc?.toList ++ ds, hs₂, (h₁.below hdoc).trans (fun i hi => iDocNr_eq hdoc hi) h₂, ?_, ?_⟩
      · rw [docsBelow_succ]
        exact hsub₁.append hsub
      · intro h
        obtain ⟨-, hirq₁, rfl⟩ := hirq h
        obtain ⟨hirq₂, rfl⟩ := hfull hirq₁
        exact ⟨hirq₂, docsBelow_succ.symm⟩

end Worker

/-! ## The second loop -/

namespace Lucyindexer

variable {l : Lucyindexer} {sl : List (Slot Document)} {f v : QString}

/-- **`delDoc`** marks the live numbers with the term; it commits where there are any. -/
theorem delDoc_steady (h : l.pIndexWriter.Steady sl) :
    (l.delDoc E f v).1.pIndexWriter.Steady (marks sl (numbers (Document.hasTerm E.tokens ⟨f, v⟩) sl)) ∧
      (numbers (Document.hasTerm E.tokens ⟨f, v⟩) sl = [] → (l.delDoc E f v).1.committed = l.committed) ∧
      (numbers (Document.hasTerm E.tokens ⟨f, v⟩) sl ≠ [] →
        (l.delDoc E f v).1.committed.docs = (l.delDoc E f v).1.docs) := by
  obtain ⟨hst, hcom, hcount⟩ := QIndexModifier.deleteDocuments_steady (P := E.engine) (t := ⟨f, v⟩) h
  have hn : (l.pIndexWriter.deleteDocuments E.engine ⟨f, v⟩).2 =
      (numbers (Document.hasTerm E.tokens ⟨f, v⟩) sl).length := hcount
  simp only [delDoc, hn]
  refine ⟨?_, ?_, ?_⟩
  · split
    · exact QIndexModifier.flush_steady hst
    · exact hst
  · intro hnil
    rw [hnil]
    exact hcom
  · intro hne
    rw [if_pos (List.length_pos_of_ne_nil hne)]
    show (QIndexModifier.flush _ _).committed.docs = (QIndexModifier.flush _ _).docs
    rw [QIndexModifier.flush_committed_docs, QIndexModifier.flush_docs]

end Lucyindexer

namespace Worker

variable {w w' : Worker} {fs : FileSystem} {sl : List (Slot Document)} {ds : List DOC} {doc : DOC}

/-- The id of the record is a term of the document. -/
def DOC.names (E : Env) (doc : DOC) (d : Document) : Bool :=
  d.hasTerm E.tokens ⟨ID_FNANDDATE, doc.sid_fnanddate⟩

/-- A worker with the modifier steady. -/
def Steady (w : Worker) (sl : List (Slot Document)) : Prop := w.pLucyIndexer.pIndexWriter.Steady sl

theorem Steady.docs (h : w.Steady sl) : w.pLucyIndexer.docs = live sl := QIndexModifier.Steady.docs h

theorem Steady.check {b : Bool} (h : w.Steady sl) (hw : w.isInterruptionRequested = (b, w')) : w'.Steady sl := by
  unfold Steady
  rw [isInterruptionRequested_indexer hw]
  exact h

/-- One round of the second loop, past its check. -/
def delById (E : Env) (w : Worker) (doc : DOC) : Worker :=
  if isempty doc.sid_fnanddate true then w
  else { w with pLucyIndexer := (w.pLucyIndexer.delDoc E ID_FNANDDATE doc.sid_fnanddate).1 }

theorem delDocs_cons (hw : w.isInterruptionRequested = (false, w')) :
    delDocs E w (doc :: ds) = delDocs E (w'.delById E doc) ds := by
  rw [delDocs, hw, delById]
  dsimp only
  split <;> rfl

theorem delDocs_cons_interrupted (hw : w.isInterruptionRequested = (true, w')) :
    delDocs E w (doc :: ds) = w' := by
  rw [delDocs, hw]

theorem delById_steady (doc : DOC) (h : w.Steady sl) :
    (w.delById E doc).Steady sl ∨ (w.delById E doc).Steady (marks sl (numbers (doc.names E) sl)) := by
  unfold delById
  split
  · exact Or.inl h
  · exact Or.inr (Lucyindexer.delDoc_steady h).1

@[simp] theorem delById_irq : (w.delById E doc).irq = w.irq := by unfold delById; split <;> rfl

@[simp] theorem delById_bNewIndex : (w.delById E doc).pLucyIndexer.bNewIndex = w.pLucyIndexer.bNewIndex := by
  unfold delById; split <;> rfl

theorem delDocs_bNewIndex : (delDocs E w ds).pLucyIndexer.bNewIndex = w.pLucyIndexer.bNewIndex := by
  induction ds generalizing w with
  | nil => rfl
  | cons doc ds ih =>
    rcases hw : w.isInterruptionRequested with ⟨_ | _, w'⟩
    · rw [delDocs_cons hw, ih, delById_bNewIndex, isInterruptionRequested_indexer hw]
    · rw [delDocs_cons_interrupted hw, isInterruptionRequested_indexer hw]

theorem delDocs_irq (h : w.irq = none) : (delDocs E w ds).irq = none := by
  induction ds generalizing w with
  | nil => exact h
  | cons doc ds ih =>
    rw [delDocs_cons (isInterruptionRequested_none h)]
    exact ih (by simpa using h)

/-- **The second loop** only marks live numbers whose document one of the records names. -/
theorem delDocs_steady (ds : List DOC) (h : w.Steady sl) : ∃ ns, (delDocs E w ds).Steady (marks sl ns) ∧
    ∀ i ∈ ns, ∃ doc ∈ ds, ∃ d, LiveAt sl i d ∧ doc.names E d = true := by
  induction ds generalizing w sl with
  | nil => exact ⟨[], h, fun i hi => absurd hi List.not_mem_nil⟩
  | cons doc ds ih =>
    rcases hw : w.isInterruptionRequested with ⟨_ | _, w'⟩
    swap
    · rw [delDocs_cons_interrupted hw]
      exact ⟨[], h.check hw, fun i hi => absurd hi List.not_mem_nil⟩
    rw [delDocs_cons hw]
    rcases delById_steady (E := E) doc (h.check hw) with h' | h'
    · -- a blank id is skipped
      obtain ⟨ns, hns, hall⟩ := ih h'
      refine ⟨ns, hns, fun i hi => ?_⟩
      obtain ⟨doc', hmem, hd⟩ := hall i hi
      exact ⟨doc', List.mem_cons_of_mem _ hmem, hd⟩
    · obtain ⟨ns, hns, hall⟩ := ih h'
      refine ⟨numbers (doc.names E) sl ++ ns, ?_, fun i hi => ?_⟩
      · rw [marks_append]
        exact hns
      · rcases List.mem_append.1 hi with hi | hi
        · obtain ⟨d, hd, hname⟩ := mem_numbers.1 hi
          exact ⟨doc, List.mem_cons_self, d, hd, hname⟩
        · obtain ⟨doc', hmem, d, hd, hname⟩ := hall i hi
          exact ⟨doc', List.mem_cons_of_mem _ hmem, d, ((liveAt_marks _).1 hd).1, hname⟩

/-- What a searcher opened now sees is what is live. -/
def Durable (w : Worker) : Prop := w.pLucyIndexer.committed.docs = w.pLucyIndexer.docs

theorem delById_docs (hsid : isempty doc.sid_fnanddate true = false) :
    (w.delById E doc).pLucyIndexer.docs = w.pLucyIndexer.docs.filter fun d => !doc.names E d := by
  unfold delById
  rw [if_neg (by simp [hsid])]
  exact Lucyindexer.delDoc_docs

/-- Uninterrupted, the second loop deletes every document that a record names. -/
theorem delDocs_docs (hirq : w.irq = none)
    (hsid : ∀ doc ∈ ds, isempty doc.sid_fnanddate true = false) :
    (delDocs E w ds).pLucyIndexer.docs = w.pLucyIndexer.docs.filter fun d => ds.all fun doc => !doc.names E d := by
  induction ds generalizing w with
  | nil => simp [delDocs]
  | cons doc ds ih =>
    have hdoc := hsid doc List.mem_cons_self
    rw [delDocs_cons (isInterruptionRequested_none hirq), ih (by simpa using hirq)
      (fun d hd => hsid d (List.mem_cons_of_mem _ hd)), delById_docs hdoc, List.filter_filter]
    simp [Bool.and_comm]

/-- A record that names a live document commits; one that names none changes nothing. -/
theorem delById_commits (h : w.Steady sl) (hsid : isempty doc.sid_fnanddate true = false) :
    ((∃ d ∈ w.pLucyIndexer.docs, doc.names E d = true) → (w.delById E doc).Durable) ∧
      ((∀ d ∈ w.pLucyIndexer.docs, doc.names E d = false) →
        (w.delById E doc).pLucyIndexer.committed = w.pLucyIndexer.committed ∧
          (w.delById E doc).pLucyIndexer.docs = w.pLucyIndexer.docs) := by
  obtain ⟨-, hnone, hsome⟩ := Lucyindexer.delDoc_steady (E := E) (f := ID_FNANDDATE) (v := doc.sid_fnanddate) h
  have he : (w.delById E doc).pLucyIndexer = (w.pLucyIndexer.delDoc E ID_FNANDDATE doc.sid_fnanddate).1 := by
    unfold delById
    rw [if_neg (by simp [hsid])]
  rw [h.docs]
  constructor
  · rintro ⟨d, hd, hname⟩
    obtain ⟨i, hi⟩ := mem_live.1 hd
    have hmem : i ∈ numbers (doc.names E) sl := mem_numbers.2 ⟨d, hi, hname⟩
    unfold Durable
    rw [he]
    exact hsome (List.ne_nil_of_mem hmem)
  · intro hall
    have hnil : numbers (doc.names E) sl = [] := by
      rw [List.eq_nil_iff_forall_not_mem]
      intro i hi
      obtain ⟨d, hd, hname⟩ := mem_numbers.1 hi
      rw [hall d hd.mem] at hname
      exact Bool.false_ne_true hname
    rw [he]
    refine ⟨hnone hnil, ?_⟩
    rw [Lucyindexer.delDoc_docs, h.docs, List.filter_eq_self]
    intro d hd
    show (!doc.names E d) = true
    rw [hall d hd]
    rfl

/-- **The second loop commits** iff it still finds a document, or everything was committed
before. -/
theorem delDocs_durable (h : w.Steady sl) (hirq : w.irq = none)
    (hsid : ∀ doc ∈ ds, isempty doc.sid_fnanddate true = false) :
    (delDocs E w ds).Durable ↔ w.Durable ∨ ∃ doc ∈ ds, ∃ d ∈ w.pLucyIndexer.docs, doc.names E d = true := by
  induction ds generalizing w sl with
  | nil => simp [delDocs]
  | cons doc ds ih =>
    have hdoc := hsid doc List.mem_cons_self
    have hst : ∃ sl', (w.delById E doc).Steady sl' := by
      rcases delById_steady (E := E) doc h with h' | h'
      · exact ⟨_, h'⟩
      · exact ⟨_, h'⟩
    obtain ⟨sl', hst⟩ := hst
    obtain ⟨hsome, hnone⟩ := delById_commits (E := E) h hdoc
    rw [delDocs_cons (isInterruptionRequested_none hirq), ih hst (by simpa using hirq)
      fun d hd => hsid d (List.mem_cons_of_mem _ hd)]
    by_cases hex : ∃ d ∈ w.pLucyIndexer.docs, doc.names E d = true
    · -- this record's flush commits, and what is committed stays so
      constructor
      · intro _
        obtain ⟨d, hd, hname⟩ := hex
        exact Or.inr ⟨doc, List.mem_cons_self, d, hd, hname⟩
      · intro _
        exact Or.inl (hsome hex)
    · -- it finds nothing, so it is for the later records to commit
      have hall : ∀ d ∈ w.pLucyIndexer.docs, doc.names E d = false := by
        intro d hd
        rw [Bool.eq_false_iff]
        exact fun hname => hex ⟨d, hd, hname⟩
      obtain ⟨hc, hd⟩ := hnone hall
      have hdur : (w.delById E doc).Durable ↔ w.Durable := by unfold Durable; rw [hc, hd]
      rw [hdur, hd]
      simp only [List.mem_cons, exists_eq_or_imp, hex, false_or]

/-! ## Both loops -/

/-- The modifier's count, from which the scan starts. -/
def docCount (w : Worker) : ℕ := w.pLucyIndexer.pIndexWriter.docCount

theorem Steady.docCount_le (h : w.Steady sl) : w.docCount ≤ sl.length := by
  have := QIndexModifier.slots_length_docCount (m := w.pLucyIndexer.pIndexWriter)
  rw [QIndexModifier.Steady.slots h] at this
  exact this

/-- **`delDeletedFilesFromIdx` goes through**: a scan, and the second loop on its records. -/
theorem delDeletedFilesFromIdx_spec (h : w.Steady sl) (hstored : ∀ d ∈ live sl, d.Stored) (fs : FileSystem) :
    ∃ s ds, w.delDeletedFilesFromIdx E fs = some { s with worker := delDocs E s.worker ds } ∧
      s.docs2BeDeleted = ds ∧ ScannedBelow sl ⟨w, [], []⟩ s w.docCount ds ∧
      ds.Sublist (docsBelow fs sl w.docCount) ∧
      (w.irq = none → s.worker.irq = none ∧ ds = docsBelow fs sl w.docCount) := by
  obtain ⟨s, ds, hscan, hs, hsub, hfull⟩ := scan_spec (E := E) (s := ⟨w, [], []⟩) fs h h.docCount_le hstored
  have hds : s.docs2BeDeleted = ds := by rw [hs.docs]; rfl
  refine ⟨s, ds, ?_, hds, hs, hsub, hfull⟩
  simp only [delDeletedFilesFromIdx, Option.map_eq_some_iff]
  exact ⟨s, hscan, by rw [hds]⟩

/-- It only takes documents away. -/
theorem delDeletedFilesFromIdx_sublist (h : w.Steady sl) (hstored : ∀ d ∈ live sl, d.Stored) {s : Scan}
    (hs : w.delDeletedFilesFromIdx E fs = some s) :
    s.worker.pLucyIndexer.docs.Sublist w.pLucyIndexer.docs ∧
      s.worker.pLucyIndexer.bNewIndex = w.pLucyIndexer.bNewIndex ∧
      s.worker.pLucyIndexer.pIndexWriter.buffered = [] := by
  obtain ⟨s', ds, he, -, hbelow, -, -⟩ := delDeletedFilesFromIdx_spec (E := E) h hstored fs
  rw [hs, Option.some.injEq] at he
  have hst : s'.worker.Steady (marks sl (ds.map (·.iDocNr))) := hbelow.steady
  obtain ⟨ns, hns, -⟩ := delDocs_steady (E := E) ds hst
  rw [he]
  refine ⟨?_, ?_, hns.buffered⟩
  · show (delDocs E s'.worker ds).pLucyIndexer.docs.Sublist _
    rw [hns.docs, h.docs]
    exact (live_marks_sublist _).trans (live_marks_sublist _)
  · show (delDocs E s'.worker ds).pLucyIndexer.bNewIndex = _
    rw [delDocs_bNewIndex]
    exact hbelow.bNewIndex

/-- The id of a condemned document is not blank, and its path does not exist. -/
theorem condemned_eq_some {d : Document} {p sid : QString} (h : condemned fs d = some (p, sid)) :
    (d.load [FIELDNAME_ABSPATHNAME, ID_FNANDDATE]).length = 2 ∧ d.get FIELDNAME_ABSPATHNAME = some p ∧
      d.get ID_FNANDDATE = some sid ∧ fs.exists_ p = false ∧ isempty sid true = false := by
  unfold condemned at h
  dsimp only at h
  rw [Document.load_pathname, Document.load_fnAndDate] at h
  split at h
  · exact absurd h (by simp)
  · rename_i hlen
    split at h
    · rename_i p' sid' hp' hsid'
      split at h
      · exact absurd h (by simp)
      · rename_i hcond
        simp only [Bool.or_eq_true, not_or, Bool.not_eq_true] at hcond
        simp only [Option.some.injEq, Prod.mk.injEq] at h
        obtain ⟨rfl, rfl⟩ := h
        exact ⟨by simpa using hlen, hp', hsid', hcond.1.2, hcond.2⟩
    · exact absurd h (by simp)

theorem docsBelow_id {n : ℕ} (h : doc ∈ docsBelow fs sl n) : isempty doc.sid_fnanddate true = false := by
  obtain ⟨-, hdoc⟩ := mem_docsBelow.1 h
  obtain ⟨d, -, hc, -⟩ := docAt_eq_some.1 hdoc
  exact (condemned_eq_some hc).2.2.2.2

end Worker

end QDesktopSearch
