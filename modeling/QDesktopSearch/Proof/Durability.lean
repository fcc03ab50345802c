import QDesktopSearch.Proof.Completeness

/-!
# What a round has committed when its waiting phase starts

The scan deletes in the reader's memory; the second loop commits only where it still finds
a document, and the round only above 999 deletions.

* `round_durable_iff`: the exact states in which an uninterrupted round ends with everything
  committed.
* `round_not_durable`: a run that reaches another one.
-/

namespace QDesktopSearch

open Slots

variable {E : Env}

namespace Worker

variable {w : Worker} {fs : FileSystem} {sl : List (Slot Document)} {n : ℕ}

/-- The live numbers below `docCount` whose file is gone and whose path and id are not blank. -/
def goneNumbers (fs : FileSystem) (w : Worker) : List ℕ :=
  (List.range w.docCount).filter fun n =>
    match w.pLucyIndexer.pIndexWriter.slots[n]? with
    | some ⟨d, false⟩ => Gone fs d ∧ Named d
    | _ => false

theorem mem_goneNumbers : n ∈ goneNumbers fs w ↔
    n < w.docCount ∧ ∃ d, LiveAt w.pLucyIndexer.pIndexWriter.slots n d ∧ Gone fs d ∧ Named d := by
  unfold goneNumbers LiveAt
  rw [List.mem_filter, List.mem_range]
  rcases hs : w.pLucyIndexer.pIndexWriter.slots[n]? with _ | ⟨d, _ | _⟩
  · simp
  · simp
  · simp

/-- They are the numbers that the scan records. -/
theorem docsBelow_numbers (hstored : AllStored w.pLucyIndexer.docs) :
    (docsBelow fs w.pLucyIndexer.pIndexWriter.slots w.docCount).map (·.iDocNr) = (goneNumbers fs w).reverse := by
  have hpoint : ∀ n, (docAt fs w.pLucyIndexer.pIndexWriter.slots n).map (·.iDocNr) =
      if (match w.pLucyIndexer.pIndexWriter.slots[n]? with
        | some ⟨d, false⟩ => decide (Gone fs d ∧ Named d)
        | _ => false) = true then some n else none := by
    intro n
    unfold docAt
    rcases hs : w.pLucyIndexer.pIndexWriter.slots[n]? with _ | ⟨d, _ | _⟩
    · rfl
    · have hd : LiveAt w.pLucyIndexer.pIndexWriter.slots n d := hs
      dsimp only
      rw [Option.map_map]
      by_cases h : Gone fs d ∧ Named d
      · obtain ⟨p, sid, hp, hsid, hbp, hbs⟩ := named_iff.1 h.2
        rw [(condemned_iff (hstored d hd.mem)).2 ⟨h.1, hp, hsid, hbp, hbs⟩]
        simp [h]
      · cases hc : condemned fs d with
        | none => simp [h]
        | some c =>
          obtain ⟨hg, hp, hsid, hbp, hbs⟩ := (condemned_iff (hstored d hd.mem)).1 hc
          exact absurd ⟨hg, named_iff.2 ⟨_, _, hp, hsid, hbp, hbs⟩⟩ h
    · rfl
  unfold docsBelow goneNumbers
  rw [List.map_filterMap, ← List.filter_reverse, ← List.filterMap_eq_filter]
  apply List.filterMap_congr
  intro n _
  rw [hpoint n]
  rfl

/-- Nothing is gone that the scan sees, or more than 999 are, or another live document has
the id of one that is. -/
def Commits (E : Env) (fs : FileSystem) (w : Worker) : Prop :=
  goneNumbers fs w = [] ∨ 999 < (goneNumbers fs w).length ∨
    ∃ m ∈ goneNumbers fs w, ∃ d sid, LiveAt w.pLucyIndexer.pIndexWriter.slots m d ∧ d.get ID_FNANDDATE = some sid ∧
      ∃ n ∉ goneNumbers fs w, ∃ d', LiveAt w.pLucyIndexer.pIndexWriter.slots n d' ∧
        d'.hasTerm E.tokens ⟨ID_FNANDDATE, sid⟩ = true

/-- After the scan everything is committed iff nothing was deleted. -/
theorem scan_durable {s : Scan} {ds : List DOC} (hst : w.Steady sl) (hdur : w.Durable)
    (hbelow : ScannedBelow sl ⟨w, [], []⟩ s w.docCount ds) (hlive : ∀ i ∈ ds.map (·.iDocNr), ∃ d, LiveAt sl i d) :
    s.worker.Durable ↔ ds = [] := by
  have hst₁ : s.worker.Steady (marks sl (ds.map (·.iDocNr))) := hbelow.steady
  have hcom : s.worker.pLucyIndexer.committed = w.pLucyIndexer.committed := hbelow.committed
  unfold Durable at hdur ⊢
  rw [hcom, hdur, hst.docs, hst₁.docs]
  constructor
  · intro he
    -- a record would make what is live shorter than what is committed
    rw [List.eq_nil_iff_forall_not_mem]
    intro doc hdoc
    have hmem : doc.iDocNr ∈ ds.map (·.iDocNr) := List.mem_map_of_mem hdoc
    obtain ⟨d, hd⟩ := hlive _ hmem
    have hlt := live_marks_length_lt hd hmem
    rw [← he] at hlt
    exact Nat.lt_irrefl _ hlt
  · rintro rfl
    rfl

/-- After the scan, a live document has the id of a record iff one that is not gone has the
id of one that is. -/
theorem still_named_iff (hstored : AllStored w.pLucyIndexer.docs) {w₁ : Worker}
    (hst₁ : w₁.Steady (marks w.pLucyIndexer.pIndexWriter.slots
      ((docsBelow fs w.pLucyIndexer.pIndexWriter.slots w.docCount).map (·.iDocNr)))) :
    (∃ doc ∈ docsBelow fs w.pLucyIndexer.pIndexWriter.slots w.docCount, ∃ d ∈ w₁.pLucyIndexer.docs,
        doc.names E d = true) ↔
      ∃ m ∈ goneNumbers fs w, ∃ d sid, LiveAt w.pLucyIndexer.pIndexWriter.slots m d ∧ d.get ID_FNANDDATE = some sid ∧
        ∃ n ∉ goneNumbers fs w, ∃ d', LiveAt w.pLucyIndexer.pIndexWriter.slots n d' ∧
          d'.hasTerm E.tokens ⟨ID_FNANDDATE, sid⟩ = true := by
  have hnums : (docsBelow fs w.pLucyIndexer.pIndexWriter.slots w.docCount).map (·.iDocNr) = (goneNumbers fs w).reverse :=
    docsBelow_numbers hstored
  rw [hst₁.docs]
  constructor
  · rintro ⟨doc, hdoc, d', hd', hname⟩
    -- a document that is still live has a number that the scan did not mark
    obtain ⟨n, hn⟩ := mem_live.1 hd'
    obtain ⟨hn', hni⟩ := (liveAt_marks _).1 hn
    have hm : doc.iDocNr ∈ goneNumbers fs w := by
      rw [← List.mem_reverse, ← hnums]
      exact List.mem_map_of_mem hdoc
    rw [hnums, List.mem_reverse] at hni
    obtain ⟨-, d, hd, -, hsid, -⟩ := docsBelow_gone hdoc
    exact ⟨_, hm, d, _, hd, hsid, n, hni, d', hn', hname⟩
  · rintro ⟨m, hm, d, sid, hd, hsid, n, hn, d', hd', hname⟩
    rw [← List.mem_reverse, ← hnums] at hm hn
    obtain ⟨doc, hdoc, rfl⟩ := List.mem_map.1 hm
    have hlive : d' ∈ live (marks w.pLucyIndexer.pIndexWriter.slots
        ((docsBelow fs w.pLucyIndexer.pIndexWriter.slots w.docCount).map (·.iDocNr))) :=
      mem_live.2 ⟨n, (liveAt_marks _).2 ⟨hd', hn⟩⟩
    refine ⟨doc, hdoc, d', hlive, ?_⟩
    -- the record has the id of the document at its number
    obtain ⟨-, d₁, hd₁, -, hsid₁, -⟩ := docsBelow_gone hdoc
    have heq : d = d₁ := hd.unique hd₁
    rw [← heq, hsid, Option.some.injEq] at hsid₁
    rw [DOC.names, ← hsid₁]
    exact hname

/-- **What the purge commits.** From a committed state, an uninterrupted rest of a round
ends with everything committed iff `Commits` holds. -/
theorem del_durable (hbuf : w.pLucyIndexer.pIndexWriter.buffered = []) (hstored : AllStored w.pLucyIndexer.docs)
    (hirq : w.irq = none) (hdur : w.Durable) (r : Round) :
    ∃ w', w.del E r = some (w', false) ∧ (w'.Durable ↔ Commits E r.fsDel w) := by
  have hst : w.Steady w.pLucyIndexer.pIndexWriter.slots := steady_of_buffered hbuf
  obtain ⟨s, ds, hs, hds, hbelow, -, hfull⟩ := delDeletedFilesFromIdx_spec (E := E) hst hstored r.fsDel
  obtain ⟨hirq₁, hdsEq⟩ := hfull hirq
  have hnums : ds.map (·.iDocNr) = (goneNumbers r.fsDel w).reverse := by
    rw [hdsEq]
    exact docsBelow_numbers hstored
  have hlen : ds.length = (goneNumbers r.fsDel w).length := by
    rw [← List.length_map (·.iDocNr), hnums, List.length_reverse]
  have hst₁ : s.worker.Steady (marks w.pLucyIndexer.pIndexWriter.slots (ds.map (·.iDocNr))) := hbelow.steady
  have hirq₂ : (delDocs E s.worker ds).irq = none := delDocs_irq hirq₁
  by_cases h999 : 999 < ds.length
  · -- `opt again`
    refine ⟨(delDocs E s.worker ds).onIndexerThreadFinished E, ?_, ?_⟩
    · simp [del, isInterruptionRequested_none hirq, hs, hds, h999, isInterruptionRequested_none hirq₂]
    · constructor
      · intro _
        exact Or.inr (Or.inl (hlen ▸ h999))
      · intro _
        exact onIndexerThreadFinished_spec.2.2.2
  · -- no further flush: it is for the second loop to commit
    refine ⟨delDocs E s.worker ds, ?_, ?_⟩
    · simp [del, isInterruptionRequested_none hirq, hs, hds, h999]
    · have hlive : ∀ i ∈ ds.map (·.iDocNr), ∃ d, LiveAt w.pLucyIndexer.pIndexWriter.slots i d := by
        intro i hi
        rw [hnums, List.mem_reverse] at hi
        obtain ⟨-, d, hd, -⟩ := mem_goneNumbers.1 hi
        exact ⟨d, hd⟩
      have hnot : ¬999 < (goneNumbers r.fsDel w).length := hlen ▸ h999
      have hnil : ds = [] ↔ goneNumbers r.fsDel w = [] := by
        rw [← List.length_eq_zero_iff, hlen, List.length_eq_zero_iff]
      rw [delDocs_durable hst₁ hirq₁ fun doc hdoc => docsBelow_id (hdsEq ▸ hdoc),
        scan_durable hst hdur hbelow hlive, hnil]
      unfold Commits
      refine or_congr_right ?_
      rw [or_iff_right hnot]
      subst hdsEq
      exact still_named_iff hstored hst₁

end Worker

/-- **When a round is durable.** After every history, an uninterrupted round comes to its
waiting phase, and a searcher opened then sees exactly the live documents iff `Commits`
holds at the purge. -/
theorem round_durable_iff {es : List Root.Event} {os : List Unit} {l : Lucyindexer}
    (hrun : Machine.run (Root.step E) (.stopped none) es = some (.running l, os)) (r : Worker.Round) :
    ∃ w, Worker.round E r ⟨l, 0, 0, none⟩ = some (w, false) ∧
      (w.pLucyIndexer.committed.docs = w.pLucyIndexer.docs ↔ Worker.Commits E r.fsDel (l.atPurge E r)) := by
  obtain ⟨hbuf, hstored, hirq, hdur⟩ := Lucyindexer.atPurge_spec hrun r
  obtain ⟨w, hdel, hiff⟩ := Worker.del_durable hbuf hstored hirq hdur r
  refine ⟨w, ?_, hiff⟩
  rw [Worker.round, l.idx_uninterrupted r]
  rw [Lucyindexer.atPurge, l.idx_uninterrupted r] at hdel
  exact hdel

theorem round_durable_iff_sample :
    let es : List Root.Event := [.openIndex, .round (sampleRound [("a", 1), ("b", 2)]) none]
    let r := sampleRound [("a", 3), ("b", 2)]
    ∃ l os, Machine.run (Root.step sampleEnv) (.stopped none) es = some (.running l, os) ∧
      ∃ w, Worker.round sampleEnv r ⟨l, 0, 0, none⟩ = some (w, false) ∧
        (w.pLucyIndexer.committed.docs = w.pLucyIndexer.docs ↔
          Worker.Commits sampleEnv r.fsDel (l.atPurge sampleEnv r)) := by
  intro es r
  obtain ⟨l, os, hrun, -⟩ := Root.exists_running es (E := sampleEnv) (fun _ => true) (by decide +kernel)
  exact ⟨l, os, hrun, round_durable_iff hrun r⟩

/-- **A round that is not durable.** `a` and `b` are indexed, then `a` is removed: its document
is deleted in the reader, and nothing commits that before the waiting phase. -/
theorem round_not_durable :
    let es : List Root.Event := [.openIndex, .round (sampleRound [("a", 1), ("b", 2)]) none]
    let r := sampleRound [("b", 2)]
    ∃ l os w, Machine.run (Root.step sampleEnv) (.stopped none) es = some (.running l, os) ∧
      Worker.round sampleEnv r ⟨l, 0, 0, none⟩ = some (w, false) ∧
      w.pLucyIndexer.committed.docs ≠ w.pLucyIndexer.docs := by
  intro es r
  obtain ⟨l, os, hrun, hl⟩ := Root.exists_running es (E := sampleEnv)
    (fun l => (Worker.round sampleEnv r ⟨l, 0, 0, none⟩).any fun q : Worker × Bool =>
      !q.2 && decide (q.1.pLucyIndexer.committed.docs ≠ q.1.pLucyIndexer.docs)) (by decide +kernel)
  rw [Option.any_eq_true] at hl
  obtain ⟨⟨w, b⟩, hround, hw⟩ := hl
  simp only [Bool.and_eq_true, Bool.not_eq_true', decide_eq_true_eq] at hw
  obtain ⟨rfl, hne⟩ := hw
  exact ⟨l, os, w, hrun, hround, hne⟩

end QDesktopSearch
