import QDesktopSearch.Proof.Soundness

/-!
# What the purge misses

The scan starts at `docCount()`, which a reader answers with the number of live documents
and not with the bound of the numbers.

* `purge_complete_iff`: the exact states in which a purge leaves no document whose file is
  gone.
* `purge_misses`: a run that reaches another one.
-/

namespace QDesktopSearch

open Slots

variable {E : Env}

/-- A document with one path and one id whose path does not exist. -/
structure Gone (fs : FileSystem) (d : Document) : Prop where
  onePath : d.countP (fun f => f.name == FIELDNAME_ABSPATHNAME) = 1
  oneId : d.countP (fun f => f.name == ID_FNANDDATE) = 1
  gone : ((d.get FIELDNAME_ABSPATHNAME).any fun p => !fs.exists_ p) = true

instance (fs : FileSystem) (d : Document) : Decidable (Gone fs d) :=
  decidable_of_iff (_ ∧ _ ∧ _) ⟨fun h => ⟨h.1, h.2.1, h.2.2⟩, fun h => ⟨h.onePath, h.oneId, h.gone⟩⟩

/-- The path and the id are not blank. -/
def Named (d : Document) : Prop :=
  ((d.get FIELDNAME_ABSPATHNAME).any fun p => !isempty p true) = true ∧
    ((d.get ID_FNANDDATE).any fun sid => !isempty sid true) = true

instance (d : Document) : Decidable (Named d) := inferInstanceAs (Decidable (_ ∧ _))

theorem named_iff {d : Document} : Named d ↔ ∃ p sid, d.get FIELDNAME_ABSPATHNAME = some p ∧
    d.get ID_FNANDDATE = some sid ∧ isempty p true = false ∧ isempty sid true = false := by
  unfold Named
  rw [Option.any_eq_true, Option.any_eq_true]
  constructor
  · rintro ⟨⟨p, hp, hbp⟩, sid, hs, hbs⟩
    exact ⟨p, sid, hp, hs, by simpa using hbp, by simpa using hbs⟩
  · rintro ⟨p, sid, hp, hs, hbp, hbs⟩
    exact ⟨⟨p, hp, by simp [hbp]⟩, sid, hs, by simp [hbs]⟩

/-- Loading two fields loads the occurrences of both. -/
theorem load_length {d : Document} {a b : QString} (hab : a ≠ b) :
    (d.load [a, b]).length = d.countP (fun f => f.name == a) + d.countP (fun f => f.name == b) := by
  unfold Document.load
  rw [← List.countP_eq_length_filter]
  induction d with
  | nil => rfl
  | cons f d ih =>
    rw [List.countP_cons, List.countP_cons, List.countP_cons, ih]
    by_cases ha : f.name = a
    · have hb : ¬f.name = b := fun hb => hab (ha.symm.trans hb)
      simp [ha, hab]
      omega
    · by_cases hb : f.name = b
      · simp [hb, Ne.symm hab]
        omega
      · simp [ha, hb]

namespace Worker

variable {w : Worker} {fs : FileSystem} {sl : List (Slot Document)} {n : ℕ}

/-- **The scan condemns** the documents whose file is gone and whose path and id are not blank. -/
theorem condemned_iff {d : Document} {p sid : QString} (hstored : d.Stored) : condemned fs d = some (p, sid) ↔
    Gone fs d ∧ d.get FIELDNAME_ABSPATHNAME = some p ∧ d.get ID_FNANDDATE = some sid ∧
      isempty p true = false ∧ isempty sid true = false := by
  have hload := load_length (d := d) (show FIELDNAME_ABSPATHNAME ≠ ID_FNANDDATE by decide)
  have hpos : ∀ name, (d.get name).isSome → 0 < d.countP fun f => f.name == name := by
    intro name h
    obtain ⟨f, hf, hname⟩ := get_isSome.1 h
    exact List.countP_pos_iff.2 ⟨f, hf, by simp [hname]⟩
  have h1 := hpos _ hstored.pathname
  have h2 := hpos _ hstored.fnAndDate
  constructor
  · -- two loaded fields, and at least one of each name
    intro h
    obtain ⟨hlen, hgp, hgs, hex, hbs⟩ := condemned_eq_some h
    have hbp : isempty p true = false := by
      rw [Bool.eq_false_iff]
      intro hb
      simp [condemned, Document.load_pathname, Document.load_fnAndDate, hgp, hgs, hb] at h
    exact ⟨⟨by omega, by omega, by rw [hgp]; simp [hex]⟩, hgp, hgs, hbp, hbs⟩
  · rintro ⟨hgone, hgp, hgs, hbp, hbs⟩
    have hlen : (d.load [FIELDNAME_ABSPATHNAME, ID_FNANDDATE]).length = 2 := by
      rw [hload, hgone.onePath, hgone.oneId]
    have hex : fs.exists_ p = false := by
      have h := hgone.gone
      rw [hgp] at h
      simpa using h
    simp [condemned, hlen, Document.load_pathname, Document.load_fnAndDate, hgp, hgs, hbp, hbs, hex]

/-- What an uninterrupted purge leaves live: the documents that were neither condemned
below `docCount` nor have the id of one that was. -/
theorem purge_live {s : Scan} (hst : w.Steady sl) (hstored : AllStored (live sl)) (hirq : w.irq = none)
    (hs : w.delDeletedFilesFromIdx E fs = some s) {d : Document} :
    d ∈ s.worker.pLucyIndexer.docs ↔ ∃ n, LiveAt sl n d ∧ n ∉ (docsBelow fs sl w.docCount).map (·.iDocNr) ∧
      ∀ doc ∈ docsBelow fs sl w.docCount, doc.names E d = false := by
  obtain ⟨s₁, ds, he, -, hbelow, -, hfull⟩ := delDeletedFilesFromIdx_spec (E := E) hst hstored fs
  obtain ⟨hirq₁, rfl⟩ := hfull hirq
  rw [hs, Option.some.injEq] at he
  have hst₁ : s₁.worker.Steady (marks sl ((docsBelow fs sl w.docCount).map (·.iDocNr))) := hbelow.steady
  rw [he]
  show d ∈ (delDocs E s₁.worker _).pLucyIndexer.docs ↔ _
  rw [delDocs_docs hirq₁ fun doc hdoc => docsBelow_id hdoc, hst₁.docs, List.mem_filter, mem_live, List.all_eq_true]
  constructor
  · rintro ⟨⟨n, hn⟩, hall⟩
    obtain ⟨hl, hni⟩ := (liveAt_marks _).1 hn
    exact ⟨n, hl, hni, fun doc hdoc => by simpa using hall doc hdoc⟩
  · rintro ⟨n, hl, hni, hall⟩
    exact ⟨⟨n, (liveAt_marks _).2 ⟨hl, hni⟩⟩, fun doc hdoc => by simp [hall doc hdoc]⟩

/-- Every live document whose file is gone has a path and an id that are not blank and a
number below `docCount`, or the id of such a document. -/
def Covered (E : Env) (fs : FileSystem) (w : Worker) : Prop :=
  ∀ n d, LiveAt w.pLucyIndexer.pIndexWriter.slots n d → Gone fs d →
    (n < w.docCount ∧ Named d) ∨
      ∃ m d' sid, m < w.docCount ∧ LiveAt w.pLucyIndexer.pIndexWriter.slots m d' ∧ Gone fs d' ∧ Named d' ∧
        d'.get ID_FNANDDATE = some sid ∧ d.hasTerm E.tokens ⟨ID_FNANDDATE, sid⟩ = true

/-- A record of the scan is a document below its start whose file is gone. -/
theorem mem_docsBelow_iff {doc : DOC} (hstored : AllStored (live sl)) : doc ∈ docsBelow fs sl n ↔
    doc.iDocNr < n ∧ ∃ d, LiveAt sl doc.iDocNr d ∧ Gone fs d ∧ d.get FIELDNAME_ABSPATHNAME = some doc.sAbsFileName ∧
      d.get ID_FNANDDATE = some doc.sid_fnanddate ∧ Named d := by
  rw [mem_docsBelow, docAt_eq_some]
  constructor
  · rintro ⟨hlt, d, hd, hc, -⟩
    obtain ⟨hg, hp, hs, hbp, hbs⟩ := (condemned_iff (hstored d hd.mem)).1 hc
    exact ⟨hlt, d, hd, hg, hp, hs, named_iff.2 ⟨_, _, hp, hs, hbp, hbs⟩⟩
  · rintro ⟨hlt, d, hd, hg, hp, hs, hnamed⟩
    obtain ⟨p, sid, hp', hs', hbp, hbs⟩ := named_iff.1 hnamed
    rw [hp, Option.some.injEq] at hp'
    rw [hs, Option.some.injEq] at hs'
    subst hp' hs'
    exact ⟨hlt, d, hd, (condemned_iff (hstored d hd.mem)).2 ⟨hg, hp, hs, hbp, hbs⟩, rfl⟩

/-- **An uninterrupted purge is complete iff the scan covers what is gone.** -/
theorem purge_complete (hbuf : w.pLucyIndexer.pIndexWriter.buffered = []) (hstored : AllStored w.pLucyIndexer.docs)
    (hirq : w.irq = none) (fs : FileSystem) : ∃ s, w.delDeletedFilesFromIdx E fs = some s ∧
      ((∀ d ∈ s.worker.pLucyIndexer.docs, ¬Gone fs d) ↔ Covered E fs w) := by
  have hst : w.Steady w.pLucyIndexer.pIndexWriter.slots := steady_of_buffered hbuf
  obtain ⟨s₁, ds, hs, -⟩ := delDeletedFilesFromIdx_spec (E := E) hst hstored fs
  have hdocs := fun d => purge_live (d := d) hst hstored hirq hs
  refine ⟨_, hs, ?_⟩
  constructor
  · intro hcomplete n d hd hgone
    by_contra hcov
    rw [not_or] at hcov
    refine hcomplete d ((hdocs d).2 ⟨n, hd, ?_, ?_⟩) hgone
    · intro hmem
      obtain ⟨doc, hdoc, rfl⟩ := List.mem_map.1 hmem
      obtain ⟨hlt, d', hd', -, -, -, hnamed⟩ := (mem_docsBelow_iff hstored).1 hdoc
      have : d = d' := hd.unique hd'
      subst this
      exact hcov.1 ⟨hlt, hnamed⟩
    · intro doc hdoc
      rw [Bool.eq_false_iff]
      intro hname
      obtain ⟨hlt, d', hd', hg', -, hs', hnamed⟩ := (mem_docsBelow_iff hstored).1 hdoc
      exact hcov.2 ⟨_, d', _, hlt, hd', hg', hnamed, hs', hname⟩
  · intro hcov d hd hgone
    obtain ⟨n, hn, hni, hall⟩ := (hdocs d).1 hd
    rcases hcov n d hn hgone with ⟨hlt, hnamed⟩ | ⟨m, d', sid, hlt, hd', hg', hnamed, hs', hname⟩
    · obtain ⟨p, sid, hp, hsid, -⟩ := named_iff.1 hnamed
      apply hni
      rw [List.mem_map]
      exact ⟨⟨sid, p, n⟩, (mem_docsBelow_iff hstored).2 ⟨hlt, d, hn, hgone, hp, hsid, hnamed⟩, rfl⟩
    · obtain ⟨p', -, hp', -⟩ := named_iff.1 hnamed
      have hdoc : (⟨sid, p', m⟩ : DOC) ∈ docsBelow fs w.pLucyIndexer.pIndexWriter.slots w.docCount :=
        (mem_docsBelow_iff hstored).2 ⟨hlt, d', hd', hg', hp', hs', hnamed⟩
      have hno := hall _ hdoc
      rw [DOC.names, hname] at hno
      exact Bool.noConfusion hno

end Worker

/-! ## Over all histories -/

/-- The worker of a root at the purge of an uninterrupted round. -/
def Lucyindexer.atPurge (E : Env) (l : Lucyindexer) (r : Worker.Round) : Worker := (Worker.idx E r ⟨l, 0, 0, none⟩).1

/-- Uninterrupted, a round comes to its purge after its pass and a flush. -/
theorem Lucyindexer.idx_uninterrupted (l : Lucyindexer) (r : Worker.Round) : Worker.idx E r ⟨l, 0, 0, none⟩ =
    ((Worker.dir E r.fs ⟨l, 0, 0, none⟩ r.it).onIndexerThreadFinished E, false) := by
  have hdir : (Worker.dir E r.fs ⟨l, 0, 0, none⟩ r.it).irq = none := Worker.dir_irq rfl
  unfold Worker.idx
  rw [Worker.isInterruptionRequested_none rfl]
  dsimp only
  rw [Worker.isInterruptionRequested_none hdir]

/-- The state in which every purge of every history starts: nothing is buffered, all is
committed, and every document has its fields. -/
theorem Lucyindexer.atPurge_spec {es : List Root.Event} {os : List Unit} {l : Lucyindexer}
    (hrun : Machine.run (Root.step E) (.stopped none) es = some (.running l, os)) (r : Worker.Round) :
    (l.atPurge E r).pLucyIndexer.pIndexWriter.buffered = [] ∧ Worker.AllStored (l.atPurge E r).pLucyIndexer.docs ∧
      (l.atPurge E r).irq = none ∧ (l.atPurge E r).Durable := by
  have hdir : (Worker.dir E r.fs ⟨l, 0, 0, none⟩ r.it).irq = none := Worker.dir_irq rfl
  have hstored : Worker.AllStored (Worker.dir E r.fs ⟨l, 0, 0, none⟩ r.it).pLucyIndexer.docs :=
    Worker.AllStored.dir (root_stored hrun)
  obtain ⟨hd, -, hb, hdur⟩ := Worker.onIndexerThreadFinished_spec (E := E) (w := Worker.dir E r.fs ⟨l, 0, 0, none⟩ r.it)
  unfold atPurge
  rw [idx_uninterrupted]
  exact ⟨hb, hd ▸ hstored, hdir, hdur⟩

/-- **When the purge is complete.** After every history and pass, an uninterrupted purge
leaves no live document whose file is gone iff each such document is covered by the scan. -/
theorem purge_complete_iff {es : List Root.Event} {os : List Unit} {l : Lucyindexer}
    (hrun : Machine.run (Root.step E) (.stopped none) es = some (.running l, os)) (r : Worker.Round) :
    ∃ s, (l.atPurge E r).delDeletedFilesFromIdx E r.fsDel = some s ∧
      ((∀ d ∈ s.worker.pLucyIndexer.docs, ¬Gone r.fsDel d) ↔ Worker.Covered E r.fsDel (l.atPurge E r)) := by
  obtain ⟨hbuf, hstored, hirq, -⟩ := Lucyindexer.atPurge_spec hrun r
  exact Worker.purge_complete hbuf hstored hirq r.fsDel

theorem purge_complete_iff_sample :
    let es : List Root.Event := [.openIndex, .round (sampleRound [("a", 1), ("b", 2)]) none]
    let r := sampleRound [("b", 2)]
    ∃ l os, Machine.run (Root.step sampleEnv) (.stopped none) es = some (.running l, os) ∧
      ∃ s, (l.atPurge sampleEnv r).delDeletedFilesFromIdx sampleEnv r.fsDel = some s ∧
        ((∀ d ∈ s.worker.pLucyIndexer.docs, ¬Gone r.fsDel d) ↔
          Worker.Covered sampleEnv r.fsDel (l.atPurge sampleEnv r)) := by
  intro es r
  obtain ⟨l, os, hrun, -⟩ := Root.exists_running es (E := sampleEnv) (fun _ => true) (by decide +kernel)
  exact ⟨l, os, hrun, purge_complete_iff hrun r⟩

/-- **A purge that misses a document.** `a` and `b` are indexed, `a` is removed, and then
`b`: the reader has two numbers and one live document, and the scan stops short of `b`. -/
theorem purge_misses :
    let es : List Root.Event :=
      [.openIndex, .round (sampleRound [("a", 1), ("b", 2)]) none, .round (sampleRound [("b", 2)]) none]
    let r := sampleRound []
    ∃ l os s, Machine.run (Root.step sampleEnv) (.stopped none) es = some (.running l, os) ∧
      (l.atPurge sampleEnv r).delDeletedFilesFromIdx sampleEnv r.fsDel = some s ∧
      ∃ d ∈ s.worker.pLucyIndexer.docs, Gone r.fsDel d := by
  intro es r
  obtain ⟨l, os, hrun, hl⟩ := Root.exists_running es (E := sampleEnv)
    (fun l => ((l.atPurge sampleEnv r).delDeletedFilesFromIdx sampleEnv r.fsDel).any fun s =>
      s.worker.pLucyIndexer.docs.any fun d => decide (Gone r.fsDel d)) (by decide +kernel)
  rw [Option.any_eq_true] at hl
  obtain ⟨s, hs, hd⟩ := hl
  obtain ⟨d, hmem, hgone⟩ := List.any_eq_true.1 hd
  exact ⟨l, os, s, hrun, hs, d, hmem, by simpa using hgone⟩

end QDesktopSearch
