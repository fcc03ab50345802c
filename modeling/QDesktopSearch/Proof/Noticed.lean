import QDesktopSearch.Proof.Metadata
import QDesktopSearch.Proof.Reindex

/-!
# Which modifications are noticed

* `Owned`: every live document belongs to one file of the root; `root_owned`: in every history.
* `dir_versions`: a pass leaves the versions of a file alone until it visits it.
* `modification_noticed_iff`: what the first visit of a changed file does.
-/

namespace QDesktopSearch

open Slots Lucyindexer

variable {E : Env} {S : Set QString} {l : Lucyindexer} {s next : QString} {it : List QString} {fs : FileSystem}
  {finfo finfo₁ finfo₂ : QFileInfo} {w : Worker}

/-- A round over paths of `S`; no metadata name maps to an id field. -/
structure KnownRound (E : Env) (S : Set QString) (r : Worker.Round) : Prop where
  paths : ∀ next ∈ r.it, ∀ finfo, Visited E r.fs next finfo → indexedPath E next ∈ S
  names : r.fs.NoIdNames E

/-- Every live document has its fields and belongs to one file. -/
structure Owned (E : Env) (S : Set QString) (docs : List Document) : Prop where
  stored : Worker.AllStored docs
  owned : ∀ d ∈ docs, ∃ s ∈ S, ∃ finfo, DocumentOf E s finfo d

/-- The file is indexed, in versions of one modification time only. -/
structure Lucyindexer.IndexedAt (E : Env) (l : Lucyindexer) (s : QString) (finfo : QFileInfo) : Prop where
  live : versions E s l.docs ≠ []
  all : ∀ d ∈ versions E s l.docs, d.hasTerm E.tokens ⟨ID_FNANDDATE, getIdFNandDATE E s finfo⟩ = true

/-! ## Every document belongs to a file -/

theorem Owned.sublist {A B : List Document} (h : Owned E S A) (hsub : B.Sublist A) : Owned E S B :=
  ⟨fun d hd => h.stored d (hsub.subset hd), fun d hd => h.owned d (hsub.subset hd)⟩

namespace Worker

/-- What a round can add is a document of the file that it visits. -/
theorem enter_owned (h : Owned E S w.pLucyIndexer.docs) (hfs : fs.NoIdNames E)
    (hv : ∀ finfo, Visited E fs next finfo → indexedPath E next ∈ S) : Owned E S (w.enter E fs next).pLucyIndexer.docs := by
  rcases enter_cases E fs w next with he | ⟨finfo, he | ⟨hvis, -, he⟩⟩
  · rw [he]; exact h
  · rw [he, looked, Lucyindexer.isIndexed_docs]; exact h
  · rw [he, Lucyindexer.index_docs, looked, Lucyindexer.isIndexed_docs]
    have hleft : Owned E S (if (w.pLucyIndexer.isIndexed E (normalizePath E.qt (normalizePath E.qt next false) false)
        finfo).1.bNewIndex then w.pLucyIndexer.docs else w.pLucyIndexer.docs.filter fun d =>
          !Document.hasTerm E.tokens ⟨ID_FN, getIdFN E (indexedPath E next)⟩ d) := by
      split
      · exact h
      · exact h.sublist List.filter_sublist
    constructor
    · intro d hd
      rcases List.mem_append.1 hd with hd | hd
      · exact hleft.stored d hd
      · rw [List.mem_singleton.1 hd]
        exact indexDocument_stored metaContents_pathname
    · intro d hd
      rcases List.mem_append.1 hd with hd | hd
      · exact hleft.owned d hd
      · rw [List.mem_singleton.1 hd]
        exact ⟨indexedPath E next, hv finfo hvis, finfo, indexDocument_of (metaContents_noIds hfs)⟩

/-- A round leaves the versions of other files alone. -/
theorem enter_versions (hq : HashInjective E S) (h : Owned E S w.pLucyIndexer.docs) (hfs : fs.NoIdNames E)
    (hv : ∀ finfo, Visited E fs next finfo → indexedPath E next ∈ S) (hs : s ∈ S) (hne : s ≠ indexedPath E next) :
    versions E s (w.enter E fs next).pLucyIndexer.docs = versions E s w.pLucyIndexer.docs := by
  rcases enter_cases E fs w next with he | ⟨finfo, he | ⟨hvis, -, he⟩⟩
  · rw [he]
  · rw [he, looked, Lucyindexer.isIndexed_docs]
  · have hlook : ∀ d ∈ (w.looked E (normalizePath E.qt (normalizePath E.qt next false) false) finfo).docs,
        ∃ s ∈ S, ∃ finfo, DocumentOf E s finfo d := by
      rw [looked, Lucyindexer.isIndexed_docs]
      exact h.owned
    rw [he, versions, Lucyindexer.index_other hq hlook (hv finfo hvis) hs hne (metaContents_noIds hfs), looked,
      Lucyindexer.isIndexed_docs, versions]

/-- **A pass keeps `Owned`**, wherever it is interrupted, and the kind of the index. -/
theorem dir_owned (h : Owned E S w.pLucyIndexer.docs) (hfs : fs.NoIdNames E)
    (hv : ∀ next ∈ it, ∀ finfo, Visited E fs next finfo → indexedPath E next ∈ S) :
    Owned E S (w.dir E fs it).pLucyIndexer.docs ∧ (w.dir E fs it).pLucyIndexer.bNewIndex = w.pLucyIndexer.bNewIndex := by
  induction it generalizing w with
  | nil => exact ⟨h, rfl⟩
  | cons next it ih =>
    rcases hirq : w.isInterruptionRequested with ⟨_ | _, w₁⟩
    · rw [dir_cons hirq]
      rw [← isInterruptionRequested_indexer hirq] at h ⊢
      have henter := enter_owned h hfs (hv next List.mem_cons_self)
      have hrest := ih henter fun n hn => hv n (List.mem_cons_of_mem _ hn)
      rw [enter_bNewIndex] at hrest
      exact hrest
    · rw [dir_cons_interrupted hirq, isInterruptionRequested_indexer hirq]
      exact ⟨h, rfl⟩

/-- **A pass leaves the versions of a file alone until it visits it.** -/
theorem dir_versions (hq : HashInjective E S) (h : Owned E S w.pLucyIndexer.docs) (hfs : fs.NoIdNames E)
    (hv : ∀ next ∈ it, ∀ finfo, Visited E fs next finfo → indexedPath E next ∈ S) (hs : s ∈ S)
    (hne : s ∉ it.map (indexedPath E)) :
    versions E s (w.dir E fs it).pLucyIndexer.docs = versions E s w.pLucyIndexer.docs := by
  induction it generalizing w with
  | nil => rfl
  | cons next it ih =>
    rw [List.map_cons, List.mem_cons, not_or] at hne
    rcases hirq : w.isInterruptionRequested with ⟨_ | _, w₁⟩
    · rw [dir_cons hirq]
      rw [← isInterruptionRequested_indexer hirq] at h ⊢
      have hnext := hv next List.mem_cons_self
      rw [ih (enter_owned h hfs hnext) (fun n hn => hv n (List.mem_cons_of_mem _ hn)) hne.2,
        enter_versions hq h hfs hnext hs hne.1]
    · rw [dir_cons_interrupted hirq, isInterruptionRequested_indexer hirq]

end Worker

theorem owned_invariant : Root.Invariant E (KnownRound E S) (Owned E S) where
  nil := ⟨fun _ hd => absurd hd List.not_mem_nil, fun _ hd => absurd hd List.not_mem_nil⟩
  sublist _ _ hsub h := h.sublist hsub
  stored _ h := h.stored
  dir _ _ hr h _ := (Worker.dir_owned h hr.names hr.paths).1

/-- **In every history, every live document belongs to a file.** -/
theorem root_owned {es : List Root.Event} {os : List Unit} (hes : ∀ r irq, Root.Event.round r irq ∈ es → KnownRound E S r)
    (hrun : Machine.run (Root.step E) (.stopped none) es = some (.running l, os)) : SessionOK (Owned E S) l :=
  Root.root_invariant owned_invariant hes hrun

/-! ## The lookup -/

theorem Lucyindexer.IndexedAt.versions_eq {l' : Lucyindexer} (h : l.IndexedAt E s finfo)
    (hv : versions E s l'.docs = versions E s l.docs) : l'.IndexedAt E s finfo :=
  ⟨hv ▸ h.live, hv ▸ h.all⟩

/-- **On an old index, `isIndexed` compares the seconds**: it finds the file exactly if they
are those of its versions. -/
theorem isIndexed_iff (hq : HashInjective E S) (h : Owned E S l.docs) (hb : l.bNewIndex = false)
    {q : QString} (hs : normalizePath E.qt q false ∈ S) (hold : l.IndexedAt E (normalizePath E.qt q false) finfo₁) :
    (l.isIndexed E q finfo₂).2 = true ↔ finfo₁.lastModified.toTime_t = finfo₂.lastModified.toTime_t := by
  rw [isIndexed_eq hb, List.any_eq_true]
  constructor
  · rintro ⟨d, hd, hterm⟩
    obtain ⟨s', hs', finfo', hof⟩ := h.owned d hd
    have hsame := getIdFNandDATE_eq_iff.1 ((hof.fnAndDate _).1 hterm)
    have hpath : normalizePath E.qt q false = s' := hq.fnAndDate hs hs' hsame.1
    have hversion : d ∈ versions E (normalizePath E.qt q false) l.docs := by
      rw [versions, List.mem_filter, hpath]
      exact ⟨hd, hof.has_fn⟩
    have hdate := getIdFNandDATE_eq_iff.1 ((hof.fnAndDate _).1 (hold.all d hversion))
    rw [hdate.2, hsame.2]
  · intro heq
    obtain ⟨d, hd⟩ := List.exists_mem_of_ne_nil _ hold.live
    refine ⟨d, (List.mem_filter.1 hd).1, ?_⟩
    have hsame : getIdFNandDATE E (normalizePath E.qt q false) finfo₂ =
        getIdFNandDATE E (normalizePath E.qt q false) finfo₁ := getIdFNandDATE_eq_iff.2 ⟨rfl, heq.symm⟩
    rw [hsame]
    exact hold.all d hd

/-- **Which modifications are noticed.** After every history of a root, a file is visited for
the first time in the next pass: `isIndexed` misses it exactly if the two times differ in
their whole seconds; then `index` puts the new version in the place of the old one, else the
index stays as it is. -/
theorem modification_noticed_iff {S : Set QString} (hq : HashInjective E S) {es : List Root.Event} {os : List Unit}
    {l : Lucyindexer} (hes : ∀ r irq, Root.Event.round r irq ∈ es → KnownRound E S r)
    (hrun : Machine.run (Root.step E) (.stopped none) es = some (.running l, os))
    {r : Worker.Round} (hr : KnownRound E S r) {before after : List QString} {next : QString}
    (hit : r.it = before ++ next :: after) (hfirst : indexedPath E next ∉ before.map (indexedPath E))
    {finfo₁ finfo₂ : QFileInfo} (hold : l.IndexedAt E (indexedPath E next) finfo₁) (hvis : Visited E r.fs next finfo₂)
    (irq : Option ℕ) :
    let w := Worker.dir E r.fs ⟨l, 0, 0, irq⟩ before
    let q := normalizePath E.qt (normalizePath E.qt next false) false
    ((w.pLucyIndexer.isIndexed E q finfo₂).2 = false ↔
      finfo₁.lastModified.toTime_t ≠ finfo₂.lastModified.toTime_t) ∧
    (irq = none →
      (w.enter E r.fs next).pLucyIndexer.docs =
        if finfo₁.lastModified.toTime_t = finfo₂.lastModified.toTime_t then w.pLucyIndexer.docs
        else (w.pLucyIndexer.docs.filter fun d =>
          !Document.hasTerm E.tokens ⟨ID_FN, getIdFN E (indexedPath E next)⟩ d) ++ [fileDocument E r.fs q finfo₂]) := by
  intro w q
  have hok : SessionOK (Owned E S) l := root_owned hes hrun
  have hs : indexedPath E next ∈ S := hr.paths next (hit ▸ by simp) finfo₂ hvis
  have hbefore : ∀ n ∈ before, ∀ finfo, Visited E r.fs n finfo → indexedPath E n ∈ S :=
    fun n hn => hr.paths n (hit ▸ List.mem_append_left _ hn)
  -- the file has a version, so the index is not new
  have hbl : l.bNewIndex = false := by
    rw [Bool.eq_false_iff]
    intro hnew
    refine hold.live ?_
    rw [hok.fresh hnew]
    rfl
  obtain ⟨howned, hbw⟩ := Worker.dir_owned (w := ⟨l, 0, 0, irq⟩) hok.docs hr.names hbefore
  have hb : w.pLucyIndexer.bNewIndex = false := hbw.trans hbl
  have holdw : w.pLucyIndexer.IndexedAt E (indexedPath E next) finfo₁ :=
    hold.versions_eq (Worker.dir_versions hq hok.docs hr.names hbefore hs hfirst)
  have hlookup : (w.pLucyIndexer.isIndexed E q finfo₂).2 = true ↔
      finfo₁.lastModified.toTime_t = finfo₂.lastModified.toTime_t := isIndexed_iff hq howned hb hs holdw
  constructor
  · rw [← Bool.not_eq_true, hlookup]
  · intro hirq
    have hfile : w.enter E r.fs next = w.file E r.fs (normalizePath E.qt next false) finfo₂ := by
      unfold Worker.enter
      rw [hvis.stat]
      exact if_pos hvis.isFile
    rw [hfile, Worker.file_uninterrupted (Worker.dir_irq hirq) hvis.notOwn]
    by_cases heq : finfo₁.lastModified.toTime_t = finfo₂.lastModified.toTime_t
    · rw [if_pos (hlookup.2 heq), if_pos heq, Worker.looked, isIndexed_docs]
    · have hmiss : ¬(w.pLucyIndexer.isIndexed E q finfo₂).2 = true := fun hi => heq (hlookup.1 hi)
      rw [if_neg hmiss, if_neg heq, index_docs, Worker.looked, isIndexed_docs, isIndexed_bNewIndex, hb]
      rfl

/-- `a` is indexed with the time of one second, and then changes at 7 seconds. -/
theorem second_noticed :
    let es : List Root.Event := [.openIndex, .round (sampleRound [("a", 1), ("b", 2)]) none]
    let r := sampleRound [("b", 2), ("a", 7)]
    ∃ l os, Machine.run (Root.step sampleEnv) (.stopped none) es = some (.running l, os) ∧
      let w := Worker.dir sampleEnv r.fs ⟨l, 0, 0, none⟩ [qs "/d/b"]
      ((w.pLucyIndexer.isIndexed sampleEnv (qs "/d/a") ⟨true, 10, 7000, qs "/d", qs "a", []⟩).2 = false ↔
        QDateTime.toTime_t 1000 ≠ QDateTime.toTime_t 7000) ∧
      (w.enter sampleEnv r.fs (qs "/d/a")).pLucyIndexer.docs =
        if QDateTime.toTime_t 1000 = QDateTime.toTime_t 7000 then w.pLucyIndexer.docs
        else (w.pLucyIndexer.docs.filter fun d =>
          !Document.hasTerm sampleEnv.tokens ⟨ID_FN, getIdFN sampleEnv (indexedPath sampleEnv (qs "/d/a"))⟩ d) ++
            [fileDocument sampleEnv r.fs (qs "/d/a") ⟨true, 10, 7000, qs "/d", qs "a", []⟩] := by
  intro es r
  have hq : HashInjective sampleEnv {s | s ∈ samplePaths} :=
    ⟨List.inj_on_of_nodup_map (by decide +kernel), List.inj_on_of_nodup_map (by decide +kernel)⟩
  have hknown : ∀ files, (∀ next ∈ (sampleRound files).it, indexedPath sampleEnv next ∈ samplePaths) →
      KnownRound sampleEnv {s | s ∈ samplePaths} (sampleRound files) :=
    fun files h => ⟨fun next hn _ _ => h next hn, fun _ _ hr => absurd hr (by simp [sampleRound, sampleFs])⟩
  have hes : ∀ r irq, Root.Event.round r irq ∈ es → KnownRound sampleEnv {s | s ∈ samplePaths} r := by
    intro r irq hmem
    simp only [es, List.mem_cons, Root.Event.round.injEq, reduceCtorEq, List.not_mem_nil, or_false, false_or] at hmem
    obtain ⟨rfl, -⟩ := hmem
    exact hknown _ (by decide +kernel)
  obtain ⟨l, os, hrun, hl⟩ := Root.exists_running es (E := sampleEnv) (fun l =>
    decide (versions sampleEnv (indexedPath sampleEnv (qs "/d/a")) l.docs ≠ []) &&
      (versions sampleEnv (indexedPath sampleEnv (qs "/d/a")) l.docs).all (Document.hasTerm sampleEnv.tokens
        ⟨ID_FNANDDATE, getIdFNandDATE sampleEnv (indexedPath sampleEnv (qs "/d/a")) ⟨true, 10, 1000, qs "/d", qs "a", []⟩⟩))
    (by decide +kernel)
  rw [Bool.and_eq_true, decide_eq_true_eq, List.all_eq_true] at hl
  have hsplit : (sampleRound [("b", 2), ("a", 7)]).it = [qs "/d/b"] ++ qs "/d/a" :: [] := rfl
  have hvis : Visited sampleEnv (sampleRound [("b", 2), ("a", 7)]).fs (qs "/d/a")
      ⟨true, 10, 7000, qs "/d", qs "a", []⟩ := ⟨by rfl, rfl, by decide +kernel⟩
  have hnoticed := modification_noticed_iff hq hes hrun (hknown _ (by decide +kernel)) hsplit (by decide +kernel)
    ⟨hl.1, hl.2⟩ hvis none
  exact ⟨l, os, hrun, hnoticed.1, hnoticed.2 rfl⟩

/-- `a` changes half a second after it was indexed; or it has a metadata entry `id_fnanddate`
with the value that its next version is looked up by. Both times `isIndexed` finds it. -/
theorem half_second_missed :
    let disk := fun r : Option TikaResult => { sampleFs [("a", 1)] with tika := fun _ => r }
    let es := fun r => [.openIndex, Root.Event.round ⟨[qs "/d/a"], disk r, disk r⟩ none]
    let forged : TikaResult := ⟨[], [(qs "id_fnanddate",
      [getIdFNandDATE sampleEnv (qs "/d/a") ⟨true, 10, 7000, qs "/d", qs "a", []⟩])]⟩
    (∃ l os, Machine.run (Root.step sampleEnv) (.stopped none) (es none) = some (.running l, os) ∧
      l.docs.length = 1 ∧
      (l.isIndexed sampleEnv (qs "/d/a") ⟨true, 10, 1500, qs "/d", qs "a", []⟩).2 = true) ∧
    ∃ l os, Machine.run (Root.step sampleEnv) (.stopped none) (es (some forged)) = some (.running l, os) ∧
      l.docs.length = 1 ∧
      (l.isIndexed sampleEnv (qs "/d/a") ⟨true, 10, 7000, qs "/d", qs "a", []⟩).2 = true := by
  intro disk es forged
  obtain ⟨l, os, hrun, hl⟩ := Root.exists_running (es none) (E := sampleEnv) (fun l => decide (l.docs.length = 1 ∧
    (l.isIndexed sampleEnv (qs "/d/a") ⟨true, 10, 1500, qs "/d", qs "a", []⟩).2 = true)) (by decide +kernel)
  obtain ⟨l', os', hrun', hl'⟩ := Root.exists_running (es (some forged)) (E := sampleEnv) (fun l => decide
    (l.docs.length = 1 ∧ (l.isIndexed sampleEnv (qs "/d/a") ⟨true, 10, 7000, qs "/d", qs "a", []⟩).2 = true))
    (by decide +kernel)
  exact ⟨⟨l, os, hrun, of_decide_eq_true hl⟩, l', os', hrun', of_decide_eq_true hl'⟩

end QDesktopSearch
