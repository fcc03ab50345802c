import QDesktopSearch.Proof.Indexer

/-!
# Incremental indexing neither loses nor duplicates a file

* `IndexOK`: every live document belongs to one file, no two to the same one, and on a new
  index all of them to files already visited in the pass.
* `file_ok`, `dir_ok`: a pass keeps it, wherever it is interrupted.
* `dir_current`: after an uninterrupted pass every visited file has exactly one live
  document, the current one.
-/

namespace QDesktopSearch

variable {E : Env}

/-! ## One file -/

namespace Worker

variable {w w' : Worker} {fs : FileSystem} {p : QString} {finfo : QFileInfo}

theorem isInterruptionRequested_indexer {b : Bool} (h : w.isInterruptionRequested = (b, w')) :
    w'.pLucyIndexer = w.pLucyIndexer := by
  unfold isInterruptionRequested at h
  split at h
  · simp only [Prod.mk.injEq] at h; rw [← h.2]
  · simp only [Prod.mk.injEq] at h; rw [← h.2]
  · simp only [Prod.mk.injEq] at h; rw [← h.2]

theorem isInterruptionRequested_none (h : w.irq = none) : w.isInterruptionRequested = (false, w) := by
  simp [isInterruptionRequested, h]

/-- The indexer after `isIndexed` in `file`. -/
def looked (E : Env) (w : Worker) (q : QString) (finfo : QFileInfo) : Lucyindexer :=
  (w.pLucyIndexer.isIndexed E q finfo).1

/-- **What `file` can do to the indexer**: nothing, a lookup, or, where the lookup found
nothing, a lookup and `index`. -/
theorem file_cases (E : Env) (fs : FileSystem) (w : Worker) (p : QString) (finfo : QFileInfo) :
    let q := normalizePath E.qt p false
    (w.file E fs p finfo).pLucyIndexer = w.pLucyIndexer ∨
      (w.file E fs p finfo).pLucyIndexer = w.looked E q finfo ∨
      (ownIndex q = false ∧ (w.pLucyIndexer.isIndexed E q finfo).2 = false ∧
        (w.file E fs p finfo).pLucyIndexer =
          (w.looked E q finfo).index E q (metaContents E fs q finfo) finfo) := by
  intro q
  have hq : q = normalizePath E.qt p false := rfl
  unfold file
  rw [← hq]
  dsimp only
  split
  · exact Or.inl rfl
  · rename_i hown
    split
    · -- interrupted before the lookup
      rename_i w₁ h₁
      have hw₁ := isInterruptionRequested_indexer h₁
      exact Or.inl hw₁
    · rename_i w₁ h₁
      have hw₁ := isInterruptionRequested_indexer h₁
      change w₁.pLucyIndexer = w.pLucyIndexer at hw₁
      split
      · -- the lookup answers yes
        rename_i w₂ h₂
        simp only [isIndexed, Prod.mk.injEq] at h₂
        right; left
        rw [← h₂.2, looked, ← hw₁]
      · rename_i w₂ h₂
        simp only [isIndexed, Prod.mk.injEq] at h₂
        have hw₂ : w₂.pLucyIndexer = w.looked E q finfo := by rw [← h₂.2, looked, ← hw₁]
        split
        · rename_i w₃ h₃
          right; left
          rw [isInterruptionRequested_indexer h₃, hw₂]
        · rename_i w₃ h₃
          have hw₃ := isInterruptionRequested_indexer h₃
          split
          · rename_i w₄ h₄
            right; left
            rw [isInterruptionRequested_indexer h₄, hw₃, hw₂]
          · -- past all three checks
            rename_i w₄ h₄
            right; right
            refine ⟨by simpa using hown, by rw [← hw₁]; exact h₂.1, ?_⟩
            show w₄.pLucyIndexer.index E q _ finfo = _
            rw [isInterruptionRequested_indexer h₄, hw₃, hw₂]

/-- **Uninterrupted, `file` indexes what is not indexed.** -/
theorem file_uninterrupted (h : w.irq = none) (hown : ownIndex (normalizePath E.qt p false) = false) :
    let q := normalizePath E.qt p false
    (w.file E fs p finfo).pLucyIndexer =
      if (w.pLucyIndexer.isIndexed E q finfo).2 then w.looked E q finfo
      else (w.looked E q finfo).index E q (metaContents E fs q finfo) finfo := by
  intro q
  unfold file
  simp only [isInterruptionRequested, h, isIndexed, looked]
  rw [if_neg (by simp [hown])]
  cases hb : (w.pLucyIndexer.isIndexed E q finfo).2 <;> rfl

theorem file_irq (h : w.irq = none) : (w.file E fs p finfo).irq = none := by
  unfold file
  simp only [isInterruptionRequested, h, isIndexed]
  split
  · exact h
  · cases (w.pLucyIndexer.isIndexed E (normalizePath E.qt p false) finfo).2 <;> rfl

end Worker

/-! ## The invariant of a pass -/

/-- `qHash` tells the paths of `S` apart, as `id_fn` and as `id_fnanddate` hash them. -/
structure HashInjective (E : Env) (S : Set QString) : Prop where
  fn : Set.InjOn E.qHash S
  fnAndDate : Set.InjOn (fun s => E.qHash (normalizePath E.qt s false)) S

/-- The live documents of an indexer in a pass that has visited the paths `seen`. -/
structure IndexOK (E : Env) (S : Set QString) (seen : List QString) (l : Lucyindexer) : Prop where
  owned : ∀ d ∈ l.docs, ∃ s ∈ S, ∃ finfo, DocumentOf E s finfo d
  once : ∀ v, l.docs.countP (Document.hasTerm E.tokens ⟨ID_FN, v⟩) ≤ 1
  fresh : l.bNewIndex = true → ∀ d ∈ l.docs, ∃ s ∈ S, s ∈ seen ∧ ∃ finfo, DocumentOf E s finfo d

/-- Exactly one live document has the `id_fn` of the path, and it has the `id_fnanddate`. -/
def Lucyindexer.HasCurrent (E : Env) (l : Lucyindexer) (s : QString) (finfo : QFileInfo) : Prop :=
  ∃ d, l.docs.filter (Document.hasTerm E.tokens ⟨ID_FN, getIdFN E s⟩) = [d] ∧
    d.hasTerm E.tokens ⟨ID_FNANDDATE, getIdFNandDATE E s finfo⟩ = true

variable {S : Set QString} {seen seen' : List QString} {l l' : Lucyindexer} {s s' p q : QString}
  {finfo : QFileInfo} {metas : QMap QStringList} {d : Document}

/-- A document with the `id_fn` of a path of `S` is the document of that path. -/
theorem DocumentOf.path_eq (hq : HashInjective E S) (hd : DocumentOf E s' finfo d) (hs' : s' ∈ S) (hs : s ∈ S)
    (h : d.hasTerm E.tokens ⟨ID_FN, getIdFN E s⟩ = true) : s = s' :=
  hq.fn hs hs' (getIdFN_eq_iff.1 ((hd.fn _).1 h))

theorem DocumentOf.has_fn (hd : DocumentOf E s finfo d) : d.hasTerm E.tokens ⟨ID_FN, getIdFN E s⟩ = true :=
  (hd.fn _).2 rfl

/-- Deletions, and calls that change no live document, keep the invariant. -/
theorem IndexOK.sublist (h : IndexOK E S seen l) (hdocs : l'.docs.Sublist l.docs) (hnew : l'.bNewIndex = l.bNewIndex) :
    IndexOK E S seen l' where
  owned d hd := h.owned d (hdocs.subset hd)
  once v := (hdocs.countP_le).trans (h.once v)
  fresh hb d hd := h.fresh (hnew ▸ hb) d (hdocs.subset hd)

theorem IndexOK.mono (h : IndexOK E S seen l) (hsub : seen ⊆ seen') : IndexOK E S seen' l :=
  { h with fresh := fun hb d hd => let ⟨s, hS, hs, hf⟩ := h.fresh hb d hd; ⟨s, hS, hsub hs, hf⟩ }

theorem IndexOK.looked {w : Worker} (h : IndexOK E S seen w.pLucyIndexer) : IndexOK E S seen (w.looked E q finfo) := by
  refine h.sublist ?_ Lucyindexer.isIndexed_bNewIndex
  rw [Worker.looked, Lucyindexer.isIndexed_docs]

/-- On a new index a path not visited yet has no live document. -/
theorem IndexOK.absent (hq : HashInjective E S) (h : IndexOK E S seen l) (hs : s ∈ S) (hns : s ∉ seen)
    (hnew : l.bNewIndex = true) : l.docs.filter (Document.hasTerm E.tokens ⟨ID_FN, getIdFN E s⟩) = [] := by
  rw [List.filter_eq_nil_iff]
  intro d hd hterm
  obtain ⟨s', hS, hs', finfo', hof⟩ := h.fresh hnew d hd
  have heq : s = s' := hof.path_eq hq hS hs hterm
  exact hns (heq ▸ hs')

/-- What is left of the documents of a path when `index` adds the new one: nothing. -/
theorem IndexOK.old_gone (hq : HashInjective E S) (h : IndexOK E S seen l) (hs : s ∈ S) (hns : s ∉ seen) :
    (l.withoutOld E s).docs.filter (Document.hasTerm E.tokens ⟨ID_FN, getIdFN E s⟩) = [] := by
  rw [Lucyindexer.withoutOld_docs]
  cases hb : l.bNewIndex with
  | true => exact h.absent hq hs hns hb
  | false =>
    rw [if_neg (by simp), List.filter_filter, List.filter_eq_nil_iff]
    intro d _
    simp

/-- **`index` keeps the invariant**, the path then being visited. -/
theorem IndexOK.index (hq : HashInjective E S) (h : IndexOK E S seen l)
    (hs : normalizePath E.qt q false ∈ S) (hns : normalizePath E.qt q false ∉ seen) (hm : NoIds E metas) :
    IndexOK E S (seen ++ [normalizePath E.qt q false]) (l.index E q metas finfo) := by
  set s := normalizePath E.qt q false with hsdef
  have hnew : DocumentOf E s finfo (indexDocument E s metas finfo) := indexDocument_of hm
  have hdocs : (l.index E q metas finfo).docs = (l.withoutOld E s).docs ++ [indexDocument E s metas finfo] := by
    rw [Lucyindexer.index_docs, Lucyindexer.withoutOld_docs]
  have hsub : (l.withoutOld E s).docs.Sublist l.docs := by
    rw [Lucyindexer.withoutOld_docs]
    split
    · exact List.Sublist.refl _
    · exact List.filter_sublist
  constructor
  · intro d hd
    rw [hdocs, List.mem_append, List.mem_singleton] at hd
    rcases hd with hd | rfl
    · exact h.owned d (hsub.subset hd)
    · exact ⟨s, hs, finfo, hnew⟩
  · intro v
    rw [hdocs, List.countP_append, List.countP_singleton]
    by_cases hv : v = getIdFN E s
    · -- the documents with this id were those of the old version
      have hgone := h.old_gone hq hs hns
      subst hv
      rw [List.countP_eq_length_filter, hgone]
      split <;> simp
    · have hno : Document.hasTerm E.tokens ⟨ID_FN, v⟩ (indexDocument E s metas finfo) = false := by
        rw [Bool.eq_false_iff]
        intro ht
        exact hv ((hnew.fn v).1 ht)
      rw [hno]
      exact (hsub.countP_le).trans (h.once v)
  · intro hb d hd
    rw [Lucyindexer.index_bNewIndex] at hb
    rw [hdocs, List.mem_append, List.mem_singleton] at hd
    rcases hd with hd | rfl
    · obtain ⟨s', hS, hs', hf⟩ := h.fresh hb d (hsub.subset hd)
      exact ⟨s', hS, List.mem_append_left _ hs', hf⟩
    · exact ⟨s, hs, by simp, finfo, hnew⟩

/-! ## The current version -/

/-- **`index` leaves exactly the new version** of its file. -/
theorem IndexOK.index_current (hq : HashInjective E S) (h : IndexOK E S seen l)
    (hs : normalizePath E.qt q false ∈ S) (hns : normalizePath E.qt q false ∉ seen) (hm : NoIds E metas) :
    (l.index E q metas finfo).HasCurrent E (normalizePath E.qt q false) finfo := by
  have hnew : DocumentOf E (normalizePath E.qt q false) finfo
      (indexDocument E (normalizePath E.qt q false) metas finfo) := indexDocument_of hm
  refine ⟨indexDocument E (normalizePath E.qt q false) metas finfo, ?_, (hnew.fnAndDate _).2 rfl⟩
  have hgone := h.old_gone hq hs hns
  rw [Lucyindexer.withoutOld_docs] at hgone
  rw [Lucyindexer.index_docs, List.filter_append, hgone]
  simp [hnew.has_fn]

/-- **What is indexed has its current version.** -/
theorem IndexOK.isIndexed_current (hq : HashInjective E S) (h : IndexOK E S seen l)
    (hs : normalizePath E.qt q false ∈ S) (hi : (l.isIndexed E q finfo).2 = true) :
    l.HasCurrent E (normalizePath E.qt q false) finfo := by
  -- on a new index nothing is looked up
  have hb : l.bNewIndex = false := by
    by_contra hne
    rw [Bool.not_eq_false] at hne
    rw [Lucyindexer.isIndexed_new hne] at hi
    exact Bool.false_ne_true hi
  rw [Lucyindexer.isIndexed_eq hb, List.any_eq_true] at hi
  obtain ⟨d, hd, hterm⟩ := hi
  obtain ⟨s', hs', finfo', hof⟩ := h.owned d hd
  have hpath : normalizePath E.qt q false = s' :=
    hq.fnAndDate hs hs' (getIdFNandDATE_eq_iff.1 ((hof.fnAndDate _).1 hterm)).1
  have hmem : d ∈ l.docs.filter (Document.hasTerm E.tokens ⟨ID_FN, getIdFN E (normalizePath E.qt q false)⟩) := by
    rw [List.mem_filter, hpath]
    exact ⟨hd, hof.has_fn⟩
  have hle := h.once (getIdFN E (normalizePath E.qt q false))
  rw [List.countP_eq_length_filter] at hle
  refine ⟨d, ?_, hterm⟩
  obtain ⟨d', hd'⟩ := List.length_eq_one_iff.1 (le_antisymm hle (List.length_pos_of_mem hmem))
  rw [hd', List.mem_singleton] at hmem
  rw [hd', hmem]

/-- **`index` leaves the documents of other files alone**, where every document belongs to one. -/
theorem Lucyindexer.index_other (hq : HashInjective E S) (howned : ∀ d ∈ l.docs, ∃ s ∈ S, ∃ finfo, DocumentOf E s finfo d)
    (hs : normalizePath E.qt q false ∈ S) (hs' : s' ∈ S) (hne : s' ≠ normalizePath E.qt q false) (hm : NoIds E metas) :
    (l.index E q metas finfo).docs.filter (Document.hasTerm E.tokens ⟨ID_FN, getIdFN E s'⟩) =
      l.docs.filter (Document.hasTerm E.tokens ⟨ID_FN, getIdFN E s'⟩) := by
  have hnew : DocumentOf E (normalizePath E.qt q false) finfo
      (indexDocument E (normalizePath E.qt q false) metas finfo) := indexDocument_of hm
  have hno : Document.hasTerm E.tokens ⟨ID_FN, getIdFN E s'⟩
      (indexDocument E (normalizePath E.qt q false) metas finfo) = false := by
    rw [Bool.eq_false_iff]
    intro ht
    exact hne (hnew.path_eq hq hs hs' ht)
  rw [Lucyindexer.index_docs, List.filter_append, List.filter_singleton, hno, cond_false, List.append_nil]
  split
  · rfl
  · rw [List.filter_filter]
    apply List.filter_congr
    intro d hd
    obtain ⟨t, ht, finfo', hof⟩ := howned d hd
    -- a document of `s'` does not have the `id_fn` of the file that is indexed
    cases h1 : Document.hasTerm E.tokens ⟨ID_FN, getIdFN E s'⟩ d with
    | false => simp
    | true =>
      have ht' : s' = t := hof.path_eq hq ht hs' h1
      have h2 : Document.hasTerm E.tokens ⟨ID_FN, getIdFN E (normalizePath E.qt q false)⟩ d = false := by
        rw [Bool.eq_false_iff]
        intro h2
        exact hne (ht'.trans (hof.path_eq hq ht hs h2).symm)
      simp [h2]

theorem IndexOK.index_other (hq : HashInjective E S) (h : IndexOK E S seen l)
    (hs : normalizePath E.qt q false ∈ S) (hs' : s' ∈ S) (hne : s' ≠ normalizePath E.qt q false) (hm : NoIds E metas) :
    (l.index E q metas finfo).docs.filter (Document.hasTerm E.tokens ⟨ID_FN, getIdFN E s'⟩) =
      l.docs.filter (Document.hasTerm E.tokens ⟨ID_FN, getIdFN E s'⟩) :=
  l.index_other hq h.owned hs hs' hne hm

/-! ## A pass -/

/-- The path whose hash identifies an entry: `dir`, `file` and `index` each normalize. -/
def indexedPath (E : Env) (next : QString) : QString :=
  normalizePath E.qt (normalizePath E.qt (normalizePath E.qt next false) false) false

/-- The entry is a regular file that `file` does not skip. -/
structure Visited (E : Env) (fs : FileSystem) (next : QString) (finfo : QFileInfo) : Prop where
  stat : fs.stat (normalizePath E.qt next false) = some finfo
  isFile : finfo.isFile = true
  notOwn : Worker.ownIndex (normalizePath E.qt (normalizePath E.qt next false) false) = false

variable {w w₁ : Worker} {fs : FileSystem} {next : QString} {it : List QString}

namespace Worker

/-- One round of the loop of `dir`, past its check. -/
def enter (E : Env) (fs : FileSystem) (w : Worker) (next : QString) : Worker :=
  match fs.stat (normalizePath E.qt next false) with
  | none => w
  | some finfo => if finfo.isFile then w.file E fs (normalizePath E.qt next false) finfo else w

theorem dir_cons_interrupted (h : w.isInterruptionRequested = (true, w₁)) : w.dir E fs (next :: it) = w₁ := by
  rw [dir, h]

theorem dir_cons (h : w.isInterruptionRequested = (false, w₁)) :
    w.dir E fs (next :: it) = (w₁.enter E fs next).dir E fs it := by
  rw [dir, h, enter]
  dsimp only
  cases fs.stat (normalizePath E.qt next false) <;> rfl

/-- What one round can do to the indexer: nothing, a lookup, or a lookup and `index`. -/
theorem enter_cases (E : Env) (fs : FileSystem) (w : Worker) (next : QString) :
    let q := normalizePath E.qt (normalizePath E.qt next false) false
    (w.enter E fs next).pLucyIndexer = w.pLucyIndexer ∨
      ∃ finfo, (w.enter E fs next).pLucyIndexer = w.looked E q finfo ∨
        (Visited E fs next finfo ∧ (w.pLucyIndexer.isIndexed E q finfo).2 = false ∧
          (w.enter E fs next).pLucyIndexer =
            (w.looked E q finfo).index E q (metaContents E fs q finfo) finfo) := by
  intro q
  unfold enter
  split
  · exact Or.inl rfl
  · rename_i finfo hstat
    split
    · rename_i hfile
      rcases file_cases E fs w (normalizePath E.qt next false) finfo with he | he | ⟨hown, hi, he⟩
      · exact Or.inl he
      · exact Or.inr ⟨finfo, Or.inl he⟩
      · exact Or.inr ⟨finfo, Or.inr ⟨⟨hstat, hfile, hown⟩, hi, he⟩⟩
    · exact Or.inl rfl

theorem enter_irq (h : w.irq = none) : (w.enter E fs next).irq = none := by
  unfold enter
  split
  · exact h
  · split
    · exact file_irq h
    · exact h

theorem dir_irq (h : w.irq = none) : (w.dir E fs it).irq = none := by
  induction it generalizing w with
  | nil => exact h
  | cons next it ih =>
    rw [dir_cons (isInterruptionRequested_none h)]
    exact ih (enter_irq h)

theorem enter_bNewIndex : (w.enter E fs next).pLucyIndexer.bNewIndex = w.pLucyIndexer.bNewIndex := by
  rcases enter_cases E fs w next with he | ⟨finfo, he | ⟨-, -, he⟩⟩
  · rw [he]
  · rw [he, looked, Lucyindexer.isIndexed_bNewIndex]
  · rw [he, Lucyindexer.index_bNewIndex, looked, Lucyindexer.isIndexed_bNewIndex]

theorem enter_ok (hq : HashInjective E S) (h : IndexOK E S seen w.pLucyIndexer) (hfs : fs.NoIdNames E)
    (hv : ∀ finfo, Visited E fs next finfo → indexedPath E next ∈ S) (hns : indexedPath E next ∉ seen) :
    IndexOK E S (seen ++ [indexedPath E next]) (w.enter E fs next).pLucyIndexer := by
  have hsub : seen ⊆ seen ++ [indexedPath E next] := List.subset_append_left _ _
  rcases enter_cases E fs w next with he | ⟨finfo, he | ⟨hvis, -, he⟩⟩
  · rw [he]; exact h.mono hsub
  · rw [he]; exact h.looked.mono hsub
  · rw [he]
    have hs : indexedPath E next ∈ S := hv finfo hvis
    exact h.looked.index hq hs hns (metaContents_noIds hfs)

/-- A round leaves the documents of other files alone. -/
theorem enter_other (hq : HashInjective E S) (h : IndexOK E S seen w.pLucyIndexer) (hfs : fs.NoIdNames E)
    (hv : ∀ finfo, Visited E fs next finfo → indexedPath E next ∈ S) (hs : s ∈ S) (hne : s ≠ indexedPath E next)
    (hc : w.pLucyIndexer.HasCurrent E s finfo) : (w.enter E fs next).pLucyIndexer.HasCurrent E s finfo := by
  obtain ⟨d, hd, hterm⟩ := hc
  refine ⟨d, ?_, hterm⟩
  rw [← hd]
  rcases enter_cases E fs w next with he | ⟨finfo', he | ⟨hvis, -, he⟩⟩
  · rw [he]
  · rw [he, looked, Lucyindexer.isIndexed_docs]
  · rw [he, h.looked.index_other hq (hv finfo' hvis) hs hne (metaContents_noIds hfs), looked,
      Lucyindexer.isIndexed_docs]

/-- **An uninterrupted round leaves the current version** of the file it visits. -/
theorem enter_current (hq : HashInjective E S) (h : IndexOK E S seen w.pLucyIndexer) (hfs : fs.NoIdNames E)
    (hirq : w.irq = none) (hvis : Visited E fs next finfo) (hs : indexedPath E next ∈ S)
    (hns : indexedPath E next ∉ seen) : (w.enter E fs next).pLucyIndexer.HasCurrent E (indexedPath E next) finfo := by
  have he : w.enter E fs next = w.file E fs (normalizePath E.qt next false) finfo := by
    unfold enter
    rw [hvis.stat]
    exact if_pos hvis.isFile
  rw [he, file_uninterrupted hirq hvis.notOwn]
  split
  · rename_i hi
    -- found by its `id_fnanddate`
    obtain ⟨d, hd, hterm⟩ := h.isIndexed_current hq hs hi
    refine ⟨d, ?_, hterm⟩
    rw [looked, Lucyindexer.isIndexed_docs]
    exact hd
  · exact h.looked.index_current hq hs hns (metaContents_noIds hfs)

/-- One entry more has been seen. -/
theorem seen_cons : seen ++ (next :: it).map (indexedPath E) =
    (seen ++ [indexedPath E next]) ++ it.map (indexedPath E) := by simp

/-- Where no path comes twice, the next one was not seen and does not come again. -/
theorem seen_nodup (hnd : (seen ++ (next :: it).map (indexedPath E)).Nodup) :
    indexedPath E next ∉ seen ∧ indexedPath E next ∉ it.map (indexedPath E) ∧
      ((seen ++ [indexedPath E next]) ++ it.map (indexedPath E)).Nodup := by
  rw [seen_cons] at hnd
  have hsplit := List.nodup_append.1 hnd
  refine ⟨fun hmem => ?_, fun hmem => ?_, hnd⟩
  · exact (List.nodup_append.1 hsplit.1).2.2 _ hmem _ (List.mem_singleton_self _) rfl
  · exact hsplit.2.2 _ (List.mem_append_right _ (List.mem_singleton_self _)) _ hmem rfl

/-- **A pass keeps the invariant**, wherever it is interrupted. -/
theorem dir_ok (hq : HashInjective E S) (h : IndexOK E S seen w.pLucyIndexer) (hfs : fs.NoIdNames E)
    (hv : ∀ next ∈ it, ∀ finfo, Visited E fs next finfo → indexedPath E next ∈ S)
    (hnd : (seen ++ it.map (indexedPath E)).Nodup) :
    IndexOK E S (seen ++ it.map (indexedPath E)) (w.dir E fs it).pLucyIndexer := by
  induction it generalizing w seen with
  | nil => rw [List.map_nil, List.append_nil]; exact h
  | cons next it ih =>
    obtain ⟨hns, -, hnd⟩ := seen_nodup hnd
    rw [seen_cons]
    rcases hirq : w.isInterruptionRequested with ⟨_ | _, w₁⟩
    · rw [dir_cons hirq]
      rw [← isInterruptionRequested_indexer hirq] at h
      exact ih (enter_ok hq h hfs (hv next List.mem_cons_self) hns)
        (fun n hn => hv n (List.mem_cons_of_mem _ hn)) hnd
    · rw [dir_cons_interrupted hirq, isInterruptionRequested_indexer hirq]
      exact h.mono (by simp)

/-- The rest of a pass leaves the version of a file that it does not visit. -/
theorem dir_other (hq : HashInjective E S) (h : IndexOK E S seen w.pLucyIndexer) (hfs : fs.NoIdNames E)
    (hv : ∀ next ∈ it, ∀ finfo, Visited E fs next finfo → indexedPath E next ∈ S)
    (hnd : (seen ++ it.map (indexedPath E)).Nodup) (hs : s ∈ S) (hne : s ∉ it.map (indexedPath E))
    (hc : w.pLucyIndexer.HasCurrent E s finfo) : (w.dir E fs it).pLucyIndexer.HasCurrent E s finfo := by
  induction it generalizing w seen with
  | nil => exact hc
  | cons next it ih =>
    obtain ⟨hns, -, hnd⟩ := seen_nodup hnd
    rw [List.map_cons, List.mem_cons, not_or] at hne
    rcases hirq : w.isInterruptionRequested with ⟨_ | _, w₁⟩
    · rw [dir_cons hirq]
      rw [← isInterruptionRequested_indexer hirq] at h hc
      exact ih (enter_ok hq h hfs (hv next List.mem_cons_self) hns)
        (fun n hn => hv n (List.mem_cons_of_mem _ hn)) hnd hne.2
        (enter_other hq h hfs (hv next List.mem_cons_self) hs hne.1 hc)
    · rw [dir_cons_interrupted hirq, isInterruptionRequested_indexer hirq]
      exact hc

/-- **An uninterrupted pass leaves the current version of every file it visits.** -/
theorem dir_current (hq : HashInjective E S) (h : IndexOK E S seen w.pLucyIndexer) (hfs : fs.NoIdNames E)
    (hirq : w.irq = none) (hv : ∀ next ∈ it, ∀ finfo, Visited E fs next finfo → indexedPath E next ∈ S)
    (hnd : (seen ++ it.map (indexedPath E)).Nodup) (hnext : next ∈ it) (hvis : Visited E fs next finfo) :
    (w.dir E fs it).pLucyIndexer.HasCurrent E (indexedPath E next) finfo := by
  induction it generalizing w seen with
  | nil => exact absurd hnext List.not_mem_nil
  | cons n it ih =>
    obtain ⟨hns, hlater, hnd⟩ := seen_nodup hnd
    have hv' : ∀ n ∈ it, ∀ finfo, Visited E fs n finfo → indexedPath E n ∈ S :=
      fun n hn => hv n (List.mem_cons_of_mem _ hn)
    have hok := enter_ok hq h hfs (hv n List.mem_cons_self) hns
    rw [dir_cons (isInterruptionRequested_none hirq)]
    rcases List.mem_cons.1 hnext with rfl | hmem
    · -- the entry itself; the later ones leave it alone
      have hs : indexedPath E next ∈ S := hv next List.mem_cons_self finfo hvis
      exact dir_other hq hok hfs hv' hnd hs hlater (enter_current hq h hfs hirq hvis hs hns)
    · exact ih hok (enter_irq hirq) hv' hnd hmem

end Worker

end QDesktopSearch
