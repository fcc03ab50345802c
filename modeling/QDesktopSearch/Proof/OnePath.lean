import QDesktopSearch.Model.Searcher
import QDesktopSearch.Proof.Commits
import QDesktopSearch.Proof.Metadata

/-!
# One document for each path, in the index of one root

* `OnePer`: every live document is of a file in the root that is not skipped, no two of the
  same path.
* `dir_onePer`: a pass keeps it, if on a new index no two of its entries have the same path.
* `round_onePer`: so does a round, and all it commits.
-/

namespace QDesktopSearch

variable {E : Env}

/-! ## Paths -/

/-- The path lies in the root. -/
def Below (sDir2Index path : QString) : Prop := sDir2Index ++ [QChar.ofChar '/'] <+: path

/-- The files of the root are not taken for ones of the program's own index. -/
def Indexes (sDir2Index : QString) : Prop := Worker.ownIndex (sDir2Index ++ [QChar.ofChar '/']) = false

instance : DecidableRel Below := fun sDir2Index path =>
  inferInstanceAs (Decidable (sDir2Index ++ [QChar.ofChar '/'] <+: path))

instance : DecidablePred Indexes := fun _ => inferInstanceAs (Decidable (_ = false))

theorem indexOf_length {sub s : QString} {i : ℕ} (h : indexOf sub s = some i) : i + sub.length ≤ s.length := by
  induction s generalizing i with
  | nil =>
    unfold indexOf at h
    split at h
    · rename_i hsub
      cases h
      simp [hsub]
    · exact absurd h (by simp)
  | cons c s ih =>
    unfold indexOf at h
    split at h
    · rename_i hpre
      cases h
      have hle := (List.isPrefixOf_iff_prefix.1 hpre).length_le
      omega
    · obtain ⟨j, hj, rfl⟩ := Option.map_eq_some_iff.1 h
      have hle := ih hj
      simp only [List.length_cons]
      omega

/-- What is found in a string is found where more follows. -/
theorem indexOf_append {sub s : QString} {i : ℕ} (h : indexOf sub s = some i) (t : QString) :
    indexOf sub (s ++ t) = some i := by
  induction s generalizing i with
  | nil =>
    unfold indexOf at h
    split at h
    · rename_i hsub
      cases h
      subst hsub
      cases t <;> rfl
    · exact absurd h (by simp)
  | cons c s ih =>
    have hlen := indexOf_length h
    unfold indexOf at h
    rw [List.cons_append, indexOf]
    split at h
    · rename_i hpre
      have hlong : sub.isPrefixOf (c :: (s ++ t)) = true := by
        rw [List.isPrefixOf_iff_prefix] at hpre ⊢
        exact hpre.trans (List.prefix_append (c :: s) t)
      rw [if_pos hlong]
      exact h
    · rename_i hpre
      obtain ⟨j, hj, rfl⟩ := Option.map_eq_some_iff.1 h
      -- it is no longer than the string, so it does not reach into what follows
      have hlong : ¬sub.isPrefixOf (c :: (s ++ t)) = true := by
        rw [List.isPrefixOf_iff_prefix] at hpre ⊢
        intro hp
        refine hpre (List.prefix_of_prefix_length_le hp (List.prefix_append (c :: s) t) ?_)
        simp only [List.length_cons] at hlen ⊢
        omega
      rw [if_neg hlong, ih hj]
      rfl

/-- **What is skipped stays skipped further down.** -/
theorem ownIndex_extend {s p : QString} (h : Worker.ownIndex s = true) (hp : s <+: p) : Worker.ownIndex p = true := by
  obtain ⟨t, rfl⟩ := hp
  unfold Worker.ownIndex at h ⊢
  obtain ⟨i, hi, hgt⟩ := (Option.any_eq_true _ _).1 h
  rw [indexOf_append hi]
  exact hgt

/-- A root with a file that is not skipped is not skipped. -/
theorem Below.indexes {key p : QString} (h : Below key p) (hp : Worker.ownIndex p = false) : Indexes key := by
  unfold Indexes
  rw [Bool.eq_false_iff]
  intro hown
  rw [ownIndex_extend hown h] at hp
  exact Bool.noConfusion hp

/-- **A file in two roots**: one of them lies in the other. -/
theorem Below.nested {key key' p : QString} (h : Below key p) (h' : Below key' p) (hne : key ≠ key') :
    Below key key' ∨ Below key' key := by
  have hshort : ∀ {a b : QString}, a ++ [QChar.ofChar '/'] <+: b ++ [QChar.ofChar '/'] → a ≠ b → Below a b := by
    intro a b hab hne
    refine (List.prefix_concat_iff.1 hab).resolve_left fun he => hne ?_
    exact List.append_cancel_right he
  rcases List.prefix_or_prefix_of_prefix h h' with hp | hp
  · exact Or.inl (hshort hp hne)
  · exact Or.inr (hshort hp (Ne.symm hne))

/-! ## The path of a document -/

/-- The path that is stored for an entry: `dir` and `file` each normalize. -/
def filePath (E : Env) (next : QString) : QString := normalizePath E.qt (normalizePath E.qt next false) false

/-- Tika delivers for the file a name with a value that ends up as the path. -/
def ForgesPath (E : Env) (fs : FileSystem) (sAbsPathName : QString) (finfo : QFileInfo) : Prop :=
  Worker.isBigFile finfo = false ∧ ∃ r, fs.tika (normalizePath E.qt sAbsPathName false) = some r ∧
    ∃ n ∈ r.names, n.2 ≠ [] ∧ metaName E (trimmed (E.qt.toLower n.1)) = FIELDNAME_ABSPATHNAME

/-- **The document of a file has its path**, unless Tika delivers another. -/
theorem get_pathname {fs : FileSystem} {p s : QString} {finfo : QFileInfo} (h : ¬ForgesPath E fs p finfo) :
    (indexDocument E s (Worker.metaContents E fs p finfo) finfo).get FIELDNAME_ABSPATHNAME = some p := by
  have hR : FIELDNAME_ABSPATHNAME ∈ [FIELDNAME_ABSPATHNAME] := List.mem_singleton_self _
  have halone : Alone E [FIELDNAME_ABSPATHNAME] p (Worker.metaContents E fs p finfo) := by
    refine alone_metaContents hR (by simp [reserved]) fun hbig r hr n hn hv hname => ?_
    exact h ⟨hbig, r, hr, n, hn, hv, List.mem_singleton.1 hname⟩
  rw [get_eq_head?, halone.pathname hR]
  rfl

/-! ## Passes -/

/-- Every live document is of a file in the root that is not skipped, no two of the same path. -/
structure OnePer (E : Env) (sDir2Index : QString) (docs : List Document) : Prop where
  stored : Worker.AllStored docs
  owned : ∀ d ∈ docs, ∃ p, Below sDir2Index p ∧ Worker.ownIndex p = false ∧ d.get FIELDNAME_ABSPATHNAME = some p ∧
    d.hasTerm E.tokens ⟨ID_FN, getIdFN E (normalizePath E.qt p false)⟩ = true
  once : docs.Pairwise fun d d' => d.get FIELDNAME_ABSPATHNAME ≠ d'.get FIELDNAME_ABSPATHNAME

/-- The entries are not two visited files of one path. -/
def DistinctFiles (E : Env) (fs : FileSystem) (next next' : QString) : Prop :=
  ∀ finfo finfo', Visited E fs next finfo → Visited E fs next' finfo' → filePath E next ≠ filePath E next'

/-- What a round meets: its files lie in the root, none of them has a forged path, and on a new
index no two entries have the same path. -/
structure RoundApart (E : Env) (sDir2Index : QString) (l : Lucyindexer) (r : Worker.Round) : Prop where
  below : ∀ next ∈ r.it, ∀ finfo, Visited E r.fs next finfo → Below sDir2Index (filePath E next)
  named : ∀ next ∈ r.it, ∀ finfo, Visited E r.fs next finfo → ¬ForgesPath E r.fs (filePath E next) finfo
  distinct : l.bNewIndex = true → r.it.Pairwise (DistinctFiles E r.fs)

variable {key : QString} {A B docs : List Document} {l : Lucyindexer} {r : Worker.Round}

theorem OnePer.nil : OnePer E key [] :=
  ⟨fun _ hd => absurd hd List.not_mem_nil, fun _ hd => absurd hd List.not_mem_nil, List.Pairwise.nil⟩

theorem OnePer.sublist (hsub : B.Sublist A) (h : OnePer E key A) : OnePer E key B :=
  ⟨fun d hd => h.stored d (hsub.subset hd), fun d hd => h.owned d (hsub.subset hd), h.once.sublist hsub⟩

/-- A root whose files are all skipped has no documents. -/
theorem OnePer.eq_nil (h : OnePer E key docs) (hskip : ¬Indexes key) : docs = [] := by
  rw [List.eq_nil_iff_forall_not_mem]
  intro d hd
  obtain ⟨p, hbelow, hown, -⟩ := h.owned d hd
  exact hskip (hbelow.indexes hown)

/-- A document of another path. -/
theorem OnePer.concat {doc : Document} {q : QString} (h : OnePer E key docs) (hstored : doc.Stored) (hbelow : Below key q)
    (hown : Worker.ownIndex q = false) (hpath : doc.get FIELDNAME_ABSPATHNAME = some q)
    (hterm : doc.hasTerm E.tokens ⟨ID_FN, getIdFN E (normalizePath E.qt q false)⟩ = true)
    (hother : ∀ d ∈ docs, d.get FIELDNAME_ABSPATHNAME ≠ some q) : OnePer E key (docs ++ [doc]) := by
  refine ⟨fun d hd => ?_, fun d hd => ?_, ?_⟩
  · rcases List.mem_append.1 hd with hd | hd
    · exact h.stored d hd
    · rw [List.mem_singleton.1 hd]
      exact hstored
  · rcases List.mem_append.1 hd with hd | hd
    · exact h.owned d hd
    · rw [List.mem_singleton.1 hd]
      exact ⟨q, hbelow, hown, hpath, hterm⟩
  · rw [List.pairwise_append]
    refine ⟨h.once, List.pairwise_singleton _ _, fun d hd d' hd' => ?_⟩
    rw [List.mem_singleton.1 hd', hpath]
    exact hother d hd

namespace Worker

variable {w w₁ : Worker} {next : QString} {it seen : List QString}

/-- The index in a pass that has seen these entries. -/
structure PassOK (E : Env) (key : QString) (fs : FileSystem) (seen : List QString) (l : Lucyindexer) : Prop where
  docs : OnePer E key l.docs
  fresh : l.bNewIndex = true → ∀ d ∈ l.docs, ∃ next ∈ seen, (∃ finfo, Visited E fs next finfo) ∧
    d.get FIELDNAME_ABSPATHNAME = some (filePath E next)

/-- **A file that is indexed** has the one document of its path. -/
theorem PassOK.index {fs : FileSystem} {finfo : QFileInfo} (h : PassOK E key fs seen l) (hvis : Visited E fs next finfo)
    (hbelow : Below key (filePath E next)) (hname : ¬ForgesPath E fs (filePath E next) finfo)
    (hnew : l.bNewIndex = true → ∀ e ∈ seen, DistinctFiles E fs e next) :
    PassOK E key fs (seen ++ [next])
      (l.index E (filePath E next) (metaContents E fs (filePath E next) finfo) finfo) := by
  set q := filePath E next with hq
  set doc := indexDocument E (normalizePath E.qt q false) (metaContents E fs q finfo) finfo with hdoc
  have hpath : doc.get FIELDNAME_ABSPATHNAME = some q := get_pathname hname
  set old := if l.bNewIndex then l.docs else
    l.docs.filter fun d => !Document.hasTerm E.tokens ⟨ID_FN, getIdFN E (normalizePath E.qt q false)⟩ d with hold
  have hdocs : (l.index E q (metaContents E fs q finfo) finfo).docs = old ++ [doc] := Lucyindexer.index_docs
  have hless : old.Sublist l.docs := by
    rw [hold]
    split
    · exact List.Sublist.refl _
    · exact List.filter_sublist
  have hrest : OnePer E key old := h.docs.sublist hless
  -- no document that is left has the path
  have hother : ∀ d ∈ old, d.get FIELDNAME_ABSPATHNAME ≠ some q := by
    intro d hd hget
    cases hb : l.bNewIndex with
    | true =>
      rw [hold, hb, if_pos rfl] at hd
      obtain ⟨e, he, ⟨f, hf⟩, hgete⟩ := h.fresh hb d hd
      rw [hget, Option.some.injEq] at hgete
      exact hnew hb e he f finfo hf hvis hgete.symm
    | false =>
      rw [hold, hb, if_neg Bool.false_ne_true, List.mem_filter] at hd
      obtain ⟨p, -, -, hgetp, hterm⟩ := h.docs.owned d hd.1
      rw [hget, Option.some.injEq] at hgetp
      rw [← hgetp] at hterm
      have hno := hd.2
      rw [hterm] at hno
      exact Bool.noConfusion hno
  constructor
  · rw [hdocs]
    have hterm : doc.hasTerm E.tokens ⟨ID_FN, getIdFN E (normalizePath E.qt q false)⟩ = true := by
      simp [hdoc, indexDocument, Document.hasTerm]
    exact hrest.concat (indexDocument_stored metaContents_pathname) hbelow hvis.notOwn hpath hterm hother
  · intro hb d hd
    rw [Lucyindexer.index_bNewIndex] at hb
    rw [hdocs] at hd
    rcases List.mem_append.1 hd with hd | hd
    · obtain ⟨e, he, hf⟩ := h.fresh hb d (hless.subset hd)
      exact ⟨e, List.mem_append_left _ he, hf⟩
    · rw [List.mem_singleton.1 hd]
      exact ⟨next, List.mem_append_right _ (List.mem_singleton_self _), ⟨finfo, hvis⟩, hpath⟩

variable {fs : FileSystem}

theorem PassOK.mono {l' : Lucyindexer} {seen' : List QString} (h : PassOK E key fs seen l) (hseen : seen ⊆ seen')
    (hdocs : l'.docs = l.docs) (hb : l'.bNewIndex = l.bNewIndex) : PassOK E key fs seen' l' := by
  refine ⟨hdocs ▸ h.docs, fun hnew d hd => ?_⟩
  rw [hb] at hnew
  rw [hdocs] at hd
  obtain ⟨next, hnext, hf⟩ := h.fresh hnew d hd
  exact ⟨next, hseen hnext, hf⟩

theorem enter_onePer (h : PassOK E key fs seen w.pLucyIndexer)
    (hbelow : ∀ finfo, Visited E fs next finfo → Below key (filePath E next))
    (hname : ∀ finfo, Visited E fs next finfo → ¬ForgesPath E fs (filePath E next) finfo)
    (hnew : w.pLucyIndexer.bNewIndex = true → ∀ e ∈ seen, DistinctFiles E fs e next) :
    PassOK E key fs (seen ++ [next]) (w.enter E fs next).pLucyIndexer := by
  have hseen : seen ⊆ seen ++ [next] := List.subset_append_left _ _
  rcases enter_cases E fs w next with he | ⟨finfo, he | ⟨hvis, -, he⟩⟩
  · exact h.mono hseen (by rw [he]) (by rw [he])
  · rw [he]
    exact h.mono hseen Lucyindexer.isIndexed_docs Lucyindexer.isIndexed_bNewIndex
  · rw [he]
    have hlook : PassOK E key fs seen (w.looked E (filePath E next) finfo) :=
      h.mono (List.Subset.refl _) Lucyindexer.isIndexed_docs Lucyindexer.isIndexed_bNewIndex
    refine hlook.index hvis (hbelow finfo hvis) (hname finfo hvis) fun hb => hnew ?_
    rw [looked, Lucyindexer.isIndexed_bNewIndex] at hb
    exact hb

/-- **A pass keeps one document for each path**, however far it gets. -/
theorem dir_onePer (h : PassOK E key fs seen w.pLucyIndexer)
    (hbelow : ∀ next ∈ it, ∀ finfo, Visited E fs next finfo → Below key (filePath E next))
    (hname : ∀ next ∈ it, ∀ finfo, Visited E fs next finfo → ¬ForgesPath E fs (filePath E next) finfo)
    (hdist : w.pLucyIndexer.bNewIndex = true → (seen ++ it).Pairwise (DistinctFiles E fs)) :
    PassOK E key fs (seen ++ it) (w.dir E fs it).pLucyIndexer := by
  induction it generalizing w seen with
  | nil => rw [List.append_nil]; exact h
  | cons next it ih =>
    have hcons : seen ++ next :: it = seen ++ [next] ++ it := by simp
    rw [hcons] at hdist ⊢
    rcases hirq : w.isInterruptionRequested with ⟨b, w₁⟩
    rw [← isInterruptionRequested_indexer hirq] at h hdist
    cases b with
    | true =>
      rw [dir_cons_interrupted hirq]
      exact h.mono (by simp) rfl rfl
    | false =>
      have hnew : w₁.pLucyIndexer.bNewIndex = true → ∀ e ∈ seen, DistinctFiles E fs e next := by
        intro hb e he
        have hpair := (List.pairwise_append.1 (List.pairwise_append.1 (hdist hb)).1).2.2
        exact hpair e he next (List.mem_singleton_self _)
      rw [dir_cons hirq]
      refine ih (enter_onePer h (hbelow next List.mem_cons_self) (hname next List.mem_cons_self) hnew)
        (fun n hn => hbelow n (List.mem_cons_of_mem _ hn)) (fun n hn => hname n (List.mem_cons_of_mem _ hn)) fun hb => ?_
      rw [enter_bNewIndex] at hb
      exact hdist hb

end Worker

/-! ## Rounds -/

/-- Every part of a pass leaves one document for each path. -/
theorem SessionOK.onePer_dir (h : SessionOK (OnePer E key) l) (hr : RoundApart E key l r) (w₀ : Worker)
    (hw₀ : w₀.pLucyIndexer = l) (it : List QString) (hit : it <+: r.it) :
    OnePer E key (w₀.dir E r.fs it).pLucyIndexer.docs := by
  subst hw₀
  have hstart : Worker.PassOK E key r.fs [] w₀.pLucyIndexer := by
    refine ⟨h.docs, fun hb d hd => ?_⟩
    rw [h.fresh hb] at hd
    exact absurd hd List.not_mem_nil
  have hpass : Worker.PassOK E key r.fs ([] ++ it) (w₀.dir E r.fs it).pLucyIndexer := by
    refine Worker.dir_onePer hstart (fun n hn => hr.below n (hit.subset hn)) (fun n hn => hr.named n (hit.subset hn))
      fun hb => ?_
    rw [List.nil_append]
    exact (hr.distinct hb).sublist hit.sublist
  exact hpass.docs

/-- **A round leaves and commits one document for each path.** -/
theorem Root.round_onePer {irq : Option ℕ} {s' : Root} {o : Unit} (h : SessionOK (OnePer E key) l)
    (hr : RoundApart E key l r) (hs : Root.step E (.running l) (.round r irq) = some (s', o)) :
    Root.OK (OnePer E key) s' ∧ ∀ si ∈ (Root.running l).commits E (.round r irq), OnePer E key si.docs := by
  have hsub : ∀ A B : List Document, B.Sublist A → OnePer E key A → OnePer E key B := fun _ _ hs h => h.sublist hs
  have hdir := h.onePer_dir hr
  have hok : Root.OK (OnePer E key) s' :=
    Root.round_ok hsub (fun _ h => h.stored) h.docs (fun w₀ hw₀ => hdir w₀ hw₀ r.it (List.prefix_refl _)) hs
  exact ⟨hok, (Root.round_commits hsub (fun _ h => h.stored) h.docs hdir hs).2⟩

end QDesktopSearch
