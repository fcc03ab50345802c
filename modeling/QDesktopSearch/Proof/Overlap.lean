import QDesktopSearch.Proof.Hits
import QDesktopSearch.Proof.Paths
import QDesktopSearch.Proof.Settings

/-!
# Roots that overlap report a file twice

* `event_reaches`: an event of a worker, from its beginning to its end.
* `visit`: the worker of a root, from before its start to after its end, with one file on disk.
* `visits`: the workers of all roots, one after the other.
* `hits_once_iff`: in every run each file is reported once, exactly if the roots are apart.
-/

namespace QDesktopSearch

open Machine Slots

variable {E : Env} {x : Indexer}

/-! ## A file in a root -/

/-- The path of a file in a root. -/
def fileIn (key : QString) : QString := key ++ [QChar.ofChar '/'] ++ [QChar.ofChar 'f']

theorem below_fileIn {key : QString} : Below key (fileIn key) := List.prefix_append _ _

/-- **The path of a file in a normalized root** is normalized. -/
theorem normalizePath_fileIn {Q : Qt} {key d : QString} (h : key = normalizePath Q d false) :
    normalizePath Q (fileIn key) false = fileIn key := by
  have hhead : ∀ c, (fileIn key).head? = some c → c.isSpace = false := by
    intro c hc
    cases hkey : key with
    | nil =>
      rw [hkey] at hc
      obtain rfl := Option.some.inj hc
      decide
    | cons a k =>
      rw [hkey] at hc
      have hfirst : (normalizePath Q d false).head? = some c := by
        rw [← h, hkey]
        exact hc
      exact head_normalizePath hfirst
  have hlast : (fileIn key).getLast? = some (QChar.ofChar 'f') := List.getLast?_concat
  refine CleanPath.normalizePath_eq ⟨?_, ?_, hhead, ?_⟩
  · intro hmem
    simp only [fileIn, List.mem_append, List.mem_singleton] at hmem
    rcases hmem with (hmem | hmem) | hmem
    · exact not_mem_normalizePath (h ▸ hmem)
    · revert hmem; decide
    · revert hmem; decide
  · rw [hlast]
    decide
  · intro c hc
    rw [hlast] at hc
    obtain rfl := Option.some.inj hc
    decide

/-- What ends with another letter than the string is found before that letter. -/
theorem indexOf_concat {sub s : QString} {c : QChar} {i : ℕ} (hsub : sub ≠ []) (hc : sub.getLast? ≠ some c)
    (h : indexOf sub (s ++ [c]) = some i) : indexOf sub s = some i := by
  -- a prefix of the longer string ends before `c`
  have hshort : ∀ t : QString, sub <+: t ++ [c] → sub <+: t := by
    intro t ht
    refine (List.prefix_concat_iff.1 ht).resolve_left fun he => hc ?_
    rw [he, List.getLast?_concat]
  induction s generalizing i with
  | nil =>
    have hnil : ¬sub <+: [c] := fun ht => hsub (List.prefix_nil.1 (hshort [] ht))
    simp only [List.nil_append, indexOf, List.isPrefixOf_iff_prefix, hnil, if_false, hsub] at h
    exact absurd h (by simp)
  | cons a s ih =>
    rw [List.cons_append, indexOf] at h
    rw [indexOf]
    split at h
    · rename_i hpre
      rw [if_pos (List.isPrefixOf_iff_prefix.2 (hshort (a :: s) (List.isPrefixOf_iff_prefix.1 hpre)))]
      exact h
    · rename_i hpre
      obtain ⟨j, hj, rfl⟩ := Option.map_eq_some_iff.1 h
      have hno : ¬sub.isPrefixOf (a :: s) = true := by
        rw [List.isPrefixOf_iff_prefix] at hpre ⊢
        exact fun hp => hpre (hp.trans (List.prefix_append (a :: s) [c]))
      rw [if_neg hno, ih hj]
      rfl

theorem ownIndex_fileIn {key : QString} (h : Indexes key) : Worker.ownIndex (fileIn key) = false := by
  rw [Bool.eq_false_iff]
  intro hown
  obtain ⟨i, hi, hgt⟩ := (Option.any_eq_true _ _).1 hown
  have hin := indexOf_concat (by decide) (by decide) hi
  have hskip : Worker.ownIndex (key ++ [QChar.ofChar '/']) = true := by
    rw [Worker.ownIndex, hin]
    exact hgt
  rw [show Worker.ownIndex _ = false from h] at hskip
  exact Bool.noConfusion hskip

/-! ## A round on a disk where every path is a file -/

/-- Every path is an empty file, of which Tika tells nothing. -/
def everywhere : FileSystem := ⟨fun _ => some ⟨true, 0, 0, [], [], []⟩, fun _ => none⟩

/-- A round that meets these entries. -/
def roundOf (it : List QString) : Worker.Round := ⟨it, everywhere, everywhere⟩

/-- The documents are of one path. -/
def OnlyOf (p : QString) (docs : List Document) : Prop := ∀ d ∈ docs, d.Stored ∧ d.get FIELDNAME_ABSPATHNAME = some p

variable {p : QString} {l : Lucyindexer} {it : List QString}

theorem OnlyOf.sublist (A B : List Document) (hsub : B.Sublist A) (h : OnlyOf p A) : OnlyOf p B :=
  fun d hd => h d (hsub.subset hd)

theorem OnlyOf.stored (A : List Document) (h : OnlyOf p A) : Worker.AllStored A := fun d hd => (h d hd).1

/-- No file has a forged path there. -/
theorem not_forgesPath {q : QString} {finfo : QFileInfo} : ¬ForgesPath E everywhere q finfo := by
  rintro ⟨-, r, hr, -⟩
  exact absurd hr (by simp [everywhere])

namespace Worker

variable {w : Worker}

/-- **A pass over entries of one path** adds documents of that path only. -/
theorem dir_onlyOf (h : OnlyOf p w.pLucyIndexer.docs) (hit : ∀ next ∈ it, filePath E next = p) :
    OnlyOf p (w.dir E everywhere it).pLucyIndexer.docs := by
  induction it generalizing w with
  | nil => exact h
  | cons next it ih =>
    rcases hirq : w.isInterruptionRequested with ⟨b, w₁⟩
    rw [← isInterruptionRequested_indexer hirq] at h
    cases b with
    | true =>
      rw [dir_cons_interrupted hirq]
      exact h
    | false =>
      rw [dir_cons hirq]
      refine ih ?_ fun n hn => hit n (List.mem_cons_of_mem _ hn)
      rcases enter_cases E everywhere w₁ next with he | ⟨finfo, he | ⟨-, -, he⟩⟩
      · rw [he]; exact h
      · rw [he, looked, Lucyindexer.isIndexed_docs]; exact h
      · intro d hd
        rw [he, Lucyindexer.index_docs, looked, Lucyindexer.isIndexed_docs, List.mem_append, List.mem_singleton] at hd
        rcases hd with hd | rfl
        · split at hd
          · exact h d hd
          · exact h d (List.mem_filter.1 hd).1
        · have hq : normalizePath E.qt (normalizePath E.qt next false) false = p := hit next List.mem_cons_self
          rw [hq]
          exact ⟨indexDocument_stored metaContents_pathname, get_pathname not_forgesPath⟩

/-- So does each part of it. -/
theorem dirs_onlyOf (h : OnlyOf p l.docs) (hit : ∀ next ∈ it, filePath E next = p) (w₀ : Worker)
    (hw₀ : w₀.pLucyIndexer = l) (it₁ : List QString) (hit₁ : it₁ <+: it) :
    OnlyOf p (w₀.dir E everywhere it₁).pLucyIndexer.docs := by
  subst hw₀
  exact dir_onlyOf h fun next hnext => hit next (hit₁.subset hnext)

/-- **An uninterrupted pass over the file** leaves a document. -/
theorem dir_nonempty (hirq : w.irq = none) (hp : normalizePath E.qt p false = p) (hown : ownIndex p = false) :
    (w.dir E everywhere [p]).pLucyIndexer.docs ≠ [] := by
  rw [dir_cons (isInterruptionRequested_none hirq), dir]
  have he : w.enter E everywhere p = w.file E everywhere p ⟨true, 0, 0, [], [], []⟩ := by
    simp only [enter, everywhere, ↓reduceIte, hp]
  rw [he, file_uninterrupted hirq (by rw [hp]; exact hown)]
  split
  · -- it is indexed, so the index is old and has a document
    rename_i hindexed
    rw [looked, Lucyindexer.isIndexed_docs]
    intro hnil
    cases hb : w.pLucyIndexer.bNewIndex with
    | true =>
      rw [Lucyindexer.isIndexed_new hb] at hindexed
      exact Bool.noConfusion hindexed
    | false =>
      rw [Lucyindexer.isIndexed_eq hb, hnil] at hindexed
      exact Bool.noConfusion hindexed
  · rw [Lucyindexer.index_docs]
    simp

/-- **A purge where every path exists** leaves all documents. -/
theorem del_everywhere (hbuf : w.pLucyIndexer.pIndexWriter.buffered = []) (hstored : AllStored w.pLucyIndexer.docs)
    (hirq : w.irq = none) : ∃ w', w.del E (roundOf it) = some (w', false) ∧ w'.irq = none ∧
      w'.pLucyIndexer.docs = w.pLucyIndexer.docs := by
  have hst : w.Steady w.pLucyIndexer.pIndexWriter.slots := steady_of_buffered hbuf
  obtain ⟨s, ds, hs, hds, hbelow, -, hfull⟩ := delDeletedFilesFromIdx_spec (E := E) hst hstored everywhere
  obtain ⟨hirq', hall⟩ := hfull hirq
  have hnone : ds = [] := by
    rw [hall, List.eq_nil_iff_forall_not_mem]
    intro doc hdoc
    obtain ⟨-, hat⟩ := mem_docsBelow.1 hdoc
    obtain ⟨d, -, hc, -⟩ := docAt_eq_some.1 hat
    exact absurd (condemned_eq_some hc).2.2.2.1 (by simp [FileSystem.exists_, everywhere])
  subst hnone
  refine ⟨s.worker, ?_, hirq', ?_⟩
  · simp [del, isInterruptionRequested_none hirq, roundOf, hs, hds, delDocs]
  · have hst' : s.worker.Steady _ := hbelow.steady
    rw [hst'.docs, hst.docs]
    rfl

theorem wait_none {n : ℕ} (hirq : w.irq = none) : w.wait n = (w, false) := by
  induction n with
  | zero => rfl
  | succ n ih =>
    rw [wait, isInterruptionRequested_none hirq]
    exact ih

/-- **An uninterrupted round** leaves the documents of its pass. -/
theorem round_everywhere (h : OnlyOf p l.docs) (hit : ∀ next ∈ it, filePath E next = p) :
    ∃ w', round E (roundOf it) ⟨l, 0, 0, none⟩ = some (w', false) ∧ w'.irq = none ∧
      w'.pLucyIndexer.docs = (dir E everywhere ⟨l, 0, 0, none⟩ it).pLucyIndexer.docs := by
  have hpass : OnlyOf p (dir E everywhere ⟨l, 0, 0, none⟩ it).pLucyIndexer.docs := dir_onlyOf h hit
  obtain ⟨hd, -, hbuf, -⟩ := onIndexerThreadFinished_spec (E := E) (w := dir E everywhere ⟨l, 0, 0, none⟩ it)
  obtain ⟨w', hdel, hirq, hdocs⟩ := del_everywhere hbuf (by rw [hd]; exact hpass.stored) (dir_irq rfl)
  refine ⟨w', ?_, hirq, hdocs.trans hd⟩
  rw [round, l.idx_uninterrupted]
  exact hdel

end Worker

/-! ## The worker of a root, from start to end -/

namespace Root

/-- The worker opens its index, goes through the round and is interrupted in the next one. -/
theorem visit {dir : Directory Document} (hdir : ∀ si, dir = some si → OnlyOf p si.docs)
    (hit : ∀ next ∈ it, filePath E next = p) : ∃ l l₁,
      step E (stopped dir) .openIndex = some (running l, ()) ∧
      step E (running l) (.round (roundOf it) none) = some (running l₁, ()) ∧
      (running l).passes E (.round (roundOf it) none) = true ∧
      step E (running l₁) (.round (roundOf []) (some 0)) = some (stopped (l₁.close E), ()) ∧
      OnlyOf p l.docs ∧ (∀ si, dir = some si → l.docs = si.docs) ∧
      l₁.docs = (Worker.dir E everywhere ⟨l, 0, 0, none⟩ it).pLucyIndexer.docs := by
  obtain ⟨l, hl⟩ : ∃ l, Lucyindexer.open? dir = some l := by
    cases dir with
    | none => exact ⟨_, rfl⟩
    | some si => exact ⟨_, rfl⟩
  obtain ⟨hold, hnew⟩ := Lucyindexer.open_docs hl
  have honly : OnlyOf p l.docs := by
    cases dir with
    | none =>
      rw [(hnew rfl).2]
      exact fun d hd => absurd hd List.not_mem_nil
    | some si =>
      rw [(hold si rfl).2]
      exact hdir si rfl
  obtain ⟨w', hround, hirq, hdocs⟩ := Worker.round_everywhere (E := E) honly hit
  refine ⟨l, w'.pLucyIndexer, ?_, ?_, ?_, ?_, honly, fun si hsi => (hold si hsi).2, hdocs⟩
  · simp [step, hl]
  · simp [step, hround, Worker.wait_none hirq]
  · simp [passes, hround]
  · simp [step, Worker.round, Worker.idx, Worker.isInterruptionRequested]

end Root

namespace Desktop

variable {s : Desktop} {key : QString}

/-- The rounds that the event begins keep files apart, in whatever state. -/
def Tame (E : Env) (e : Event) : Prop := ∀ s : Desktop, RoundsApart E s e

theorem tame_goesOn : Tame E (.goesOn key) := fun _ _ _ _ _ h => absurd h (by simp)

theorem tame_openIndex : Tame E (.begins key .openIndex) := fun _ _ _ _ _ h => absurd h (by simp)

theorem tame_round {irq : Option ℕ} (hit : it = [] ∨ it = [p] ∧ Below key (filePath E p)) :
    Tame E (.begins key (.round (roundOf it) irq)) := by
  intro s k r irq' l he _
  simp only [Event.begins.injEq, Root.Event.round.injEq] at he
  obtain ⟨rfl, rfl, -⟩ := he
  refine ⟨fun next hnext finfo _ => ?_, fun next _ finfo _ => not_forgesPath, fun _ => ?_⟩
  · rcases hit with rfl | ⟨rfl, hbelow⟩
    · exact absurd hnext List.not_mem_nil
    · rw [List.mem_singleton.1 hnext]
      exact hbelow
  · rcases hit with rfl | ⟨rfl, -⟩
    · exact List.Pairwise.nil
    · exact List.pairwise_singleton _ _

/-- The state with another worker, index directory and note of the root. -/
def put (E : Env) (s : Desktop) (key : QString) (a : Activity) (dir : Directory Document) (passed : Bool) : Desktop where
  worker := Function.update s.worker key a
  disk := Function.update s.disk (sDirIndex E key) dir
  passed := Function.update s.passed key passed

variable {a : Activity} {dir : Directory Document} {b : Bool}

@[simp] theorem put_worker : (s.put E key a dir b).worker key = a := Function.update_self ..

@[simp] theorem put_disk : (s.put E key a dir b).disk (sDirIndex E key) = dir := Function.update_self ..

@[simp] theorem put_passed : (s.put E key a dir b).passed key = b := Function.update_self ..

theorem put_of_idle (h : s.worker key = .between none) :
    s.put E key (.between none) (s.disk (sDirIndex E key)) (s.passed key) = s := by
  rw [put, ← h, Function.update_eq_self, Function.update_eq_self, Function.update_eq_self]

/-- **The rest of an event**: its commits, and its end. -/
theorem goesOn_reaches {commits : List (SegmentInfos Document)} {root : Root} {passes : Bool} :
    Reaches (step E x) (Tame E) (s.put E key (.busy commits root passes) dir b)
      (s.put E key (.between root.pLucyIndexer) (Root.afterCommits dir commits) (b || passes)) := by
  induction commits generalizing dir with
  | nil =>
    have hstep : step E x (s.put E key (.busy [] root passes) dir b) (.goesOn key) =
        some (s.put E key (.between root.pLucyIndexer) (Root.afterCommits dir []) (b || passes), ()) := by
      simp only [step, put_worker, put_passed]
      simp only [put, Function.update_idem]
      rfl
    exact Reaches.refl.head tame_goesOn hstep
  | cons si commits ih =>
    have hstep : step E x (s.put E key (.busy (si :: commits) root passes) dir b) (.goesOn key) =
        some (s.put E key (.busy commits root passes) (some si) b, ()) := by
      simp only [step, put_worker]
      simp only [put, Function.update_idem]
    exact ih.head tame_goesOn hstep

/-- Nobody else has an index open. -/
theorem free_of (h : ∀ k, k ≠ key → s.worker k = .between none) : s.free E x key = true := by
  unfold free
  rw [List.all_eq_true]
  intro k _
  by_cases hk : k = key
  · simp [hk]
  · simp [h k hk]

/-- **An event of a worker, from its beginning to its end**, while no other one runs. -/
theorem event_reaches {e : Root.Event} {root root' : Root} (hkey : key ∈ x.searched)
    (hquiet : ∀ k, s.worker k = .between none) (hs : root.step E e = some (root', ()))
    (hafter : Root.afterCommits root.committed (root.commits E e) = root'.committed) (htame : Tame E (.begins key e)) :
    Reaches (step E x) (Tame E) (s.put E key (.between root.pLucyIndexer) root.committed b)
      (s.put E key (.between root'.pLucyIndexer) root'.committed (b || root.passes E e)) := by
  have hroot : (s.put E key (.between root.pLucyIndexer) root.committed b).root E key root.pLucyIndexer = root := by
    cases root with
    | stopped dir => rw [Root.pLucyIndexer, Desktop.root, put_disk, Root.committed]
    | running l => rfl
  have hfree : (s.put E key (.between root.pLucyIndexer) root.committed b).free E x key = true :=
    free_of fun k hk => (Function.update_of_ne hk ..).trans (hquiet k)
  have hstep : step E x (s.put E key (.between root.pLucyIndexer) root.committed b) (.begins key e) =
      some (s.put E key (.busy (root.commits E e) root' (root.passes E e)) root.committed b, ()) := by
    have hcond : (x.searched.contains key && true) = true := by
      rw [Bool.and_true, List.contains_iff_mem]
      exact hkey
    simp only [step, put_worker, hfree, hcond, ↓reduceIte, hroot, hs, Option.map_some]
    simp only [put, Function.update_idem]
  have hrest : Reaches (step E x) (Tame E)
      (s.put E key (.busy (root.commits E e) root' (root.passes E e)) root.committed b)
      (s.put E key (.between root'.pLucyIndexer) root'.committed (b || root.passes E e)) := by
    rw [← hafter]
    exact goesOn_reaches
  exact hrest.head htame hstep

/-- **A worker from before its start to after its end**: it completes a pass and leaves the
documents of that pass. -/
theorem visit (hkey : key ∈ x.searched) (hquiet : ∀ k, s.worker k = .between none)
    (hdisk : ∀ si, s.disk (sDirIndex E key) = some si → OnlyOf p si.docs) (hp : normalizePath E.qt p false = p)
    (hown : Worker.ownIndex p = false) (hit : it = [] ∨ it = [p] ∧ Below key p) :
    ∃ si, Reaches (step E x) (Tame E) s (s.put E key (.between none) (some si) true) ∧
      OnlyOf p si.docs ∧ (it = [p] → si.docs ≠ []) ∧
      ∀ si₀, s.disk (sDirIndex E key) = some si₀ → si₀.docs ≠ [] → si.docs ≠ [] := by
  have hfile : filePath E p = p := by rw [filePath, hp, hp]
  have hpaths : ∀ next ∈ it, filePath E next = p := by
    intro next hnext
    rcases hit with rfl | ⟨rfl, -⟩
    · exact absurd hnext List.not_mem_nil
    · rw [List.mem_singleton.1 hnext, hfile]
  have hround : it = [] ∨ it = [p] ∧ Below key (filePath E p) := by rw [hfile]; exact hit
  obtain ⟨l, l₁, hopen, hpass, hpasses, hend, hl, hkept, hl₁⟩ := Root.visit hdisk hpaths
  have honly : OnlyOf p l₁.docs := by
    rw [hl₁]
    exact Worker.dir_onlyOf hl hpaths
  obtain ⟨si, hclose, hsi⟩ := Lucyindexer.close_docs (l := l₁) (E := E) rfl
  have hreaches : Reaches (step E x) (Tame E) s (s.put E key (.between none) (some si) true) := by
    -- `openIndex`, the round, and the one that is interrupted
    have h₁ := event_reaches (b := s.passed key) hkey hquiet hopen (Root.openIndex_commits hopen).1 tame_openIndex
    have hafter₂ := Root.round_commits OnlyOf.sublist OnlyOf.stored hl (Worker.dirs_onlyOf hl hpaths) hpass
    have h₂ := event_reaches (b := s.passed key || false) hkey hquiet hpass hafter₂.1 (tame_round hround)
    have hnone : ∀ next ∈ [], filePath E next = p := fun next hn => absurd hn List.not_mem_nil
    have hafter₃ := Root.round_commits OnlyOf.sublist OnlyOf.stored honly (Worker.dirs_onlyOf honly hnone) hend
    have h₃ := event_reaches (b := true) hkey hquiet hend hafter₃.1 (tame_round (p := p) (Or.inl rfl))
    rw [hpasses, Bool.or_true] at h₂
    have hall := (h₁.trans h₂).trans h₃
    rw [Root.pLucyIndexer, Root.committed, put_of_idle (hquiet key), Root.committed, hclose] at hall
    exact hall
  refine ⟨si, hreaches, ?_, ?_, ?_⟩
  · rw [hsi]; exact honly
  · rintro rfl
    rw [hsi, hl₁]
    exact Worker.dir_nonempty rfl hp hown
  · intro si₀ hsi₀ hne
    rw [hsi, hl₁]
    rcases hit with rfl | ⟨rfl, -⟩
    · rw [Worker.dir, hkept si₀ hsi₀]
      exact hne
    · exact Worker.dir_nonempty rfl hp hown

/-! ## All workers, one after the other -/

/-- The index holds a document. -/
def Filled (s : Desktop) (dir : QString) : Prop := ∃ si, s.disk dir = some si ∧ si.docs ≠ []

/-- No worker runs, and all documents are of one path. -/
structure Quiet (p : QString) (s : Desktop) : Prop where
  worker : ∀ k, s.worker k = .between none
  disk : ∀ dir si, s.disk dir = some si → OnlyOf p si.docs

/-- Passes that are completed stay so, indexes stay there, and documents in them. -/
structure Keeps (s s' : Desktop) : Prop where
  passed : ∀ k, s.passed k = true → s'.passed k = true
  disk : ∀ dir, (s.disk dir).isSome → (s'.disk dir).isSome
  filled : ∀ dir, Filled s dir → Filled s' dir

theorem Keeps.refl : Keeps s s := ⟨fun _ h => h, fun _ h => h, fun _ h => h⟩

theorem Keeps.trans {s' s'' : Desktop} (h : Keeps s s') (h' : Keeps s' s'') : Keeps s s'' :=
  ⟨fun k hk => h'.passed k (h.passed k hk), fun dir hd => h'.disk dir (h.disk dir hd),
    fun dir hd => h'.filled dir (h.filled dir hd)⟩

/-- `visit`, as far as the other roots are concerned. -/
theorem Quiet.visit (h : Quiet p s) (hkey : key ∈ x.searched) (hp : normalizePath E.qt p false = p)
    (hown : Worker.ownIndex p = false) (hit : it = [] ∨ it = [p] ∧ Below key p) :
    ∃ s', Reaches (step E x) (Tame E) s s' ∧ Quiet p s' ∧ Keeps s s' ∧ s'.passed key = true ∧
      (s'.disk (sDirIndex E key)).isSome ∧ (it = [p] → Filled s' (sDirIndex E key)) := by
  obtain ⟨si, hreaches, honly, hnew, hold⟩ := Desktop.visit hkey h.worker (h.disk _) hp hown hit
  have hother : ∀ dir, dir ≠ sDirIndex E key →
      (s.put E key (.between none) (some si) true).disk dir = s.disk dir := fun dir hd => Function.update_of_ne hd ..
  have hquiet : Quiet p (s.put E key (.between none) (some si) true) := by
    constructor
    · intro k
      by_cases he : k = key
      · rw [he, put_worker]
      · exact (Function.update_of_ne he ..).trans (h.worker k)
    · intro dir si' hdir
      by_cases hd : dir = sDirIndex E key
      · rw [hd, put_disk, Option.some.injEq] at hdir
        rw [← hdir]; exact honly
      · rw [hother dir hd] at hdir
        exact h.disk dir si' hdir
  have hkeeps : Keeps s (s.put E key (.between none) (some si) true) := by
    constructor
    · intro k hk
      by_cases he : k = key
      · rw [he, put_passed]
      · exact (Function.update_of_ne he ..).trans hk
    · intro dir hd
      by_cases he : dir = sDirIndex E key
      · rw [he, put_disk]; rfl
      · rw [hother dir he]; exact hd
    · rintro dir ⟨si₀, hsi₀, hne⟩
      by_cases he : dir = sDirIndex E key
      · rw [he] at hsi₀ ⊢
        exact ⟨si, put_disk, hold si₀ hsi₀ hne⟩
      · exact ⟨si₀, (hother dir he).trans hsi₀, hne⟩
  refine ⟨_, hreaches, hquiet, hkeeps, put_passed, ?_, fun he => ⟨si, put_disk, hnew he⟩⟩
  rw [put_disk]; rfl

/-- **All workers complete a pass**, those of `its` over the file. -/
theorem visits {keys : List QString} {its : QString → List QString} (h : Quiet p s) (hkeys : ∀ k ∈ keys, k ∈ x.searched)
    (hp : normalizePath E.qt p false = p) (hown : Worker.ownIndex p = false)
    (hits : ∀ k ∈ keys, its k = [] ∨ its k = [p] ∧ Below k p) :
    ∃ s', Reaches (step E x) (Tame E) s s' ∧ Quiet p s' ∧ Keeps s s' ∧
      ∀ k ∈ keys, s'.passed k = true ∧ (s'.disk (sDirIndex E k)).isSome ∧ (its k = [p] → Filled s' (sDirIndex E k)) := by
  induction keys generalizing s with
  | nil => exact ⟨s, Reaches.refl, h, Keeps.refl, fun k hk => absurd hk List.not_mem_nil⟩
  | cons k keys ih =>
    obtain ⟨s₁, hreaches₁, hquiet₁, hkeeps₁, hpassed, hdisk, hfilled⟩ :=
      h.visit (hkeys k List.mem_cons_self) hp hown (hits k List.mem_cons_self)
    obtain ⟨s₂, hreaches₂, hquiet₂, hkeeps₂, hall⟩ :=
      ih hquiet₁ (fun k hk => hkeys k (List.mem_cons_of_mem _ hk)) fun k hk => hits k (List.mem_cons_of_mem _ hk)
    refine ⟨s₂, hreaches₁.trans hreaches₂, hquiet₂, hkeeps₁.trans hkeeps₂, fun k' hk' => ?_⟩
    rcases List.mem_cons.1 hk' with rfl | hk'
    · exact ⟨hkeeps₂.passed _ hpassed, hkeeps₂.disk _ hdisk, fun he => hkeeps₂.filled _ (hfilled he)⟩
    · exact hall k' hk'

/-- **Two roots with documents of one path** report it twice. -/
theorem twice {key' : QString} (h : Quiet p s) (hdisk : ∀ k ∈ x.searched, (s.disk (sDirIndex E k)).isSome)
    (hkey : key ∈ x.searched) (hkey' : key' ∈ x.searched) (hne : key ≠ key') (hf : Filled s (sDirIndex E key))
    (hf' : Filled s (sDirIndex E key')) : ¬OncePerPathname E x s fun _ => true := by
  obtain ⟨hits, hsearch⟩ : ∃ hits, s.search E x (fun _ => true) = some hits := by
    obtain ⟨ys, hys⟩ := Indexer.mapM_isSome (f := s.openSearcher E) fun k hk => Option.isSome_iff_exists.1 (hdisk k hk)
    exact ⟨_, by rw [search, hys, Option.map_some]⟩
  have hopen : ∀ k, Filled s (sDirIndex E k) →
      ((s.openSearcher E k).map fun si => si.docs.filter fun _ => true).getD [] ≠ [] := by
    rintro k ⟨si, hsi, hne⟩
    rw [openSearcher, hsi, Option.map_some, Option.getD_some, List.filter_true]
    exact hne
  have hlen : 2 ≤ hits.length := by
    rw [search_eq hsearch]
    exact two_le_length_flatMap hkey hkey' hne (hopen key hf) (hopen key' hf')
  have hpath : ∀ d ∈ hits, d.get FIELDNAME_ABSPATHNAME = some p := by
    intro d hd
    rw [search_eq hsearch] at hd
    obtain ⟨k, -, hd⟩ := List.mem_flatMap.1 hd
    cases hdir : s.openSearcher E k with
    | none => rw [hdir] at hd; exact absurd hd List.not_mem_nil
    | some si =>
      rw [hdir] at hd
      exact (h.disk _ si hdir d (List.mem_filter.1 hd).1).2
  intro honce
  have h0 : 0 < hits.length := by omega
  have h1 : 1 < hits.length := by omega
  have heq := honce hits hsearch 0 h0 1 h1 (by
    rw [getHitAttr_eq h0 (hpath _ (List.getElem_mem h0)), getHitAttr_eq h1 (hpath _ (List.getElem_mem h1))])
  exact absurd heq (by omega)

/-- **A run of overlapping roots** after which a file is reported twice. -/
theorem run_twice {d a b key key' : QString} (ha : a ∈ x.searched) (hb : b ∈ x.searched)
    (hfile : b = normalizePath E.qt d false) (hidx : Indexes b) (hin : Below a (fileIn b))
    (hkey : key ∈ x.searched) (hkey' : key' ∈ x.searched) (hne : key ≠ key')
    (hdir : sDirIndex E key = sDirIndex E a) (hdir' : sDirIndex E key' = sDirIndex E b) :
    ∃ es s os, run (step E x) start es = some (s, os) ∧ Meets (step E x) (RoundsApart E) start es ∧ s.AllPassed x ∧
      ¬OncePerPathname E x s fun _ => true := by
  have hstart : Quiet (fileIn b) start := ⟨fun _ => rfl, fun _ _ h => absurd h (by simp [start])⟩
  let its : QString → List QString := fun k => if k = a ∨ k = b then [fileIn b] else []
  have hits : ∀ k ∈ x.searched, its k = [] ∨ its k = [fileIn b] ∧ Below k (fileIn b) := by
    intro k _
    by_cases hk : k = a ∨ k = b
    · right
      refine ⟨if_pos hk, ?_⟩
      rcases hk with rfl | rfl
      · exact hin
      · exact below_fileIn
    · exact Or.inl (if_neg hk)
  obtain ⟨s, ⟨es, os, htame, hrun⟩, hquiet, -, hall⟩ :=
    visits hstart (fun _ hk => hk) (normalizePath_fileIn hfile) (ownIndex_fileIn hidx) hits
  have hmeets : Meets (step E x) (RoundsApart E) start es :=
    (meets_of_forall (C := Tame E) htame).mono fun s _ h => h s
  have hfa : Filled s (sDirIndex E key) := by
    rw [hdir]
    exact (hall a ha).2.2 (if_pos (Or.inl rfl))
  have hfb : Filled s (sDirIndex E key') := by
    rw [hdir']
    exact (hall b hb).2.2 (if_pos (Or.inr rfl))
  exact ⟨es, s, os, hrun, hmeets, fun k hk => (hall k hk).1,
    twice hquiet (fun k hk => (hall k hk).2.1) hkey hkey' hne hfa hfb⟩

/-- A registered root is normalized. -/
theorem searched_normalized (hs : x.Sound E.qt) (hkey : key ∈ x.searched) : ∃ d, key = normalizePath E.qt d false := by
  obtain ⟨⟨_, value⟩, hmem, rfl⟩ := List.mem_map.1 hkey
  obtain ⟨t, -, -, hk, -⟩ := hs.live _ value (Std.ExtTreeMap.mem_toList_iff_getElem?_eq_some.1 hmem)
  exact ⟨_, hk⟩

/-! ## Each file once -/

/-- **A file is reported once**, for all roots that the settings page and `indexer::add` have
accepted, after all workers have completed a pass, whatever they do and whatever is searched
for, exactly if no two roots share an index directory and none lies in another, but where
their files are skipped: in the runs whose rounds meet files of their root only, none with a
forged path, and on a new index no two of one path. -/
theorem hits_once_iff {D : Places} {exists_ : QString → Bool} {stored : QString} {clicks : List Settings.Event}
    {page : Settings} {outs : List Unit}
    (hpage : run (Settings.step E.qt D exists_) (Settings.start E.qt D exists_ stored) clicks = some (page, outs)) :
    (∀ es s os, run (step E page.indexer) start es = some (s, os) →
      Meets (step E page.indexer) (RoundsApart E) start es → s.AllPassed page.indexer →
      ∀ query, s.OncePerPathname E page.indexer query) ↔ Apart E page.indexer := by
  have hsound : page.indexer.Sound E.qt := Settings.run_sound hpage
  constructor
  · intro honce
    constructor
    · intro key hkey key' hkey' hne hidx hdir
      obtain ⟨d, hd⟩ := searched_normalized hsound hkey
      obtain ⟨es, s, os, hrun, hmeets, hpassed, htwice⟩ :=
        run_twice hkey hkey hd hidx below_fileIn hkey hkey' hne rfl hdir.symm
      exact htwice (honce es s os hrun hmeets hpassed _)
    · intro key hkey key' hkey' hin hidx
      obtain ⟨d, hd⟩ := searched_normalized hsound hkey'
      have hne : key ≠ key' := by
        rintro rfl
        have hlen := List.IsPrefix.length_le hin
        simp only [List.length_append, List.length_singleton] at hlen
        omega
      have hfile : Below key (fileIn key') :=
        List.IsPrefix.trans hin ((List.prefix_append _ _).trans (List.prefix_append _ _))
      obtain ⟨es, s, os, hrun, hmeets, hpassed, htwice⟩ :=
        run_twice hkey hkey' hd hidx hfile hkey hkey' hne rfl rfl
      exact htwice (honce es s os hrun hmeets hpassed _)
  · intro hapart es s os hrun hmeets _ query
    have hinv : Inv E page.indexer s :=
      run_invariant_meets (fun s e s' o h hr hs => inv_step hapart h hr hs) hmeets inv_start hrun
    exact once_of_inv hinv hapart query

/-- `/d` is configured and `/e` is added. -/
theorem hits_once_sample :
    ∃ page outs, run (Settings.step sampleQt Settings.samplePlaces fun _ => true)
        (Settings.start sampleQt Settings.samplePlaces (fun _ => true) (qs "/d")) [.add (qs "/e")] = some (page, outs) ∧
      ∀ es s os, run (step sampleEnv page.indexer) start es = some (s, os) →
        Meets (step sampleEnv page.indexer) (RoundsApart sampleEnv) start es → s.AllPassed page.indexer →
        ∀ query, s.OncePerPathname sampleEnv page.indexer query := by
  have hany : ((run (Settings.step sampleQt Settings.samplePlaces fun _ => true)
      (Settings.start sampleQt Settings.samplePlaces (fun _ => true) (qs "/d")) [.add (qs "/e")]).any fun r =>
        decide (Apart sampleEnv r.1.indexer)) = true := by decide +kernel
  obtain ⟨⟨page, outs⟩, hpage, hapart⟩ := (Option.any_eq_true _ _).1 hany
  have honce := (hits_once_iff (E := sampleEnv) hpage).2 (of_decide_eq_true hapart)
  exact ⟨page, outs, hpage, honce⟩

/-- The worker of each root opens its index and goes through a round that meets `/d/e/f`. -/
def overlapping : List Event :=
  [qs "/d", qs "/d/e"].flatMap fun key =>
    [.begins key .openIndex, .goesOn key, .goesOn key, .begins key (.round (sampleRound [("e/f", 1)]) none),
      .goesOn key, .goesOn key]

/-- **A file that is reported twice**: `/d` is configured, `/d/e` is added and accepted, and
both have indexed `/d/e/f`. -/
theorem hits_twice :
    ∃ page outs, run (Settings.step sampleQt Settings.samplePlaces fun _ => true)
        (Settings.start sampleQt Settings.samplePlaces (fun _ => true) (qs "/d")) [.add (qs "/d/e")] = some (page, outs) ∧
      ∃ s os hits, run (step sampleEnv page.indexer) start overlapping = some (s, os) ∧ s.AllPassed page.indexer ∧
        s.search sampleEnv page.indexer (fun _ => true) = some hits ∧ hits.length = 2 ∧
        (∀ d ∈ hits, d.get FIELDNAME_ABSPATHNAME = some (qs "/d/e/f")) ∧
        ¬s.OncePerPathname sampleEnv page.indexer fun _ => true := by
  have hany : ((run (Settings.step sampleQt Settings.samplePlaces fun _ => true)
      (Settings.start sampleQt Settings.samplePlaces (fun _ => true) (qs "/d")) [.add (qs "/d/e")]).any fun r =>
        (run (step sampleEnv r.1.indexer) start overlapping).any fun q =>
          decide (∀ key ∈ r.1.indexer.searched, q.1.passed key = true) &&
          (q.1.search sampleEnv r.1.indexer fun _ => true).any fun hits =>
            decide (hits.length = 2 ∧ ∀ d ∈ hits, d.get FIELDNAME_ABSPATHNAME = some (qs "/d/e/f"))) = true := by
    decide +kernel
  obtain ⟨⟨page, outs⟩, hpage, hany⟩ := (Option.any_eq_true _ _).1 hany
  obtain ⟨⟨s, os⟩, hrun, hany⟩ := (Option.any_eq_true _ _).1 hany
  rw [Bool.and_eq_true] at hany
  obtain ⟨hpassed, hany⟩ := hany
  obtain ⟨hits, hsearch, hhits⟩ := (Option.any_eq_true _ _).1 hany
  obtain ⟨hlen, hpath⟩ := of_decide_eq_true hhits
  have hall : s.AllPassed page.indexer := fun key hkey => of_decide_eq_true hpassed key hkey
  refine ⟨page, outs, hpage, s, os, hits, hrun, hall, hsearch, hlen, hpath, fun honce => ?_⟩
  have h0 : 0 < hits.length := by omega
  have h1 : 1 < hits.length := by omega
  have hsame : GetHitAttr hits 0 FIELDNAME_ABSPATHNAME = GetHitAttr hits 1 FIELDNAME_ABSPATHNAME := by
    rw [getHitAttr_eq h0 (hpath _ (List.getElem_mem h0)), getHitAttr_eq h1 (hpath _ (List.getElem_mem h1))]
  exact absurd (honce hits hsearch 0 h0 1 h1 hsame) (by omega)

end Desktop

end QDesktopSearch
