import QDesktopSearch.Proof.Purge

/-!
# A root over its sessions

* `round_spec`: a round goes through, and after its pass only takes documents away.
* `root_invariant`: what a pass and deletions preserve holds in every history.
* `dir_indexes`: after any history, an uninterrupted pass leaves exactly one live document
  of every file it visits, the current one, and no pass ever leaves two of one file.
-/

namespace QDesktopSearch

open Slots

variable {E : Env}

/-! ## Every document that is written has a path and an id -/

/-- The map has a value under the name. -/
def HasValue (metas : QMap QStringList) (name : QString) : Prop := ∃ sl, metas[name]? = some sl ∧ sl ≠ []

theorem addMetaContents_value {metas : QMap QStringList} {name value k : QString} (h : HasValue metas k) :
    HasValue (addMetaContents metas name value) k := by
  obtain ⟨sl, hsl, hne⟩ := h
  unfold addMetaContents HasValue
  by_cases hk : name = k
  · subst hk
    rw [hsl]
    exact ⟨sl ++ [value], by simp, by simp⟩
  · have hcmp : ¬compare name k = .eq := fun he => hk (Std.LawfulEqCmp.eq_of_compare he)
    split <;> exact ⟨sl, by rw [Std.ExtTreeMap.getElem?_insert, if_neg hcmp]; exact hsl, hne⟩

theorem addMetaContents_self {metas : QMap QStringList} {name value : QString} :
    HasValue (addMetaContents metas name value) name := by
  unfold addMetaContents HasValue
  split <;> exact ⟨_, Std.ExtTreeMap.getElem?_insert_self, by simp⟩

theorem metaContents_pathname {fs : FileSystem} {p : QString} {finfo : QFileInfo} :
    HasValue (Worker.metaContents E fs p finfo) FIELDNAME_ABSPATHNAME := by
  unfold Worker.metaContents enrichMetaContents
  dsimp only
  -- written first; the five later names do not take it away
  iterate 5 apply addMetaContents_value
  exact addMetaContents_self

theorem get_isSome {d : Document} {name : QString} : (d.get name).isSome ↔ ∃ f ∈ d, f.name = name := by
  simp [Document.get, List.find?_isSome]

/-- **A document that `index` writes for a file** has a path and an id. -/
theorem indexDocument_stored {s : QString} {metas : QMap QStringList} {finfo : QFileInfo}
    (h : HasValue metas FIELDNAME_ABSPATHNAME) : (indexDocument E s metas finfo).Stored := by
  obtain ⟨sl, hsl, hne⟩ := h
  obtain ⟨value, hvalue⟩ := List.exists_mem_of_ne_nil sl hne
  constructor
  · -- the path is the metadata entry of this name, which keeps it
    rw [get_isSome]
    have hentry : (FIELDNAME_ABSPATHNAME, sl) ∈ metas.toList := Std.ExtTreeMap.mem_toList_iff_getElem?_eq_some.2 hsl
    have hname : metaName E FIELDNAME_ABSPATHNAME = FIELDNAME_ABSPATHNAME := metaName_own (by simp [ownNames])
    refine ⟨⟨FIELDNAME_ABSPATHNAME, value, true⟩, ?_, rfl⟩
    apply List.mem_append_right
    rw [List.mem_flatMap]
    refine ⟨_, hentry, ?_⟩
    unfold metaFields
    rw [if_neg (show ¬FIELDNAME_ABSPATHNAME = qs "x-parsed-by" by decide), List.mem_map]
    exact ⟨value, hvalue, by rw [hname]⟩
  · -- the id is written for every file
    rw [get_isSome]
    exact ⟨⟨ID_FNANDDATE, getIdFNandDATE E s finfo, false⟩, by simp [indexDocument], rfl⟩

namespace Worker

variable {w : Worker} {fs : FileSystem} {it : List QString} {r : Round}

/-- **What every file written and every deletion preserve, a pass preserves.** -/
theorem dir_invariant {Q : List Document → Prop} (hsub : ∀ A B, B.Sublist A → Q A → Q B)
    (hadd : ∀ A s finfo q, Q A → Q (A ++ [indexDocument E s (metaContents E fs q finfo) finfo]))
    (h : Q w.pLucyIndexer.docs) : Q (w.dir E fs it).pLucyIndexer.docs := by
  induction it generalizing w with
  | nil => exact h
  | cons next it ih =>
    rcases hirq : w.isInterruptionRequested with ⟨_ | _, w₁⟩
    · rw [dir_cons hirq]
      rw [← isInterruptionRequested_indexer hirq] at h
      apply ih
      rcases enter_cases E fs w₁ next with he | ⟨finfo, he | ⟨-, -, he⟩⟩
      · -- not a file, or skipped
        rw [he]; exact h
      · -- looked up only
        rw [he, looked, Lucyindexer.isIndexed_docs]; exact h
      · -- written, after its old versions where the index is not new
        rw [he, Lucyindexer.index_docs, looked, Lucyindexer.isIndexed_docs]
        apply hadd
        split
        · exact h
        · exact hsub _ _ List.filter_sublist h
    · rw [dir_cons_interrupted hirq, isInterruptionRequested_indexer hirq]
      exact h

/-- Every live document has a path and an id. -/
def AllStored (docs : List Document) : Prop := ∀ d ∈ docs, d.Stored

theorem AllStored.dir (h : AllStored w.pLucyIndexer.docs) : AllStored (w.dir E fs it).pLucyIndexer.docs := by
  refine dir_invariant (fun A B hs hA d hd => hA d (hs.subset hd)) (fun A s finfo q hA d hd => ?_) h
  rw [List.mem_append, List.mem_singleton] at hd
  rcases hd with hd | rfl
  · exact hA d hd
  · exact indexDocument_stored metaContents_pathname

/-- After `opt`, everything is committed, nothing is buffered and the index is old. -/
theorem onIndexerThreadFinished_spec : (w.onIndexerThreadFinished E).pLucyIndexer.docs = w.pLucyIndexer.docs ∧
    (w.onIndexerThreadFinished E).pLucyIndexer.bNewIndex = false ∧
    (w.onIndexerThreadFinished E).pLucyIndexer.pIndexWriter.buffered = [] ∧
    (w.onIndexerThreadFinished E).Durable := by
  refine ⟨Lucyindexer.onIndexerThreadFinished_docs, rfl, QIndexModifier.flush_buffered, ?_⟩
  show (QIndexModifier.flush _ _).committed.docs = (QIndexModifier.flush _ _).docs
  rw [QIndexModifier.flush_committed_docs, QIndexModifier.flush_docs]

/-- The parts `idx` and `opt`: a check sends the worker off with the documents of the pass
or of before, or the pass is committed. -/
theorem idx_cases (E : Env) (r : Round) (w : Worker) :
    ((w.idx E r).2 = true ∧ ((w.idx E r).1.pLucyIndexer = w.pLucyIndexer ∨
        ∃ w₀ : Worker, w₀.pLucyIndexer = w.pLucyIndexer ∧
          (w.idx E r).1.pLucyIndexer = (w₀.dir E r.fs r.it).pLucyIndexer)) ∨
      ((w.idx E r).2 = false ∧ ∃ w₀ w₁ : Worker, w₀.pLucyIndexer = w.pLucyIndexer ∧
        w₁.pLucyIndexer = (w₀.dir E r.fs r.it).pLucyIndexer ∧ (w.idx E r).1 = w₁.onIndexerThreadFinished E) := by
  unfold idx
  split
  · rename_i w₀ h₀
    have hw₀ := isInterruptionRequested_indexer h₀
    exact Or.inl ⟨rfl, Or.inl hw₀⟩
  · rename_i w₀ h₀
    have hw₀ := isInterruptionRequested_indexer h₀
    split
    · rename_i w₁ h₁
      exact Or.inl ⟨rfl, Or.inr ⟨w₀, hw₀, isInterruptionRequested_indexer h₁⟩⟩
    · rename_i w₁ h₁
      exact Or.inr ⟨rfl, w₀, w₁, hw₀, isInterruptionRequested_indexer h₁, rfl⟩

theorem steady_of_buffered (h : w.pLucyIndexer.pIndexWriter.buffered = []) :
    w.Steady w.pLucyIndexer.pIndexWriter.slots := ⟨h, rfl⟩

/-- **The parts `del` and `opt again` go through**, and only take documents away. -/
theorem del_spec (hbuf : w.pLucyIndexer.pIndexWriter.buffered = []) (hstored : AllStored w.pLucyIndexer.docs) :
    ∃ w' b, w.del E r = some (w', b) ∧ w'.pLucyIndexer.docs.Sublist w.pLucyIndexer.docs ∧
      (w.pLucyIndexer.bNewIndex = false → w'.pLucyIndexer.bNewIndex = false) ∧
      w'.pLucyIndexer.pIndexWriter.buffered = [] := by
  rcases h₀ : w.isInterruptionRequested with ⟨_ | _, w₀⟩
  · have hw₀ := isInterruptionRequested_indexer h₀
    have hst : w₀.Steady w.pLucyIndexer.pIndexWriter.slots := (steady_of_buffered hbuf).check h₀
    obtain ⟨s, ds, hs, hds, -, -, -⟩ := delDeletedFilesFromIdx_spec (E := E) hst hstored r.fsDel
    obtain ⟨hsub, hnew, hb⟩ := delDeletedFilesFromIdx_sublist hst hstored hs
    rw [hw₀] at hsub hnew
    simp only [del, h₀, hs, bind, Option.bind_some]
    split
    · -- more than 999 deletions: a check, and `opt` again
      split
      · rename_i w₁ h₁
        have hw₁ := isInterruptionRequested_indexer h₁
        refine ⟨w₁, true, rfl, ?_, ?_, ?_⟩
        · rw [hw₁]; exact hsub
        · intro h; rw [hw₁, hnew, h]
        · rw [hw₁]; exact hb
      · rename_i w₁ h₁
        have hw₁ := isInterruptionRequested_indexer h₁
        obtain ⟨hd, hn, hb', -⟩ := onIndexerThreadFinished_spec (E := E) (w := w₁)
        refine ⟨_, false, rfl, ?_, fun _ => hn, hb'⟩
        rw [hd, hw₁]
        exact hsub
    · exact ⟨_, false, rfl, hsub, fun h => hnew.trans h, hb⟩
  · have hw₀ := isInterruptionRequested_indexer h₀
    refine ⟨w₀, true, by simp [del, h₀], ?_, ?_, ?_⟩
    · rw [hw₀]
    · rw [hw₀]; exact id
    · rw [hw₀]; exact hbuf

theorem wait_indexer {n : ℕ} {w' : Worker} {b : Bool} (h : w.wait n = (w', b)) : w'.pLucyIndexer = w.pLucyIndexer := by
  induction n generalizing w with
  | zero =>
    simp only [wait, Prod.mk.injEq] at h
    rw [← h.1]
  | succ n ih =>
    unfold wait at h
    split at h
    · rename_i w₁ h₁
      simp only [Prod.mk.injEq] at h
      rw [← h.1, isInterruptionRequested_indexer h₁]
    · rename_i w₁ h₁
      rw [ih h, isInterruptionRequested_indexer h₁]

end Worker

/-! ## Histories -/

/-- An indexer between rounds: its live documents satisfy `Q`, a new index is empty, and
nothing is buffered. -/
structure SessionOK (Q : List Document → Prop) (l : Lucyindexer) : Prop where
  docs : Q l.docs
  fresh : l.bNewIndex = true → l.docs = []
  buffered : l.pIndexWriter.buffered = []

namespace Root

/-- A root between events. -/
def OK (Q : List Document → Prop) : Root → Prop
  | stopped dir => ∀ si, dir = some si → Q si.docs
  | running l => SessionOK Q l

/-- What `Q` must satisfy to hold in every history of rounds that satisfy `R`. -/
structure Invariant (E : Env) (R : Worker.Round → Prop) (Q : List Document → Prop) : Prop where
  nil : Q []
  sublist : ∀ A B, B.Sublist A → Q A → Q B
  stored : ∀ A, Q A → Worker.AllStored A
  dir : ∀ (r : Worker.Round) (w : Worker), R r → Q w.pLucyIndexer.docs →
    (w.pLucyIndexer.bNewIndex = true → w.pLucyIndexer.docs = []) → Q (w.dir E r.fs r.it).pLucyIndexer.docs

variable {R : Worker.Round → Prop} {Q : List Document → Prop} {s s' : Root} {l : Lucyindexer}

/-- A session opens with what the last one left. -/
theorem open_ok (hnil : Q []) {dir : Directory Document} (h : OK Q (stopped dir))
    (hl : Lucyindexer.open? dir = some l) : OK Q (running l) := by
  obtain ⟨hold, hnew⟩ := Lucyindexer.open_docs hl
  have hbuf : l.pIndexWriter.buffered = [] := by
    simp only [Lucyindexer.open?, QIndexModifier.init, IndexModifier.init, IndexWriter.init,
      Option.map_eq_some_iff] at hl
    obtain ⟨m, ⟨b, ⟨wr, hw, rfl⟩, rfl⟩, rfl⟩ := hl
    split at hw
    · rw [Option.some.injEq] at hw
      rw [← hw]; rfl
    · obtain ⟨si, -, rfl⟩ := Option.map_eq_some_iff.1 hw
      rfl
  cases dir with
  | none =>
    obtain ⟨-, hd⟩ := hnew rfl
    exact ⟨hd ▸ hnil, fun _ => hd, hbuf⟩
  | some si =>
    -- an index that is reopened is never new
    obtain ⟨hb, hd⟩ := hold si rfl
    refine ⟨hd ▸ h si rfl, fun hn => ?_, hbuf⟩
    rw [hb] at hn
    exact absurd hn (by simp)

/-- **A round goes through**; its result satisfies `Q`, and where it was not interrupted the
index is old and nothing is buffered. -/
theorem round_spec (hsub : ∀ A B, B.Sublist A → Q A → Q B) (hstored : ∀ A, Q A → Worker.AllStored A) (hl : Q l.docs)
    {r : Worker.Round} (hdir : ∀ w₀ : Worker, w₀.pLucyIndexer = l → Q (w₀.dir E r.fs r.it).pLucyIndexer.docs)
    (irq : Option ℕ) : ∃ w' b, Worker.round E r ⟨l, 0, 0, irq⟩ = some (w', b) ∧ Q w'.pLucyIndexer.docs ∧
      (b = false → w'.pLucyIndexer.bNewIndex = false ∧ w'.pLucyIndexer.pIndexWriter.buffered = []) := by
  unfold Worker.round
  rcases Worker.idx_cases E r ⟨l, 0, 0, irq⟩ with ⟨hb, he⟩ | ⟨hb, w₀, w₁, hw₀, hw₁, he⟩
  · -- interrupted in `idx` or `opt`
    rcases hidx : Worker.idx E r ⟨l, 0, 0, irq⟩ with ⟨w', b⟩
    rw [hidx] at hb he
    change b = true at hb
    subst hb
    refine ⟨w', true, rfl, ?_, fun hf => absurd hf (by simp)⟩
    rcases he with he | ⟨w₀, hw₀, he⟩
    · change w'.pLucyIndexer = l at he
      rw [he]; exact hl
    · change w'.pLucyIndexer = _ at he
      rw [he]; exact hdir w₀ hw₀
  · -- the pass is committed, and the purge follows on an index with nothing buffered
    rcases hidx : Worker.idx E r ⟨l, 0, 0, irq⟩ with ⟨w', b⟩
    rw [hidx] at hb he
    change b = false at hb
    change w' = _ at he
    subst hb he
    obtain ⟨hd, hn, hbuf, -⟩ := Worker.onIndexerThreadFinished_spec (E := E) (w := w₁)
    have hQ : Q (w₁.onIndexerThreadFinished E).pLucyIndexer.docs := by
      rw [hd, hw₁]
      exact hdir w₀ hw₀
    obtain ⟨w₂, b, hdel, hless, hnew, hbuf₂⟩ := Worker.del_spec (E := E) (r := r) hbuf (hstored _ hQ)
    exact ⟨w₂, b, hdel, hsub _ _ hless hQ, fun _ => ⟨hnew hn, hbuf₂⟩⟩

/-- **A round and its waiting phase** leave an index that satisfies `Q`. -/
theorem round_ok (hsub : ∀ A B, B.Sublist A → Q A → Q B) (hstored : ∀ A, Q A → Worker.AllStored A) (hl : Q l.docs)
    {r : Worker.Round} (hdir : ∀ w₀ : Worker, w₀.pLucyIndexer = l → Q (w₀.dir E r.fs r.it).pLucyIndexer.docs)
    {irq : Option ℕ} {o : Unit} (hs : step E (running l) (.round r irq) = some (s', o)) : OK Q s' := by
  have hclose : ∀ w : Worker, Q w.pLucyIndexer.docs → OK Q (stopped (w.pLucyIndexer.close E)) := by
    intro w hw si hsi
    obtain ⟨si', hsi', hd⟩ := Lucyindexer.close_docs hsi
    rw [Option.some.injEq] at hsi'
    rw [hsi', hd]
    exact hw
  obtain ⟨w', b, hround, hQ, hdone⟩ := round_spec hsub hstored hl hdir irq
  simp only [step, hround, Option.map_some, Option.some.injEq] at hs
  cases b with
  | true =>
    simp only [Prod.mk.injEq] at hs
    rw [← hs.1]
    exact hclose w' hQ
  | false =>
    -- the wait for the next round closes the index too, if it is interrupted
    obtain ⟨hn, hbuf⟩ := hdone rfl
    dsimp only at hs
    split at hs
    · rename_i w₂ h₂
      have hw₂ := Worker.wait_indexer h₂
      simp only [Prod.mk.injEq] at hs
      rw [← hs.1]
      exact hclose w₂ (hw₂ ▸ hQ)
    · rename_i w₂ h₂
      have hw₂ := Worker.wait_indexer h₂
      simp only [Prod.mk.injEq] at hs
      rw [← hs.1]
      show SessionOK Q w₂.pLucyIndexer
      rw [hw₂]
      exact ⟨hQ, fun h => absurd (hn ▸ h) (by simp), hbuf⟩

/-- The step lemma of `root_invariant`. -/
theorem step_ok (hI : Invariant E R Q) {e : Event} {o : Unit} (h : OK Q s) (he : ∀ r irq, e = .round r irq → R r)
    (hs : step E s e = some (s', o)) : OK Q s' := by
  cases s with
  | stopped dir =>
    cases e with
    | openIndex =>
      simp only [step, Option.map_eq_some_iff, Prod.mk.injEq] at hs
      obtain ⟨l, hl, rfl, -⟩ := hs
      exact open_ok hI.nil h hl
    | round r irq => exact absurd hs (by simp [step])
  | running l =>
    cases e with
    | openIndex => exact absurd hs (by simp [step])
    | round r irq =>
      have hok : SessionOK Q l := h
      refine round_ok hI.sublist hI.stored hok.docs (fun w₀ hw₀ => ?_) hs
      exact hI.dir r w₀ (he r irq rfl) (hw₀ ▸ hok.docs) (hw₀ ▸ hok.fresh)

/-- **What a pass and deletions preserve holds in every history.** -/
theorem root_invariant (hI : Invariant E R Q) {es : List Event} {os : List Unit}
    (hes : ∀ r irq, Event.round r irq ∈ es → R r)
    (hrun : Machine.run (step E) (stopped none) es = some (s, os)) : OK Q s := by
  have hC : Machine.Meets (step E) (fun _ e => ∀ r irq, e = Event.round r irq → R r) (stopped none) es :=
    Machine.meets_of_forall fun e he r irq heq => hes r irq (heq ▸ he)
  have h0 : OK Q (stopped none) := fun si hsi => absurd hsi (by simp)
  exact Machine.run_invariant_meets (fun s e s' o h he hs => step_ok hI h he hs) hC h0 hrun

end Root

theorem allStored_invariant : Root.Invariant E (fun _ => True) Worker.AllStored where
  nil _ hd := absurd hd List.not_mem_nil
  sublist _ _ hsub h d hd := h d (hsub.subset hd)
  stored _ h := h
  dir _ _ _ h _ := h.dir

/-- **In every history, every live document has a path and an id.** -/
theorem root_stored {es : List Root.Event} {os : List Unit} {l : Lucyindexer}
    (hrun : Machine.run (Root.step E) (.stopped none) es = some (.running l, os)) : Worker.AllStored l.docs := by
  have h : SessionOK Worker.AllStored l := Root.root_invariant allStored_invariant (fun _ _ _ => trivial) hrun
  exact h.docs

/-! ## Incremental indexing -/

/-- A round whose files the hash tells apart: the visited paths are in `S`, no path comes
twice, and no metadata name maps to an id field. -/
structure RoundOK (E : Env) (S : Set QString) (r : Worker.Round) : Prop where
  paths : ∀ next ∈ r.it, ∀ finfo, Visited E r.fs next finfo → indexedPath E next ∈ S
  distinct : (r.it.map (indexedPath E)).Nodup
  names : r.fs.NoIdNames E

/-- Every live document has its fields and belongs to one file, no two to the same one. -/
structure OneEach (E : Env) (S : Set QString) (docs : List Document) : Prop where
  stored : Worker.AllStored docs
  owned : ∀ d ∈ docs, ∃ s ∈ S, ∃ finfo, DocumentOf E s finfo d
  once : ∀ v, docs.countP (Document.hasTerm E.tokens ⟨ID_FN, v⟩) ≤ 1

theorem OneEach.indexOK {S : Set QString} {l : Lucyindexer} (h : OneEach E S l.docs)
    (hnew : l.bNewIndex = true → l.docs = []) : IndexOK E S [] l where
  owned := h.owned
  once := h.once
  fresh hb d hd := by
    rw [hnew hb] at hd
    exact absurd hd List.not_mem_nil

theorem oneEach_invariant {S : Set QString} (hq : HashInjective E S) : Root.Invariant E (RoundOK E S) (OneEach E S) where
  nil := ⟨fun d hd => absurd hd List.not_mem_nil, fun d hd => absurd hd List.not_mem_nil, fun v => by simp⟩
  sublist A B hsub h :=
    ⟨fun d hd => h.stored d (hsub.subset hd), fun d hd => h.owned d (hsub.subset hd),
      fun v => hsub.countP_le.trans (h.once v)⟩
  stored A h := h.stored
  dir r w hr h hnew := by
    have hdir := Worker.dir_ok hq (h.indexOK hnew) hr.names hr.paths hr.distinct
    exact ⟨h.stored.dir, hdir.owned, hdir.once⟩

/-- **Incremental indexing neither loses nor duplicates a file.** After every history of a
root, an uninterrupted pass leaves exactly one live document of every regular file that it
visits and does not skip, the current one; and a pass never holds two of one file, on a new
index or an old one, however far it got. -/
theorem dir_indexes {S : Set QString} (hq : HashInjective E S) {es : List Root.Event} {os : List Unit}
    {l : Lucyindexer} (hes : ∀ r irq, Root.Event.round r irq ∈ es → RoundOK E S r)
    (hrun : Machine.run (Root.step E) (.stopped none) es = some (.running l, os))
    {r : Worker.Round} (hr : RoundOK E S r) :
    (∀ next ∈ r.it, ∀ finfo, Visited E r.fs next finfo →
      (Worker.dir E r.fs ⟨l, 0, 0, none⟩ r.it).pLucyIndexer.HasCurrent E (indexedPath E next) finfo) ∧
    ∀ irq it, it <+: r.it → ∀ v,
      (Worker.dir E r.fs ⟨l, 0, 0, irq⟩ it).pLucyIndexer.docs.countP (Document.hasTerm E.tokens ⟨ID_FN, v⟩) ≤ 1 := by
  have hok : SessionOK (OneEach E S) l := Root.root_invariant (oneEach_invariant hq) hes hrun
  have hidx : IndexOK E S [] l := hok.docs.indexOK hok.fresh
  constructor
  · intro next hnext finfo hvis
    exact Worker.dir_current hq hidx hr.names rfl hr.paths hr.distinct hnext hvis
  · intro irq it hpre v
    obtain ⟨rest, hrest⟩ := hpre
    have hpaths : ∀ next ∈ it, ∀ finfo, Visited E r.fs next finfo → indexedPath E next ∈ S :=
      fun next hn => hr.paths next (hrest ▸ List.mem_append_left _ hn)
    have hdistinct : (it.map (indexedPath E)).Nodup := by
      have h := hr.distinct
      rw [← hrest, List.map_append] at h
      exact (List.nodup_append.1 h).1
    exact (Worker.dir_ok hq hidx hr.names hpaths hdistinct).once v

/-! A small installation, for runs on fixed inputs. -/

def sampleEnv : Env where
  qt := sampleQt
  qHash s := s.foldl (fun h c => 31 * h + c.toUInt32) 0
  tokens v := [v]
  bufferFull docs := docs.length > 2
  findMerges si := if si.length > 2 then [(0, 2)] else []
  applicationDirPath := qs "/p"
  iWait := 2

/-- The files of `/d`, with their times in seconds. -/
def sampleFs (files : List (String × ℕ)) : FileSystem where
  stat path := (files.find? fun f => qs "/d/" ++ qs f.1 == path).map fun f =>
    ⟨true, 10, 1000 * f.2, qs "/d", qs f.1, []⟩
  tika _ := none

/-- A round over these files, which stay as they are. -/
def sampleRound (files : List (String × ℕ)) : Worker.Round :=
  ⟨files.map fun f => qs "/d/" ++ qs f.1, sampleFs files, sampleFs files⟩

/-- The files `a`, `b` and `c` of `/d`. -/
def samplePaths : List QString := [qs "/d/a", qs "/d/b", qs "/d/c"]

theorem sampleRound_ok {files : List (String × ℕ)}
    (hp : ∀ next ∈ (sampleRound files).it, indexedPath sampleEnv next ∈ samplePaths)
    (hd : ((sampleRound files).it.map (indexedPath sampleEnv)).Nodup) :
    RoundOK sampleEnv {s | s ∈ samplePaths} (sampleRound files) :=
  ⟨fun next hn _ _ => hp next hn, hd, fun _ _ h => absurd h (by simp [sampleRound, sampleFs])⟩

/-- The root has a worker, and its indexer satisfies `p`. -/
def Root.running? (p : Lucyindexer → Bool) : Root → Bool
  | running l => p l
  | stopped _ => false

theorem Root.exists_running (es : List Root.Event) (p : Lucyindexer → Bool)
    (h : ((Machine.run (step E) (stopped none) es).any fun r => r.1.running? p) = true) :
    ∃ l os, Machine.run (step E) (stopped none) es = some (running l, os) ∧ p l = true := by
  cases hrun : Machine.run (step E) (stopped none) es with
  | none => rw [hrun] at h; exact absurd h (by simp)
  | some r =>
    obtain ⟨s, os⟩ := r
    rw [hrun] at h
    cases s with
    | stopped dir => exact absurd h (by simp [running?])
    | running l => exact ⟨l, os, rfl, by simpa [running?] using h⟩

/-- Two sessions, the first one interrupted in its second pass; then `a` has changed and `c` is new. -/
theorem dir_indexes_sample :
    let es : List Root.Event := [.openIndex, .round (sampleRound [("a", 1), ("b", 2)]) none,
      .round (sampleRound [("a", 1), ("b", 5)]) (some 3), .openIndex]
    let r := sampleRound [("a", 7), ("b", 5), ("c", 1)]
    ∃ l os, Machine.run (Root.step sampleEnv) (.stopped none) es = some (.running l, os) ∧
      (∀ next ∈ r.it, ∀ finfo, Visited sampleEnv r.fs next finfo →
        (Worker.dir sampleEnv r.fs ⟨l, 0, 0, none⟩ r.it).pLucyIndexer.HasCurrent sampleEnv
          (indexedPath sampleEnv next) finfo) ∧
      ∀ irq it, it <+: r.it → ∀ v, (Worker.dir sampleEnv r.fs ⟨l, 0, 0, irq⟩ it).pLucyIndexer.docs.countP
        (Document.hasTerm sampleEnv.tokens ⟨ID_FN, v⟩) ≤ 1 := by
  intro es r
  have hq : HashInjective sampleEnv {s | s ∈ samplePaths} :=
    ⟨List.inj_on_of_nodup_map (by decide +kernel), List.inj_on_of_nodup_map (by decide +kernel)⟩
  have hes : ∀ r irq, Root.Event.round r irq ∈ es → RoundOK sampleEnv {s | s ∈ samplePaths} r := by
    intro r irq hmem
    simp only [es, List.mem_cons, Root.Event.round.injEq, reduceCtorEq, List.not_mem_nil, or_false, false_or] at hmem
    rcases hmem with ⟨rfl, -⟩ | ⟨rfl, -⟩
    · exact sampleRound_ok (by decide +kernel) (by decide +kernel)
    · exact sampleRound_ok (by decide +kernel) (by decide +kernel)
  have hr : RoundOK sampleEnv {s | s ∈ samplePaths} r :=
    sampleRound_ok (by decide +kernel) (by decide +kernel)
  obtain ⟨l, os, hrun, -⟩ := Root.exists_running es (E := sampleEnv) (fun _ => true) (by decide +kernel)
  have hboth := dir_indexes hq hes hrun hr
  exact ⟨l, os, hrun, hboth⟩

end QDesktopSearch
