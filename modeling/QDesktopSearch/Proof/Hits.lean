import QDesktopSearch.Proof.OnePath
import QDesktopSearch.Proof.Registry

/-!
# Roots that are apart report a file once

* `Apart`: no two roots share an index directory, and none lies in another, unless their files
  are skipped.
* `inv_step`: apart, each index holds no path twice, in the middle of a round too.
* `once_of_inv`: so no search has two hits of one path, whenever it opens the indexes.
-/

namespace QDesktopSearch

open Machine

variable {E : Env} {x : Indexer}

/-! ## Hits and their paths -/

/-- What a search goes over, root by root. -/
theorem flatMap_of_mapM {α β γ : Type*} {f : α → Option β} {g : β → List γ} {l : List α} {ys : List β}
    (h : l.mapM f = some ys) : ys.flatMap g = l.flatMap fun a => ((f a).map g).getD [] := by
  induction l generalizing ys with
  | nil =>
    simp only [List.mapM_nil, pure, Option.some.injEq] at h
    subst h; rfl
  | cons a l ih =>
    simp only [List.mapM_cons, bind, pure, Option.bind_eq_some_iff, Option.some.injEq] at h
    obtain ⟨b, hb, bs, hbs, rfl⟩ := h
    rw [List.flatMap_cons, List.flatMap_cons, hb, ih hbs]
    rfl

namespace Indexer

/-- A key is registered once. -/
theorem searched_nodup : x.searched.Nodup := by
  unfold searched
  rw [List.Nodup, List.pairwise_map]
  refine Std.ExtTreeMap.distinct_keys_toList.imp ?_
  intro a b hab he
  exact hab (he ▸ Std.ReflCmp.compare_self)

end Indexer

/-- What `Q` means for a worker, wherever it is. -/
def Activity.OK (Q : List Document → Prop) : Activity → Prop
  | between none => True
  | between (some l) => SessionOK Q l
  | busy commits root _ => (∀ si ∈ commits, Q si.docs) ∧ Root.OK Q root

namespace Desktop

variable {s s' : Desktop} {e : Event} {o : Unit} {key : QString}

/-- At most one hit for each pathname. -/
def OncePerPathname (E : Env) (x : Indexer) (s : Desktop) (query : Document → Bool) : Prop :=
  ∀ hits, s.search E x query = some hits → ∀ i < hits.length, ∀ j < hits.length,
    GetHitAttr hits i FIELDNAME_ABSPATHNAME = GetHitAttr hits j FIELDNAME_ABSPATHNAME → i = j

theorem getHitAttr_eq {hits : List Document} {i : ℕ} (hi : i < hits.length) {name p : QString}
    (h : hits[i].get name = some p) : GetHitAttr hits i name = p := by
  rw [GetHitAttr, List.getElem?_eq_getElem hi, Option.bind_some, h]
  rfl

/-- The hits, root by root. -/
theorem search_eq {query : Document → Bool} {hits : List Document} (h : s.search E x query = some hits) :
    hits = x.searched.flatMap fun key => ((s.openSearcher E key).map fun si => si.docs.filter query).getD [] := by
  obtain ⟨ys, hys, rfl⟩ := Option.map_eq_some_iff.1 h
  exact flatMap_of_mapM hys

/-! ## Roots that are apart -/

/-- No two roots share an index directory, and none lies in another, unless their files are
skipped. -/
structure Apart (E : Env) (x : Indexer) : Prop where
  dirs : ∀ key ∈ x.searched, ∀ key' ∈ x.searched, key ≠ key' → Indexes key → sDirIndex E key ≠ sDirIndex E key'
  roots : ∀ key ∈ x.searched, ∀ key' ∈ x.searched, Below key key' → ¬Indexes key'

instance : Decidable (Apart E x) :=
  decidable_of_iff
    ((∀ key ∈ x.searched, ∀ key' ∈ x.searched, key ≠ key' → Indexes key → sDirIndex E key ≠ sDirIndex E key') ∧
      ∀ key ∈ x.searched, ∀ key' ∈ x.searched, Below key key' → ¬Indexes key')
    ⟨fun h => ⟨h.1, h.2⟩, fun h => ⟨h.dirs, h.roots⟩⟩

/-- The rounds that begin are such that files of one root stay apart. -/
def RoundsApart (E : Env) (s : Desktop) (e : Event) : Prop :=
  ∀ key r irq l, e = .begins key (.round r irq) → s.worker key = .between (some l) → RoundApart E key l r

/-- Every index holds one document for each path, now and after what its worker is about. -/
structure Inv (E : Env) (x : Indexer) (s : Desktop) : Prop where
  registered : ∀ key, s.worker key ≠ .between none → key ∈ x.searched
  disk : ∀ key ∈ x.searched, ∀ si, s.disk (sDirIndex E key) = some si → OnePer E key si.docs
  worker : ∀ key ∈ x.searched, (s.worker key).OK (OnePer E key)

theorem inv_start : Inv E x start :=
  ⟨fun _ h => absurd rfl h, fun _ _ _ h => absurd h (by simp [start]), fun _ _ => trivial⟩

/-- The root of a worker between two events. -/
theorem Inv.root (h : Inv E x s) (hkey : key ∈ x.searched) {pLucyIndexer : Option Lucyindexer}
    (hw : s.worker key = .between pLucyIndexer) : Root.OK (OnePer E key) (s.root E key pLucyIndexer) := by
  cases pLucyIndexer with
  | none => exact h.disk key hkey
  | some l =>
    have hok := h.worker key hkey
    rw [hw] at hok
    exact hok

/-- **A root whose files stay apart** keeps and commits one document for each path. -/
theorem root_step_onePer {root root' : Root} {e : Root.Event} (h : Root.OK (OnePer E key) root)
    (hr : ∀ r irq l, e = .round r irq → root = .running l → RoundApart E key l r)
    (hs : root.step E e = some (root', o)) :
    Root.OK (OnePer E key) root' ∧ ∀ si ∈ root.commits E e, OnePer E key si.docs := by
  cases root with
  | stopped dir =>
    cases e with
    | openIndex =>
      have hcommits := (Root.openIndex_commits hs).2
      simp only [Root.step, Option.map_eq_some_iff, Prod.mk.injEq] at hs
      obtain ⟨l, hl, rfl, -⟩ := hs
      refine ⟨Root.open_ok OnePer.nil h hl, fun si hsi => ?_⟩
      rw [hcommits si hsi]
      exact OnePer.nil
    | round r irq => exact absurd hs (by simp [Root.step])
  | running l =>
    cases e with
    | openIndex => exact absurd hs (by simp [Root.step])
    | round r irq => exact Root.round_onePer h (hr r irq l rfl rfl) hs

/-- The worker of a root moves; the others stay where they are. -/
theorem Inv.update (h : Inv E x s) (hkey : key ∈ x.searched) {a : Activity} {passed : QString → Bool}
    (ha : a.OK (OnePer E key)) : Inv E x ⟨Function.update s.worker key a, s.disk, passed⟩ := by
  refine ⟨fun k hk => ?_, h.disk, fun k hk => ?_⟩
  · by_cases he : k = key
    · rw [he]; exact hkey
    · simp only [Function.update_of_ne he] at hk
      exact h.registered k hk
  · by_cases he : k = key
    · subst he
      simp only [Function.update_self]
      exact ha
    · simp only [Function.update_of_ne he]
      exact h.worker k hk

/-- **Another commit in the directory of a root**: if a second root has it, both are skipped. -/
theorem Inv.commit (h : Inv E x s) (hapart : Apart E x) (hkey : key ∈ x.searched) {si : SegmentInfos Document}
    (hsi : OnePer E key si.docs) : Inv E x { s with disk := Function.update s.disk (sDirIndex E key) (some si) } := by
  refine ⟨h.registered, fun k hk si' hsi' => ?_, h.worker⟩
  by_cases hdir : sDirIndex E k = sDirIndex E key
  · simp only [hdir, Function.update_self, Option.some.injEq] at hsi'
    rw [← hsi']
    by_cases he : key = k
    · rw [← he]; exact hsi
    · have hskip : ¬Indexes key := fun hidx => hapart.dirs key hkey k hk he hidx hdir.symm
      rw [hsi.eq_nil hskip]
      exact OnePer.nil
  · simp only [Function.update_of_ne hdir] at hsi'
    exact h.disk k hk si' hsi'

/-- **The step lemma.** -/
theorem inv_step (hapart : Apart E x) (h : Inv E x s) (hr : RoundsApart E s e) (hs : step E x s e = some (s', o)) :
    Inv E x s' := by
  cases e with
  | begins key e =>
    cases hw : s.worker key with
    | busy commits root passes => exact absurd hs (by simp [step, hw])
    | between pLucyIndexer =>
      simp only [step, hw, Option.ite_none_right_eq_some, Bool.and_eq_true, List.contains_iff_mem,
        Option.map_eq_some_iff, Prod.mk.injEq, Prod.exists] at hs
      obtain ⟨⟨hkey, -⟩, root', u, hroot, rfl, -⟩ := hs
      have hround : ∀ r irq l, e = .round r irq → s.root E key pLucyIndexer = .running l → RoundApart E key l r := by
        intro r irq l he hl
        cases pLucyIndexer with
        | none => exact absurd hl (by simp [Desktop.root])
        | some l' =>
          simp only [Desktop.root, Root.running.injEq] at hl
          subst hl
          exact hr key r irq l' (by rw [he]) hw
      obtain ⟨hok, hcommits⟩ := root_step_onePer (h.root hkey hw) hround hroot
      exact h.update hkey ⟨hcommits, hok⟩
  | goesOn key =>
    have hkey : ∀ commits root passes, s.worker key = .busy commits root passes → key ∈ x.searched :=
      fun commits root passes hw => h.registered key (by rw [hw]; simp)
    cases hw : s.worker key with
    | between pLucyIndexer => exact absurd hs (by simp [step, hw])
    | busy commits root passes =>
      have hk := hkey commits root passes hw
      have hok := h.worker key hk
      rw [hw] at hok
      obtain ⟨hcommits, hroot⟩ := hok
      cases commits with
      | nil =>
        simp only [step, hw, Option.some.injEq, Prod.mk.injEq] at hs
        rw [← hs.1]
        refine h.update hk ?_
        cases root with
        | stopped dir => trivial
        | running l => exact hroot
      | cons si commits =>
        simp only [step, hw, Option.some.injEq, Prod.mk.injEq] at hs
        rw [← hs.1]
        have hmoved : Inv E x ⟨Function.update s.worker key (.busy commits root passes), s.disk, s.passed⟩ :=
          h.update hk ⟨fun c hc => hcommits c (List.mem_cons_of_mem _ hc), hroot⟩
        exact hmoved.commit hapart hk (hcommits si List.mem_cons_self)

/-! ## Apart, each file is reported once -/

/-- The hits in the index of one root are of its files. -/
theorem Inv.hit (h : Inv E x s) (hkey : key ∈ x.searched) {query : Document → Bool} {d : Document}
    (hd : d ∈ ((s.openSearcher E key).map fun si => si.docs.filter query).getD []) :
    ∃ p, Below key p ∧ Worker.ownIndex p = false ∧ d.get FIELDNAME_ABSPATHNAME = some p := by
  cases hdir : s.openSearcher E key with
  | none => rw [hdir] at hd; exact absurd hd List.not_mem_nil
  | some si =>
    rw [hdir] at hd
    obtain ⟨p, hbelow, hown, hget, -⟩ := (h.disk key hkey si hdir).owned d (List.mem_filter.1 hd).1
    exact ⟨p, hbelow, hown, hget⟩

/-- **No two hits have the same path.** -/
theorem Inv.pairwise (h : Inv E x s) (hapart : Apart E x) {query : Document → Bool} {hits : List Document}
    (hs : s.search E x query = some hits) :
    hits.Pairwise fun d d' => d.get FIELDNAME_ABSPATHNAME ≠ d'.get FIELDNAME_ABSPATHNAME := by
  rw [search_eq hs, List.pairwise_flatMap]
  constructor
  · -- in one index
    intro key hkey
    cases hdir : s.openSearcher E key with
    | none => exact List.Pairwise.nil
    | some si => exact (h.disk key hkey si hdir).once.sublist List.filter_sublist
  · -- in the indexes of two roots, which would both have the file
    refine Indexer.searched_nodup.imp_of_mem ?_
    intro key key' hkey hkey' hne d hd d' hd' heq
    obtain ⟨p, hbelow, hown, hget⟩ := h.hit hkey hd
    obtain ⟨p', hbelow', -, hget'⟩ := h.hit hkey' hd'
    have hp : p = p' := by
      rw [hget, hget', Option.some.injEq] at heq
      exact heq
    subst hp
    rcases hbelow.nested hbelow' hne with hin | hin
    · exact hapart.roots key hkey key' hkey' hin (hbelow'.indexes hown)
    · exact hapart.roots key' hkey' key hkey hin (hbelow.indexes hown)

theorem once_of_inv (h : Inv E x s) (hapart : Apart E x) (query : Document → Bool) : OncePerPathname E x s query := by
  intro hits hs i hi j hj heq
  have hpair := List.pairwise_iff_getElem.1 (h.pairwise hapart hs)
  have hpath : ∀ d ∈ hits, ∃ p, d.get FIELDNAME_ABSPATHNAME = some p := by
    intro d hd
    rw [search_eq hs] at hd
    obtain ⟨key, hkey, hd⟩ := List.mem_flatMap.1 hd
    obtain ⟨p, -, -, hget⟩ := h.hit hkey hd
    exact ⟨p, hget⟩
  obtain ⟨p, hp⟩ := hpath _ (List.getElem_mem hi)
  obtain ⟨q, hq⟩ := hpath _ (List.getElem_mem hj)
  rw [getHitAttr_eq hi hp, getHitAttr_eq hj hq] at heq
  subst heq
  rcases Nat.lt_trichotomy i j with hlt | rfl | hgt
  · exact absurd (hp.trans hq.symm) (hpair i j hi hj hlt)
  · rfl
  · exact absurd (hq.trans hp.symm) (hpair j i hj hi hgt)

end Desktop

end QDesktopSearch
