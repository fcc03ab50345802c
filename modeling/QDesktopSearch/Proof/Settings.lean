import QDesktopSearch.Lib.Machine
import QDesktopSearch.Model.Settings
import QDesktopSearch.Proof.Registry

/-!
# The directories on the settings page

* `replaceAll_local`: a placeholder has no `|`, so replacing goes on from one as from the
  start, and `read_joinDirs`: what is stored is read back name by name.
* `dirs_roundtrip`: an addition and a removal are read back exactly if no name is empty,
  has a `|` or changes when placeholders are replaced in it.
* `run_agrees`: over all clicks, the indexer has the directories on the page.
-/

namespace QDesktopSearch

open Separated

variable {Q : Qt} {D : Places} {sep : QChar} {before after s t : QString}

/-! ## Replacing -/

theorem not_prefix_of_sep (h : sep ∉ before) (hb : before ≠ []) : before.isPrefixOf (sep :: t) = false := by
  cases before with
  | nil => exact absurd rfl hb
  | cons c before =>
    have hne : c ≠ sep := fun he => h (he ▸ List.mem_cons_self)
    simp [List.isPrefixOf, hne]

/-- No occurrence reaches over a separator. -/
theorem prefix_before_sep (h : sep ∉ before) : before.isPrefixOf (s ++ sep :: t) = before.isPrefixOf s := by
  rw [Bool.eq_iff_iff, List.isPrefixOf_iff_prefix, List.isPrefixOf_iff_prefix]
  constructor
  · intro hp
    have hlen : before.length ≤ s.length := by
      by_contra hlt
      have hsep : s ++ [sep] <+: s ++ sep :: t := ⟨t, by simp⟩
      have hin : s ++ [sep] <+: before := List.prefix_of_prefix_length_le hsep hp (by simp; omega)
      exact h (hin.subset (by simp))
    exact List.prefix_of_prefix_length_le hp (List.prefix_append s _) hlen
  · intro hp
    exact hp.trans (List.prefix_append s _)

theorem replaceFrom_append (h : sep ∉ before) (hb : before ≠ []) {k : ℕ} (hk : k ≤ s.length) :
    replaceFrom before after k (s ++ sep :: t) =
      replaceFrom before after k s ++ sep :: replaceFrom before after 0 t := by
  induction s generalizing k with
  | nil =>
    have hk0 : k = 0 := by simpa using hk
    subst hk0
    simp only [List.nil_append, replaceFrom, not_prefix_of_sep h hb, Bool.false_eq_true, if_false]
  | cons c s ih =>
    cases k with
    | succ k => exact ih (by simpa using hk)
    | zero =>
      have hpre : before.isPrefixOf (c :: (s ++ sep :: t)) = before.isPrefixOf (c :: s) :=
        prefix_before_sep (s := c :: s) h
      simp only [List.cons_append, replaceFrom, hpre]
      split
      · rename_i hp
        have hlen := (List.isPrefixOf_iff_prefix.1 hp).length_le
        rw [ih (by simp at hlen; omega), List.append_assoc]
      · rw [ih (Nat.zero_le _)]; rfl

/-- **Replacing goes on from a separator as from the start.** -/
theorem replaceAll_local (h : sep ∉ before) (hb : before ≠ []) : Local sep (replaceAll before after) :=
  fun _ _ => replaceFrom_append h hb (Nat.zero_le _)

/-- **Where nothing occurs, nothing is replaced.** -/
theorem replaceAll_of_not_infix (h : ¬before <:+: s) : replaceAll before after s = s := by
  unfold replaceAll
  induction s with
  | nil => rfl
  | cons c s ih =>
    have hp : before.isPrefixOf (c :: s) = false := by
      rw [Bool.eq_false_iff]
      intro hp
      exact h (List.isPrefixOf_iff_prefix.1 hp).isInfix
    rw [replaceFrom, hp, if_neg (by simp), ih fun hs => h (hs.trans (List.suffix_cons c s).isInfix)]

theorem mem_replaceFrom {c : QChar} {k : ℕ} (hc : c ∈ replaceFrom before after k s) : c ∈ s ∨ c ∈ after := by
  induction s generalizing k with
  | nil => exact absurd hc (by cases k <;> simp [replaceFrom])
  | cons b s ih =>
    cases k with
    | succ k => exact (ih (k := k) hc).imp_left (List.mem_cons_of_mem _)
    | zero =>
      rw [replaceFrom] at hc
      split at hc
      · rcases List.mem_append.1 hc with hc | hc
        · exact Or.inr hc
        · exact (ih hc).imp_left (List.mem_cons_of_mem _)
      · rcases List.mem_cons.1 hc with rfl | hc
        · exact Or.inl List.mem_cons_self
        · exact (ih hc).imp_left (List.mem_cons_of_mem _)

/-! ## Placeholders -/

namespace Places

/-- A placeholder starts with `%` and has no `|`. -/
theorem placeHolder_shape {r : QString × QString} (hr : r ∈ D.placeHolders Q) :
    QChar.ofChar '%' ∈ r.1 ∧ QChar.ofChar '|' ∉ r.1 := by
  have hmem : r.1 ∈ (D.placeHolders Q).map (·.1) := List.mem_map_of_mem hr
  have hall : ((D.placeHolders Q).map (·.1)).all
      (fun name => name.contains (QChar.ofChar '%') && !name.contains (QChar.ofChar '|')) = true := by
    rfl
  simpa using List.all_eq_true.1 hall _ hmem

/-- Without a `%` there is nothing to replace, so the test for one changes nothing. -/
theorem replacePlaceHolders_eq :
    D.replacePlaceHolders Q s = (D.placeHolders Q).foldl (fun s r => replaceAll r.1 r.2 s) s := by
  unfold replacePlaceHolders
  split
  · rename_i hno
    have hmiss : ∀ r ∈ D.placeHolders Q, replaceAll r.1 r.2 s = s := by
      intro r hr
      refine replaceAll_of_not_infix fun hin => ?_
      have : QChar.ofChar '%' ∈ s := hin.subset (placeHolder_shape hr).1
      simp [this] at hno
    generalize D.placeHolders Q = rs at hmiss
    induction rs with
    | nil => rfl
    | cons r rs ih =>
      rw [List.foldl_cons, hmiss r List.mem_cons_self]
      exact ih fun r hr => hmiss r (List.mem_cons_of_mem _ hr)
  · rfl

@[simp] theorem replacePlaceHolders_nil : D.replacePlaceHolders Q [] = [] := rfl

/-- **Placeholders are replaced name by name.** -/
theorem replacePlaceHolders_local : Local (QChar.ofChar '|') (D.replacePlaceHolders Q) := by
  have hfold : ∀ rs : List (QString × QString), (∀ r ∈ rs, r ∈ D.placeHolders Q) →
      Local (QChar.ofChar '|') fun s => rs.foldl (fun s r => replaceAll r.1 r.2 s) s := by
    intro rs
    induction rs with
    | nil => intro _; exact Local.id
    | cons r rs ih =>
      intro hrs
      have hshape := placeHolder_shape (hrs r List.mem_cons_self)
      have hne : r.1 ≠ [] := List.ne_nil_of_mem hshape.1
      exact (ih fun r hr => hrs r (List.mem_cons_of_mem _ hr)).comp (replaceAll_local hshape.2 hne)
  intro s t
  rw [replacePlaceHolders_eq, replacePlaceHolders_eq, replacePlaceHolders_eq]
  exact hfold _ (fun _ hr => hr) s t

/-- A name in which no placeholder occurs stays as it is. -/
theorem replacePlaceHolders_self (h : ∀ r ∈ D.placeHolders Q, ¬r.1 <:+: s) : D.replacePlaceHolders Q s = s := by
  rw [replacePlaceHolders_eq]
  generalize D.placeHolders Q = rs at h
  induction rs with
  | nil => rfl
  | cons r rs ih =>
    rw [List.foldl_cons, replaceAll_of_not_infix (h r List.mem_cons_self)]
    exact ih fun r hr => h r (List.mem_cons_of_mem _ hr)

/-- A character that is in no value is not put in. -/
theorem mem_replacePlaceHolders {c : QChar} (hv : ∀ r ∈ D.placeHolders Q, c ∉ r.2)
    (hc : c ∈ D.replacePlaceHolders Q s) : c ∈ s := by
  rw [replacePlaceHolders_eq] at hc
  generalize D.placeHolders Q = rs at hv hc
  induction rs generalizing s with
  | nil => exact hc
  | cons r rs ih =>
    rcases mem_replaceFrom (ih (fun r hr => hv r (List.mem_cons_of_mem _ hr)) hc) with h | h
    · exact h
    · exact absurd h (hv r List.mem_cons_self)

end Places

/-! ## The round trip -/

namespace Settings

variable {x x' : Settings} {exists_ : QString → Bool} {d p key : QString} {sl : List QString} {row : ℕ}

/-- No value of a placeholder has a `|`. -/
def NoBars (Q : Qt) (D : Places) : Prop := ∀ r ∈ D.placeHolders Q, QChar.ofChar '|' ∉ r.2

/-- **What is stored is read back name by name**, with the placeholders replaced. -/
theorem read_joinDirs (indexer : Indexer) : (⟨joinDirs sl, indexer⟩ : Settings).dirs2Index Q D =
    sl.flatMap fun e => fields (QChar.ofChar '|') (D.replacePlaceHolders Q e) :=
  Places.replacePlaceHolders_local.fields_join Places.replacePlaceHolders_nil

theorem of_mem_dirs2Index {e : QString} (he : e ∈ x.dirs2Index Q D) : e ≠ [] ∧ QChar.ofChar '|' ∉ e :=
  of_mem_fields (s := x.getValue Q D) he

/-- Names without a `|` that do not change are read back, but for empty ones. -/
theorem read_of_same {indexer : Indexer} (h : ∀ e ∈ sl, QChar.ofChar '|' ∉ e ∧ D.replacePlaceHolders Q e = e) :
    (⟨joinDirs sl, indexer⟩ : Settings).dirs2Index Q D = sl.filter (· ≠ []) := by
  rw [read_joinDirs]
  induction sl with
  | nil => rfl
  | cons e sl ih =>
    obtain ⟨hbar, hsame⟩ := h e List.mem_cons_self
    rw [List.flatMap_cons, hsame, fields_of_not_mem hbar, ih fun e he => h e (List.mem_cons_of_mem _ he)]
    by_cases he : e = [] <;> simp [he]

theorem read_of_kept {indexer : Indexer}
    (h : ∀ e ∈ sl, e ≠ [] ∧ QChar.ofChar '|' ∉ e ∧ D.replacePlaceHolders Q e = e) :
    (⟨joinDirs sl, indexer⟩ : Settings).dirs2Index Q D = sl := by
  rw [read_of_same fun e he => (h e he).2, List.filter_eq_self]
  intro e he
  simpa using (h e he).1

/-- **A list that is read back has names that can be stored and do not change.** -/
theorem kept_of_read {indexer : Indexer} (hD : NoBars Q D)
    (h : (⟨joinDirs sl, indexer⟩ : Settings).dirs2Index Q D = sl) :
    ∀ e ∈ sl, e ≠ [] ∧ QChar.ofChar '|' ∉ e ∧ D.replacePlaceHolders Q e = e := by
  have hname : ∀ e ∈ sl, e ≠ [] ∧ QChar.ofChar '|' ∉ e := fun e he => of_mem_dirs2Index (h.symm ▸ he)
  have hbar : ∀ e ∈ sl, QChar.ofChar '|' ∉ D.replacePlaceHolders Q e :=
    fun e he hmem => (hname e he).2 (Places.mem_replacePlaceHolders hD hmem)
  have hone : ∀ e ∈ sl, (fields (QChar.ofChar '|') (D.replacePlaceHolders Q e)).length ≤ 1 := by
    intro e he
    rw [fields_of_not_mem (hbar e he)]
    split <;> simp
  rw [read_joinDirs, flatMap_self hone] at h
  intro e he
  refine ⟨(hname e he).1, (hname e he).2, ?_⟩
  have hself := h e he
  rw [fields_of_not_mem (hbar e he)] at hself
  split at hself
  · exact absurd hself.symm (List.cons_ne_nil _ _)
  · exact (List.cons.inj hself).1

/-- The addition finds the directory in the list, or can store the longer list. -/
def AddKept (Q : Qt) (D : Places) (x : Settings) (d : QString) : Prop :=
  normalizePath Q d false ∈ x.dirs2Index Q D ∨
    (normalizePath Q d false ≠ [] ∧ QChar.ofChar '|' ∉ normalizePath Q d false ∧
      ∀ e ∈ x.dirs2Index Q D ++ [normalizePath Q d false], D.replacePlaceHolders Q e = e)

/-- The removal can store the shorter list. -/
def DelKept (Q : Qt) (D : Places) (x : Settings) (row : ℕ) : Prop :=
  ∀ e ∈ (x.dirs2Index Q D).eraseIdx row, D.replacePlaceHolders Q e = e

/-- After the addition the list has the directory, once. -/
def AddReads (Q : Qt) (D : Places) (exists_ : QString → Bool) (x : Settings) (d : QString) : Prop :=
  (x.on_toolButtonAdd_clicked Q D exists_ d).dirs2Index Q D =
    if (x.dirs2Index Q D).contains (normalizePath Q d false) then x.dirs2Index Q D
    else x.dirs2Index Q D ++ [normalizePath Q d false]

/-- What the addition stores, and what it hands to the indexer. -/
theorem add_eq : x.on_toolButtonAdd_clicked Q D exists_ d =
    if normalizePath Q d false ∈ x.dirs2Index Q D then x
    else ⟨joinDirs (x.dirs2Index Q D ++ [normalizePath Q d false]),
      x.indexer.add Q exists_ (normalizePath Q d false)⟩ := by
  simp only [on_toolButtonAdd_clicked, setValue, List.contains_iff_mem]

/-- What the removal of a row stores, and what it takes from the indexer. -/
theorem del_eq {s : QString} (hrow : (x.dirs2Index Q D)[row]? = some s) :
    x.on_toolButtonDel_clicked Q D [row] = (x.indexer.removeIndex Q s).map fun r =>
      ⟨joinDirs ((x.dirs2Index Q D).eraseIdx row), r.1⟩ := by
  simp only [on_toolButtonDel_clicked, setValue, hrow, Option.bind_eq_bind, Option.bind_some]
  cases x.indexer.removeIndex Q s <;> rfl

theorem addReads_of_kept (h : AddKept Q D x d) : AddReads Q D exists_ x d := by
  unfold AddReads
  rw [add_eq]
  by_cases hnew : normalizePath Q d false ∈ x.dirs2Index Q D
  · rw [if_pos hnew, if_pos (List.contains_iff_mem.2 hnew)]
  · rw [if_neg hnew, if_neg (mt List.contains_iff_mem.1 hnew)]
    rcases h with hmem | ⟨hne, hbar, hsame⟩
    · exact absurd hmem hnew
    refine read_of_kept fun e he => ?_
    have hname : e ≠ [] ∧ QChar.ofChar '|' ∉ e := by
      rcases List.mem_append.1 he with he' | he'
      · exact of_mem_dirs2Index he'
      · rw [List.mem_singleton.1 he']; exact ⟨hne, hbar⟩
    exact ⟨hname.1, hname.2, hsame e he⟩

theorem kept_of_addReads (hD : NoBars Q D) (h : AddReads Q D exists_ x d) : AddKept Q D x d := by
  by_cases hmem : normalizePath Q d false ∈ x.dirs2Index Q D
  · exact Or.inl hmem
  · unfold AddReads at h
    rw [add_eq, if_neg hmem, if_neg (mt List.contains_iff_mem.1 hmem)] at h
    have hkept := kept_of_read hD h
    have hp := hkept _ (List.mem_append_right _ (List.mem_singleton_self _))
    exact Or.inr ⟨hp.1, hp.2.1, fun e he => (hkept e he).2.2⟩

/-- **The list on the settings page round-trips**, exactly as long as no name is empty, has
a `|` or changes when placeholders are replaced in it. (Only if no value of a placeholder
has a `|` are these conditions needed.) -/
theorem dirs_roundtrip (Q : Qt) (D : Places) (exists_ : QString → Bool) (x : Settings) :
    (∀ d, (AddKept Q D x d → AddReads Q D exists_ x d) ∧
      (NoBars Q D → AddReads Q D exists_ x d → AddKept Q D x d)) ∧
    ∀ row < (x.dirs2Index Q D).length,
      (x.indexer.Sound Q → (x.on_toolButtonDel_clicked Q D [row]).isSome = true) ∧
      ∀ x', x.on_toolButtonDel_clicked Q D [row] = some x' →
        (DelKept Q D x row → x'.dirs2Index Q D = (x.dirs2Index Q D).eraseIdx row) ∧
        (NoBars Q D → x'.dirs2Index Q D = (x.dirs2Index Q D).eraseIdx row → DelKept Q D x row) := by
  refine ⟨fun d => ⟨addReads_of_kept, kept_of_addReads⟩, ?_⟩
  intro row hrow
  have hdel := del_eq (List.getElem?_eq_getElem hrow)
  constructor
  · intro hsound
    rw [hdel, Option.isSome_map]
    exact hsound.usable.removeIndex _
  · intro x' hx'
    rw [hdel, Option.map_eq_some_iff] at hx'
    obtain ⟨r, -, rfl⟩ := hx'
    refine ⟨fun hsame => read_of_kept fun e he => ?_, fun hD h e he => (kept_of_read hD h e he).2.2⟩
    have hname := of_mem_dirs2Index (List.mem_of_mem_eraseIdx he)
    exact ⟨hname.1, hname.2, hsame e he⟩

/-- An installation with a few directories. -/
def samplePlaces : Places := ⟨qs "/h/doc", qs "/tmp", qs "/p", qs "/h", qs "/h", [], qs "qds"⟩

/-- With `/d/a` configured: `/` is dropped, `/d/x|y` is read back as two names, and in
`/d/%TMP%` the placeholder is replaced. -/
theorem dirs_not_read_back :
    let x := start sampleQt samplePlaces (fun _ => true) (qs "/d/a")
    let added := fun d => (x.on_toolButtonAdd_clicked sampleQt samplePlaces (fun _ => true) d).dirs2Index sampleQt samplePlaces
    ¬AddReads sampleQt samplePlaces (fun _ => true) x (qs "/") ∧
      ¬AddReads sampleQt samplePlaces (fun _ => true) x (qs "/d/x|y") ∧
      ¬AddReads sampleQt samplePlaces (fun _ => true) x (qs "/d/%TMP%") ∧
      added (qs "/") = [qs "/d/a"] ∧ added (qs "/d/x|y") = [qs "/d/a", qs "/d/x", qs "y"] ∧
      added (qs "/d/%TMP%") = [qs "/d/a", qs "/d//tmp"] := by
  unfold AddReads
  decide +kernel

/-! ## Settings and indexers -/

/-- The keys of the indexer are the normalized paths, but for the empty one, of the
configured directories that exist. -/
def Agrees (Q : Qt) (D : Places) (exists_ : QString → Bool) (x : Settings) : Prop :=
  ∀ key, x.indexer.isIndexing key = true ↔
    ∃ e ∈ x.dirs2Index Q D, exists_ e = true ∧ normalizePath Q e false = key ∧ key ≠ []

/-- A name such as `/`, which is not blank but of which `normalizePath` leaves nothing. -/
def RootLike (Q : Qt) (e : QString) : Prop := isempty e true = false ∧ normalizePath Q e false = []

theorem trimmed_eq_nil (h : ∀ c ∈ s, c.isSpace = true) : trimmed s = [] := by
  rw [trimmed, List.dropWhile_eq_nil_iff.2 h]; rfl

theorem isSpace_of_trimmed (h : trimmed s = []) : ∀ c ∈ s, c.isSpace = true := by
  rw [trimmed, List.rdropWhile_eq_nil_iff] at h
  by_contra hne
  have hdrop : s.dropWhile QChar.isSpace ≠ [] := fun he => hne (List.dropWhile_eq_nil_iff.1 he)
  have hhead := List.head_dropWhile_not QChar.isSpace hdrop
  have hall := h _ (List.head_mem hdrop)
  simp [hall] at hhead

/-- A blank name is normalized to nothing. -/
theorem normalizePath_blank (h : isempty d true = true) : normalizePath Q d false = [] := by
  have hspace : ∀ c ∈ d, c.isSpace = true := by
    unfold isempty at h
    split at h
    · rename_i hd
      rw [hd]
      exact fun c hc => absurd hc List.not_mem_nil
    · exact isSpace_of_trimmed (by simpa using h)
  have hreplace : ∀ c ∈ replaceChar (QChar.ofChar '\\') (QChar.ofChar '/') d, c.isSpace = true := by
    intro c hc
    obtain ⟨b, hb, rfl⟩ := List.mem_map.1 hc
    have hne : b ≠ QChar.ofChar '\\' := by
      rintro rfl
      exact absurd (hspace _ hb) (by decide)
    rw [if_neg hne]
    exact hspace b hb
  unfold normalizePath
  rw [trimmed_eq_nil hreplace]; rfl

/-- **`add` adds the key** of a directory that is not blank and exists. -/
theorem add_isIndexing {ix : Indexer} : (ix.add Q exists_ d).isIndexing key = true ↔
    ix.isIndexing key = true ∨ (isempty d true = false ∧ exists_ d = true ∧ normalizePath Q d false = key) := by
  unfold Indexer.add
  cases hb : isempty d true with
  | true => simp
  | false =>
    cases he : exists_ d with
    | false => simp
    | true =>
      dsimp only
      cases hi : ix.isIndexing (normalizePath Q d false) with
      | true =>
        constructor
        · intro h; exact Or.inl (by simpa using h)
        · rintro (h | ⟨-, -, rfl⟩)
          · simpa using h
          · simpa using hi
      | false =>
        simp only [Bool.not_true, Bool.false_eq_true, if_false, true_and]
        rw [Indexer.isIndexing_iff, Indexer.isIndexing_iff, Indexer.getElem?_insert]
        by_cases hk : normalizePath Q d false = key
        · simp [hk]
        · simp [hk]

theorem addAll_isIndexing {ix : Indexer} : (sl.foldl (Indexer.add Q exists_) ix).isIndexing key = true ↔
    ix.isIndexing key = true ∨
      ∃ e ∈ sl, isempty e true = false ∧ exists_ e = true ∧ normalizePath Q e false = key := by
  induction sl generalizing ix with
  | nil => simp
  | cons e sl ih =>
    rw [List.foldl_cons, ih, add_isIndexing, or_assoc]
    simp only [List.mem_cons, exists_eq_or_imp]

/-- **`removeIndex` takes the key away.** -/
theorem removeIndex_isIndexing {ix ix' : Indexer} {o : Option IndexerThread} (hs : ix.Sound Q)
    (h : ix.removeIndex Q d = some (ix', o)) :
    ix'.isIndexing key = true ↔ ix.isIndexing key = true ∧ normalizePath Q d false ≠ key := by
  rcases hs.removeIndex_cases d with ⟨hno, he⟩ | ⟨t, -, -, he⟩
  · rw [h, Option.some.injEq, Prod.mk.injEq] at he
    rw [he.1]
    constructor
    · intro hk
      refine ⟨hk, ?_⟩
      rintro rfl
      simp [hno] at hk
    · exact fun hk => hk.1
  · rw [h, Option.some.injEq, Prod.mk.injEq] at he
    rw [he.1, Indexer.isIndexing_iff, Indexer.isIndexing_iff, Indexer.getElem?_erase]
    by_cases hk : normalizePath Q d false = key
    · simp [hk]
    · simp [hk]

/-! ## One click -/

/-- The list has a directory that exists and is normalized to the key. -/
def Names (Q : Qt) (exists_ : QString → Bool) (sl : List QString) (key : QString) : Prop :=
  ∃ e ∈ sl, exists_ e = true ∧ normalizePath Q e false = key ∧ key ≠ []

/-- A selected row is one of the table. -/
def Shown (Q : Qt) (D : Places) (x : Settings) (ev : Event) : Prop :=
  ∀ row, ev = .del [row] → row < (x.dirs2Index Q D).length

/-- What the click stores is read back, but for an empty name. -/
def Kept (Q : Qt) (D : Places) (x : Settings) : Event → Prop
  | .add d => normalizePath Q d false ∈ x.dirs2Index Q D ∨ (QChar.ofChar '|' ∉ normalizePath Q d false ∧
      ∀ e ∈ x.dirs2Index Q D ++ [normalizePath Q d false], D.replacePlaceHolders Q e = e)
  | .del [row] => DelKept Q D x row
  | .del _ => True

/-- No name such as `/` is added; no name is removed while another one of the same directory stays. -/
def Distinct (Q : Qt) (D : Places) (exists_ : QString → Bool) (x : Settings) : Event → Prop
  | .add d => normalizePath Q d false ∈ x.dirs2Index Q D ∨
      ¬(exists_ (normalizePath Q d false) = true ∧ RootLike Q (normalizePath Q d false))
  | .del [row] => ∀ s, (x.dirs2Index Q D)[row]? = some s → ∀ e ∈ (x.dirs2Index Q D).eraseIdx row,
      exists_ e = true → normalizePath Q e false = normalizePath Q s false → normalizePath Q e false = []
  | .del _ => True

theorem names_filter : Names Q exists_ (sl.filter (· ≠ [])) key ↔ Names Q exists_ sl key := by
  constructor
  · rintro ⟨e, he, h⟩
    exact ⟨e, List.mem_of_mem_filter he, h⟩
  · rintro ⟨e, he, hex, hk, hne⟩
    have hnil : e ≠ [] := by
      rintro rfl
      exact hne hk.symm
    exact ⟨e, List.mem_filter.2 ⟨he, by simpa using hnil⟩, hex, hk, hne⟩

theorem names_append : Names Q exists_ (sl ++ [p]) key ↔
    Names Q exists_ sl key ∨ (exists_ p = true ∧ normalizePath Q p false = key ∧ key ≠ []) := by
  simp only [Names, List.mem_append, List.mem_singleton, or_and_right, exists_or, exists_eq_left]

/-- **The step lemma for additions.** -/
theorem add_agrees (ha : Agrees Q D exists_ x) (hkept : Kept Q D x (.add d)) :
    Agrees Q D exists_ (x.on_toolButtonAdd_clicked Q D exists_ d) ↔ Distinct Q D exists_ x (.add d) := by
  rw [add_eq]
  by_cases hmem : normalizePath Q d false ∈ x.dirs2Index Q D
  · rw [if_pos hmem]
    exact iff_of_true ha (Or.inl hmem)
  rw [if_neg hmem]
  simp only [Kept, Distinct] at hkept ⊢
  generalize normalizePath Q d false = p at hmem hkept ⊢
  obtain ⟨hbar, hsame⟩ := hkept.resolve_left hmem
  have hread : ∀ key, (∃ e ∈ (⟨joinDirs (x.dirs2Index Q D ++ [p]), x.indexer.add Q exists_ p⟩ : Settings).dirs2Index Q D,
      exists_ e = true ∧ normalizePath Q e false = key ∧ key ≠ []) ↔
      Names Q exists_ (x.dirs2Index Q D) key ∨ (exists_ p = true ∧ normalizePath Q p false = key ∧ key ≠ []) := by
    intro key
    rw [read_of_same, ← names_append]
    · exact names_filter
    · intro e he
      refine ⟨?_, hsame e he⟩
      rcases List.mem_append.1 he with he | he
      · exact (of_mem_dirs2Index he).2
      · rw [List.mem_singleton.1 he]; exact hbar
  unfold Agrees
  simp only [hread, add_isIndexing, ha _]
  constructor
  · intro h
    refine Or.inr ?_
    rintro ⟨hex, hblank, hnil⟩
    rcases (h []).1 (Or.inr ⟨hblank, hex, hnil⟩) with ⟨e, -, -, -, hne⟩ | ⟨-, -, hne⟩
    · exact hne rfl
    · exact hne rfl
  · intro h key
    have hroot := h.resolve_left hmem
    refine or_congr Iff.rfl ?_
    constructor
    · rintro ⟨hblank, hex, rfl⟩
      exact ⟨hex, rfl, fun hnil => hroot ⟨hex, hblank, hnil⟩⟩
    · rintro ⟨hex, rfl, hne⟩
      refine ⟨?_, hex, rfl⟩
      rw [← Bool.not_eq_true]
      exact fun hblank => hne (normalizePath_blank hblank)

theorem mem_iff_eraseIdx {e s : QString} (hrow : sl[row]? = some s) : e ∈ sl ↔ e = s ∨ e ∈ sl.eraseIdx row := by
  obtain ⟨hlt, rfl⟩ := List.getElem?_eq_some_iff.1 hrow
  have hsplit : sl = sl.take row ++ sl[row] :: sl.drop (row + 1) := by
    rw [← List.drop_eq_getElem_cons hlt, List.take_append_drop]
  rw [List.eraseIdx_eq_take_drop_succ, List.mem_append]
  conv_lhs => rw [hsplit]
  rw [List.mem_append, List.mem_cons]
  tauto

/-- **The step lemma for removals.** -/
theorem del_agrees (ha : Agrees Q D exists_ x) (hs : x.indexer.Sound Q) (hkept : Kept Q D x (.del [row]))
    (h : x.on_toolButtonDel_clicked Q D [row] = some x') :
    Agrees Q D exists_ x' ↔ Distinct Q D exists_ x (.del [row]) := by
  cases hrow : (x.dirs2Index Q D)[row]? with
  | none => simp [on_toolButtonDel_clicked, hrow] at h
  | some s =>
    rw [del_eq hrow, Option.map_eq_some_iff] at h
    obtain ⟨⟨ix, o⟩, hix, rfl⟩ := h
    have hread : ∀ key, (∃ e ∈ (⟨joinDirs ((x.dirs2Index Q D).eraseIdx row), ix⟩ : Settings).dirs2Index Q D,
        exists_ e = true ∧ normalizePath Q e false = key ∧ key ≠ []) ↔
        Names Q exists_ ((x.dirs2Index Q D).eraseIdx row) key := by
      intro key
      rw [read_of_same]
      · exact names_filter
      · intro e he
        exact ⟨(of_mem_dirs2Index (List.mem_of_mem_eraseIdx he)).2, hkept e he⟩
    unfold Agrees Distinct
    simp only [hread, removeIndex_isIndexing hs hix, ha _, hrow, Option.some.injEq, forall_eq']
    constructor
    · intro hall e he hex hsame
      by_contra hne
      have hkey := (hall (normalizePath Q e false)).2 ⟨e, he, hex, rfl, hne⟩
      exact hkey.2 hsame.symm
    · intro hother key
      constructor
      · rintro ⟨⟨e, he, hex, hk, hne⟩, hsk⟩
        rcases (mem_iff_eraseIdx hrow).1 he with rfl | he
        · exact absurd hk hsk
        · exact ⟨e, he, hex, hk, hne⟩
      · rintro ⟨e, he, hex, hk, hne⟩
        refine ⟨⟨e, List.mem_of_mem_eraseIdx he, hex, hk, hne⟩, ?_⟩
        intro hsk
        exact hne (hk ▸ hother e he hex (hk.trans hsk.symm))

/-! ## All clicks -/

/-- No configured directory that exists is one such as `/`. -/
def StartsApart (Q : Qt) (D : Places) (exists_ : QString → Bool) (stored : QString) : Prop :=
  ∀ e ∈ (start Q D exists_ stored).dirs2Index Q D, exists_ e = true → ¬RootLike Q e

/-- After `init`, and after each click, settings and indexers agree. -/
def AlwaysAgrees (Q : Qt) (D : Places) (exists_ : QString → Bool) (stored : QString) (es : List Event) : Prop :=
  ∀ es₁ es₂, es = es₁ ++ es₂ → ∃ x os,
    Machine.run (step Q D exists_) (start Q D exists_ stored) es₁ = some (x, os) ∧ Agrees Q D exists_ x

theorem start_sound {stored : QString} : (start Q D exists_ stored).indexer.Sound Q :=
  Indexer.Sound.new.init

theorem start_agrees {stored : QString} :
    Agrees Q D exists_ (start Q D exists_ stored) ↔ StartsApart Q D exists_ stored := by
  have hkeys : ∀ key, (start Q D exists_ stored).indexer.isIndexing key = true ↔
      ∃ e ∈ (start Q D exists_ stored).dirs2Index Q D,
        isempty e true = false ∧ exists_ e = true ∧ normalizePath Q e false = key := by
    intro key
    have hnew : ¬Indexer.new.isIndexing key = true := by simp [Indexer.new, Indexer.isIndexing]
    exact addAll_isIndexing.trans (or_iff_right hnew)
  unfold Agrees StartsApart
  simp only [hkeys]
  constructor
  · rintro h e he hex ⟨hblank, hnil⟩
    obtain ⟨-, -, -, -, hne⟩ := (h []).1 ⟨e, he, hblank, hex, hnil⟩
    exact hne rfl
  · intro h key
    constructor
    · rintro ⟨e, he, hblank, hex, rfl⟩
      exact ⟨e, he, hex, rfl, fun hnil => h e he hex ⟨hblank, hnil⟩⟩
    · rintro ⟨e, he, hex, rfl, hne⟩
      refine ⟨e, he, ?_, hex, rfl⟩
      rw [← Bool.not_eq_true]
      exact fun hblank => hne (normalizePath_blank hblank)

/-- **The step lemma**: a click on the page goes through, and where what it stores is read
back, it keeps settings and indexers in agreement exactly if names stay apart. -/
theorem step_agrees (hs : x.indexer.Sound Q) {ev : Event} (hrow : Shown Q D x ev) :
    ∃ x', step Q D exists_ x ev = some (x', ()) ∧ x'.indexer.Sound Q ∧
      (Agrees Q D exists_ x → Kept Q D x ev → (Agrees Q D exists_ x' ↔ Distinct Q D exists_ x ev)) := by
  cases ev with
  | add d =>
    refine ⟨_, rfl, ?_, fun ha hkept => add_agrees ha hkept⟩
    rw [add_eq]
    split
    · exact hs
    · exact hs.add
  | del sels =>
    by_cases hone : ∃ row, sels = [row]
    · obtain ⟨row, rfl⟩ := hone
      have hlt := hrow row rfl
      have hdel := del_eq (List.getElem?_eq_getElem hlt)
      have hsound : ∀ ix' o, x.indexer.removeIndex Q (x.dirs2Index Q D)[row] = some (ix', o) → ix'.Sound Q := by
        intro ix' o hix
        rcases hs.removeIndex_cases (x.dirs2Index Q D)[row] with ⟨-, he⟩ | ⟨t, -, hk, he⟩
        · rw [hix, Option.some.injEq, Prod.mk.injEq] at he
          rw [he.1]; exact hs
        · rw [hix, Option.some.injEq, Prod.mk.injEq] at he
          rw [he.1]; exact hs.removed hk
      obtain ⟨⟨ix', o⟩, hix⟩ := Option.isSome_iff_exists.1 (hs.usable.removeIndex (x.dirs2Index Q D)[row])
      rw [hix, Option.map_some] at hdel
      exact ⟨_, by rw [step, hdel, Option.map_some], hsound ix' o hix, fun ha hkept => del_agrees ha hs hkept hdel⟩
    · have hsame : x.on_toolButtonDel_clicked Q D sels = some x := by
        unfold on_toolButtonDel_clicked
        split
        · exact absurd ⟨_, rfl⟩ hone
        · rfl
      refine ⟨x, by rw [step, hsame, Option.map_some], hs, fun ha _ => iff_of_true ha ?_⟩
      unfold Distinct
      split
      · rename_i heq
        exact absurd heq (by simp)
      · rename_i heq
        rw [Event.del.injEq] at heq
        exact absurd ⟨_, heq⟩ hone
      · trivial

/-- A click that goes through is on a row of the table. -/
theorem shown_of_step {ev : Event} {o : Unit} (h : step Q D exists_ x ev = some (x', o)) : Shown Q D x ev := by
  rintro row rfl
  by_contra hge
  have hnone : (x.dirs2Index Q D)[row]? = none := List.getElem?_eq_none (Nat.not_lt.1 hge)
  simp [step, on_toolButtonDel_clicked, hnone] at h

/-- **However the page was used, the registry is sound.** -/
theorem run_sound {stored : QString} {es : List Event} {os : List Unit}
    (hrun : Machine.run (step Q D exists_) (start Q D exists_ stored) es = some (x, os)) : x.indexer.Sound Q := by
  refine Machine.run_invariant (I := fun x => x.indexer.Sound Q) (fun y ev y' o hy hstep => ?_) start_sound hrun
  obtain ⟨z, hz, hsound, -⟩ := step_agrees hy (shown_of_step hstep)
  rw [hstep, Option.some.injEq, Prod.mk.injEq] at hz
  rw [hz.1]
  exact hsound

/-- **Settings and indexers agree** from `init` on, after all clicks, if what each click
stores is read back, no name such as `/` that exists is configured or added, and no name is
removed while another one of the same directory stays. Where what is stored is always read
back, only then. -/
theorem run_agrees {stored : QString} {es : List Event}
    (hrows : Machine.Meets (step Q D exists_) (Shown Q D) (start Q D exists_ stored) es) :
    (StartsApart Q D exists_ stored →
        Machine.Meets (step Q D exists_) (fun x ev => Kept Q D x ev ∧ Distinct Q D exists_ x ev)
          (start Q D exists_ stored) es →
        AlwaysAgrees Q D exists_ stored es) ∧
      (Machine.Meets (step Q D exists_) (Kept Q D) (start Q D exists_ stored) es →
        AlwaysAgrees Q D exists_ stored es →
        StartsApart Q D exists_ stored ∧
          Machine.Meets (step Q D exists_) (Distinct Q D exists_) (start Q D exists_ stored) es) := by
  constructor
  · rintro hstart hmeets es₁ es₂ rfl
    have hgo : ∀ (x : Settings) (ev : Event), x.indexer.Sound Q ∧ Agrees Q D exists_ x →
        Shown Q D x ev ∧ Kept Q D x ev ∧ Distinct Q D exists_ x ev →
        ∃ x' o, step Q D exists_ x ev = some (x', o) ∧ x'.indexer.Sound Q ∧ Agrees Q D exists_ x' := by
      rintro x ev ⟨hs, ha⟩ ⟨hrow, hkept, hdist⟩
      obtain ⟨x', hx', hs', hiff⟩ := step_agrees hs hrow
      exact ⟨x', (), hx', hs', (hiff ha hkept).2 hdist⟩
    obtain ⟨x, os, hrun, -, hx⟩ := Machine.run_total hgo (hrows.and hmeets).append ⟨start_sound, start_agrees.2 hstart⟩
    exact ⟨x, os, hrun, hx⟩
  · intro hkept hall
    constructor
    · obtain ⟨x, os, hrun, hx⟩ := hall [] es rfl
      rw [Machine.run_nil, Option.some.injEq, Prod.mk.injEq] at hrun
      exact start_agrees.1 (hrun.1 ▸ hx)
    · rw [Machine.meets_iff] at hkept hrows ⊢
      rintro es₁ ev es₂ x os rfl hrun
      have hsound : x.indexer.Sound Q := run_sound hrun
      obtain ⟨x₀, os₀, hrun₀, hx⟩ := hall es₁ (ev :: es₂) rfl
      rw [hrun, Option.some.injEq, Prod.mk.injEq] at hrun₀
      obtain ⟨x', hx', -, hiff⟩ := step_agrees hsound (hrows es₁ ev es₂ x os rfl hrun)
      -- the state after the click agrees as well
      obtain ⟨y, os', hrun', hy⟩ := hall (es₁ ++ [ev]) es₂ (by simp)
      have hnext : Machine.run (step Q D exists_) (start Q D exists_ stored) (es₁ ++ [ev]) = some (x', os ++ [()]) :=
        Machine.run_append.2 ⟨x, os, [()], hrun, Machine.run_cons_some.2 ⟨x', (), [], hx', rfl, rfl⟩, rfl⟩
      rw [hrun', Option.some.injEq, Prod.mk.injEq] at hnext
      exact (hiff (hrun₀.1 ▸ hx) (hkept es₁ ev es₂ x os rfl hrun)).1 (hnext.1 ▸ hy)

/-- `/d/a` is configured and `/d/b` is added. -/
theorem run_agrees_sample :
    AlwaysAgrees sampleQt samplePlaces (fun _ => true) (qs "/d/a") [.add (qs "/d/b")] := by
  have hrows : Machine.Meets (step sampleQt samplePlaces fun _ => true) (Shown sampleQt samplePlaces)
      (start sampleQt samplePlaces (fun _ => true) (qs "/d/a")) [.add (qs "/d/b")] :=
    ⟨fun _ h => absurd h (by simp), fun _ _ _ => trivial⟩
  refine (run_agrees hrows).1 ?_ ⟨⟨?_, ?_⟩, fun _ _ _ => trivial⟩
  · unfold StartsApart RootLike
    decide +kernel
  · unfold Kept
    decide +kernel
  · refine Or.inr ?_
    rintro ⟨-, -, hnil⟩
    revert hnil
    decide +kernel

/-- The two sides differ at the key. -/
theorem not_alwaysAgrees {stored : QString} {es : List Event} (key : QString)
    (h : ((Machine.run (step Q D exists_) (start Q D exists_ stored) es).any fun r =>
      r.1.indexer.isIndexing key != (r.1.dirs2Index Q D).any fun e =>
        exists_ e && normalizePath Q e false == key && key != []) = true) :
    ¬AlwaysAgrees Q D exists_ stored es := by
  intro hall
  obtain ⟨x, os, hrun, hx⟩ := hall es [] (List.append_nil es).symm
  rw [hrun, Option.any_some, bne_iff_ne] at h
  refine h (Bool.eq_iff_iff.2 ((hx key).trans ?_))
  simp [and_assoc]

/-- From an empty page, `/d/x|y` is indexed but `/d/x` and `y` are configured. Of `/x/` and
`/x`, removing the first stops the indexer of the second. A configured `/` is indexed under
the empty key. -/
theorem settings_disagree :
    let all : QString → Bool := fun _ => true
    ¬AlwaysAgrees sampleQt samplePlaces all [] [.add (qs "/d/x|y")] ∧
      ¬AlwaysAgrees sampleQt samplePlaces all (qs "/x/|/x") [.del [0]] ∧
      ¬AlwaysAgrees sampleQt samplePlaces all (qs "/") [] ∧
      (((Machine.run (step sampleQt samplePlaces all) (start sampleQt samplePlaces all []) [.add (qs "/d/x|y")]).any
        fun r => r.1.indexer.isIndexing (qs "/d/x|y") && r.1.dirs2Index sampleQt samplePlaces == [qs "/d/x", qs "y"]) &&
      ((Machine.run (step sampleQt samplePlaces all) (start sampleQt samplePlaces all (qs "/x/|/x")) [.del [0]]).any
        fun r => !r.1.indexer.isIndexing (qs "/x") && r.1.dirs2Index sampleQt samplePlaces == [qs "/x"])) = true := by
  intro all
  refine ⟨not_alwaysAgrees (qs "/d/x|y") ?_, not_alwaysAgrees (qs "/x") ?_,
    not_alwaysAgrees [] ?_, ?_⟩
  · decide +kernel
  · decide +kernel
  · decide +kernel
  · decide +kernel

end Settings

end QDesktopSearch
