import QDesktopSearch.Model.Application
import QDesktopSearch.Proof.Session

/-!
# Paths with different hashes keep out of each other's way

* `root_written`: in every history, each live document is one that `index` wrote for a path.
* `untouched`: no operation on one path touches a document of the other.
* `idxDir_ne`, `not_below`: the index directories of two roots are apart, so
  `removeRecursively` of one leaves the other.
* `identity_safe`: all of it, for two normalized paths. `identity_collides`: without one of
  its hypotheses it fails.
-/

namespace QDesktopSearch

variable {E : Env} {p q : QString} {l : Lucyindexer} {d : Document}

/-- `normalizePath` leaves the path as it is. -/
def Normalized (E : Env) (p : QString) : Prop := normalizePath E.qt p false = p

/-! ## Documents -/

/-- `index` wrote the document for that path; no metadata name maps to an id field. -/
def WrittenFor (E : Env) (q : QString) (d : Document) : Prop :=
  ∃ metas finfo, NoIds E metas ∧ d = indexDocument E q metas finfo

theorem WrittenFor.documentOf (h : WrittenFor E q d) : ∃ finfo, DocumentOf E q finfo d := by
  obtain ⟨metas, finfo, hm, rfl⟩ := h
  exact ⟨finfo, indexDocument_of hm⟩

/-- **In every history, each live document is one that `index` wrote for a path.** -/
theorem root_written {es : List Root.Event} {os : List Unit}
    (hes : ∀ r irq, Root.Event.round r irq ∈ es → r.fs.NoIdNames E)
    (hrun : Machine.run (Root.step E) (.stopped none) es = some (.running l, os)) :
    ∀ d ∈ l.docs, ∃ q, WrittenFor E q d := by
  have hI : Root.Invariant E (fun r => r.fs.NoIdNames E)
      (fun docs => Worker.AllStored docs ∧ ∀ d ∈ docs, ∃ q, WrittenFor E q d) := by
    refine ⟨⟨fun d hd => absurd hd List.not_mem_nil, fun d hd => absurd hd List.not_mem_nil⟩, ?_,
      fun A h => h.1, ?_⟩
    · intro A B hsub h
      exact ⟨fun d hd => h.1 d (hsub.subset hd), fun d hd => h.2 d (hsub.subset hd)⟩
    · intro r w hr h _
      refine ⟨h.1.dir, ?_⟩
      refine Worker.dir_invariant (Q := fun docs => ∀ d ∈ docs, ∃ q, WrittenFor E q d)
        (fun A B hsub hA d hd => hA d (hsub.subset hd)) ?_ h.2
      intro A s finfo q hA d hd
      rcases List.mem_append.1 hd with hd | hd
      · exact hA d hd
      · rw [List.mem_singleton] at hd
        exact ⟨s, _, finfo, metaContents_noIds hr, hd⟩
  have hok : SessionOK _ l := Root.root_invariant hI hes hrun
  exact hok.docs.2

/-- The document stays as often as it was, and the lookup does not see it. -/
structure Untouched (E : Env) (p : QString) (l : Lucyindexer) (d : Document) : Prop where
  index : ∀ metas finfo, (l.index E p metas finfo).docs.count d = l.docs.count d
  delDoc_fn : (l.delDoc E ID_FN (getIdFN E p)).1.docs.count d = l.docs.count d
  delDoc_fnAndDate : ∀ finfo,
    (l.delDoc E ID_FNANDDATE (getIdFNandDATE E p finfo)).1.docs.count d = l.docs.count d
  isIndexed : ∀ finfo, (l.isIndexed E p finfo).2 = (!l.bNewIndex &&
    (l.docs.filter (· ≠ d)).any (Document.hasTerm E.tokens ⟨ID_FNANDDATE, getIdFNandDATE E p finfo⟩))

section Terms

variable {finfo finfo' : QFileInfo}

/-- A document of one path has no id of the other. -/
theorem DocumentOf.not_fn (h : DocumentOf E q finfo d) (hne : E.qHash p ≠ E.qHash q) :
    d.hasTerm E.tokens ⟨ID_FN, getIdFN E p⟩ = false := by
  rw [Bool.eq_false_iff]
  intro ht
  exact hne (getIdFN_eq_iff.1 ((h.fn _).1 ht))

theorem DocumentOf.not_fnAndDate (h : DocumentOf E q finfo d) (hp : Normalized E p) (hq : Normalized E q)
    (hne : E.qHash p ≠ E.qHash q) : d.hasTerm E.tokens ⟨ID_FNANDDATE, getIdFNandDATE E p finfo'⟩ = false := by
  rw [Bool.eq_false_iff]
  intro ht
  have hhash := (getIdFNandDATE_eq_iff.1 ((h.fnAndDate _).1 ht)).1
  rw [hp, hq] at hhash
  exact hne hhash

end Terms

/-- A deletion by a term that the document does not have leaves it. -/
theorem count_delDoc {f v : QString} (h : d.hasTerm E.tokens ⟨f, v⟩ = false) :
    (l.delDoc E f v).1.docs.count d = l.docs.count d := by
  rw [Lucyindexer.delDoc_docs, List.count_filter (by simp [h])]

/-- The document that `index` adds has its own `id_fn`, whatever its metadata. -/
theorem indexDocument_fn {metas : QMap QStringList} {finfo : QFileInfo} :
    (indexDocument E p metas finfo).hasTerm E.tokens ⟨ID_FN, getIdFN E p⟩ = true := by
  simp [indexDocument, Document.hasTerm]

/-- **No operation on one path touches a document of the other.** -/
theorem untouched (hp : Normalized E p) (hq : Normalized E q) (hne : E.qHash p ≠ E.qHash q)
    (hd : WrittenFor E q d) : Untouched E p l d := by
  obtain ⟨finfo', hof⟩ := hd.documentOf
  have hfn : d.hasTerm E.tokens ⟨ID_FN, getIdFN E p⟩ = false := hof.not_fn hne
  have hdate : ∀ finfo, d.hasTerm E.tokens ⟨ID_FNANDDATE, getIdFNandDATE E p finfo⟩ = false :=
    fun finfo => hof.not_fnAndDate hp hq hne
  constructor
  · intro metas finfo
    -- the new document has an id that `d` does not have
    have hnew : (indexDocument E p metas finfo) ≠ d := by
      rintro rfl
      rw [indexDocument_fn] at hfn
      exact absurd hfn (by simp)
    have hold : (l.withoutOld E p).docs.count d = l.docs.count d := by
      rw [Lucyindexer.withoutOld_docs]
      split
      · rfl
      · rw [List.count_filter (by simp [hfn])]
    rw [Lucyindexer.index_eq, Lucyindexer.optimized_docs, Lucyindexer.withNew_docs, show _ = p from hp,
      List.count_append, hold, List.count_singleton, if_neg (by simpa using hnew), Nat.add_zero]
  · exact count_delDoc hfn
  · intro finfo
    exact count_delDoc (hdate finfo)
  · intro finfo
    cases hb : l.bNewIndex with
    | true => rw [Lucyindexer.isIndexed_new hb]; rfl
    | false =>
      rw [Lucyindexer.isIndexed_eq hb, show normalizePath E.qt p false = p from hp, Bool.eq_iff_iff]
      simp only [Bool.not_false, Bool.true_and, List.any_eq_true, List.mem_filter]
      constructor
      · rintro ⟨d', hd', ht⟩
        refine ⟨d', ⟨hd', ?_⟩, ht⟩
        -- a document that is found is not the other path's
        have hne' : d' ≠ d := by
          rintro rfl
          rw [hdate finfo] at ht
          exact absurd ht (by simp)
        simpa using hne'
      · rintro ⟨d', ⟨hd', -⟩, ht⟩
        exact ⟨d', hd', ht⟩

/-! ## Index directories -/

/-- A digit is no separator, no space and no colon. -/
theorem digit_plain {n : ℕ} {c : QChar} (hc : c ∈ number n) : 48 ≤ c.toNat ∧ c.toNat ≤ 57 := by
  obtain ⟨a, ha, rfl⟩ := List.mem_map.1 hc
  have hb := digit_bounds ha
  have hlt : a.toNat < 2 ^ 16 := by omega
  rw [QChar.ofChar, UInt16.toNat_ofNat', Nat.mod_eq_of_lt hlt]
  exact hb

theorem not_mem_number {n : ℕ} {c : QChar} (hc : c.toNat < 48 ∨ 57 < c.toNat) : c ∉ number n := by
  intro hmem
  have hb := digit_plain hmem
  omega

theorem replaceChar_number {n : ℕ} {before after : QChar} (hb : before.toNat < 48 ∨ 57 < before.toNat) :
    replaceChar before after (number n) = number n := by
  have hid : ∀ c ∈ number n, (if c = before then after else c) = c := by
    intro c hc
    rw [if_neg]
    rintro rfl
    exact not_mem_number hb hc
  rw [replaceChar, List.map_congr_left hid, List.map_id']

theorem trimmed_number {n : ℕ} : trimmed (number n) = number n := by
  have hspace : ∀ c ∈ number n, ¬c.isSpace = true := by
    intro c hc
    have hb := digit_plain hc
    simp only [QChar.isSpace, Bool.or_eq_true, beq_iff_eq, Bool.and_eq_true, decide_eq_true_eq,
      UInt16.le_iff_toNat_le, ← UInt16.toNat_inj, UInt16.reduceToNat]
    omega
  have hdrop : (number n).dropWhile QChar.isSpace = number n :=
    List.dropWhile_eq_self_iff.2 fun hl => hspace _ (List.getElem_mem hl)
  rw [trimmed, hdrop]
  exact List.rdropWhile_eq_self_iff.2 fun hl => hspace _ (List.getLast_mem hl)

theorem separator_plain (Q : Qt) : Q.separator.toNat < 48 ∨ 57 < Q.separator.toNat := by
  rcases Q.separator_eq with h | h <;> rw [h] <;> decide

/-- **`makeAbsFN` puts the same before every number.** -/
theorem makeAbsFN_number (Q : Qt) (sBase : QString) : ∃ pre, ∀ n, makeAbsFN Q sBase (number n) = pre ++ number n := by
  unfold makeAbsFN
  dsimp only
  generalize hsep : (if (qs "http:").isPrefixOf sBase || (qs "https:").isPrefixOf sBase ||
    (qs "ftp:").isPrefixOf sBase then QChar.ofChar '/' else Q.separator) = sep
  obtain ⟨base, hb⟩ : ∃ base, replaceChar (QChar.ofChar '/') sep
      (trimmed (replaceChar (QChar.ofChar '\\') sep sBase)) = base := ⟨_, rfl⟩
  have hplain : sep.toNat < 48 ∨ 57 < sep.toNat := by
    rw [← hsep]
    split
    · decide
    · exact separator_plain Q
  have hnorm : ∀ n, replaceChar (QChar.ofChar '/') sep (trimmed (replaceChar (QChar.ofChar '\\') sep (number n))) =
      number n := by
    intro n
    rw [replaceChar_number (by decide), trimmed_number, replaceChar_number (by decide)]
  -- a number is no drive and no network path, and begins with no separator
  have habs : ∀ n, ((number n).length > 1 && ((number n)[1]? == some (QChar.ofChar ':') ||
      [Q.separator, Q.separator].isPrefixOf (number n))) = false := by
    intro n
    have hcolon : ((number n)[1]? == some (QChar.ofChar ':')) = false := by
      rw [beq_eq_false_iff_ne]
      intro h
      exact not_mem_number (by decide) (List.mem_of_getElem? h)
    have hunc : [Q.separator, Q.separator].isPrefixOf (number n) = false := by
      rw [Bool.eq_false_iff]
      intro h
      exact not_mem_number (separator_plain Q) ((List.isPrefixOf_iff_prefix.1 h).subset List.mem_cons_self)
    rw [hcolon, hunc, Bool.or_self, Bool.and_false]
  have hhead : ∀ n, ((number n).head? == some sep) = false := by
    intro n
    rw [beq_eq_false_iff_ne]
    intro h
    exact not_mem_number hplain (List.mem_of_head? h)
  simp only [hnorm, hb, habs, hhead, number_ne_nil, if_false, Bool.and_false, Bool.or_false, Bool.false_eq_true]
  by_cases hbase : base = []
  · exact ⟨[], fun n => by rw [if_pos hbase, List.nil_append]⟩
  · cases hlast : base.getLast? == some sep with
    | true => exact ⟨base, fun n => by rw [if_neg hbase, if_pos rfl]⟩
    | false => exact ⟨base ++ [sep], fun n => by rw [if_neg hbase, if_neg Bool.false_ne_true]⟩

/-- An index directory is one prefix and the hash of the root. -/
theorem idxDir_eq (E : Env) : ∃ pre, ∀ r, idxDir4Dir2Index E r =
    pre ++ number (E.qHash (normalizePath E.qt r false)).toNat := by
  obtain ⟨pre, hpre⟩ := makeAbsFN_number E.qt (makeAbsFN E.qt E.applicationDirPath (qs "idx"))
  exact ⟨pre, fun r => hpre _⟩

theorem idxDir_ne (hne : E.qHash (normalizePath E.qt p false) ≠ E.qHash (normalizePath E.qt q false)) :
    idxDir4Dir2Index E p ≠ idxDir4Dir2Index E q := by
  obtain ⟨pre, hpre⟩ := idxDir_eq E
  rw [hpre, hpre]
  intro h
  exact hne (UInt32.toNat_inj.1 (number_injective (List.append_cancel_left h)))

/-- **`removeRecursively` of one index directory does not get to the other.** -/
theorem not_below (hne : E.qHash (normalizePath E.qt p false) ≠ E.qHash (normalizePath E.qt q false)) :
    below E.qt (idxDir4Dir2Index E p) (idxDir4Dir2Index E q) = false := by
  have hdir := idxDir_ne hne
  obtain ⟨pre, hpre⟩ := idxDir_eq E
  rw [below, Bool.or_eq_false_iff, beq_eq_false_iff_ne, Bool.eq_false_iff]
  refine ⟨hdir.symm, fun h => ?_⟩
  rw [hpre, hpre, List.isPrefixOf_iff_prefix, List.append_assoc, List.prefix_append_right_inj] at h
  -- a separator would be a digit
  exact not_mem_number (separator_plain E.qt) (h.subset (List.mem_append_right _ (List.mem_singleton_self _)))

theorem removeRecursively_of_not_below {Q : Qt} {kept : QString → Bool} {dir dir' : QString} {disk : Disk}
    (h : below Q dir dir' = false) : disk.removeRecursively Q kept dir dir' = disk dir' := by
  rw [Disk.removeRecursively, h]; rfl

/-- **`removeIndex` leaves the index of the other root.** -/
theorem removeIndex_disk {x x' : App} {kept : QString → Bool} (hp : Normalized E p)
    (hne : E.qHash (normalizePath E.qt p false) ≠ E.qHash (normalizePath E.qt q false))
    (h : x.removeIndex E p kept = some x') : x'.disk (idxDir4Dir2Index E q) = x.disk (idxDir4Dir2Index E q) := by
  unfold App.removeIndex at h
  split at h
  · exact absurd h (by simp)
  · rw [Option.some.injEq] at h
    rw [← h]
  · split at h
    · rw [Option.some.injEq] at h
      rw [← h, show normalizePath E.qt p false = p from hp]
      exact removeRecursively_of_not_below (not_below hne)
    · exact absurd h (by simp)

/-! ## Identity by hash -/

/-- **Two normalized paths with different hashes keep out of each other's way**: in any
state of an index, no operation on one touches a document that `index` wrote for the other,
and as roots they have different index directories, neither of which `removeIndex` takes
away with the other. -/
theorem identity_safe (hp : Normalized E p) (hq : Normalized E q) (hne : E.qHash p ≠ E.qHash q) :
    (∀ (l : Lucyindexer) (d : Document), WrittenFor E q d → Untouched E p l d) ∧
      idxDir4Dir2Index E p ≠ idxDir4Dir2Index E q ∧
      ∀ (x x' : App) (kept : QString → Bool), x.removeIndex E p kept = some x' →
        x'.disk (idxDir4Dir2Index E q) = x.disk (idxDir4Dir2Index E q) := by
  have hne' : E.qHash (normalizePath E.qt p false) ≠ E.qHash (normalizePath E.qt q false) := by
    rw [show normalizePath E.qt p false = p from hp, show normalizePath E.qt q false = q from hq]
    exact hne
  refine ⟨fun l d hd => untouched hp hq hne hd, idxDir_ne hne', fun x x' kept h => ?_⟩
  exact removeIndex_disk hp hne' h

/-- Two files of `/d`, as paths of files and as roots. -/
theorem identity_safe_sample :
    (∀ (l : Lucyindexer) (d : Document), WrittenFor sampleEnv (qs "/d/b") d → Untouched sampleEnv (qs "/d/a") l d) ∧
      idxDir4Dir2Index sampleEnv (qs "/d/a") ≠ idxDir4Dir2Index sampleEnv (qs "/d/b") ∧
      ∀ (x x' : App) (kept : QString → Bool), x.removeIndex sampleEnv (qs "/d/a") kept = some x' →
        x'.disk (idxDir4Dir2Index sampleEnv (qs "/d/b")) = x.disk (idxDir4Dir2Index sampleEnv (qs "/d/b")) := by
  have hp : Normalized sampleEnv (qs "/d/a") := by unfold Normalized; decide +kernel
  have hq : Normalized sampleEnv (qs "/d/b") := by unfold Normalized; decide +kernel
  exact identity_safe hp hq (by decide +kernel)

/-- The history leaves one live document, and `index` on the path takes it away. -/
def Takes (E : Env) (es : List Root.Event) (p : QString) (finfo : QFileInfo) : Prop :=
  ((Machine.run (Root.step E) (.stopped none) es).any fun r => r.1.running? fun l =>
    l.docs.length == 1 && l.docs.all fun d => (l.index E p ∅ finfo).docs.count d == 0) = true

/-- After the history, `isIndexed` on the path answers yes. -/
def Finds (E : Env) (es : List Root.Event) (p : QString) (finfo : QFileInfo) : Prop :=
  ((Machine.run (Root.step E) (.stopped none) es).any fun r => r.1.running? fun l =>
    (l.isIndexed E p finfo).2) = true

/-- With a hash that goes through the string by `h = 31 * h + c`, `/d/Aa` and `/d/BB`
collide: `index` on one takes the other's document away, `isIndexed` finds it, and as roots
they share an index directory, which `removeIndex` takes away. So does `index` with a
document whose metadata has an `id_fn`, and with a path that `normalizePath` returns but
still changes. -/
theorem identity_collides :
    let p := qs "/d/Aa"
    let q := qs "/d/BB"
    let finfo : QFileInfo := ⟨true, 10, 1000, [], [], []⟩
    let roots : List App.Event := [.add (fun _ => true) p, .add (fun _ => true) q,
      .worker ⟨0, p, p⟩ .doWork, .worker ⟨0, p, p⟩ .newLucyindexer, .worker ⟨0, p, p⟩ .openIndex,
      .worker ⟨0, p, p⟩ .close, .removeIndex p fun _ => false]
    let tika : FileSystem := { sampleFs [("b", 1)] with
      tika := fun _ => some ⟨[], [(qs "id_fn", [getIdFN sampleEnv (qs "/d/a")])]⟩ }
    (Normalized sampleEnv p ∧ Normalized sampleEnv q ∧ p ≠ q ∧
      Takes sampleEnv [.openIndex, .round (sampleRound [("BB", 1)]) none] p finfo ∧
      Finds sampleEnv [.openIndex, .round (sampleRound [("BB", 1)]) none] p finfo ∧
      idxDir4Dir2Index sampleEnv p = idxDir4Dir2Index sampleEnv q ∧
      ((Machine.run (App.step sampleEnv) (App.start fun _ => some []) roots).any fun r =>
        r.1.indexer.isIndexing q && (r.1.disk (idxDir4Dir2Index sampleEnv q)).isNone) = true) ∧
    (sampleEnv.qHash (qs "/d/a") ≠ sampleEnv.qHash (qs "/d/b") ∧
      Takes sampleEnv [.openIndex, .round ⟨[qs "/d/b"], tika, tika⟩ none] (qs "/d/a") finfo) ∧
    (normalizePath sampleQt (qs "/d/a /") false = qs "/d/a " ∧
      Takes sampleEnv [.openIndex, .round (sampleRound [("a", 1)]) none] (qs "/d/a ") finfo) := by
  unfold Normalized Takes Finds
  decide +kernel

end QDesktopSearch
