import QDesktopSearch.Proof.OnePath

/-!
# Which files are skipped as the program's own

* `ownIndex_iff`: the test, by where the text `/idx/` stands.
* `ownIndex_under`: for the files of the index it depends on the application directory only.
* `own_skipped_iff`: for which files `file` does what it is meant to.
-/

namespace QDesktopSearch

variable {E : Env} {fs : FileSystem} {finfo : QFileInfo} {w : Worker} {p q s sub : QString}

/-- The directory of the indexes. -/
def indexBase (E : Env) : QString := normalizePath E.qt E.applicationDirPath false ++ qs "/idx/"

/-- The path lies in the directory of the indexes. -/
def UnderIndex (E : Env) (path : QString) : Prop := indexBase E <+: path

instance : DecidablePred (UnderIndex E) := fun path => inferInstanceAs (Decidable (indexBase E <+: path))

/-- The text `/idx/` stands at position 0 or 1. -/
def EarlyIdx (s : QString) : Prop := qs "/idx/" <+: s ∨ qs "/idx/" <+: s.drop 1

/-- What `file` is meant to do: skip the files of the index, count and index all others. -/
structure SkipsOwnOnly (E : Env) (fs : FileSystem) (w : Worker) (sAbsPathName : QString) (finfo : QFileInfo) : Prop where
  own : UnderIndex E (normalizePath E.qt sAbsPathName false) → w.file E fs sAbsPathName finfo = w
  counted : ¬UnderIndex E (normalizePath E.qt sAbsPathName false) →
    (w.file E fs sAbsPathName finfo).iFoundFiles = w.iFoundFiles + 1
  indexed : ¬UnderIndex E (normalizePath E.qt sAbsPathName false) → w.irq = none →
    ∃ d ∈ (w.file E fs sAbsPathName finfo).pLucyIndexer.docs, d.hasTerm E.tokens
      ⟨ID_FNANDDATE, getIdFNandDATE E (normalizePath E.qt (normalizePath E.qt sAbsPathName false) false) finfo⟩ = true

/-! ## Where a text stands -/

theorem indexOf_isSome (hsub : sub ≠ []) : (indexOf sub s).isSome ↔ sub <:+: s := by
  induction s with
  | nil => simp [indexOf, hsub]
  | cons c s ih =>
    rw [indexOf, List.infix_cons_iff]
    split
    · rename_i hpre
      exact iff_of_true rfl (Or.inl (List.isPrefixOf_iff_prefix.1 hpre))
    · rename_i hpre
      rw [List.isPrefixOf_iff_prefix] at hpre
      rw [Option.isSome_map, ih]
      exact (or_iff_right hpre).symm

/-- **The first occurrence is past position 1.** -/
theorem indexOf_late (hsub : sub ≠ []) :
    (indexOf sub s).any (· > 1) = true ↔ sub <:+: s ∧ ¬sub <+: s ∧ ¬sub <+: s.drop 1 := by
  have hnil : ¬sub <+: [] := fun h => hsub (List.prefix_nil.1 h)
  rcases s with _ | ⟨a, _ | ⟨b, s⟩⟩
  · simp [indexOf, hsub]
  · by_cases ha : sub <+: [a] <;> simp [indexOf, List.isPrefixOf_iff_prefix, hsub, ha, List.infix_cons_iff]
  · have hrest := indexOf_isSome (s := s) hsub
    rw [indexOf, indexOf, List.infix_cons_iff, List.infix_cons_iff]
    simp only [List.isPrefixOf_iff_prefix, List.drop_succ_cons, List.drop_zero]
    by_cases ha : sub <+: a :: b :: s
    · simp [ha]
    · by_cases hb : sub <+: b :: s
      · simp [ha, hb]
      · simp only [ha, hb, if_false, false_or, not_false_eq_true, and_true, ← hrest]
        cases indexOf sub s with
        | none => simp
        | some i => simp

theorem ownIndex_iff : Worker.ownIndex q = true ↔ qs "/idx/" <:+: q ∧ ¬EarlyIdx q := by
  rw [Worker.ownIndex, indexOf_late (by decide), EarlyIdx, not_or]

/-- **For the files of the index the test depends on the application directory only.** -/
theorem ownIndex_under (h : UnderIndex E q) : Worker.ownIndex q = true ↔ ¬EarlyIdx (indexBase E) := by
  have hin : qs "/idx/" <:+: indexBase E := (List.suffix_append _ _).isInfix
  have hbase : Worker.ownIndex (indexBase E) = true ↔ ¬EarlyIdx (indexBase E) := by
    rw [ownIndex_iff, and_iff_right hin]
  obtain ⟨i, hi⟩ := Option.isSome_iff_exists.1 ((indexOf_isSome (by decide)).2 hin)
  obtain ⟨t, rfl⟩ := h
  rw [← hbase, Worker.ownIndex, Worker.ownIndex, hi, indexOf_append hi]

/-! ## What `file` does -/

namespace Worker

theorem file_own (h : ownIndex (normalizePath E.qt p false) = true) : w.file E fs p finfo = w := by
  unfold file
  dsimp only
  rw [if_pos h]

theorem isInterruptionRequested_found {b : Bool} {w' : Worker} (h : w.isInterruptionRequested = (b, w')) :
    w'.iFoundFiles = w.iFoundFiles := by
  unfold isInterruptionRequested at h
  split at h
  · simp only [Prod.mk.injEq] at h; rw [← h.2]
  · simp only [Prod.mk.injEq] at h; rw [← h.2]
  · simp only [Prod.mk.injEq] at h; rw [← h.2]

/-- A file that is not skipped is counted, wherever `file` is interrupted. -/
theorem file_counted (h : ownIndex (normalizePath E.qt p false) = false) :
    (w.file E fs p finfo).iFoundFiles = w.iFoundFiles + 1 := by
  unfold file
  dsimp only
  rw [if_neg (by rw [h]; exact Bool.false_ne_true)]
  split
  · rename_i w₁ h₁
    exact isInterruptionRequested_found h₁
  · rename_i w₁ h₁
    have hw₁ : w₁.iFoundFiles = w.iFoundFiles + 1 := isInterruptionRequested_found h₁
    split
    · rename_i w₂ h₂
      simp only [isIndexed, Prod.mk.injEq] at h₂
      rw [← h₂.2, ← hw₁]
    · rename_i w₂ h₂
      simp only [isIndexed, Prod.mk.injEq] at h₂
      have hw₂ : w₂.iFoundFiles = w₁.iFoundFiles := by rw [← h₂.2]
      split
      · rename_i w₃ h₃
        rw [isInterruptionRequested_found h₃, hw₂, hw₁]
      · rename_i w₃ h₃
        have hw₃ := isInterruptionRequested_found h₃
        split
        · rename_i w₄ h₄
          rw [isInterruptionRequested_found h₄, hw₃, hw₂, hw₁]
        · rename_i w₄ h₄
          show w₄.iFoundFiles = _
          rw [isInterruptionRequested_found h₄, hw₃, hw₂, hw₁]

/-- Uninterrupted, a file that is not skipped is then found by its id. -/
theorem file_indexed (hirq : w.irq = none) (h : ownIndex (normalizePath E.qt p false) = false) :
    ∃ d ∈ (w.file E fs p finfo).pLucyIndexer.docs, d.hasTerm E.tokens
      ⟨ID_FNANDDATE, getIdFNandDATE E (normalizePath E.qt (normalizePath E.qt p false) false) finfo⟩ = true := by
  rw [file_uninterrupted hirq h]
  split
  · rename_i hi
    have hold : w.pLucyIndexer.bNewIndex = false := by
      rw [Bool.eq_false_iff]
      intro hnew
      rw [Lucyindexer.isIndexed_new hnew] at hi
      exact Bool.false_ne_true hi
    rw [Lucyindexer.isIndexed_eq hold, List.any_eq_true] at hi
    rw [looked, Lucyindexer.isIndexed_docs]
    exact hi
  · rw [Lucyindexer.index_docs]
    refine ⟨_, List.mem_append_right _ (List.mem_singleton_self _), ?_⟩
    simp [indexDocument, Document.hasTerm]

end Worker

/-- **For which files `file` does what it is meant to**: for those of the index, unless `/idx/`
stands at position 0 or 1 of the path of its directory; for all others, if it stands there in
theirs, or nowhere. -/
theorem own_skipped_iff (E : Env) (fs : FileSystem) (w : Worker) (sAbsPathName : QString) (finfo : QFileInfo) :
    SkipsOwnOnly E fs w sAbsPathName finfo ↔
      if UnderIndex E (normalizePath E.qt sAbsPathName false) then ¬EarlyIdx (indexBase E)
      else EarlyIdx (normalizePath E.qt sAbsPathName false) ∨ ¬qs "/idx/" <:+: normalizePath E.qt sAbsPathName false := by
  set q := normalizePath E.qt sAbsPathName false with hq
  -- a file that is counted is not skipped
  have hdiffer : Worker.ownIndex q = false → w.file E fs sAbsPathName finfo ≠ w := by
    intro hown he
    have hcount : (w.file E fs sAbsPathName finfo).iFoundFiles = w.iFoundFiles + 1 := Worker.file_counted hown
    rw [he] at hcount
    omega
  by_cases hu : UnderIndex E q
  · rw [if_pos hu, ← ownIndex_under hu]
    constructor
    · intro h
      by_contra hown
      exact hdiffer (by simpa using hown) (h.own hu)
    · intro hown
      exact ⟨fun _ => Worker.file_own hown, fun hn => absurd hu hn, fun hn => absurd hu hn⟩
  · have hfree : EarlyIdx q ∨ ¬qs "/idx/" <:+: q ↔ Worker.ownIndex q = false := by
      rw [← Bool.not_eq_true, ownIndex_iff]
      tauto
    rw [if_neg hu, hfree]
    constructor
    · intro h
      rw [Bool.eq_false_iff]
      intro hown
      have hcount := h.counted hu
      rw [Worker.file_own hown] at hcount
      omega
    · intro hown
      exact ⟨fun hin => absurd hin hu, fun _ => Worker.file_counted hown, fun _ hirq => Worker.file_indexed hirq hown⟩

/-- The program lies in `/p`: the file `/d/idx/a` of a root `/d` is skipped. It lies in `/`:
the files of its own index are not. -/
theorem user_idx_skipped :
    let w : Worker := ⟨(Lucyindexer.open? none).get rfl, 0, 0, none⟩
    let finfo : QFileInfo := ⟨true, 10, 1000, qs "/d/idx", qs "a", []⟩
    let atRoot := { sampleEnv with applicationDirPath := qs "/" }
    (¬SkipsOwnOnly sampleEnv (sampleFs []) w (qs "/d/idx/a") finfo ∧
      w.file sampleEnv (sampleFs []) (qs "/d/idx/a") finfo = w) ∧
    ¬SkipsOwnOnly atRoot (sampleFs []) w (qs "/idx/1/segments_2") finfo := by
  intro w finfo atRoot
  have hskip : w.file sampleEnv (sampleFs []) (qs "/d/idx/a") finfo = w := Worker.file_own (by decide +kernel)
  refine ⟨⟨fun h => ?_, hskip⟩, fun h => ?_⟩
  · have hcount := h.counted (by decide +kernel)
    rw [hskip] at hcount
    exact absurd hcount (by decide)
  · have hcount := congrArg Worker.iFoundFiles (h.own (by decide +kernel))
    exact absurd hcount (by decide +kernel)

end QDesktopSearch
