import QDesktopSearch.Proof.Session

/-!
# The purge takes nothing away whose file exists

`purge_sound`: from any index with nothing buffered, for any disk and any interruption,
`delDeletedFilesFromIdx` goes through; a live document whose path exists stays live under
its number, and every number passed to the reader is in range and denotes what it denoted
at entry.
-/

namespace QDesktopSearch

open Slots

variable {E : Env}

/-- Path and id of the document are those the program writes for a file under that path. -/
structure Own (E : Env) (sAbsPathName : QString) (finfo : QFileInfo) (d : Document) : Prop where
  pathname : d.get FIELDNAME_ABSPATHNAME = some sAbsPathName
  fnAndDate : d.get ID_FNANDDATE = some (getIdFNandDATE E (normalizePath E.qt sAbsPathName false) finfo)
  term : ∀ v, d.hasTerm E.tokens ⟨ID_FNANDDATE, v⟩ = true ↔
    v = getIdFNandDATE E (normalizePath E.qt sAbsPathName false) finfo

theorem Own.stored {q : QString} {finfo : QFileInfo} {d : Document} (h : Own E q finfo d) : d.Stored :=
  ⟨by rw [h.pathname]; rfl, by rw [h.fnAndDate]; rfl⟩

/-- `qHash` tells the paths of `S` apart, as `id_fnanddate` hashes them. -/
def PathsApart (E : Env) (S : Set QString) : Prop :=
  Set.InjOn (fun q => E.qHash (normalizePath E.qt (normalizePath E.qt q false) false)) S

/-- A document with the `id_fnanddate` of a file is the document of its path. -/
theorem Own.path_eq {S : Set QString} (hq : PathsApart E S) {q q' : QString} {f f' : QFileInfo} {d : Document}
    (h : Own E q f d) (hS : q ∈ S) (hS' : q' ∈ S)
    (hterm : d.hasTerm E.tokens ⟨ID_FNANDDATE, getIdFNandDATE E (normalizePath E.qt q' false) f'⟩ = true) : q = q' := by
  have hid := (h.term _).1 hterm
  exact hq hS hS' (getIdFNandDATE_eq_iff.1 hid.symm).1

namespace Worker

variable {w : Worker} {fs : FileSystem} {sl : List (Slot Document)} {S : Set QString}

/-- The scan records no document whose path exists. -/
theorem docsBelow_gone {doc : DOC} {n : ℕ} (h : doc ∈ docsBelow fs sl n) :
    doc.iDocNr < n ∧ ∃ d, LiveAt sl doc.iDocNr d ∧ d.get FIELDNAME_ABSPATHNAME = some doc.sAbsFileName ∧
      d.get ID_FNANDDATE = some doc.sid_fnanddate ∧ fs.exists_ doc.sAbsFileName = false := by
  obtain ⟨hlt, hdoc⟩ := mem_docsBelow.1 h
  obtain ⟨d, hd, hc, -⟩ := docAt_eq_some.1 hdoc
  obtain ⟨-, hp, hsid, hex, -⟩ := condemned_eq_some hc
  exact ⟨hlt, d, hd, hp, hsid, hex⟩

variable {d : Document} {q : QString} {n i : ℕ} {doc : DOC}

/-- No record has the number of a document whose path exists. -/
theorem not_numbered (hd : LiveAt sl i d) (hp : d.get FIELDNAME_ABSPATHNAME = some q) (hex : fs.exists_ q = true)
    (hdoc : doc ∈ docsBelow fs sl n) : doc.iDocNr ≠ i := by
  rintro rfl
  obtain ⟨-, d', hd', hp', -, hgone⟩ := docsBelow_gone hdoc
  have : d = d' := hd.unique hd'
  subst this
  rw [hp, Option.some.injEq] at hp'
  rw [← hp', hex] at hgone
  exact Bool.noConfusion hgone

/-- No record has its id: that would be the id of a path that does not exist. -/
theorem not_named (hq : PathsApart E S) (hown : ∀ d ∈ live sl, ∃ q ∈ S, ∃ finfo, Own E q finfo d) (hd : LiveAt sl i d)
    (hp : d.get FIELDNAME_ABSPATHNAME = some q) (hex : fs.exists_ q = true) (hdoc : doc ∈ docsBelow fs sl n) :
    doc.names E d = false := by
  rw [Bool.eq_false_iff]
  intro hname
  obtain ⟨-, d', hd', hp', hsid', hgone⟩ := docsBelow_gone hdoc
  obtain ⟨q₁, hS₁, f₁, ho₁⟩ := hown d hd.mem
  obtain ⟨q', hS', f', ho'⟩ := hown d' hd'.mem
  rw [ho'.fnAndDate, Option.some.injEq] at hsid'
  rw [DOC.names, ← hsid'] at hname
  have hqq : q₁ = q' := ho₁.path_eq hq hS₁ hS' hname
  rw [ho₁.pathname, Option.some.injEq] at hp
  rw [ho'.pathname, Option.some.injEq] at hp'
  rw [← hp', ← hqq, hp, hex] at hgone
  exact Bool.noConfusion hgone

/-- **The purge is sound.** It goes through; a live document whose path exists stays live
under its number; every number passed to the reader is below its `maxDoc` and denotes the
document, and is deleted or not, as at entry; and only a document whose path does not
exist is deleted by number. -/
theorem purge_sound (hq : PathsApart E S) (hbuf : w.pLucyIndexer.pIndexWriter.buffered = [])
    (hown : ∀ d ∈ w.pLucyIndexer.docs, ∃ q ∈ S, ∃ finfo, Own E q finfo d) (fs : FileSystem) :
    ∃ s, w.delDeletedFilesFromIdx E fs = some s ∧
      (∀ n d q, LiveAt w.pLucyIndexer.pIndexWriter.slots n d → d.get FIELDNAME_ABSPATHNAME = some q →
        fs.exists_ q = true → LiveAt s.worker.pLucyIndexer.pIndexWriter.slots n d) ∧
      ∀ a ∈ s.accesses, a.docNum < a.pReader.maxDoc ∧
        a.pReader.slots[a.docNum]? = w.pLucyIndexer.pIndexWriter.slots[a.docNum]? ∧
        (a.call = .deleteDocument → ∃ d q, LiveAt a.pReader.slots a.docNum d ∧
          d.get FIELDNAME_ABSPATHNAME = some q ∧ fs.exists_ q = false) := by
  have hst : w.Steady w.pLucyIndexer.pIndexWriter.slots := steady_of_buffered hbuf
  have hstored : AllStored (live w.pLucyIndexer.pIndexWriter.slots) := by
    intro d hd
    obtain ⟨q, -, finfo, ho⟩ := hown d hd
    exact ho.stored
  obtain ⟨s, ds, hs, -, hbelow, hsub, -⟩ := delDeletedFilesFromIdx_spec (E := E) hst hstored fs
  have hst₁ : s.worker.Steady (marks _ (ds.map (·.iDocNr))) := hbelow.steady
  obtain ⟨ns, hns, hnamed⟩ := delDocs_steady (E := E) ds hst₁
  refine ⟨_, hs, ?_, ?_⟩
  · intro n d q hd hp hex
    show LiveAt (delDocs E s.worker ds).pLucyIndexer.pIndexWriter.slots n d
    rw [QIndexModifier.Steady.slots hns, liveAt_marks, liveAt_marks]
    refine ⟨⟨hd, ?_⟩, ?_⟩
    · intro hmem
      obtain ⟨doc, hdoc, he⟩ := List.mem_map.1 hmem
      exact not_numbered hd hp hex (hsub.subset hdoc) he
    · intro hmem
      obtain ⟨doc, hdoc, d₁, hd₁, hname⟩ := hnamed n hmem
      have : d₁ = d := ((liveAt_marks _).1 hd₁).1.unique hd
      subst this
      rw [not_named hq hown hd hp hex (hsub.subset hdoc)] at hname
      exact Bool.noConfusion hname
  · intro a ha
    obtain ⟨as, has, hall⟩ := hbelow.accesses
    have hmem : a ∈ as := by
      have h : a ∈ s.accesses := ha
      rw [has] at h
      simpa using h
    obtain ⟨hlt, ⟨ms, hms, hni⟩, hdel⟩ := hall a hmem
    have hslot : a.pReader.slots[a.docNum]? = w.pLucyIndexer.pIndexWriter.slots[a.docNum]? := by
      rw [hms, marks_getElem?_of_not_mem hni]
    refine ⟨?_, hslot, ?_⟩
    · rw [IndexReader.maxDoc_eq, hms, marks_length]
      exact lt_of_lt_of_le hlt hst.docCount_le
    · intro hc
      obtain ⟨doc, hdoc, he⟩ := hdel hc
      obtain ⟨-, d, hd, hp, -, hgone⟩ := docsBelow_gone (hsub.subset hdoc)
      refine ⟨d, doc.sAbsFileName, ?_, hp, hgone⟩
      unfold LiveAt at hd ⊢
      rw [hslot, ← he]
      exact hd

/-- The document of the file `name` of `/d`. -/
def sampleDoc (name : String) (seconds : ℕ) : Document :=
  let p := qs "/d/" ++ qs name
  let finfo : QFileInfo := ⟨true, 10, 1000 * seconds, qs "/d", qs name, []⟩
  indexDocument sampleEnv p (metaContents sampleEnv (sampleFs []) p finfo) finfo

theorem sampleDoc_own {name : String} {seconds : ℕ}
    (hp : (sampleDoc name seconds).get FIELDNAME_ABSPATHNAME = some (qs "/d/" ++ qs name))
    (hn : normalizePath sampleEnv.qt (qs "/d/" ++ qs name) false = qs "/d/" ++ qs name) :
    Own sampleEnv (qs "/d/" ++ qs name) ⟨true, 10, 1000 * seconds, qs "/d", qs name, []⟩ (sampleDoc name seconds) := by
  have hnames : (sampleFs []).NoIdNames sampleEnv := fun _ _ h => absurd h (by simp [sampleFs])
  refine ⟨hp, ?_, ?_⟩
  · rw [hn]; rfl
  · rw [hn]; exact (indexDocument_of (metaContents_noIds hnames)).fnAndDate

/-- A reader with a hole, uncommitted, and a purge that is interrupted at its fifth check:
`c` is deleted, `a` is kept. -/
theorem purge_sound_sample :
    let slots : List (Slot Document) := [⟨sampleDoc "a" 1, false⟩, ⟨sampleDoc "b" 2, true⟩, ⟨sampleDoc "c" 3, false⟩]
    let committed := ofList [sampleDoc "a" 1, sampleDoc "b" 2, sampleDoc "c" 3]
    let w : Worker := ⟨⟨⟨.reader ⟨[committed], [slots], true, by simp⟩, true⟩, 0, false⟩, 0, 0, some 4⟩
    let fs := sampleFs [("a", 1)]
    ∃ s, w.delDeletedFilesFromIdx sampleEnv fs = some s ∧
      (∀ n d q, LiveAt w.pLucyIndexer.pIndexWriter.slots n d → d.get FIELDNAME_ABSPATHNAME = some q →
        fs.exists_ q = true → LiveAt s.worker.pLucyIndexer.pIndexWriter.slots n d) ∧
      ∀ a ∈ s.accesses, a.docNum < a.pReader.maxDoc ∧
        a.pReader.slots[a.docNum]? = w.pLucyIndexer.pIndexWriter.slots[a.docNum]? ∧
        (a.call = .deleteDocument → ∃ d q, LiveAt a.pReader.slots a.docNum d ∧
          d.get FIELDNAME_ABSPATHNAME = some q ∧ fs.exists_ q = false) := by
  intro slots committed w fs
  have hq : PathsApart sampleEnv {q | q ∈ samplePaths} := List.inj_on_of_nodup_map (by decide +kernel)
  have hown : ∀ d ∈ w.pLucyIndexer.docs, ∃ q ∈ {q | q ∈ samplePaths}, ∃ finfo, Own sampleEnv q finfo d := by
    intro d hd
    have he : w.pLucyIndexer.docs = [sampleDoc "a" 1, sampleDoc "c" 3] := rfl
    rw [he, List.mem_cons, List.mem_singleton] at hd
    rcases hd with rfl | rfl
    · exact ⟨qs "/d/" ++ qs "a", by decide +kernel, _, sampleDoc_own (by decide +kernel) (by decide +kernel)⟩
    · exact ⟨qs "/d/" ++ qs "c", by decide +kernel, _, sampleDoc_own (by decide +kernel) (by decide +kernel)⟩
  exact purge_sound hq rfl hown fs

end Worker

end QDesktopSearch
