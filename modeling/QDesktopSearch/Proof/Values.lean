import QDesktopSearch.Lib.MultiMap
import QDesktopSearch.Proof.Jvm
import QDesktopSearch.Proof.Metadata

/-!
# No value is lost or doubled

The map that `file` fills is read as the multiset of its pairs; every update adds to it.

* `pairs_metaContents`: what the map holds in the end.
* `fileDocument_arrived`: the values of every field of the document, for every extraction, as it arrives from Java.
* `fileDocument_values`: and as Java has it, with what `js2qs` makes of the strings.
-/

namespace QDesktopSearch

open MultiMap

variable {E : Env} {fs : FileSystem} {metas : QMap QStringList} {finfo : QFileInfo} {p F : QString}

/-- What `file` has extracted from a file; nothing from a big one. -/
def extraction (E : Env) (fs : FileSystem) (sAbsPathName : QString) (finfo : QFileInfo) : Option TikaResult :=
  if Worker.isBigFile finfo then none else fs.tika (normalizePath E.qt sAbsPathName false)

/-- The name under which a metadata name is kept until `index`. -/
def metaKey (E : Env) (name : QString) : QString := trimmed (E.qt.toLower name)

/-- The values whose name ends up as the field; those of `x-parsed-by` are omitted. -/
def TikaResult.valuesOf (E : Env) (r : TikaResult) (fieldName : QString) : List QString :=
  r.names.flatMap fun n =>
    if metaKey E n.1 ≠ qs "x-parsed-by" ∧ metaName E (metaKey E n.1) = fieldName then n.2 else []

/-- The body text, unless it is blank. -/
def TikaResult.body (r : TikaResult) : List (QString × QString) :=
  if isempty r.text true then [] else [(FIELDNAME_FULLTEXT, r.text)]

/-- The six attributes of a file. -/
def attributes (sAbsPathName : QString) (finfo : QFileInfo) : List (QString × QString) :=
  [(FIELDNAME_ABSPATHNAME, sAbsPathName), (qs "dir", finfo.path), (FIELDNAME_FILENAME, finfo.fileName),
    (qs "extension", finfo.suffix), (qs "size", number finfo.size),
    (qs "lastmodified", number finfo.lastModified.toTime_t.toNat)]

/-- The two ids of a document. -/
def idFields (E : Env) (sAbsPathName : QString) (finfo : QFileInfo) : List (QString × QString) :=
  [(ID_FN, getIdFN E (normalizePath E.qt sAbsPathName false)),
    (ID_FNANDDATE, getIdFNandDATE E (normalizePath E.qt sAbsPathName false) finfo)]

/-- The values under one name. -/
def valuesAt (fieldName : QString) (l : List (QString × QString)) : List QString :=
  (l.filter fun e => e.1 == fieldName).map (·.2)

/-! ## The map -/

theorem addMetaContents_eq {name value : QString} :
    addMetaContents metas name value = metas.insert name (metas[name]?.getD [] ++ [value]) := by
  unfold addMetaContents
  cases metas[name]? <;> rfl

@[simp] theorem pairs_addMetaContents {name value : QString} :
    pairs (addMetaContents metas name value) = pairs metas + ↑[(name, value)] := by
  rw [addMetaContents_eq, pairs_insert]
  rfl

theorem extractMetaContents_eq {name : QString} {values : List QString} (hv : values ≠ []) :
    extractMetaContents E.qt metas name values =
      metas.insert (metaKey E name) (metas[metaKey E name]?.getD [] ++ values) := by
  unfold extractMetaContents metaKey
  rw [if_neg hv]
  dsimp only
  cases metas[trimmed (E.qt.toLower name)]? <;> rfl

theorem pairs_extractMetaContents (n : QString × List QString) :
    pairs (extractMetaContents E.qt metas n.1 n.2) = pairs metas + ↑(entryPairs (metaKey E n.1, n.2)) := by
  by_cases hv : n.2 = []
  · unfold extractMetaContents
    rw [if_pos hv, hv]
    exact (add_zero _).symm
  · rw [extractMetaContents_eq hv, pairs_insert]

/-- What the extraction puts into the map. -/
def extractedPairs (E : Env) (r : TikaResult) : List (QString × QString) :=
  r.body ++ r.names.flatMap fun n => entryPairs (metaKey E n.1, n.2)

/-- The body text comes into the empty map, and is never replaced by what follows. -/
theorem pairs_getMetaContents {r : TikaResult} (hr : fs.tika (normalizePath E.qt p false) = some r) :
    pairs (getMetaContents E.qt fs p ∅) = ↑(extractedPairs E r) := by
  have hbody : pairs (if isempty r.text true then ∅ else (∅ : QMap QStringList).insert FIELDNAME_FULLTEXT [r.text]) =
      (↑r.body : Multiset (QString × QString)) := by
    unfold TikaResult.body
    split
    · rfl
    · have hinsert := pairs_insert (m := (∅ : QMap QStringList)) (k := FIELDNAME_FULLTEXT) [r.text]
      rw [Std.ExtTreeMap.getElem?_empty] at hinsert
      rw [pairs_empty, zero_add] at hinsert
      exact hinsert
  have hnames := pairs_foldl (fun _ n => pairs_extractMetaContents (E := E) n) r.names
  rw [getMetaContents, hr]
  dsimp only
  rw [hnames, hbody, extractedPairs, Multiset.coe_add]

theorem pairs_enrichMetaContents :
    pairs (enrichMetaContents p metas finfo) = pairs metas + ↑(attributes p finfo) := by
  unfold enrichMetaContents
  simp only [pairs_addMetaContents, add_assoc, Multiset.coe_add]
  rfl

/-- **What the map of a file holds in the end.** -/
theorem pairs_metaContents : pairs (Worker.metaContents E fs p finfo) =
    ↑((extraction E fs p finfo).elim [] (extractedPairs E)) + ↑(attributes p finfo) := by
  unfold Worker.metaContents extraction
  dsimp only
  rw [pairs_enrichMetaContents]
  split
  · rfl
  · cases hr : fs.tika (normalizePath E.qt p false) with
    | some r => rw [pairs_getMetaContents hr]; rfl
    | none =>
      unfold getMetaContents
      rw [hr]
      rfl

/-! ## From the map to the fields -/

/-- What pairs of the map give a field. -/
def fieldValues (E : Env) (fieldName : QString) (entries : List (QString × QString)) : List QString :=
  (entries.filter fun e => e.1 ≠ qs "x-parsed-by" ∧ metaName E e.1 = fieldName).map (·.2)

theorem fieldValues_append {l l' : List (QString × QString)} :
    fieldValues E F (l ++ l') = fieldValues E F l ++ fieldValues E F l' := by
  simp [fieldValues]

theorem fieldValues_entryPairs {entry : QString × QStringList} :
    fieldValues E F (entryPairs entry) = entryValues E F entry := by
  unfold fieldValues entryValues entryPairs
  rw [List.filter_map, List.map_map]
  split
  · rename_i h
    rw [List.filter_eq_self.2 (by simp [h])]
    simp [Function.comp_def]
  · rename_i h
    rw [List.filter_eq_nil_iff.2 (by simpa using fun _ _ => h)]
    rfl

theorem fieldValues_flatMap {ι : Type*} {g : ι → QString × QStringList} {l : List ι} :
    fieldValues E F (l.flatMap fun i => entryPairs (g i)) = l.flatMap fun i => entryValues E F (g i) := by
  induction l with
  | nil => rfl
  | cons i l ih => rw [List.flatMap_cons, List.flatMap_cons, fieldValues_append, ih, fieldValues_entryPairs]

/-- Own names stay what they are. -/
theorem fieldValues_own {l : List (QString × QString)} (h : ∀ e ∈ l, e.1 ∈ ownNames) :
    fieldValues E F l = valuesAt F l := by
  unfold fieldValues valuesAt
  refine congrArg (List.map _) (List.filter_congr ?_)
  intro e he
  have hx : ∀ name ∈ ownNames, name ≠ qs "x-parsed-by" := by decide
  simp [metaName_own (h e he), hx _ (h e he), beq_eq_decide]

theorem fieldValues_extractedPairs {r : TikaResult} :
    fieldValues E F (extractedPairs E r) = valuesAt F r.body ++ r.valuesOf E F := by
  have hbody : ∀ e ∈ r.body, e.1 ∈ ownNames := by
    unfold TikaResult.body
    split
    · simp
    · simp [ownNames]
  rw [extractedPairs, fieldValues_append, fieldValues_own hbody, fieldValues_flatMap]
  rfl

/-- What the values of a field are put together from, in the order of the map. -/
theorem getValues_fileDocument (E : Env) (fs : FileSystem) (sAbsPathName : QString) (finfo : QFileInfo)
    (fieldName : QString) : ((fileDocument E fs sAbsPathName finfo).getValues fieldName).Perm
      (valuesAt fieldName (idFields E sAbsPathName finfo) ++
        (fieldValues E fieldName ((extraction E fs sAbsPathName finfo).elim [] (extractedPairs E)) ++
          valuesAt fieldName (attributes sAbsPathName finfo))) := by
  set metas := Worker.metaContents E fs sAbsPathName finfo with hmetas
  have hentries : metas.toList.flatMap (entryValues E fieldName) =
      fieldValues E fieldName (metas.toList.flatMap entryPairs) := (fieldValues_flatMap (g := id)).symm
  have hperm : (metas.toList.flatMap entryPairs).Perm
      ((extraction E fs sAbsPathName finfo).elim [] (extractedPairs E) ++ attributes sAbsPathName finfo) := by
    rw [← Multiset.coe_eq_coe, ← Multiset.coe_add, ← pairs_metaContents]
    rfl
  have hown : ∀ e ∈ attributes sAbsPathName finfo, e.1 ∈ ownNames := by simp [attributes, ownNames]
  have hids : Document.getValues [⟨ID_FN, getIdFN E (normalizePath E.qt sAbsPathName false), false⟩,
      ⟨ID_FNANDDATE, getIdFNandDATE E (normalizePath E.qt sAbsPathName false) finfo, false⟩] fieldName =
      valuesAt fieldName (idFields E sAbsPathName finfo) := by
    unfold Document.getValues valuesAt idFields
    by_cases h1 : ID_FN = fieldName <;> by_cases h2 : ID_FNANDDATE = fieldName <;> simp [h1, h2]
  rw [fileDocument, getValues_indexDocument, hids, hentries, ← fieldValues_own (E := E) hown, ← fieldValues_append]
  exact ((hperm.filter _).map _).append_left _

/-- **The values of every field of a file's document, for every extraction**: those whose
name ends up as the field, the body text, the attributes and the ids; each as often as it
was delivered. -/
theorem fileDocument_arrived (E : Env) (fs : FileSystem) (sAbsPathName : QString) (finfo : QFileInfo)
    (fieldName : QString) :
    (↑((fileDocument E fs sAbsPathName finfo).getValues fieldName) : Multiset QString) =
      ↑((extraction E fs sAbsPathName finfo).elim [] fun r => r.valuesOf E fieldName) +
      ↑((extraction E fs sAbsPathName finfo).elim [] fun r => valuesAt fieldName r.body) +
      ↑(valuesAt fieldName (attributes sAbsPathName finfo)) +
      ↑(valuesAt fieldName (idFields E sAbsPathName finfo)) := by
  have hvalues := getValues_fileDocument E fs sAbsPathName finfo fieldName
  have hextracted : (↑(fieldValues E fieldName ((extraction E fs sAbsPathName finfo).elim [] (extractedPairs E))) :
      Multiset QString) = ↑((extraction E fs sAbsPathName finfo).elim [] fun r => r.valuesOf E fieldName) +
        ↑((extraction E fs sAbsPathName finfo).elim [] fun r => valuesAt fieldName r.body) := by
    cases extraction E fs sAbsPathName finfo with
    | none => rfl
    | some r =>
      simp only [Option.elim_some]
      rw [fieldValues_extractedPairs, ← Multiset.coe_add, add_comm]
  rw [Multiset.coe_eq_coe.2 hvalues, ← Multiset.coe_add, ← Multiset.coe_add, hextracted]
  exact add_comm _ _

/-! ## From Java -/

/-- What Tika has extracted from a file, in Java. -/
def javaExtraction (E : Env) (parse : QString → Option JavaResult) (sAbsPathName : QString) (finfo : QFileInfo) :
    Option JavaResult :=
  if Worker.isBigFile finfo then none else parse (normalizePath E.qt sAbsPathName false)

theorem extraction_ofJava {stat : QString → Option QFileInfo} {parse : QString → Option JavaResult} :
    extraction E (.ofJava stat parse) p finfo = (javaExtraction E parse p finfo).map JavaResult.arrived := by
  unfold extraction javaExtraction
  split <;> rfl

/-- **The values of every field of a file's document, for every result of Tika**: those whose name ends up
as the field, the body text, each string as `js2qs` converts it; the attributes and the ids. And `js2qs` leaves
exactly the strings alone that have neither U+0000 nor surrogates nor a byte order mark at the beginning. -/
theorem fileDocument_values (E : Env) :
    (∀ (stat : QString → Option QFileInfo) (parse : QString → Option JavaResult) (sAbsPathName : QString) (finfo : QFileInfo)
      (fieldName : QString),
      let r := (javaExtraction E parse sAbsPathName finfo).map JavaResult.arrived
      (↑((fileDocument E (.ofJava stat parse) sAbsPathName finfo).getValues fieldName) : Multiset QString) =
        ↑(r.elim [] fun r => r.valuesOf E fieldName) + ↑(r.elim [] fun r => valuesAt fieldName r.body) +
          ↑(valuesAt fieldName (attributes sAbsPathName finfo)) + ↑(valuesAt fieldName (idFields E sAbsPathName finfo))) ∧
    ∀ js : JString, js2qs js = js ↔ Plain16 js := by
  refine ⟨fun stat parse sAbsPathName finfo fieldName => ?_, fun js => js2qs_eq_self_iff⟩
  have harrived := fileDocument_arrived E (.ofJava stat parse) sAbsPathName finfo fieldName
  rwa [extraction_ofJava] at harrived

/-- `/d/a`, from which nothing is extracted: its `id_fn` has a value that is neither
delivered nor an attribute. And the title of `/d/a`, a character beyond the basic plane, does not come through. -/
theorem id_not_delivered :
    let finfo : QFileInfo := ⟨true, 10, 1000, qs "/d", qs "a", []⟩
    let values := fun (r : JavaResult) (fieldName : QString) =>
      (fileDocument sampleEnv (.ofJava (sampleFs [("a", 1)]).stat fun _ => some r) (qs "/d/a") finfo).getValues fieldName
    let delivered := fun (r : JavaResult) (fieldName : QString) =>
      TikaResult.valuesOf sampleEnv ⟨r.text, r.names⟩ fieldName ++ valuesAt fieldName (TikaResult.body ⟨r.text, r.names⟩) ++
        valuesAt fieldName (attributes (qs "/d/a") finfo)
    ¬(values ⟨[], []⟩ ID_FN).Perm (delivered ⟨[], []⟩ ID_FN) ∧
      ¬(values ⟨[], [(qs "title", [[0xD83D, 0xDE00]])]⟩ (qs "title")).Perm
        (delivered ⟨[], [(qs "title", [[0xD83D, 0xDE00]])]⟩ (qs "title")) := by
  refine ⟨fun h => absurd h.length_eq (by decide +kernel), fun h => ?_⟩
  have hin := h.mem_iff (a := [0xD83D, 0xDE00])
  exact absurd hin (by decide +kernel)

end QDesktopSearch
