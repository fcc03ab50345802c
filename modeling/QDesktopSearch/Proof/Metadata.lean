import QDesktopSearch.Proof.Separation

/-!
# Foreign metadata and the identity of a document

* `getValues_indexDocument`: which entries of the map give a field its values.
* `Alone`: a map whose only entry that ends up under some fields is the file's own path;
  `alone_metaContents` has it unless Tika delivers such a name.
* `Extends`: entries grow only at the end, so a value that Tika delivers stays.
* `genuine_iff`: the document carries its file's identity and nothing else under these
  fields exactly if Tika delivers no name that ends up as one of them.
-/

namespace QDesktopSearch

variable {E : Env} {fs : FileSystem} {metas : QMap QStringList} {finfo : QFileInfo} {p s : QString}

/-- `Document::getValues`: the values of all fields of that name. -/
def Document.getValues (d : Document) (name : QString) : List QString :=
  (d.filter fun f => f.name == name).map (·.value)

/-- The fields that identify a document. -/
def reserved : List QString := [ID_FN, ID_FNANDDATE, FIELDNAME_ABSPATHNAME]

/-- The document that `file` builds for a path, which it has normalized once. -/
def fileDocument (E : Env) (fs : FileSystem) (sAbsPathName : QString) (finfo : QFileInfo) : Document :=
  indexDocument E (normalizePath E.qt sAbsPathName false) (Worker.metaContents E fs sAbsPathName finfo) finfo

/-- One value for each of the three fields, computed from the file itself; and what `get`,
the count of fields in `delDeletedFilesFromIdx` and a deletion by `id_fn` make of it. -/
structure Genuine (E : Env) (sAbsPathName : QString) (finfo : QFileInfo) (doc : Document) : Prop where
  fn : doc.getValues ID_FN = [getIdFN E (normalizePath E.qt sAbsPathName false)]
  fnAndDate : doc.getValues ID_FNANDDATE =
    [getIdFNandDATE E (normalizePath E.qt sAbsPathName false) finfo]
  pathname : doc.getValues FIELDNAME_ABSPATHNAME = [sAbsPathName]
  get : doc.get FIELDNAME_ABSPATHNAME = some sAbsPathName
  twoFields : (doc.load [FIELDNAME_ABSPATHNAME, ID_FNANDDATE]).length = 2
  otherFn : ∀ other, E.qHash other ≠ E.qHash (normalizePath E.qt sAbsPathName false) → ∀ l : Lucyindexer,
    (l.delDoc E ID_FN (getIdFN E other)).1.docs.count doc = l.docs.count doc

/-- Tika delivers for the file a name with a value that ends up as a reserved field. -/
def Forges (E : Env) (fs : FileSystem) (sAbsPathName : QString) (finfo : QFileInfo) : Prop :=
  Worker.isBigFile finfo = false ∧ ∃ r, fs.tika (normalizePath E.qt sAbsPathName false) = some r ∧
    ∃ n ∈ r.names, n.2 ≠ [] ∧ metaName E (trimmed (E.qt.toLower n.1)) ∈ reserved

/-! ## Values of a field -/

section Flat

variable {α β : Type*} {l : List α} {x y : α} {g : α → List β}

/-- One member gives all there is. -/
theorem flatMap_eq_of_only (hl : l.Nodup) (hx : x ∈ l) (h : ∀ y ∈ l, y ≠ x → g y = []) : l.flatMap g = g x := by
  obtain ⟨a, b, rfl⟩ := List.append_of_mem hx
  have hnone : ∀ k : List α, (∀ y ∈ k, y ∈ a ++ x :: b ∧ y ≠ x) → k.flatMap g = [] := by
    intro k hk
    rw [List.flatMap_eq_nil_iff]
    intro y hy
    exact h y (hk y hy).1 (hk y hy).2
  have hd := List.nodup_append.1 hl
  have ha : a.flatMap g = [] := hnone a fun y hy =>
    ⟨List.mem_append_left _ hy, hd.2.2 y hy x List.mem_cons_self⟩
  have hb : b.flatMap g = [] := hnone b fun y hy =>
    ⟨List.mem_append_right _ (List.mem_cons_of_mem _ hy),
      fun he => (List.nodup_cons.1 hd.2.1).1 (he ▸ hy)⟩
  rw [List.flatMap_append, List.flatMap_cons, ha, hb, List.nil_append, List.append_nil]

theorem length_le_flatMap (hx : x ∈ l) : (g x).length ≤ (l.flatMap g).length := by
  obtain ⟨a, b, rfl⟩ := List.append_of_mem hx
  simp only [List.flatMap_append, List.flatMap_cons, List.length_append]
  omega

/-- Two members give at least two. -/
theorem two_le_length_flatMap (hx : x ∈ l) (hy : y ∈ l) (hne : x ≠ y) (hgx : g x ≠ []) (hgy : g y ≠ []) :
    2 ≤ (l.flatMap g).length := by
  obtain ⟨a, b, rfl⟩ := List.append_of_mem hx
  have hrest : g y ⊆ a.flatMap g ++ b.flatMap g := by
    intro z hz
    rcases List.mem_append.1 hy with h | h
    · exact List.mem_append_left _ (List.mem_flatMap.2 ⟨y, h, hz⟩)
    · rcases List.mem_cons.1 h with h | h
      · exact absurd h.symm hne
      · exact List.mem_append_right _ (List.mem_flatMap.2 ⟨y, h, hz⟩)
  have h1 : 0 < (g x).length := List.length_pos_iff.2 hgx
  have h2 : 0 < (a.flatMap g ++ b.flatMap g).length := by
    rw [List.length_pos_iff]
    intro hnil
    exact hgy (List.eq_nil_of_subset_nil (hnil ▸ hrest))
  simp only [List.flatMap_append, List.flatMap_cons, List.length_append] at h2 ⊢
  omega

end Flat

theorem getValues_append {d d' : Document} {name : QString} :
    Document.getValues (d ++ d') name = d.getValues name ++ d'.getValues name := by
  simp [Document.getValues]

/-- What one entry of the map gives a field. -/
def entryValues (E : Env) (name : QString) (entry : QString × QStringList) : List QString :=
  if entry.1 ≠ qs "x-parsed-by" ∧ metaName E entry.1 = name then entry.2 else []

theorem getValues_metaFields {name : QString} {entry : QString × QStringList} :
    Document.getValues (metaFields E entry) name = entryValues E name entry := by
  unfold metaFields entryValues Document.getValues
  by_cases hx : entry.1 = qs "x-parsed-by"
  · simp [hx]
  · by_cases hn : metaName E entry.1 = name
    · simp [hx, hn, List.filter_map, Function.comp_def]
    · simp [hx, hn, List.filter_map, Function.comp_def]

theorem getValues_flatMap {name : QString} {entries : List (QString × QStringList)} :
    Document.getValues (entries.flatMap (metaFields E)) name = entries.flatMap (entryValues E name) := by
  induction entries with
  | nil => rfl
  | cons entry entries ih =>
    rw [List.flatMap_cons, getValues_append, ih, getValues_metaFields, List.flatMap_cons]

/-- **Where the values of a field come from.** -/
theorem getValues_indexDocument {name : QString} : (indexDocument E s metas finfo).getValues name =
    Document.getValues [⟨ID_FN, getIdFN E s, false⟩, ⟨ID_FNANDDATE, getIdFNandDATE E s finfo, false⟩] name ++
      metas.toList.flatMap (entryValues E name) := by
  rw [indexDocument, getValues_append, getValues_flatMap]

theorem mem_entries {k : QString} {sl : QStringList} : (k, sl) ∈ metas.toList ↔ metas[k]? = some sl :=
  Std.ExtTreeMap.mem_toList_iff_getElem?_eq_some

theorem entries_nodup : metas.toList.Nodup := by
  refine Std.ExtTreeMap.distinct_keys_toList.imp ?_
  intro a b hab he
  subst he
  exact hab Std.ReflCmp.compare_self

/-- The entry that `index` skips is under no reserved name. -/
theorem parsedBy_not_reserved : metaName E (qs "x-parsed-by") ∉ reserved := by
  rw [metaName_ascii (ascii_of_all (by decide))]
  decide

theorem entryValues_eq {name k : QString} {sl : QStringList} (hk : metaName E k = name) (hn : name ∈ reserved) :
    entryValues E name (k, sl) = sl := by
  unfold entryValues
  rw [if_pos]
  refine ⟨?_, hk⟩
  rintro he
  refine parsedBy_not_reserved (E := E) ?_
  rw [← he, hk]
  exact hn

/-! ## A map with the own path only -/

theorem addMetaContents_same {name value : QString} :
    (addMetaContents metas name value)[name]? = some (metas[name]?.getD [] ++ [value]) := by
  unfold addMetaContents
  cases metas[name]? <;> simp

theorem addMetaContents_other {name value k : QString} (h : name ≠ k) :
    (addMetaContents metas name value)[k]? = metas[k]? := by
  unfold addMetaContents
  split <;> simp [Std.ExtTreeMap.getElem?_insert, Std.LawfulEqCmp.compare_eq_iff_eq, h]

/-- The path alone is in the map under names that end up in `R`. -/
structure Alone (E : Env) (R : List QString) (sAbsPathName : QString) (metas : QMap QStringList) : Prop where
  path : metas[FIELDNAME_ABSPATHNAME]? = some [sAbsPathName]
  only : ∀ k ∈ metas, metaName E k ∈ R → k = FIELDNAME_ABSPATHNAME

section Alone

variable {R : List QString}

theorem Alone.addMetaContents {name value : QString} (h : Alone E R p metas) (hn : metaName E name ∉ R)
    (hne : name ≠ FIELDNAME_ABSPATHNAME) : Alone E R p (addMetaContents metas name value) where
  path := by rw [addMetaContents_other hne]; exact h.path
  only := (show AllNames (fun k => metaName E k ∈ R → k = FIELDNAME_ABSPATHNAME) metas from h.only).addMetaContents
    fun hr => absurd hr hn

/-- The first field that `enrichMetaContents` adds. -/
theorem alone_first (hR : FIELDNAME_ABSPATHNAME ∈ R) (h : AllNames (fun k => metaName E k ∉ R) metas) :
    Alone E R p (addMetaContents metas FIELDNAME_ABSPATHNAME p) := by
  have hnone : metas[FIELDNAME_ABSPATHNAME]? = none := by
    refine Std.ExtTreeMap.getElem?_eq_none ?_
    intro hmem
    refine h _ hmem ?_
    rw [metaName_own (by simp [ownNames])]
    exact hR
  constructor
  · rw [addMetaContents_same, hnone]; rfl
  · have h' : AllNames (fun k => metaName E k ∈ R → k = FIELDNAME_ABSPATHNAME) metas :=
      fun k hk hr => absurd hr (h k hk)
    exact h'.addMetaContents fun _ => rfl

/-- Of its own names the program reserves one. -/
theorem own_not_reserved {name : QString} (h : name ∈ ownNames) (hne : name ≠ FIELDNAME_ABSPATHNAME) :
    metaName E name ∉ reserved := by
  rw [metaName_own h]
  revert name; decide

theorem alone_enrich (hR : FIELDNAME_ABSPATHNAME ∈ R) (hsub : R ⊆ reserved)
    (h : AllNames (fun k => metaName E k ∉ R) metas) : Alone E R p (enrichMetaContents p metas finfo) := by
  have hadd : ∀ m name value, Alone E R p m → name ∈ ownNames → name ≠ FIELDNAME_ABSPATHNAME →
      Alone E R p (addMetaContents m name value) :=
    fun m name value hm hn hne => hm.addMetaContents (fun hr => own_not_reserved hn hne (hsub hr)) hne
  unfold enrichMetaContents
  have h1 : Alone E R p (addMetaContents metas FIELDNAME_ABSPATHNAME p) := alone_first hR h
  have h2 := hadd _ (qs "dir") finfo.path h1 (by decide) (by decide)
  have h3 := hadd _ FIELDNAME_FILENAME finfo.fileName h2 (by decide) (by decide)
  have h4 := hadd _ (qs "extension") finfo.suffix h3 (by decide) (by decide)
  have h5 := hadd _ (qs "size") (number finfo.size) h4 (by decide) (by decide)
  exact hadd _ _ _ h5 (by decide) (by decide)

/-- **Where Tika delivers no name that ends up in `R`, `file` hands `index` a map with the
path alone under them.** -/
theorem alone_metaContents (hR : FIELDNAME_ABSPATHNAME ∈ R) (hsub : R ⊆ reserved)
    (h : Worker.isBigFile finfo = false → ∀ r, fs.tika (normalizePath E.qt p false) = some r → ∀ n ∈ r.names, n.2 ≠ [] →
      metaName E (trimmed (E.qt.toLower n.1)) ∉ R) : Alone E R p (Worker.metaContents E fs p finfo) := by
  unfold Worker.metaContents
  dsimp only
  split
  · exact alone_enrich hR hsub AllNames.empty
  · rename_i hbig
    refine alone_enrich hR hsub (AllNames.empty.getMetaContents (fun hr => ?_) (h (by simpa using hbig)))
    exact own_not_reserved (by simp [ownNames]) (by decide) (hsub hr)

end Alone

/-! ## A forged name stays -/

/-- Entries grow only at the end. -/
def Extends (metas metas' : QMap QStringList) : Prop :=
  ∀ (k : QString) (sl : QStringList), metas[k]? = some sl → ∃ more, metas'[k]? = some (sl ++ more)

theorem Extends.refl : Extends metas metas := fun _ _ h => ⟨[], by rw [h, List.append_nil]⟩

theorem Extends.trans {m m' m'' : QMap QStringList} (h : Extends m m') (h' : Extends m' m'') : Extends m m'' := by
  intro k sl hk
  obtain ⟨more, h1⟩ := h k sl hk
  obtain ⟨more', h2⟩ := h' k _ h1
  exact ⟨more ++ more', by rw [h2, List.append_assoc]⟩

theorem Extends.add {m : QMap QStringList} (h : Extends metas m) {name value : QString} :
    Extends metas (addMetaContents m name value) := by
  refine h.trans ?_
  intro k sl hk
  by_cases hn : name = k
  · subst hn
    exact ⟨[value], by rw [addMetaContents_same, hk]; rfl⟩
  · exact ⟨[], by rw [addMetaContents_other hn, hk, List.append_nil]⟩

/-- A name with values gets them, after what is there. -/
theorem extractMetaContents_same {Q : Qt} {name : QString} {values : List QString} (hv : values ≠ []) :
    (extractMetaContents Q metas name values)[trimmed (Q.toLower name)]? =
      some (metas[trimmed (Q.toLower name)]?.getD [] ++ values) := by
  unfold extractMetaContents
  rw [if_neg hv]
  dsimp only
  cases metas[trimmed (Q.toLower name)]? <;> simp

theorem extends_extract {Q : Qt} {name : QString} {values : List QString} :
    Extends metas (extractMetaContents Q metas name values) := by
  intro k sl hk
  by_cases hv : values = []
  · exact ⟨[], by rw [extractMetaContents, if_pos hv, hk, List.append_nil]⟩
  by_cases hn : trimmed (Q.toLower name) = k
  · subst hn
    exact ⟨values, by rw [extractMetaContents_same hv, hk]; rfl⟩
  · refine ⟨[], ?_⟩
    unfold extractMetaContents
    rw [if_neg hv, List.append_nil, ← hk]
    dsimp only
    split <;> simp [Std.ExtTreeMap.getElem?_insert, Std.LawfulEqCmp.compare_eq_iff_eq, hn]

/-- **A value that Tika delivers under a name is in the map.** -/
theorem delivered {Q : Qt} {names : List (QString × List QString)} {n : QString × List QString} (hn : n ∈ names)
    (hv : n.2 ≠ []) (m : QMap QStringList) : ∃ sl, sl ≠ [] ∧
      (names.foldl (fun metas n => extractMetaContents Q metas n.1 n.2) m)[trimmed (Q.toLower n.1)]? = some sl := by
  have hkeep : ∀ (names : List (QString × List QString)) (m : QMap QStringList),
      Extends m (names.foldl (fun metas n => extractMetaContents Q metas n.1 n.2) m) := by
    intro names
    induction names with
    | nil => intro m; exact Extends.refl
    | cons n names ih => intro m; exact extends_extract.trans (ih _)
  obtain ⟨before, after, rfl⟩ := List.append_of_mem hn
  rw [List.foldl_append, List.foldl_cons]
  generalize before.foldl (fun metas n => extractMetaContents Q metas n.1 n.2) m = m'
  have hsame : (extractMetaContents Q m' n.1 n.2)[trimmed (Q.toLower n.1)]? =
      some (m'[trimmed (Q.toLower n.1)]?.getD [] ++ n.2) := extractMetaContents_same hv
  obtain ⟨more, h⟩ := hkeep after _ _ _ hsame
  exact ⟨_, by simp [hv], h⟩

/-- A reserved field has an entry that is not the file's own. -/
def Foreign (E : Env) (metas : QMap QStringList) : Prop :=
  ∃ (k : QString) (sl : QStringList), metas[k]? = some sl ∧ metaName E k ∈ reserved ∧ sl ≠ [] ∧
    (k = FIELDNAME_ABSPATHNAME → 2 ≤ sl.length)

theorem foreign_enrich {k : QString} {sl : QStringList} (hk : metas[k]? = some sl) (hsl : sl ≠ [])
    (hres : metaName E k ∈ reserved) : Foreign E (enrichMetaContents p metas finfo) ∧
      ∃ own, (enrichMetaContents p metas finfo)[FIELDNAME_ABSPATHNAME]? = some own ∧ own ≠ [] := by
  have hrest : Extends (addMetaContents metas FIELDNAME_ABSPATHNAME p) (enrichMetaContents p metas finfo) :=
    Extends.refl.add.add.add.add.add
  have hpos : 0 < sl.length := List.length_pos_iff.2 hsl
  constructor
  · by_cases hp : k = FIELDNAME_ABSPATHNAME
    · subst hp
      have h1 : (addMetaContents metas FIELDNAME_ABSPATHNAME p)[FIELDNAME_ABSPATHNAME]? = some (sl ++ [p]) := by
        rw [addMetaContents_same, hk]; rfl
      obtain ⟨more, h2⟩ := hrest _ _ h1
      refine ⟨_, _, h2, hres, by simp, fun _ => ?_⟩
      simp only [List.length_append, List.length_singleton]
      omega
    · obtain ⟨more, h2⟩ := hrest k sl (by rw [addMetaContents_other (Ne.symm hp)]; exact hk)
      exact ⟨k, _, h2, hres, by simp [hsl], fun he => absurd he hp⟩
  · obtain ⟨more, h2⟩ := hrest _ _ addMetaContents_same
    exact ⟨_, h2, by simp⟩

/-- **A forged name reaches `index`.** -/
theorem forged_metaContents (h : Forges E fs p finfo) : Foreign E (Worker.metaContents E fs p finfo) ∧
    ∃ own, (Worker.metaContents E fs p finfo)[FIELDNAME_ABSPATHNAME]? = some own ∧ own ≠ [] := by
  obtain ⟨hbig, r, hr, n, hn, hv, hres⟩ := h
  unfold Worker.metaContents getMetaContents
  simp only [hbig, hr, Bool.false_eq_true, if_false]
  obtain ⟨sl, hsl, hk⟩ := delivered (Q := E.qt) hn hv
    (if isempty r.text true = true then ∅ else (∅ : QMap QStringList).insert FIELDNAME_FULLTEXT [r.text])
  exact foreign_enrich hk hsl hres

/-! ## The document of a file -/

/-- `get` takes the first value. -/
theorem get_eq_head? {d : Document} {name : QString} : d.get name = (d.getValues name).head? := by
  rw [Document.get, Document.getValues, ← List.head?_filter, List.head?_map]

theorem load_pair_length {d : Document} {a b : QString} (hab : a ≠ b) :
    (d.load [a, b]).length = (d.getValues a).length + (d.getValues b).length := by
  simp only [Document.load, Document.getValues, List.length_map]
  induction d with
  | nil => rfl
  | cons f d ih =>
    by_cases ha : f.name = a
    · have hb : f.name ≠ b := fun he => hab (ha ▸ he)
      simp only [List.filter_cons, List.contains_cons, List.contains_nil, Bool.or_false, ha, hab, beq_self_eq_true,
        Bool.true_or, if_true, beq_iff_eq, if_false, List.length_cons] at ih ⊢
      omega
    · by_cases hb : f.name = b
      · simp only [List.filter_cons, List.contains_cons, List.contains_nil, Bool.or_false, hb, Ne.symm hab,
          beq_self_eq_true, Bool.or_true, if_true, beq_iff_eq, if_false, List.length_cons] at ih ⊢
        omega
      · simp only [List.filter_cons, List.contains_cons, List.contains_nil, Bool.or_false, Bool.or_eq_true, beq_iff_eq,
          ha, hb, or_self, if_false] at ih ⊢
        exact ih

theorem Alone.noIds (h : Alone E reserved p metas) : NoIds E metas := by
  intro k hk
  have hpath : metaName E k ∈ reserved → metaName E k = FIELDNAME_ABSPATHNAME := by
    intro hr
    rw [h.only k hk hr]
    exact metaName_own (by simp [ownNames])
  constructor
  · intro he
    have hp := hpath (by rw [he]; simp [reserved])
    exact absurd (he.symm.trans hp) (by decide)
  · intro he
    have hp := hpath (by rw [he]; simp [reserved])
    exact absurd (he.symm.trans hp) (by decide)

/-- No entry gives an id field a value. -/
theorem entries_noIds (h : NoIds E metas) {name : QString} (hname : name = ID_FN ∨ name = ID_FNANDDATE) :
    metas.toList.flatMap (entryValues E name) = [] := by
  rw [List.flatMap_eq_nil_iff]
  rintro ⟨k, sl⟩ hmem
  have hk : k ∈ metas := by
    rw [← Std.ExtTreeMap.isSome_getElem?_iff_mem, mem_entries.1 hmem]; rfl
  unfold entryValues
  rw [if_neg]
  rintro ⟨-, he⟩
  rcases hname with rfl | rfl
  · exact (h k hk).1 he
  · exact (h k hk).2 he

/-- The path alone gives its field a value. -/
theorem Alone.entries {R : List QString} (hR : FIELDNAME_ABSPATHNAME ∈ R) (h : Alone E R p metas) :
    metas.toList.flatMap (entryValues E FIELDNAME_ABSPATHNAME) = [p] := by
  have hown : metaName E FIELDNAME_ABSPATHNAME = FIELDNAME_ABSPATHNAME := metaName_own (by simp [ownNames])
  have hmem : (FIELDNAME_ABSPATHNAME, [p]) ∈ metas.toList := mem_entries.2 h.path
  rw [flatMap_eq_of_only entries_nodup hmem, entryValues_eq hown (by simp [reserved])]
  rintro ⟨k, sl⟩ hk hne
  unfold entryValues
  rw [if_neg]
  rintro ⟨-, he⟩
  have hsl : metas[k]? = some sl := mem_entries.1 hk
  have hkp : k = FIELDNAME_ABSPATHNAME := by
    refine h.only k ?_ (by rw [he]; exact hR)
    rw [← Std.ExtTreeMap.isSome_getElem?_iff_mem, hsl]; rfl
  subst hkp
  refine hne ?_
  rw [Prod.mk.injEq]
  exact ⟨rfl, Option.some_inj.1 (hsl.symm.trans h.path)⟩

/-- The document of a file has its path, and no other. -/
theorem Alone.pathname {R : List QString} (hR : FIELDNAME_ABSPATHNAME ∈ R) (h : Alone E R p metas) :
    (indexDocument E s metas finfo).getValues FIELDNAME_ABSPATHNAME = [p] := by
  rw [getValues_indexDocument, h.entries hR]; rfl

theorem Alone.genuine (h : Alone E reserved p metas) :
    Genuine E p finfo (indexDocument E (normalizePath E.qt p false) metas finfo) := by
  have hfn : (indexDocument E (normalizePath E.qt p false) metas finfo).getValues ID_FN =
      [getIdFN E (normalizePath E.qt p false)] := by
    rw [getValues_indexDocument, entries_noIds h.noIds (Or.inl rfl), List.append_nil]; rfl
  have hdate : (indexDocument E (normalizePath E.qt p false) metas finfo).getValues ID_FNANDDATE =
      [getIdFNandDATE E (normalizePath E.qt p false) finfo] := by
    rw [getValues_indexDocument, entries_noIds h.noIds (Or.inr rfl), List.append_nil]; rfl
  have hpath : (indexDocument E (normalizePath E.qt p false) metas finfo).getValues FIELDNAME_ABSPATHNAME = [p] :=
    h.pathname (by simp [reserved])
  refine ⟨hfn, hdate, hpath, ?_, ?_, ?_⟩
  · rw [get_eq_head?, hpath]; rfl
  · rw [load_pair_length (by decide), hpath, hdate]; rfl
  · intro other hne l
    exact count_delDoc ((indexDocument_of h.noIds).not_fn hne)

/-- **One entry too many shows in the values of its field.** -/
theorem Foreign.not_genuine (h : Foreign E metas) (hown : ∃ own, metas[FIELDNAME_ABSPATHNAME]? = some own ∧ own ≠ []) :
    ¬Genuine E p finfo (indexDocument E (normalizePath E.qt p false) metas finfo) := by
  intro hg
  obtain ⟨k, sl, hk, hres, hsl, hlen⟩ := h
  have hmem : (k, sl) ∈ metas.toList := mem_entries.2 hk
  have hpos : 0 < sl.length := List.length_pos_iff.2 hsl
  have hle : sl.length ≤ (metas.toList.flatMap (entryValues E (metaName E k))).length := by
    have := length_le_flatMap (g := entryValues E (metaName E k)) hmem
    rwa [entryValues_eq rfl hres] at this
  rcases (by simpa [reserved] using hres : metaName E k = ID_FN ∨ metaName E k = ID_FNANDDATE ∨
      metaName E k = FIELDNAME_ABSPATHNAME) with he | he | he
  · have hone := congrArg List.length hg.fn
    rw [he] at hle
    rw [getValues_indexDocument, List.length_append] at hone
    have hid : (Document.getValues [⟨ID_FN, getIdFN E (normalizePath E.qt p false), false⟩, ⟨ID_FNANDDATE,
      getIdFNandDATE E (normalizePath E.qt p false) finfo, false⟩] ID_FN).length = 1 := rfl
    simp only [List.length_singleton] at hone
    omega
  · have hone := congrArg List.length hg.fnAndDate
    rw [he] at hle
    rw [getValues_indexDocument, List.length_append] at hone
    have hid : (Document.getValues [⟨ID_FN, getIdFN E (normalizePath E.qt p false), false⟩, ⟨ID_FNANDDATE,
      getIdFNandDATE E (normalizePath E.qt p false) finfo, false⟩] ID_FNANDDATE).length = 1 := rfl
    simp only [List.length_singleton] at hone
    omega
  · have hone := congrArg List.length hg.pathname
    rw [getValues_indexDocument, List.length_append, List.length_singleton] at hone
    have htwo : 2 ≤ (metas.toList.flatMap (entryValues E FIELDNAME_ABSPATHNAME)).length := by
      by_cases hkp : k = FIELDNAME_ABSPATHNAME
      · rw [he] at hle
        exact le_trans (hlen hkp) hle
      · -- the program's own entry comes on top
        obtain ⟨own, ho, hne⟩ := hown
        have hownName : metaName E FIELDNAME_ABSPATHNAME = FIELDNAME_ABSPATHNAME := metaName_own (by simp [ownNames])
        refine two_le_length_flatMap hmem (mem_entries.2 ho) (fun hpair => hkp (Prod.mk.inj hpair).1) ?_ ?_
        · rw [entryValues_eq he (by simp [reserved])]; exact hsl
        · rw [entryValues_eq hownName (by simp [reserved])]; exact hne
    omega

/-- **A file's document is genuine exactly if Tika delivers no name, with a value, that ends
up as one of the three fields.** -/
theorem genuine_iff (E : Env) (fs : FileSystem) (sAbsPathName : QString) (finfo : QFileInfo) :
    Genuine E sAbsPathName finfo (fileDocument E fs sAbsPathName finfo) ↔ ¬Forges E fs sAbsPathName finfo := by
  constructor
  · intro hg hf
    obtain ⟨hforeign, hown⟩ := forged_metaContents hf
    exact hforeign.not_genuine hown hg
  · intro h
    have halone : Alone E reserved sAbsPathName (Worker.metaContents E fs sAbsPathName finfo) := by
      refine alone_metaContents (by simp [reserved]) (fun _ hn => hn) fun hbig r hr n hn hv hname => ?_
      exact h ⟨hbig, r, hr, n, hn, hv, hname⟩
    exact halone.genuine

/-- `/d/a` has a metadata entry `pathname`: `get` returns its value, the field count is 3,
and the file's own path only comes second. With the entry `id fn`, a deletion of `/d/b` by
its `id_fn` takes the document of `/d/a`. -/
theorem metadata_forges :
    let finfo : QFileInfo := ⟨true, 10, 1000, qs "/d", qs "a", []⟩
    let disk := fun name value => { sampleFs [("a", 1)] with tika := fun _ => some ⟨[], [(qs name, [value])]⟩ }
    let named := fileDocument sampleEnv (disk "pathname" (qs "/x")) (qs "/d/a") finfo
    let hit := fileDocument sampleEnv (disk "id fn" (getIdFN sampleEnv (qs "/d/b"))) (qs "/d/a") finfo
    (¬Genuine sampleEnv (qs "/d/a") finfo named ∧
      named.getValues FIELDNAME_ABSPATHNAME = [qs "/x", qs "/d/a"] ∧
      named.get FIELDNAME_ABSPATHNAME = some (qs "/x") ∧
      (named.load [FIELDNAME_ABSPATHNAME, ID_FNANDDATE]).length = 3) ∧
    sampleEnv.qHash (qs "/d/b") ≠ sampleEnv.qHash (qs "/d/a") ∧
      hit.hasTerm sampleEnv.tokens ⟨ID_FN, getIdFN sampleEnv (qs "/d/b")⟩ = true := by
  refine ⟨⟨fun h => absurd h.get (by decide +kernel), ?_⟩, ?_⟩
  · decide +kernel
  · decide +kernel

end QDesktopSearch
