import QDesktopSearch.Model.Worker

/-!
# Identities of files

* `number_injective`, `fnAndDate_injective`: the ids are injective in the hash and in the
  pair of hash and seconds.
* `indexDocument_of`: unless a metadata name maps to an id field, the document that
  `index` builds has the ids of its file and no other.
* `metaContents_noIds`: the metadata of `file` leaves the id fields alone if Tika's names do.
-/

namespace QDesktopSearch

variable {E : Env}

/-! ## Decimal numbers -/

theorem digit_bounds {n : ℕ} {c : Char} (hc : c ∈ Nat.toDigits 10 n) : 48 ≤ c.toNat ∧ c.toNat ≤ 57 := by
  have hd := Nat.isDigit_of_mem_toDigits (by omega) (by omega) hc
  simp only [Char.isDigit, Bool.and_eq_true, decide_eq_true_eq, ge_iff_le, UInt32.le_iff_toNat_le] at hd
  exact hd

theorem number_injective {n m : ℕ} (h : number n = number m) : n = m := by
  have hback : ∀ k, ((number k).map fun c => Char.ofNat c.toNat) = Nat.toDigits 10 k := by
    intro k
    rw [number, List.map_map]
    conv_rhs => rw [← List.map_id (Nat.toDigits 10 k)]
    apply List.map_congr_left
    intro c hc
    have hlt : c.toNat < 2 ^ 16 := by have := (digit_bounds hc).2; omega
    simp only [Function.comp_apply, QChar.ofChar, UInt16.toNat_ofNat', id_eq]
    rw [Nat.mod_eq_of_lt hlt, Char.ofNat_toNat]
  have hd : Nat.toDigits 10 n = Nat.toDigits 10 m := by rw [← hback, ← hback, h]
  rw [← Nat.ofDigitChars_ten_toDigits (n := n), hd, Nat.ofDigitChars_ten_toDigits]

/-- The separator of `id_fnanddate` is not a digit. -/
theorem separator_not_mem_number (n : ℕ) : QChar.ofChar '_' ∉ number n := by
  intro h
  obtain ⟨c, hc, he⟩ := List.mem_map.1 h
  obtain ⟨-, hle⟩ := digit_bounds hc
  have hv : c.toNat % 2 ^ 16 = 95 := by
    have := congrArg UInt16.toNat he
    simpa [QChar.ofChar] using this
  omega

theorem number_ne_nil (n : ℕ) : number n ≠ [] := by
  simp [number, Nat.toDigits_ne_nil]

/-- What stands before and after the first `x` is determined. -/
theorem append_cons_injective {α : Type*} [DecidableEq α] {x : α} {l l' r r' : List α} (hl : x ∉ l) (hl' : x ∉ l')
    (h : l ++ x :: r = l' ++ x :: r') : l = l' ∧ r = r' := by
  have htake : ∀ k s : List α, x ∉ k → (k ++ x :: s).takeWhile (· ≠ x) = k := by
    intro k s hk
    rw [List.takeWhile_append_of_pos, List.takeWhile_cons_of_neg (by simp), List.append_nil]
    intro a ha
    have : a ≠ x := fun he => hk (he ▸ ha)
    simpa using this
  have h1 : l = l' := by rw [← htake l r hl, h, htake l' r' hl']
  subst h1
  exact ⟨rfl, by simpa using h⟩

/-- **`id_fnanddate` determines the hash and the seconds.** -/
theorem fnAndDate_injective {a b c d : ℕ} (h : number a ++ qs "_" ++ number b = number c ++ qs "_" ++ number d) :
    a = c ∧ b = d := by
  have hqs : qs "_" = [QChar.ofChar '_'] := rfl
  rw [hqs, List.append_assoc, List.append_assoc, List.singleton_append, List.singleton_append] at h
  obtain ⟨h1, h2⟩ := append_cons_injective (separator_not_mem_number a) (separator_not_mem_number c) h
  exact ⟨number_injective h1, number_injective h2⟩

theorem getIdFN_eq_iff {s s' : QString} : getIdFN E s = getIdFN E s' ↔ E.qHash s = E.qHash s' := by
  constructor
  · intro h; exact UInt32.toNat_inj.1 (number_injective h)
  · intro h; rw [getIdFN, getIdFN, h]

theorem getIdFNandDATE_eq_iff {s s' : QString} {f f' : QFileInfo} :
    getIdFNandDATE E s f = getIdFNandDATE E s' f' ↔
      E.qHash (normalizePath E.qt s false) = E.qHash (normalizePath E.qt s' false) ∧
        f.lastModified.toTime_t = f'.lastModified.toTime_t := by
  constructor
  · intro h
    obtain ⟨h1, h2⟩ := fnAndDate_injective h
    exact ⟨UInt32.toNat_inj.1 h1, UInt32.toNat_inj.1 h2⟩
  · rintro ⟨h1, h2⟩; rw [getIdFNandDATE, getIdFNandDATE, h1, h2]

/-! ## Metadata names -/

theorem ascii_of_all {s : QString} (h : s.all (fun c => c < 128) = true) : ∀ c ∈ s, c < 128 := by
  simpa using h

/-- `metaName` of an ASCII name needs none of Qt's tables. -/
theorem metaName_ascii {s : QString} (h : ∀ c ∈ s, c < 128) : metaName E s =
    (replaceAll (qs "dc:") [] (trimmed (s.map QChar.asciiLower))).map fun c =>
      if (97 ≤ c && c ≤ 122) || (48 ≤ c && c ≤ 57) || c == 45 then c else 95 := by
  rw [metaName, E.qt.toLower_ascii s h]

/-- No name of the map is written to an id field. -/
def NoIds (E : Env) (metas : QMap QStringList) : Prop :=
  ∀ name ∈ metas, metaName E name ≠ ID_FN ∧ metaName E name ≠ ID_FNANDDATE

/-- Every name of the map has the property. -/
def AllNames (P : QString → Prop) (metas : QMap QStringList) : Prop := ∀ name ∈ metas, P name

section AllNames

variable {P : QString → Prop} {metas : QMap QStringList}

theorem AllNames.empty : AllNames P ∅ := fun _ hk => absurd hk Std.ExtTreeMap.not_mem_empty

theorem AllNames.insert (h : AllNames P metas) {name : QString} {sl : QStringList} (hn : P name) :
    AllNames P (metas.insert name sl) := by
  intro k hk
  rcases Std.ExtTreeMap.mem_insert.1 hk with he | hm
  · rw [← Std.LawfulEqCmp.eq_of_compare he]; exact hn
  · exact h k hm

theorem AllNames.addMetaContents (h : AllNames P metas) {name value : QString} (hn : P name) :
    AllNames P (addMetaContents metas name value) := by
  unfold QDesktopSearch.addMetaContents
  split <;> exact h.insert hn

theorem AllNames.extractMetaContents {Q : Qt} (h : AllNames P metas) {name : QString} {values : List QString}
    (hn : values ≠ [] → P (trimmed (Q.toLower name))) : AllNames P (extractMetaContents Q metas name values) := by
  unfold QDesktopSearch.extractMetaContents
  split
  · exact h
  · rename_i hv
    dsimp only
    split <;> exact h.insert (hn hv)

/-- **`getMetaContents` adds the body text and the names that Tika delivers with a value.** -/
theorem AllNames.getMetaContents {Q : Qt} (h : AllNames P metas) {fs : FileSystem} {p : QString}
    (htext : P FIELDNAME_FULLTEXT)
    (hn : ∀ r, fs.tika (normalizePath Q p false) = some r → ∀ n ∈ r.names, n.2 ≠ [] → P (trimmed (Q.toLower n.1))) :
    AllNames P (getMetaContents Q fs p metas) := by
  unfold QDesktopSearch.getMetaContents
  cases hr : fs.tika (normalizePath Q p false) with
  | none => exact h
  | some r =>
    dsimp only
    have h0 : AllNames P (if isempty r.text true then metas else metas.insert FIELDNAME_FULLTEXT [r.text]) := by
      split
      · exact h
      · exact h.insert htext
    have hnames := hn r hr
    revert h0
    generalize (if isempty r.text true then metas else metas.insert FIELDNAME_FULLTEXT [r.text]) = metas₀
    generalize r.names = names at hnames ⊢
    induction names generalizing metas₀ with
    | nil => intro h0; exact h0
    | cons n names ih =>
      intro h0
      rw [List.foldl_cons]
      exact ih _ (fun k hk => hnames k (List.mem_cons_of_mem _ hk))
        (h0.extractMetaContents (hnames n List.mem_cons_self))

/-- The names that the program adds itself. -/
def ownNames : List QString :=
  [FIELDNAME_FULLTEXT, FIELDNAME_ABSPATHNAME, qs "dir", FIELDNAME_FILENAME, qs "extension", qs "size", qs "lastmodified"]

theorem AllNames.enrichMetaContents (h : AllNames P metas) (hown : ∀ name ∈ ownNames, P name) {p : QString}
    {finfo : QFileInfo} : AllNames P (enrichMetaContents p metas finfo) := by
  unfold QDesktopSearch.enrichMetaContents
  dsimp only
  repeat (first | exact h | refine AllNames.addMetaContents ?_ (hown _ (by simp [ownNames])))

end AllNames

/-- `metaName` leaves the program's own names as they are. -/
theorem metaName_own {name : QString} (h : name ∈ ownNames) : metaName E name = name := by
  have hall : name.all (fun c => c < 128) = true := by
    revert name; decide
  rw [metaName_ascii (ascii_of_all hall)]
  clear hall
  revert name; decide

theorem own_names {name : QString} (h : name ∈ ownNames) : metaName E name ≠ ID_FN ∧ metaName E name ≠ ID_FNANDDATE := by
  rw [metaName_own h]
  revert name; decide

/-- No metadata name that Tika returns maps to an id field. -/
def FileSystem.NoIdNames (E : Env) (fs : FileSystem) : Prop :=
  ∀ p r, fs.tika p = some r → ∀ n ∈ r.names,
    metaName E (trimmed (E.qt.toLower n.1)) ≠ ID_FN ∧ metaName E (trimmed (E.qt.toLower n.1)) ≠ ID_FNANDDATE

/-- **The metadata of `file`** leaves the id fields alone. -/
theorem metaContents_noIds {fs : FileSystem} (hfs : fs.NoIdNames E) {p : QString} {finfo : QFileInfo} :
    NoIds E (Worker.metaContents E fs p finfo) := by
  unfold Worker.metaContents
  dsimp only
  split
  · exact AllNames.empty.enrichMetaContents fun _ => own_names
  · refine (AllNames.empty.getMetaContents (own_names (by simp [ownNames])) ?_).enrichMetaContents fun _ => own_names
    intro r hr n hn _
    exact hfs _ r hr n hn

/-! ## The document of a file -/

/-- The document carries the ids of the file, `sAbsPathName` being the path that is hashed,
and no other id. -/
structure DocumentOf (E : Env) (sAbsPathName : QString) (finfo : QFileInfo) (doc : Document) : Prop where
  fn : ∀ v, doc.hasTerm E.tokens ⟨ID_FN, v⟩ = true ↔ v = getIdFN E sAbsPathName
  fnAndDate : ∀ v, doc.hasTerm E.tokens ⟨ID_FNANDDATE, v⟩ = true ↔ v = getIdFNandDATE E sAbsPathName finfo

/-- A field that metadata adds is not an id field. -/
theorem metaFields_name {metas : QMap QStringList} (h : NoIds E metas) {f : Field}
    (hf : f ∈ metas.toList.flatMap (metaFields E)) : f.name ≠ ID_FN ∧ f.name ≠ ID_FNANDDATE := by
  obtain ⟨⟨name, sl⟩, hentry, hf⟩ := List.mem_flatMap.1 hf
  have hmem : name ∈ metas := by
    have := Std.ExtTreeMap.mem_toList_iff_getElem?_eq_some.1 hentry
    rw [← Std.ExtTreeMap.isSome_getElem?_iff_mem, this]; rfl
  unfold metaFields at hf
  split at hf
  · simp at hf
  · obtain ⟨value, -, rfl⟩ := List.mem_map.1 hf
    exact h name hmem

/-- **The document that `index` builds** has the ids of its file and no other. -/
theorem indexDocument_of {s : QString} {metas : QMap QStringList} {finfo : QFileInfo} (h : NoIds E metas) :
    DocumentOf E s finfo (indexDocument E s metas finfo) := by
  have hother : ∀ name : QString, name = ID_FN ∨ name = ID_FNANDDATE → ∀ v,
      Document.hasTerm E.tokens ⟨name, v⟩ (metas.toList.flatMap (metaFields E)) = false := by
    intro name hname v
    simp only [Document.hasTerm, List.any_eq_false, Bool.and_eq_true, beq_iff_eq, not_and]
    intro f hf he
    have hne := metaFields_name h hf
    rcases hname with rfl | rfl
    · exact absurd he hne.1
    · exact absurd he hne.2
  have hsplit : ∀ t, (indexDocument E s metas finfo).hasTerm E.tokens t =
      (Document.hasTerm E.tokens t [⟨ID_FN, getIdFN E s, false⟩, ⟨ID_FNANDDATE, getIdFNandDATE E s finfo, false⟩] ||
        Document.hasTerm E.tokens t (metas.toList.flatMap (metaFields E))) := by
    intro t; simp only [indexDocument, Document.hasTerm, List.any_append]
  constructor
  · intro v
    rw [hsplit, hother ID_FN (Or.inl rfl)]
    have hne : (ID_FNANDDATE == ID_FN) = false := by decide
    simp [Document.hasTerm, hne]
  · intro v
    rw [hsplit, hother ID_FNANDDATE (Or.inr rfl)]
    have hne : (ID_FN == ID_FNANDDATE) = false := by decide
    simp [Document.hasTerm, hne]

end QDesktopSearch
