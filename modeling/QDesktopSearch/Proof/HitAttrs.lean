import Mathlib.Data.UInt
import QDesktopSearch.Model.HitAttrs
import QDesktopSearch.Proof.Settings
import QDesktopSearch.Proof.Values

/-!
# What a hit shows of its file

* `GetHitAttrs_get`: the text of an attribute, from the fields of that name.
* `toInt_number`: a number is read back if a signed 32-bit integer holds it, else it is 0.
* `attrs_survive_iff`: which sizes and times come back as they were written.
-/

namespace QDesktopSearch

variable {E : Env} {L : Locale} {fs : FileSystem} {finfo : QFileInfo} {p : QString} {m_hits : List Document} {iHitNr n : ℕ}

/-! ## Attributes and fields -/

/-- One more text under a name. -/
def joinText (sAttr : Option QString) (text : QString) : Option QString :=
  some (sAttr.elim text fun s => s ++ qs ", " ++ text)

theorem addAttr_get (mAttrs : QMap QString) (field : Field) (name : QString) : (addAttr L mAttrs field)[name]? =
    if field.name = name then joinText mAttrs[name]? (fieldText L field) else mAttrs[name]? := by
  unfold addAttr joinText
  by_cases hn : field.name = name
  · subst hn
    cases mAttrs[field.name]? <;> simp
  · split <;> simp [Std.ExtTreeMap.getElem?_insert, Std.LawfulEqCmp.compare_eq_iff_eq, hn]

theorem foldl_addAttr_get (d : Document) (name : QString) (mAttrs : QMap QString) :
    (d.foldl (addAttr L) mAttrs)[name]? =
      ((d.filter fun f => f.name == name).map (fieldText L)).foldl joinText mAttrs[name]? := by
  induction d generalizing mAttrs with
  | nil => rfl
  | cons f d ih =>
    rw [List.foldl_cons, ih, addAttr_get, List.filter_cons]
    by_cases hn : f.name = name <;> simp [hn]

/-- **The text of an attribute**: those of the fields of that name, joined in order. -/
theorem GetHitAttrs_get {d : Document} (hd : m_hits[iHitNr]? = some d) (name : QString) :
    (GetHitAttrs L m_hits iHitNr)[name]? =
      ((d.filter fun f => f.name == name).map (fieldText L)).foldl joinText none := by
  rw [GetHitAttrs, hd]
  dsimp only
  rw [foldl_addAttr_get, Std.ExtTreeMap.getElem?_empty]

/-- A field with one value. -/
theorem GetHitAttrs_single {d : Document} {name value : QString} (hd : m_hits[iHitNr]? = some d)
    (hv : d.getValues name = [value]) :
    ∃ field : Field, field.name = name ∧ field.value = value ∧
      (GetHitAttrs L m_hits iHitNr)[name]? = some (fieldText L field) := by
  obtain ⟨field, hfield, rfl⟩ := List.map_eq_singleton_iff.1 hv
  have hname : field.name = name := by
    have hmem : field ∈ d.filter fun f => f.name == name := hfield ▸ List.mem_cons_self
    simpa using (List.mem_filter.1 hmem).2
  refine ⟨field, hname, rfl, ?_⟩
  rw [GetHitAttrs_get hd, hfield]
  rfl

/-! ## Numbers -/

theorem digitsValue_number (n : ℕ) : digitsValue (number n) = n := by
  have hdigit : ∀ (v : ℕ), ∀ c ∈ Nat.toDigits 10 n,
      10 * v + ((QChar.ofChar c).toNat - 48) = 10 * v + (c.toNat - '0'.toNat) := by
    intro v c hc
    have hb := digit_bounds hc
    have hlt : c.toNat < 2 ^ 16 := by omega
    rw [QChar.ofChar, UInt16.toNat_ofNat', Nat.mod_eq_of_lt hlt]
    rfl
  rw [digitsValue, number, List.foldl_map, List.foldl_ext _ _ _ hdigit, ← Nat.ofDigitChars_eq_foldl,
    Nat.ofDigitChars_ten_toDigits]

theorem splitSign_number (n : ℕ) : splitSign (number n) = (false, number n) := by
  cases hs : number n with
  | nil => exact absurd hs (number_ne_nil n)
  | cons c s =>
    have hb : 48 ≤ c.toNat ∧ c.toNat ≤ 57 := digit_plain (n := n) (hs ▸ List.mem_cons_self)
    have hminus : c ≠ QChar.ofChar '-' := by rintro rfl; exact absurd hb (by decide)
    have hplus : c ≠ QChar.ofChar '+' := by rintro rfl; exact absurd hb (by decide)
    rw [splitSign, if_neg hminus, if_neg hplus]

/-- **A number is read back if a signed 32-bit integer holds it, else it is 0.** -/
theorem toInt_number (n : ℕ) : toInt (number n) = if n < 2 ^ 31 then (n : ℤ) else 0 := by
  have hempty : (number n).isEmpty = false := by simp [number_ne_nil]
  have hany : ((number n).any fun c => c < 48 || 57 < c) = false := by
    rw [List.any_eq_false]
    intro c hc
    have hb := digit_plain hc
    simp only [Bool.or_eq_true, decide_eq_true_eq, UInt16.lt_iff_toNat_lt, UInt16.reduceToNat]
    omega
  unfold toInt
  rw [trimmed_number, splitSign_number]
  simp only [hempty, hany, Bool.or_false, Bool.false_eq_true, if_false, digitsValue_number]
  by_cases hn : n < 2 ^ 31
  · rw [if_pos hn, if_pos (by omega)]
  · rw [if_neg hn, if_neg (by omega)]

/-- A number goes through `GetHitAttrs` unchanged, up to `toInt`. -/
theorem cleaned_number (n : ℕ) :
    replaceAll (qs "  ") (qs " ") (replaceChar (QChar.ofChar '\t') (QChar.ofChar ' ')
      (replaceChar (QChar.ofChar '\n') (QChar.ofChar ' ') (number n))) = number n := by
  have hspace : ¬qs "  " <:+: number n := by
    intro h
    have hmem : QChar.ofChar ' ' ∈ number n := h.subset (by decide)
    exact not_mem_number (by decide) hmem
  rw [replaceChar_number (by decide), replaceChar_number (by decide), replaceAll_of_not_infix hspace]

theorem ofInt_toNat (t : UInt32) : UInt32.ofInt t.toNat = t := by
  have hlt := t.toNat_lt
  have hmod : ((t.toNat : ℤ) % 2 ^ 32).toNat = t.toNat := by omega
  rw [UInt32.ofInt, hmod, UInt32.ofNat_toNat]

theorem numberInt_natCast (n : ℕ) : numberInt n = number n := by
  rw [numberInt, if_neg (by omega), Int.natAbs_natCast]

/-- Two texts for a size differ if the numbers do: the digits stand between the last
bracket and the unit. -/
theorem sizeText_injective {a b : ℕ} (h : sizeText L a = sizeText L b) : a = b := by
  rw [sizeText, sizeText, numberInt_natCast, numberInt_natCast] at h
  have hcut := List.append_cancel_right h
  have hbracket : qs " (" = [QChar.ofChar ' ', QChar.ofChar '('] := rfl
  have hrev := congrArg List.reverse hcut
  simp only [hbracket, List.reverse_append, List.reverse_cons, List.reverse_nil, List.nil_append,
    List.singleton_append] at hrev
  have hnot : ∀ k, QChar.ofChar '(' ∉ (number k).reverse := by
    intro k hmem
    exact not_mem_number (by decide) (List.mem_reverse.1 hmem)
  have hnum := (append_cons_injective (hnot a) (hnot b) (by simpa using hrev)).1
  exact number_injective (List.reverse_injective hnum)

/-! ## Size and time -/

/-- Tika delivers no value for the two fields. -/
def SingleValued (E : Env) (fs : FileSystem) (sAbsPathName : QString) (finfo : QFileInfo) : Prop :=
  ∀ r, extraction E fs sAbsPathName finfo = some r →
    r.valuesOf E (qs "size") = [] ∧ r.valuesOf E (qs "lastmodified") = []

theorem SingleValued.getValues (h : SingleValued E fs p finfo) :
    (fileDocument E fs p finfo).getValues (qs "size") = [number finfo.size] ∧
      (fileDocument E fs p finfo).getValues (qs "lastmodified") = [number finfo.lastModified.toTime_t.toNat] := by
  have hbody : ∀ (r : TikaResult) (name : QString), name ≠ FIELDNAME_FULLTEXT → valuesAt name r.body = [] := by
    intro r name hne
    unfold TikaResult.body valuesAt
    split
    · rfl
    · simp [Ne.symm hne]
  have hnone : ∀ name, name ≠ FIELDNAME_FULLTEXT → (∀ r, extraction E fs p finfo = some r → r.valuesOf E name = []) →
      fieldValues E name ((extraction E fs p finfo).elim [] (extractedPairs E)) = [] := by
    intro name hne hvalues
    cases hr : extraction E fs p finfo with
    | none => rfl
    | some r => rw [Option.elim_some, fieldValues_extractedPairs, hbody r name hne, hvalues r hr, List.nil_append]
  have hsize := getValues_fileDocument E fs p finfo (qs "size")
  have hdate := getValues_fileDocument E fs p finfo (qs "lastmodified")
  rw [hnone _ (by decide) fun r hr => (h r hr).1] at hsize
  rw [hnone _ (by decide) fun r hr => (h r hr).2] at hdate
  exact ⟨List.perm_singleton.1 hsize, List.perm_singleton.1 hdate⟩

/-- **Which sizes and times come back**: exactly those below 2³¹. The size is read off the
text that is shown; the second is the one from which any locale makes the date. -/
theorem attrs_survive_iff (E : Env) (fs : FileSystem) (sAbsPathName : QString) (finfo : QFileInfo)
    (m_hits : List Document) (iHitNr : ℕ) (hhit : m_hits[iHitNr]? = some (fileDocument E fs sAbsPathName finfo))
    (hsingle : SingleValued E fs sAbsPathName finfo) :
    (∀ L : Locale, (GetHitAttrs L m_hits iHitNr)[qs "size"]? = some (sizeText L finfo.size) ↔ finfo.size < 2 ^ 31) ∧
    ((∀ L : Locale, (GetHitAttrs L m_hits iHitNr)[qs "lastmodified"]? =
      some (L.dateString finfo.lastModified.toTime_t)) ↔ finfo.lastModified.toTime_t < 2 ^ 31) := by
  obtain ⟨hsize, hdate⟩ := hsingle.getValues
  constructor
  · intro L
    obtain ⟨field, hname, hvalue, hget⟩ := GetHitAttrs_single (L := L) hhit hsize
    have htext : fieldText L field = sizeText L (toInt (number finfo.size)) := by
      unfold fieldText
      dsimp only
      rw [hname, hvalue, cleaned_number, if_neg (by decide), if_pos rfl]
    rw [hget, htext, toInt_number, Option.some_inj]
    split
    · rename_i hn
      exact iff_of_true rfl hn
    · rename_i hn
      refine iff_of_false ?_ hn
      intro h
      have hzero : 0 = finfo.size := sizeText_injective (by exact_mod_cast h)
      omega
  · have htext : ∀ L : Locale, (GetHitAttrs L m_hits iHitNr)[qs "lastmodified"]? =
        some (L.dateString (UInt32.ofInt (toInt (number finfo.lastModified.toTime_t.toNat)))) := by
      intro L
      obtain ⟨field, hname, hvalue, hget⟩ := GetHitAttrs_single (L := L) hhit hdate
      unfold fieldText at hget
      dsimp only at hget
      rw [hname, hvalue, cleaned_number, if_pos rfl] at hget
      exact hget
    have hlt : finfo.lastModified.toTime_t < 2 ^ 31 ↔ finfo.lastModified.toTime_t.toNat < 2 ^ 31 := by
      rw [UInt32.lt_iff_toNat_lt]
      rfl
    simp only [htext, toInt_number, Option.some_inj]
    rw [hlt]
    constructor
    · intro h
      by_contra hn
      rw [if_neg hn] at h
      -- a locale that tells second 0 from the others
      have hzero := h ⟨fun t => if t = 0 then [] else qs "-", fun _ _ => [], id⟩
      simp only at hzero
      split at hzero
      · rename_i ht
        split at hzero
        · rename_i h0
          rw [h0] at hn
          exact hn (by decide)
        · exact absurd hzero (by decide)
      · rename_i ht
        exact ht rfl
    · intro hn L
      rw [if_pos hn]
      exact congrArg L.dateString (ofInt_toNat _)

/-- Times and sizes in plain digits. -/
def sampleLocale : Locale := ⟨fun t => number t.toNat, fun size _ => numberInt size, id⟩

/-- The document of `/d/a`, from which nothing is extracted. -/
def sampleHit (size : ℕ) (lastModified : QDateTime) : Document :=
  fileDocument sampleEnv (sampleFs [("a", 1)]) (qs "/d/a") ⟨true, size, lastModified, qs "/d", qs "a", []⟩

/-- Ten bytes, written a second after the epoch. -/
theorem small_survives :
    (∀ L : Locale, (GetHitAttrs L [sampleHit 10 1000] 0)[qs "size"]? = some (sizeText L 10) ↔ 10 < 2 ^ 31) ∧
    ((∀ L : Locale, (GetHitAttrs L [sampleHit 10 1000] 0)[qs "lastmodified"]? =
      some (L.dateString (QDateTime.toTime_t 1000))) ↔ QDateTime.toTime_t 1000 < 2 ^ 31) :=
  attrs_survive_iff sampleEnv (sampleFs [("a", 1)]) (qs "/d/a") ⟨true, 10, 1000, qs "/d", qs "a", []⟩ [sampleHit 10 1000] 0
    rfl (fun _ hr => absurd hr (by simp [extraction, sampleFs]))

/-- 3000000000 bytes, written in 2038: 0 bytes are shown, and a date made from second 0. -/
theorem large_lost :
    let attrs := GetHitAttrs sampleLocale [sampleHit 3000000000 2147483648000] 0
    attrs[qs "size"]? = some (qs "0 bytes (0 bytes)") ∧
      attrs[qs "size"]? ≠ some (sizeText sampleLocale 3000000000) ∧
      attrs[qs "lastmodified"]? = some (qs "0") ∧
      attrs[qs "lastmodified"]? ≠ some (sampleLocale.dateString (QDateTime.toTime_t 2147483648000)) := by
  decide +kernel

end QDesktopSearch
