import QDesktopSearch.Lib.Ends
import QDesktopSearch.Model.Lucy

/-!
# CleanPath paths

`normalizePath` trims once and strips the trailing slashes after that, so what it returns may end in
white space that stood before a slash.

* `normalizePath_eq_self_iff`: the paths that it leaves as they are.
* `normalizePath_lower`: lower-casing may as well come last.
* `cleanPath_normalizePath_iff`: when the result is clean (`CleanPath`).
* `normalizePath_twice_iff`: when a second application changes nothing.
-/

namespace QDesktopSearch

open Ends

variable {Q : Qt} {p s : QString} {b : Bool} {c : QChar}

/-- What `normalizePath` is to return: no backslash, no slash at the end, no white space at either
end. -/
structure CleanPath (s : QString) : Prop where
  noBackslash : QChar.ofChar '\\' ∉ s
  noSlash : s.getLast? ≠ some (QChar.ofChar '/')
  head : ∀ c, s.head? = some c → c.isSpace = false
  last : ∀ c, s.getLast? = some c → c.isSpace = false

/-- A slash of either kind. -/
def QChar.isSlash (c : QChar) : Bool := c == QChar.ofChar '/' || c == QChar.ofChar '\\'

/-- Once trimmed, the path has white space before its trailing slashes. -/
def SpaceBeforeSlashes (p : QString) : Prop :=
  ∃ q c u, trimmed p = q ++ c :: u ∧ c.isSpace = true ∧ ∀ x ∈ u, x.isSlash = true

/-! ## Fixed points -/

theorem trimmed_eq_self_iff : trimmed s = s ↔
    (∀ c, s.head? = some c → c.isSpace = false) ∧ ∀ c, s.getLast? = some c → c.isSpace = false := by
  rw [← Ends.dropWhile_eq_self_iff, ← Ends.rdropWhile_eq_self_iff]
  constructor
  · intro h
    have hdrop : s.dropWhile QChar.isSpace = s := by
      refine (List.dropWhile_suffix _).eq_of_length_le ?_
      have hle := (List.rdropWhile_prefix QChar.isSpace (s.dropWhile QChar.isSpace)).length_le
      rwa [← trimmed, h] at hle
    rw [trimmed, hdrop] at h
    exact ⟨hdrop, h⟩
  · rintro ⟨hdrop, hrdrop⟩
    rw [trimmed, hdrop, hrdrop]

theorem replaceChar_eq_self_iff {before : QChar} (after : QChar) (hne : after ≠ before) :
    replaceChar before after s = s ↔ before ∉ s := by
  unfold replaceChar
  constructor
  · intro h hmem
    rw [← h] at hmem
    obtain ⟨c, -, hc⟩ := List.mem_map.1 hmem
    split at hc
    · exact hne hc
    · rename_i hother
      exact hother hc
  · intro h
    have hid : ∀ c ∈ s, (if c = before then after else c) = c := by
      intro c hc
      rw [if_neg]
      rintro rfl
      exact h hc
    rw [List.map_congr_left hid, List.map_id']

/-- **A clean path** is left as it is. -/
theorem CleanPath.normalizePath_eq (h : CleanPath s) : normalizePath Q s false = s := by
  have hreplace := (replaceChar_eq_self_iff (QChar.ofChar '/') (by decide)).2 h.noBackslash
  have hstrip : s.rdropWhile (· == QChar.ofChar '/') = s := by
    rw [Ends.rdropWhile_eq_self_iff]
    intro c hc
    rw [beq_eq_false_iff_ne]
    rintro rfl
    exact h.noSlash hc
  unfold normalizePath
  dsimp only
  rw [hreplace, trimmed_eq_self_iff.2 ⟨h.head, h.last⟩]
  exact hstrip

/-! ## What is left of a path -/

theorem isSpace_replace : (if c = QChar.ofChar '\\' then QChar.ofChar '/' else c).isSpace = c.isSpace := by
  split
  · rename_i h
    rw [h]
    decide
  · rfl

theorem trimmed_replaceChar : trimmed (replaceChar (QChar.ofChar '\\') (QChar.ofChar '/') p) =
    replaceChar (QChar.ofChar '\\') (QChar.ofChar '/') (trimmed p) := by
  have hspace : (QChar.isSpace ∘ fun c => if c = QChar.ofChar '\\' then QChar.ofChar '/' else c) = QChar.isSpace :=
    funext fun _ => isSpace_replace
  unfold trimmed replaceChar
  rw [List.dropWhile_map, Ends.rdropWhile_map, hspace]

/-- The trimmed path without its trailing slashes, with slashes for backslashes. -/
theorem normalizePath_eq : normalizePath Q p false =
    replaceChar (QChar.ofChar '\\') (QChar.ofChar '/') ((trimmed p).rdropWhile QChar.isSlash) := by
  have hslash : ((· == QChar.ofChar '/') ∘ fun c => if c = QChar.ofChar '\\' then QChar.ofChar '/' else c) =
      QChar.isSlash := by
    funext c
    unfold QChar.isSlash
    dsimp only [Function.comp_apply]
    split
    · rename_i h
      rw [h]
      decide
    · rename_i h
      rw [beq_eq_false_iff_ne.2 h, Bool.or_false]
  unfold normalizePath
  dsimp only
  rw [trimmed_replaceChar]
  unfold replaceChar
  rw [if_neg Bool.false_ne_true, Ends.rdropWhile_map, hslash]

theorem not_mem_normalizePath : QChar.ofChar '\\' ∉ normalizePath Q p false := by
  intro hmem
  have h₁ := (List.rdropWhile_prefix _ _).subset hmem
  have h₂ := (List.rdropWhile_prefix _ _).subset h₁
  have h₃ := (List.dropWhile_suffix _).subset h₂
  obtain ⟨c, -, hc⟩ := List.mem_map.1 h₃
  split at hc
  · revert hc
    decide
  · rename_i hne
    exact hne hc

theorem getLast?_normalizePath : (normalizePath Q p b).getLast? ≠ some (QChar.ofChar '/') := by
  intro hslash
  have hnot := getLast?_rdropWhile hslash
  revert hnot
  decide

/-- The result starts with no white space. -/
theorem head_normalizePath (h : (normalizePath Q p false).head? = some c) : c.isSpace = false := by
  obtain ⟨t, ht⟩ : normalizePath Q p false <+:
      (replaceChar (QChar.ofChar '\\') (QChar.ofChar '/') p).dropWhile QChar.isSpace :=
    (List.rdropWhile_prefix _ _).trans (List.rdropWhile_prefix _ _)
  have hhead := List.head?_dropWhile_not QChar.isSpace (replaceChar (QChar.ofChar '\\') (QChar.ofChar '/') p)
  rw [← ht, List.head?_append, h] at hhead
  exact hhead

/-- The result ends in white space exactly if some stood before the trailing slashes. -/
theorem last_normalizePath_iff :
    (∃ c, (normalizePath Q p false).getLast? = some c ∧ c.isSpace = true) ↔ SpaceBeforeSlashes p := by
  have hkinds : ∀ c : QChar, c.isSpace = true → c.isSlash = false := by
    intro c hc
    rw [Bool.eq_false_iff]
    intro hslash
    rw [QChar.isSlash, Bool.or_eq_true, beq_iff_eq, beq_iff_eq] at hslash
    rcases hslash with rfl | rfl
    · revert hc; decide
    · revert hc; decide
  rw [SpaceBeforeSlashes, ← last_rdropWhile_iff hkinds, normalizePath_eq]
  unfold replaceChar
  simp only [List.getLast?_map, Option.map_eq_some_iff]
  constructor
  · rintro ⟨_, ⟨c, hc, rfl⟩, hspace⟩
    exact ⟨c, hc, by rwa [isSpace_replace] at hspace⟩
  · rintro ⟨c, hc, hspace⟩
    exact ⟨_, ⟨c, hc, rfl⟩, by rwa [isSpace_replace]⟩

/-- **When the result is clean**, with the case left as it is. -/
theorem cleanPath_iff : CleanPath (normalizePath Q p false) ↔ ¬SpaceBeforeSlashes p := by
  rw [← last_normalizePath_iff (Q := Q)]
  constructor
  · rintro h ⟨c, hc, hspace⟩
    rw [h.last c hc] at hspace
    exact Bool.false_ne_true hspace
  · intro h
    refine ⟨not_mem_normalizePath, getLast?_normalizePath, fun c => head_normalizePath, fun c hc => ?_⟩
    exact Bool.eq_false_iff.2 fun hspace => h ⟨c, hc, hspace⟩

theorem normalizePath_eq_self_iff : normalizePath Q s false = s ↔ CleanPath s := by
  refine ⟨fun h => ?_, fun h => h.normalizePath_eq⟩
  -- nothing is trimmed or stripped, and so the last letter is that of a trimmed path
  have hprefix : s <+: trimmed (replaceChar (QChar.ofChar '\\') (QChar.ofChar '/') s) := by
    conv_lhs => rw [← h]
    exact List.rdropWhile_prefix _ _
  have hle : (trimmed (replaceChar (QChar.ofChar '\\') (QChar.ofChar '/') s)).length ≤ s.length := by
    have h₁ := (List.rdropWhile_prefix QChar.isSpace
      ((replaceChar (QChar.ofChar '\\') (QChar.ofChar '/') s).dropWhile QChar.isSpace)).length_le
    have h₂ := (List.dropWhile_suffix QChar.isSpace (l := replaceChar (QChar.ofChar '\\') (QChar.ofChar '/') s)).length_le
    rw [replaceChar, List.length_map] at h₂
    rw [trimmed]
    unfold replaceChar at h₁ ⊢
    omega
  have hsame := hprefix.eq_of_length_le hle
  rw [← h]
  refine ⟨not_mem_normalizePath, getLast?_normalizePath, fun c => head_normalizePath, fun c hc => ?_⟩
  rw [h, hsame] at hc
  exact getLast?_rdropWhile hc

/-! ## Lower case -/

/-- White space and slashes, which have no case. -/
def QChar.Caseless (c : QChar) : Prop := c.isSpace = true ∨ c.isSlash = true

/-- `QString::toLower` as Qt has it: it leaves white space and slashes alone, makes none of other
letters, and leaves a text in lower case as it is. -/
structure Qt.LowersLetters (Q : Qt) : Prop where
  leaves : Leaves QChar.Caseless Q.toLower
  toLower_idem : ∀ s, Q.toLower (Q.toLower s) = Q.toLower s

/-- ASCII letters have a case. -/
theorem QChar.not_caseless (h : (65 ≤ c ∧ c ≤ 90) ∨ (97 ≤ c ∧ c ≤ 122)) : ¬c.Caseless := by
  unfold QChar.Caseless QChar.isSpace QChar.isSlash QChar.ofChar
  simp only [UInt16.le_iff_toNat_le, ← UInt16.toNat_inj, Bool.or_eq_true, Bool.and_eq_true, beq_iff_eq,
    decide_eq_true_eq, not_or, not_and] at h ⊢
  simp at h ⊢
  omega

theorem QChar.asciiLower_eq (h : c.asciiLower ≠ c) : 97 ≤ c.asciiLower ∧ c.asciiLower ≤ 122 ∧ 65 ≤ c ∧ c ≤ 90 := by
  unfold QChar.asciiLower at h ⊢
  split
  · rename_i hc
    simp only [UInt16.le_iff_toNat_le, UInt16.toNat_add] at hc ⊢
    simp at hc ⊢
    omega
  · rename_i hc
    exact absurd (if_neg hc) h

theorem sampleQt_lowersLetters : sampleQt.LowersLetters where
  leaves := by
    refine ⟨fun s c t hc => ?_, fun s c hc hmem => ?_, fun s => List.map_eq_nil_iff⟩
    · have hsame : c.asciiLower = c := by
        by_contra hne
        exact QChar.not_caseless (Or.inl (QChar.asciiLower_eq hne).2.2) hc
      show List.map _ _ = _
      rw [List.map_append, List.map_cons, hsame]
      rfl
    · obtain ⟨d, hd, rfl⟩ := List.mem_map.1 hmem
      by_cases hsame : d.asciiLower = d
      · rwa [hsame]
      · have hlower := QChar.asciiLower_eq hsame
        exact absurd hc (QChar.not_caseless (Or.inr ⟨hlower.1, hlower.2.1⟩))
  toLower_idem s := by
    have hidem : ∀ c : QChar, c.asciiLower.asciiLower = c.asciiLower := by
      intro c
      by_contra hne
      have hupper := (QChar.asciiLower_eq hne).2.2
      by_cases hsame : c.asciiLower = c
      · rw [hsame] at hne
        exact hne hsame
      · have hlower := QChar.asciiLower_eq hsame
        simp only [UInt16.le_iff_toNat_le] at hupper hlower
        simp at hupper hlower
        omega
    show (s.map QChar.asciiLower).map QChar.asciiLower = s.map QChar.asciiLower
    rw [List.map_map]
    exact List.map_congr_left fun c _ => hidem c

/-- **Lower-casing may as well come last.** -/
theorem normalizePath_lower (hQ : Q.LowersLetters) : normalizePath Q p true = Q.toLower (normalizePath Q p false) := by
  have hslash : ∀ c : QChar, (c == QChar.ofChar '/') = true → c.Caseless := by
    intro c hc
    refine Or.inr ?_
    rw [QChar.isSlash, hc, Bool.true_or]
  exact hQ.leaves.rdropWhile hslash

/-- Two letters at an end that are the same as far as they have no case. -/
theorem isSpace_congr {x y : Option QChar} (h : ∀ c : QChar, c.Caseless → (x = some c ↔ y = some c)) :
    (∀ c, x = some c → c.isSpace = false) ↔ ∀ c, y = some c → c.isSpace = false := by
  refine forall_congr' fun c => ?_
  cases hc : c.isSpace with
  | false => simp
  | true => rw [h c (Or.inl hc)]

theorem cleanPath_toLower_iff (hQ : Q.LowersLetters) : CleanPath (Q.toLower s) ↔ CleanPath s := by
  have hback : QChar.Caseless (QChar.ofChar '\\') := Or.inr (by decide)
  have hslash : QChar.Caseless (QChar.ofChar '/') := Or.inr (by decide)
  have hhead := isSpace_congr fun c hc => hQ.leaves.head?_iff (s := s) hc
  have hlast := isSpace_congr fun c hc => hQ.leaves.getLast?_iff (s := s) hc
  constructor
  · rintro ⟨h₁, h₂, h₃, h₄⟩
    exact ⟨by rwa [← hQ.leaves.mem_iff hback], by rwa [ne_eq, ← hQ.leaves.getLast?_iff hslash], hhead.1 h₃, hlast.1 h₄⟩
  · rintro ⟨h₁, h₂, h₃, h₄⟩
    exact ⟨by rwa [hQ.leaves.mem_iff hback], by rwa [ne_eq, hQ.leaves.getLast?_iff hslash], hhead.2 h₃, hlast.2 h₄⟩

/-! ## Both cases -/

/-- **When the result is clean.** -/
theorem cleanPath_normalizePath_iff (hQ : b = true → Q.LowersLetters) :
    CleanPath (normalizePath Q p b) ↔ ¬SpaceBeforeSlashes p := by
  cases b with
  | false => exact cleanPath_iff
  | true => rw [normalizePath_lower (hQ rfl), cleanPath_toLower_iff (hQ rfl), cleanPath_iff]

/-- What is taken off a path without backslashes, and without white space at its start. -/
theorem normalizePath_append (hback : QChar.ofChar '\\' ∉ s) (hhead : ∀ c, s.head? = some c → c.isSpace = false) :
    ∃ u, s = normalizePath Q s false ++ u ∧ ∀ c ∈ u, c.Caseless := by
  have hreplace := (replaceChar_eq_self_iff (QChar.ofChar '/') (by decide)).2 hback
  have hdrop := Ends.dropWhile_eq_self_iff.2 hhead
  unfold normalizePath
  dsimp only
  rw [hreplace, trimmed, hdrop, if_neg Bool.false_ne_true]
  refine ⟨(s.rdropWhile QChar.isSpace).rtakeWhile (· == QChar.ofChar '/') ++ s.rtakeWhile QChar.isSpace, ?_, ?_⟩
  · rw [← List.append_assoc, List.rdropWhile_append_rtakeWhile, List.rdropWhile_append_rtakeWhile]
  · intro c hc
    rcases List.mem_append.1 hc with hc | hc
    · refine Or.inr ?_
      rw [QChar.isSlash, List.mem_rtakeWhile_imp hc, Bool.true_or]
    · exact Or.inl (List.mem_rtakeWhile_imp hc)

/-- **When a second application changes nothing.** -/
theorem normalizePath_twice_iff (hQ : b = true → Q.LowersLetters) :
    normalizePath Q (normalizePath Q p b) b = normalizePath Q p b ↔ CleanPath (normalizePath Q p b) := by
  cases b with
  | false => exact normalizePath_eq_self_iff
  | true =>
    have hlaws := hQ rfl
    have hidem : Q.toLower (normalizePath Q p true) = normalizePath Q p true := by
      rw [normalizePath_lower hlaws, hlaws.toLower_idem]
    rw [normalizePath_lower hlaws (p := normalizePath Q p true)]
    constructor
    · intro h
      have hback : QChar.ofChar '\\' ∉ normalizePath Q p true := by
        rw [normalizePath_lower hlaws, hlaws.leaves.mem_iff (Or.inr (by decide))]
        exact not_mem_normalizePath
      have hhead : ∀ c, (normalizePath Q p true).head? = some c → c.isSpace = false := by
        rw [normalizePath_lower hlaws, isSpace_congr fun c hc => hlaws.leaves.head?_iff hc]
        exact fun c => head_normalizePath
      -- what the second application takes off has no case, so it would be there still
      obtain ⟨u, hu, hcaseless⟩ := normalizePath_append (Q := Q) hback hhead
      have happend : normalizePath Q p true ++ u = normalizePath Q p true := by
        conv_rhs => rw [← hidem, hu, hlaws.leaves.append hcaseless, h]
      rw [List.append_right_eq_self.1 happend, List.append_nil] at hu
      exact normalizePath_eq_self_iff.1 hu.symm
    · intro h
      rw [h.normalizePath_eq, hidem]

/-- **Normalization is idempotent and its result clean** exactly on the paths without white space
before their trailing slashes. -/
theorem normalizePath_idempotent_iff (hQ : b = true → Q.LowersLetters) :
    (normalizePath Q (normalizePath Q p b) b = normalizePath Q p b ∧ CleanPath (normalizePath Q p b)) ↔
      ¬SpaceBeforeSlashes p := by
  rw [normalizePath_twice_iff hQ, and_self, cleanPath_normalizePath_iff hQ]

theorem normalizePath_idempotent_sample :
    (normalizePath sampleQt (normalizePath sampleQt (qs " C:\\D\\ ") true) true = normalizePath sampleQt (qs " C:\\D\\ ") true ∧
      CleanPath (normalizePath sampleQt (qs " C:\\D\\ ") true)) ↔ ¬SpaceBeforeSlashes (qs " C:\\D\\ ") :=
  normalizePath_idempotent_iff fun _ => sampleQt_lowersLetters

/-- **A path that is not stable**: the result for `/d/a /` ends in a blank, which goes when it is
normalized again. -/
theorem normalizePath_not_idempotent : ¬∀ (Q : Qt) (p : QString) (b : Bool),
    normalizePath Q (normalizePath Q p b) b = normalizePath Q p b ∧ CleanPath (normalizePath Q p b) := by
  intro hall
  have hpath := (hall sampleQt (qs "/d/a /") false).1
  revert hpath
  decide

/-- **However often it is applied**: on the other paths the result is that of the first application. -/
theorem normalizePath_iterate (hQ : b = true → Q.LowersLetters) (h : ¬SpaceBeforeSlashes p) (n : ℕ) :
    (normalizePath Q · b)^[n + 1] p = normalizePath Q p b := by
  have htwice := (normalizePath_twice_iff hQ).2 ((cleanPath_normalizePath_iff hQ).2 h)
  induction n with
  | zero => rfl
  | succ n ih => rw [Function.iterate_succ_apply', ih, htwice]

/-- The index directory and the id that are computed from a root or a path are those computed from
its key. -/
theorem key_stable {E : Env} (h : ¬SpaceBeforeSlashes p) :
    idxDir4Dir2Index E (normalizePath E.qt p false) = idxDir4Dir2Index E p ∧
      ∀ finfo, getIdFNandDATE E (normalizePath E.qt p false) finfo = getIdFNandDATE E p finfo := by
  have htwice : normalizePath E.qt (normalizePath E.qt p false) false = normalizePath E.qt p false :=
    normalizePath_eq_self_iff.2 (cleanPath_iff.2 h)
  unfold idxDir4Dir2Index getIdFNandDATE
  rw [htwice]
  exact ⟨rfl, fun _ => rfl⟩

end QDesktopSearch
