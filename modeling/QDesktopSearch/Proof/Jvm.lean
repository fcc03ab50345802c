import QDesktopSearch.Lib.Bytes
import QDesktopSearch.Model.Jvm

/-!
# What `js2qs` makes of a Java string

* `fromUtf8Loop_modified`: one code unit, from its bytes.
* `js2qs_eq`: the whole string, code unit by code unit.
* `js2qs_eq_self_iff`: which strings come through.
-/

namespace QDesktopSearch

/-- What comes of one code unit. -/
def QChar.arrived (c : QChar) : QString :=
  if c.toNat = 0 then [replacement, replacement]
  else if isSurrogate c.toNat then [replacement, replacement, replacement]
  else [c]

/-- The string has neither U+0000 nor surrogates, and does not begin with a byte order mark. -/
def Plain16 (js : JString) : Prop := (∀ c ∈ js, c.toNat ≠ 0 ∧ QChar.isSurrogate c.toNat = false) ∧ js.head? ≠ some 0xFEFF

variable {c : QChar} {b : UInt8} {l : List UInt8} {js : JString}

/-! ## Bytes -/

theorem fromUtf8Loop_skip (tail : List UInt8) : fromUtf8Loop tail.length (tail ++ l) = fromUtf8Loop 0 l := by
  induction tail with
  | nil => rfl
  | cons b tail ih => exact ih

/-- A byte at which no character begins. -/
theorem fromUtf8Loop_error (h : fromUtf8Char b l = none) : fromUtf8Loop 0 (b :: l) = QChar.replacement :: fromUtf8Loop 0 l := by
  rw [fromUtf8Loop, h]

theorem fromUtf8Char_continuation (h : 0x80 ≤ b.toNat) (h' : b.toNat ≤ 0xC1) : fromUtf8Char b l = none := by
  unfold fromUtf8Char
  rw [if_neg (by omega), if_pos h']

theorem fromUtf8Char_one (h : b.toNat < 0x80) : fromUtf8Char b l = some (b.toNat, 0) := by
  unfold fromUtf8Char
  rw [if_pos h]

theorem fromUtf8Char_two (h : 0xC2 ≤ b.toNat) (h' : b.toNat < 0xE0) :
    fromUtf8Char b l = utf8Sequence 1 0x80 (b.toNat % 32) l := by
  unfold fromUtf8Char
  rw [if_neg (by omega), if_neg (by omega), if_pos h']

theorem fromUtf8Char_three (h : 0xE0 ≤ b.toNat) (h' : b.toNat < 0xF0) :
    fromUtf8Char b l = utf8Sequence 2 0x800 (b.toNat % 16) l := by
  unfold fromUtf8Char
  rw [if_neg (by omega), if_neg (by omega), if_neg (by omega), if_pos h']

/-- The two bytes of a code unit. -/
theorem fromUtf8Char_twoBytes {n : ℕ} (h : 0x80 ≤ n) (h' : n < 0x800) :
    fromUtf8Char (.ofNat (0xC0 + n / 64)) (.ofNat (0x80 + n % 64) :: l) = some (n, 1) := by
  have hb : (UInt8.ofNat (0xC0 + n / 64)).toNat = 0xC0 + n / 64 := toNat_ofNat (by omega)
  have hb' : (UInt8.ofNat (0x80 + n % 64)).toNat = 0x80 + n % 64 := toNat_ofNat (by omega)
  have huc : (0xC0 + n / 64) % 32 * 64 + (0x80 + n % 64) % 64 = n := by omega
  have hsurrogate : QChar.isSurrogate n = false := by
    simp [QChar.isSurrogate]
    omega
  rw [fromUtf8Char_two (by rw [hb]; omega) (by rw [hb]; omega), utf8Sequence]
  simp only [List.take_succ_cons, List.take_zero, List.foldl_cons, List.foldl_nil, List.all_cons, List.all_nil,
    List.length_singleton, hb, hb', huc]
  rw [if_pos]
  refine ⟨trivial, ?_, by omega, by omega, by rw [hsurrogate]; rfl⟩
  simp
  omega

/-- The three bytes of a code unit. -/
theorem fromUtf8Char_threeBytes {n : ℕ} (h : 0x800 ≤ n) (h' : n < 0x10000) :
    fromUtf8Char (.ofNat (0xE0 + n / 4096)) (.ofNat (0x80 + n / 64 % 64) :: .ofNat (0x80 + n % 64) :: l) =
      if QChar.isSurrogate n then none else some (n, 2) := by
  have hb : (UInt8.ofNat (0xE0 + n / 4096)).toNat = 0xE0 + n / 4096 := toNat_ofNat (by omega)
  have hb' : (UInt8.ofNat (0x80 + n / 64 % 64)).toNat = 0x80 + n / 64 % 64 := toNat_ofNat (by omega)
  have hb'' : (UInt8.ofNat (0x80 + n % 64)).toNat = 0x80 + n % 64 := toNat_ofNat (by omega)
  have huc : ((0xE0 + n / 4096) % 16 * 64 + (0x80 + n / 64 % 64) % 64) * 64 + (0x80 + n % 64) % 64 = n := by omega
  have hcont : (decide (0x80 ≤ 0x80 + n / 64 % 64) && decide (0x80 + n / 64 % 64 < 0xC0) &&
      (decide (0x80 ≤ 0x80 + n % 64) && decide (0x80 + n % 64 < 0xC0) && true)) = true := by
    simp
    omega
  rw [fromUtf8Char_three (by rw [hb]; omega) (by rw [hb]; omega), utf8Sequence]
  simp only [List.take_succ_cons, List.take_zero, List.foldl_cons, List.foldl_nil, List.all_cons, List.all_nil,
    List.length_cons, List.length_nil, hb, hb', hb'', huc]
  cases QChar.isSurrogate n with
  | true => rw [if_neg (by simp), if_pos rfl]
  | false => rw [if_pos ⟨trivial, hcont, by omega, by omega, rfl⟩, if_neg Bool.false_ne_true]

/-- A character that is read as it has been written. -/
theorem fromUtf8Loop_read (tail : List UInt8) (h : fromUtf8Char b (tail ++ l) = some (c.toNat, tail.length)) :
    fromUtf8Loop 0 (b :: (tail ++ l)) = c :: fromUtf8Loop 0 l := by
  have hlt : c.toNat < 0x10000 := c.toNat_lt
  rw [fromUtf8Loop, h]
  dsimp only
  rw [utf16, if_pos hlt, UInt16.ofNat_toNat, fromUtf8Loop_skip, List.singleton_append]

/-- **One code unit**, from its bytes. -/
theorem fromUtf8Loop_modified (c : QChar) (l : List UInt8) :
    fromUtf8Loop 0 (modifiedUtf8 c ++ l) = c.arrived ++ fromUtf8Loop 0 l := by
  have hlt : c.toNat < 0x10000 := c.toNat_lt
  unfold modifiedUtf8 QChar.arrived
  dsimp only
  by_cases hone : 0 < c.toNat ∧ c.toNat < 0x80
  · have hb : (UInt8.ofNat c.toNat).toNat = c.toNat := toNat_ofNat (by omega)
    have hsurrogate : ¬QChar.isSurrogate c.toNat = true := by
      simp [QChar.isSurrogate]
      omega
    rw [if_pos hone, if_neg (by omega), if_neg hsurrogate]
    refine fromUtf8Loop_read [] ?_
    rw [fromUtf8Char_one (by rw [hb]; exact hone.2), hb]
    rfl
  rw [if_neg hone]
  by_cases hzero : c.toNat = 0
  · -- written in two bytes, of which none begins a character
    rw [if_pos (by omega), if_pos hzero, hzero]
    rw [List.cons_append, fromUtf8Loop_error (fromUtf8Char_continuation (by decide) (by decide)), List.singleton_append,
      fromUtf8Loop_error (fromUtf8Char_continuation (by decide) (by decide))]
    rfl
  rw [if_neg hzero]
  by_cases htwo : c.toNat < 0x800
  · have hsurrogate : ¬QChar.isSurrogate c.toNat = true := by
      simp [QChar.isSurrogate]
      omega
    rw [if_pos htwo, if_neg hsurrogate]
    exact fromUtf8Loop_read [_] (fromUtf8Char_twoBytes (by omega) htwo)
  rw [if_neg htwo]
  have hchar := fromUtf8Char_threeBytes (l := l) (n := c.toNat) (by omega) hlt
  by_cases hsurrogate : QChar.isSurrogate c.toNat = true
  · -- the sequence is refused, and then each of its other bytes
    have hb' : (UInt8.ofNat (0x80 + c.toNat / 64 % 64)).toNat = 0x80 + c.toNat / 64 % 64 := toNat_ofNat (by omega)
    have hb'' : (UInt8.ofNat (0x80 + c.toNat % 64)).toNat = 0x80 + c.toNat % 64 := toNat_ofNat (by omega)
    rw [if_pos hsurrogate] at hchar ⊢
    rw [List.cons_append, List.cons_append, List.singleton_append, fromUtf8Loop_error hchar,
      fromUtf8Loop_error (fromUtf8Char_continuation (by omega) (by omega)),
      fromUtf8Loop_error (fromUtf8Char_continuation (by omega) (by omega))]
    rfl
  · rw [if_neg hsurrogate] at hchar ⊢
    exact fromUtf8Loop_read [_, _] hchar

/-! ## Strings -/

theorem fromUtf8Loop_string : fromUtf8Loop 0 (GetStringUTFChars js) = js.flatMap QChar.arrived := by
  induction js with
  | nil => rfl
  | cons c js ih => rw [GetStringUTFChars, List.flatMap_cons, ← GetStringUTFChars, fromUtf8Loop_modified, ih, List.flatMap_cons]

/-- Only a byte order mark has its bytes. -/
theorem bom_iff : [0xEF, 0xBB, 0xBF].isPrefixOf (modifiedUtf8 c ++ l) = true ↔ c = 0xFEFF := by
  have hlt : c.toNat < 0x10000 := c.toNat_lt
  constructor
  · intro h
    rw [← UInt16.toNat_inj]
    show c.toNat = 0xFEFF
    unfold modifiedUtf8 at h
    dsimp only at h
    split at h
    · rename_i hascii
      simp only [List.singleton_append, List.isPrefixOf_cons_cons, Bool.and_eq_true, beq_iff_eq, ← UInt8.toNat_inj] at h
      rw [toNat_ofNat (by omega)] at h
      exact absurd h.1.symm (Nat.ne_of_lt (hascii.2.trans (by decide)))
    split at h
    · rename_i htwo
      simp only [List.cons_append, List.isPrefixOf_cons_cons, Bool.and_eq_true, beq_iff_eq, ← UInt8.toNat_inj] at h
      rw [toNat_ofNat (by omega)] at h
      exact absurd h.1.symm (Nat.ne_of_lt (lt_of_lt_of_le (b := 0xE0) (by omega) (by decide)))
    · simp only [List.cons_append, List.isPrefixOf_cons_cons, Bool.and_eq_true, beq_iff_eq, ← UInt8.toNat_inj] at h
      rw [toNat_ofNat (by omega), toNat_ofNat (by omega), toNat_ofNat (by omega)] at h
      obtain ⟨h₁, h₂, h₃, -⟩ := h
      change 0xEF = 0xE0 + c.toNat / 4096 at h₁
      change 0xBB = 0x80 + c.toNat / 64 % 64 at h₂
      change 0xBF = 0x80 + c.toNat % 64 at h₃
      omega
  · rintro rfl
    rfl

/-- **A string from Java**, code unit by code unit. -/
theorem js2qs_eq : js2qs js = (if js.head? = some 0xFEFF then js.tail else js).flatMap QChar.arrived := by
  unfold js2qs fromUtf8
  cases js with
  | nil => rfl
  | cons c js =>
    rw [GetStringUTFChars, List.flatMap_cons, ← GetStringUTFChars, List.head?_cons, List.tail_cons]
    by_cases hbom : c = 0xFEFF
    · rw [if_pos (bom_iff.2 hbom), if_pos (congrArg some hbom), ← fromUtf8Loop_string, hbom]
      exact fromUtf8Loop_skip [0xEF, 0xBB, 0xBF]
    · rw [if_neg (mt bom_iff.1 hbom), if_neg fun h => hbom (Option.some_inj.1 h), fromUtf8Loop_modified, fromUtf8Loop_string,
        List.flatMap_cons]

theorem arrived_of_plain (h : c.toNat ≠ 0 ∧ QChar.isSurrogate c.toNat = false) : c.arrived = [c] := by
  rw [QChar.arrived, if_neg h.1, h.2, if_neg Bool.false_ne_true]

theorem flatMap_arrived (h : ∀ c ∈ js, c.toNat ≠ 0 ∧ QChar.isSurrogate c.toNat = false) : js.flatMap QChar.arrived = js := by
  rw [List.flatMap_congr fun c hc => arrived_of_plain (h c hc)]
  exact List.flatMap_singleton' js

/-- Neither U+0000 nor surrogates arrive. -/
theorem plain_of_mem_arrived {c' : QChar} (h : c' ∈ c.arrived) : c'.toNat ≠ 0 ∧ QChar.isSurrogate c'.toNat = false := by
  have hreplacement : QChar.replacement.toNat ≠ 0 ∧ QChar.isSurrogate QChar.replacement.toNat = false := by decide
  unfold QChar.arrived at h
  split at h
  · simp only [List.mem_cons, List.not_mem_nil, or_false, or_self] at h
    exact h ▸ hreplacement
  rename_i hzero
  split at h
  · simp only [List.mem_cons, List.not_mem_nil, or_false, or_self] at h
    exact h ▸ hreplacement
  · rename_i hsurrogate
    rw [List.mem_singleton.1 h]
    exact ⟨hzero, by simpa using hsurrogate⟩

/-- **Which strings come through**: those without U+0000, surrogates and a byte order mark at the beginning. -/
theorem js2qs_eq_self_iff : js2qs js = js ↔ Plain16 js := by
  constructor
  · intro h
    have hplain : ∀ c ∈ js, c.toNat ≠ 0 ∧ QChar.isSurrogate c.toNat = false := by
      intro c hc
      rw [← h, js2qs_eq] at hc
      obtain ⟨c', -, hc'⟩ := List.mem_flatMap.1 hc
      exact plain_of_mem_arrived hc'
    refine ⟨hplain, fun hbom => ?_⟩
    rw [js2qs_eq, if_pos hbom, flatMap_arrived fun c hc => hplain c (List.mem_of_mem_tail hc)] at h
    -- the mark is missing
    cases js with
    | nil => simp at hbom
    | cons c js => exact absurd (congrArg List.length h) (by simp)
  · intro h
    rw [js2qs_eq, if_neg h.2, flatMap_arrived h.1]

end QDesktopSearch
