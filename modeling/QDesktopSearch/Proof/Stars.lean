import QDesktopSearch.Model.QueryParser

/-!
# Texts without their stars

`search` deletes the stars of a text and parses it again. Where a class of characters goes on to,
and where a quoted text ends, is the same without the stars (`takeWhile_stays`,
`lastQuote_text4highlight`), if no star stands between a backslash and a quote.
-/

namespace QDesktopSearch

namespace QueryParserTokenManager

open Automaton Searcher

/-! ## Characters -/

theorem jjCanMove_0_of_le {c : QChar} (h : 128 ≤ c.toNat) : jjCanMove_0 c = true := by
  have hlt : c.toNat < 65536 := c.toNat_lt
  have hbits : ∀ n < 64, Nat.testBit 0xffffffffffffffff n = true := by decide
  simp only [jjCanMove_0]
  split_ifs with h0
  · have hcase : c.toNat % 256 / 64 = 2 ∨ c.toNat % 256 / 64 = 3 := by omega
    have hmod : c.toNat % 64 < 64 := by omega
    rcases hcase with h2 | h2
    all_goals
      rw [h2]
      exact hbits _ hmod
  · have hmod : c.toNat / 256 % 64 < 64 := by omega
    have hcase : c.toNat / 256 / 64 = 0 ∨ c.toNat / 256 / 64 = 1 ∨ c.toNat / 256 / 64 = 2 ∨ c.toNat / 256 / 64 = 3 := by
      omega
    rcases hcase with h2 | h2 | h2 | h2
    · have hfirst : ∀ n < 64, n ≠ 0 → Nat.testBit 0xfffffffffffffffe n = true := by decide
      rw [h2]
      apply hfirst _ hmod
      omega
    all_goals
      rw [h2]
      exact hbits _ hmod

@[simp] theorem isAny_eq (c : QChar) : isAny c = true := by
  by_cases h : c.toNat < 128
  · simp [isAny, h]
  · simp [isAny, jjCanMove_0_of_le (not_lt.1 h)]

@[simp] theorem isUnquoted_eq (c : QChar) : isUnquoted c = decide (c ≠ chr '"') := by simp [isUnquoted]

/-- What may begin a term may go on with one. -/
theorem isWildChar_of_isWildStart {c : QChar} (h : isWildStart c = true) : isWildChar c = true := by
  have hlow : ∀ n < 64, Nat.testBit 0xfbffd4f8ffffd9ff n = true → Nat.testBit 0xfbfffcf8ffffd9ff n = true := by decide
  simp only [isWildStart, isWildChar, inClass] at h ⊢
  split_ifs at h ⊢ with h1 h2
  · exact hlow _ h1 h
  · exact h
  · exact h

theorem isWildStart_of_isTermStart {c : QChar} (h : isTermStart c = true) : isWildStart c = true := by
  have hlow : ∀ n < 64, Nat.testBit 0x7bffd0f8ffffd9ff n = true → Nat.testBit 0xfbffd4f8ffffd9ff n = true := by decide
  simp only [isWildStart, isTermStart, inClass] at h ⊢
  split_ifs at h ⊢ with h1 h2
  · exact hlow _ h1 h
  · exact h
  · exact h

theorem isWildChar_of_isTermChar {c : QChar} (h : isTermChar c = true) : isWildChar c = true := by
  have hlow : ∀ n < 64, Nat.testBit 0x7bfff8f8ffffd9ff n = true → Nat.testBit 0xfbfffcf8ffffd9ff n = true := by decide
  simp only [isTermChar, isWildChar, inClass] at h ⊢
  split_ifs at h ⊢ with h1 h2
  · exact hlow _ h1 h
  · exact h
  · exact h

/-! ## The stars -/

/-- The text without its stars. -/
theorem text4highlight_eq (s : QString) : text4highlight s = s.filter (· ≠ chr '*') := by
  have hstar : qs "*" = [chr '*'] := rfl
  rw [text4highlight, replaceAll]
  induction s with
  | nil => rfl
  | cons c s ih =>
    by_cases hc : c = chr '*'
    · have hprefixed : (qs "*").isPrefixOf (c :: s) = true := by simp [hstar, hc]
      rw [replaceFrom, if_pos hprefixed, List.filter_cons_of_neg (by simp [hc])]
      exact ih
    · have hprefixed : ¬(qs "*").isPrefixOf (c :: s) = true := by simp [hstar, Ne.symm hc]
      rw [replaceFrom, if_neg hprefixed, ih, List.filter_cons_of_pos (by simp [hc])]

@[simp] theorem text4highlight_nil : text4highlight [] = [] := rfl

@[simp] theorem text4highlight_star (s : QString) : text4highlight (chr '*' :: s) = text4highlight s := by
  simp [text4highlight_eq]

theorem text4highlight_cons {c : QChar} (hc : c ≠ chr '*') (s : QString) :
    text4highlight (c :: s) = c :: text4highlight s := by
  simp [text4highlight_eq, hc]

theorem text4highlight_append (s t : QString) : text4highlight (s ++ t) = text4highlight s ++ text4highlight t := by
  simp [text4highlight_eq]

theorem star_notMem (s : QString) : chr '*' ∉ text4highlight s := by
  simp [text4highlight_eq]

/-- A text without stars stays as it is. -/
theorem text4highlight_eq_self {s : QString} (h : chr '*' ∉ s) : text4highlight s = s := by
  rw [text4highlight_eq, List.filter_eq_self]
  intro c hc
  have hne : c ≠ chr '*' := by
    rintro rfl
    exact h hc
  exact decide_eq_true hne

theorem length_text4highlight_le (s : QString) : (text4highlight s).length ≤ s.length := by
  rw [text4highlight_eq]
  exact List.length_filter_le _ _

theorem forall_mem_text4highlight {p : QChar → Prop} {w : QString} (h : ∀ c ∈ w, p c) : ∀ c ∈ text4highlight w, p c := by
  intro c hc
  rw [text4highlight_eq] at hc
  exact h c (List.mem_of_mem_filter hc)

/-- A maximal text of a class stays maximal without its stars. -/
theorem takeWhile_stays {p : QChar → Bool} {w rest : QString} (hstar : p (chr '*') = true)
    (h : (w ++ rest).takeWhile p = w) : (text4highlight w ++ text4highlight rest).takeWhile p = text4highlight w := by
  have hall : ∀ c ∈ w, p c = true := by
    intro c hc
    rw [← h] at hc
    exact List.mem_takeWhile_imp hc
  have hrest : rest.takeWhile p = [] := by
    rw [List.takeWhile_append_of_pos hall] at h
    exact List.append_right_eq_self.1 h
  have hall' : ∀ c ∈ text4highlight w, p c = true := forall_mem_text4highlight hall
  have hrest' : (text4highlight rest).takeWhile p = [] := by
    cases rest with
    | nil => rfl
    | cons c rest =>
      have hc : ¬p c = true := by
        intro hc
        rw [List.takeWhile_cons_of_pos hc] at hrest
        cases hrest
      have hne : c ≠ chr '*' := by
        rintro rfl
        exact hc hstar
      rw [text4highlight_cons hne, List.takeWhile_cons_of_neg hc]
  rw [List.takeWhile_append_of_pos hall', hrest', List.append_nil]

/-- What follows a text makes no difference to how far a class goes, if it does not go on. -/
theorem takeWhile_text4highlight {p : QChar → Bool} {w rest : QString} (hstar : p (chr '*') = true)
    (h : (∀ c ∈ w, p c = true) → (w ++ rest).takeWhile p = w) :
    (text4highlight w ++ text4highlight rest).takeWhile p = (text4highlight w).takeWhile p := by
  by_cases hall : ∀ c ∈ w, p c = true
  · have hself : (text4highlight w).takeWhile p = text4highlight w := by
      rw [List.takeWhile_eq_self_iff]
      exact forall_mem_text4highlight hall
    rw [hself]
    exact takeWhile_stays hstar (h hall)
  · push Not at hall
    obtain ⟨c, hc, hpc⟩ := hall
    have hne : c ≠ chr '*' := by
      rintro rfl
      exact hpc hstar
    have hmem : c ∈ text4highlight w := by
      rw [text4highlight_eq]
      exact List.mem_filter.2 ⟨hc, by simpa using hne⟩
    have hlt : ((text4highlight w).takeWhile p).length ≠ (text4highlight w).length := by
      intro heq
      have hself := (List.takeWhile_prefix p).eq_of_length heq
      rw [← hself] at hmem
      exact hpc (List.mem_takeWhile_imp hmem)
    rw [List.takeWhile_append, if_neg hlt]

/-! ## Quoted texts -/

/-- Where the last quote is that can end a quoted text; a quote after a backslash need not.
`escaped` says that the character before was a backslash. -/
def lastQuote : (escaped : Bool) → QString → Option ℕ
  | _, [] => none
  | escaped, c :: s =>
    if c = chr '"' then
      if escaped then some ((lastQuote false s).elim 1 (· + 1)) else some 1
    else (lastQuote (c = chr '\\') s).map (· + 1)

/-- No stars stand between a backslash and a quote. `escaped` says that the character before was
a backslash, and `escaped'` the same of the character before without stars. -/
def quotesKept : (escaped escaped' : Bool) → QString → Bool
  | _, _, [] => true
  | escaped, escaped', c :: s =>
    if c = chr '"' then escaped == escaped' && quotesKept false false s
    else if c = chr '*' then quotesKept false escaped' s
    else quotesKept (c = chr '\\') (c = chr '\\') s

theorem lastQuote_eq_none_iff {e : Bool} {s : QString} : lastQuote e s = none ↔ chr '"' ∉ s := by
  induction s generalizing e with
  | nil => exact iff_of_true rfl List.not_mem_nil
  | cons c s ih =>
    rw [lastQuote, List.mem_cons, not_or]
    split_ifs with hc he
    · exact iff_of_false (fun h => by cases h) fun h => h.1 hc.symm
    · exact iff_of_false (fun h => by cases h) fun h => h.1 hc.symm
    · rw [Option.map_eq_none_iff, ih, and_iff_right (Ne.symm hc)]

/-- The last quote is found in as much of the text as it ends. -/
theorem lastQuote_take {e : Bool} {s : QString} {i j : ℕ} (h : lastQuote e s = some j) (hij : j ≤ i) :
    lastQuote e (s.take i) = some j := by
  induction s generalizing e i j with
  | nil => cases h
  | cons c s ih =>
    rw [lastQuote] at h
    have hpos : 0 < j := by
      split_ifs at h with hc he
      · cases hs : lastQuote false s with
        | none =>
          rw [hs, Option.elim_none, Option.some.injEq] at h
          omega
        | some j' =>
          rw [hs, Option.elim_some, Option.some.injEq] at h
          omega
      · rw [Option.some.injEq] at h
        omega
      · obtain ⟨j', -, rfl⟩ := Option.map_eq_some_iff.1 h
        omega
    obtain ⟨i, rfl⟩ : ∃ i', i = i' + 1 := ⟨i - 1, by omega⟩
    rw [List.take_succ_cons, lastQuote]
    split_ifs at h ⊢ with hc he
    · cases hs : lastQuote false s with
      | none =>
        have htake : lastQuote false (s.take i) = none := by
          rw [lastQuote_eq_none_iff] at hs ⊢
          exact fun hmem => hs (List.mem_of_mem_take hmem)
        rw [htake]
        rwa [hs] at h
      | some j' =>
        rw [hs, Option.elim_some, Option.some.injEq] at h
        rw [ih hs (by omega), Option.elim_some, h]
    · exact h
    · obtain ⟨j', hj', rfl⟩ := Option.map_eq_some_iff.1 h
      rw [ih hj' (by omega)]
      rfl

theorem lastQuote_text4highlight_none {e e' : Bool} {s : QString} (h : lastQuote e s = none) :
    lastQuote e' (text4highlight s) = none := by
  rw [lastQuote_eq_none_iff] at h ⊢
  rw [text4highlight_eq]
  exact fun hmem => h (List.mem_of_mem_filter hmem)

/-- **The last quote without the stars** is the same one, if no quote has come to be escaped. -/
theorem lastQuote_text4highlight {e e' : Bool} {s : QString} {j : ℕ} (he : e = true → e' = true)
    (h : lastQuote e s = some j) (hkept : quotesKept e e' (s.take j) = true) :
    lastQuote e' (text4highlight s) = some (text4highlight (s.take j)).length := by
  induction s generalizing e e' j with
  | nil => cases h
  | cons c s ih =>
    rw [lastQuote] at h
    by_cases hc : c = chr '"'
    · have hcons : ∀ t, text4highlight (c :: t) = c :: text4highlight t := fun t =>
        text4highlight_cons (by rw [hc]; decide) t
      rw [if_pos hc] at h
      have hkept' : ∀ i, quotesKept e e' (c :: s.take i) = true → e = e' ∧ quotesKept false false (s.take i) = true := by
        intro i hi
        rw [quotesKept, if_pos hc, Bool.and_eq_true, beq_iff_eq] at hi
        exact hi
      cases e with
      | false =>
        cases h
        rw [List.take_succ_cons] at hkept ⊢
        obtain ⟨rfl, -⟩ := hkept' 0 hkept
        rw [hcons, hcons, lastQuote, if_pos hc]
        rfl
      | true =>
        obtain rfl := he rfl
        rw [if_pos rfl] at h
        cases hs : lastQuote false s with
        | none =>
          rw [hs, Option.elim_none, Option.some.injEq] at h
          subst h
          rw [List.take_succ_cons, hcons, hcons, lastQuote, if_pos hc, if_pos rfl, lastQuote_text4highlight_none hs]
          rfl
        | some j' =>
          rw [hs, Option.elim_some, Option.some.injEq] at h
          subst h
          rw [List.take_succ_cons] at hkept ⊢
          rw [hcons, hcons, lastQuote, if_pos hc, if_pos rfl, ih (fun h => h) hs (hkept' j' hkept).2]
          rfl
    · rw [if_neg hc] at h
      obtain ⟨j', hj', rfl⟩ := Option.map_eq_some_iff.1 h
      rw [List.take_succ_cons, quotesKept, if_neg hc] at hkept
      rw [List.take_succ_cons]
      by_cases hstar : c = chr '*'
      · subst hstar
        rw [if_pos rfl] at hkept
        rw [text4highlight_star, text4highlight_star]
        exact ih (fun h => by cases h) hj' hkept
      · rw [if_neg hstar] at hkept
        rw [text4highlight_cons hstar, text4highlight_cons hstar, lastQuote, if_neg hc, ih (fun h => h) hj' hkept]
        rfl

theorem quotesKept_take {e e' : Bool} {s : QString} (h : quotesKept e e' s = true) (i : ℕ) :
    quotesKept e e' (s.take i) = true := by
  induction s generalizing e e' i with
  | nil =>
    rw [List.take_nil]
    exact h
  | cons c s ih =>
    cases i with
    | zero => rfl
    | succ i =>
      rw [quotesKept] at h
      rw [List.take_succ_cons, quotesKept]
      split_ifs at h ⊢ with hc hstar
      · rw [Bool.and_eq_true] at h ⊢
        exact ⟨h.1, ih h.2 i⟩
      · exact ih h i
      · exact ih h i

/-- **States that read a quoted text**: `Q false`, and `Q true` after a backslash. -/
theorem munch_quoted {M : Automaton ℕ QChar TokenKind} {Q : Bool → Finset ℕ} {quoted : TokenKind}
    (hplain : ∀ e c, c ≠ chr '"' → M.kinds (Q e) c = ⊤ ∧ M.nexts (Q e) c = Q (c = chr '\\'))
    (hquote : ∀ e, M.kinds (Q e) (chr '"') = quoted ∧ M.nexts (Q e) (chr '"') = if e then Q false else ∅)
    (e : Bool) (s : QString) (n : ℕ) (m : Option (TokenKind × ℕ)) :
    M.munch (Q e) s n m = ((lastQuote e s).map (fun j => (quoted, n + j))).or m := by
  induction s generalizing e n m with
  | nil =>
    rw [munch_nil]
    rfl
  | cons c s ih =>
    rw [lastQuote]
    by_cases hc : c = chr '"'
    · subst hc
      obtain ⟨hkinds, hnexts⟩ := hquote e
      rw [munch_cons hkinds hnexts, matched_coe, if_pos rfl]
      cases e with
      | false =>
        rw [if_neg Bool.false_ne_true, if_neg Bool.false_ne_true, munch_empty]
        rfl
      | true =>
        rw [if_pos rfl, if_pos rfl, ih]
        cases lastQuote false s with
        | none => rfl
        | some j =>
          have hj : n + 1 + j = n + (j + 1) := by omega
          rw [Option.map_some, hj]
          rfl
    · obtain ⟨hkinds, hnexts⟩ := hplain e c hc
      rw [munch_cons hkinds hnexts, matched_top, if_neg hc, ih]
      cases lastQuote (decide (c = chr '\\')) s with
      | none => rfl
      | some j =>
        have hj : n + 1 + j = n + (j + 1) := by omega
        rw [Option.map_some, hj]
        rfl

theorem lastQuote_le {e : Bool} {s : QString} {j : ℕ} (h : lastQuote e s = some j) : j ≤ s.length := by
  induction s generalizing e j with
  | nil => cases h
  | cons c s ih =>
    rw [lastQuote] at h
    rw [List.length_cons]
    split_ifs at h with hc he
    · rw [Option.some.injEq] at h
      cases hs : lastQuote false s with
      | none =>
        rw [hs, Option.elim_none] at h
        omega
      | some j' =>
        rw [hs, Option.elim_some] at h
        have hle := ih hs
        omega
    · rw [Option.some.injEq] at h
      omega
    · obtain ⟨j', hj', rfl⟩ := Option.map_eq_some_iff.1 h
      exact Nat.succ_le_succ (ih hj')

/-- The last quote of a token without its stars, in the text and by itself. -/
theorem lastQuote_stays {w r : QString} (h : lastQuote false (w ++ r) = some w.length)
    (hkept : quotesKept false false w = true) :
    lastQuote false (text4highlight w ++ text4highlight r) = some (text4highlight w).length ∧
      lastQuote false (text4highlight w) = some (text4highlight w).length := by
  have hself : lastQuote false w = some w.length := by
    have htake := lastQuote_take h le_rfl
    rwa [List.take_left] at htake
  rw [← text4highlight_append]
  constructor
  · have hlast := lastQuote_text4highlight (fun h => h) h (by rwa [List.take_left])
    rwa [List.take_left] at hlast
  · have hlast := lastQuote_text4highlight (fun h => h) hself (by rwa [List.take_length])
    rwa [List.take_length] at hlast

end QueryParserTokenManager

end QDesktopSearch
