import QDesktopSearch.Proof.Stars

/-!
# The lexical states of ranges

A bound goes on to a blank or to the end of the range, if no quoted bound is longer
(`jjMove_range_quote`, `jjMove_range_goop`). `jjMove_range_stays`: when a token stays one without
its stars.
-/

namespace QDesktopSearch

namespace QueryParserTokenManager

open Automaton Searcher

variable {c : QChar}

/-! ## The lexical states of ranges -/

variable {r : RangeTokens}

/-- The tokens of one of the two ranges. -/
def IsRange (r : RangeTokens) : Prop := r = rangeIn ∨ r = rangeEx

/-- The states of a quoted bound, past its first character. -/
def boundStates (escaped : Bool) : Finset ℕ := if escaped then {2, 4, 5, 3} else {2, 4, 5}

theorem boundStates_plain (r : RangeTokens) (e : Bool) (c : QChar) (hc : c ≠ chr '"') :
    (jjMoveNfa r).kinds (boundStates e) c = ⊤ ∧ (jjMoveNfa r).nexts (boundStates e) c = boundStates (c = chr '\\') := by
  by_cases hb : c = chr '\\'
  · subst hb
    have hquote : chr '\\' ≠ chr '"' := by decide
    cases e with
    | false => simp [boundStates, kinds, nexts, jjMoveNfa, moveRange, on, hquote]
    | true => simp [boundStates, kinds, nexts, jjMoveNfa, moveRange, on, hquote]
  · cases e with
    | false => simp [boundStates, kinds, nexts, jjMoveNfa, moveRange, on, hc, hb]
    | true => simp [boundStates, kinds, nexts, jjMoveNfa, moveRange, on, hc, hb]

theorem boundStates_quote (r : RangeTokens) (e : Bool) : (jjMoveNfa r).kinds (boundStates e) (chr '"') = r.quoted ∧
    (jjMoveNfa r).nexts (boundStates e) (chr '"') = if e then boundStates false else ∅ := by
  have hne : chr '"' ≠ chr '\\' := by decide
  cases e with
  | false => simp [boundStates, kinds, nexts, jjMoveNfa, moveRange, on, hne]
  | true => simp [boundStates, kinds, nexts, jjMoveNfa, moveRange, on, hne]

/-- The last quote of a quoted bound, which is not empty. -/
def boundQuote (s : QString) : Option ℕ := if s.head? = some (chr '"') then none else lastQuote false s

/-- Past the beginnings of `TO` and of what ends the range the automaton reads. -/
theorem jjMoveStringLiteralDfa0_of_ne (hT : c ≠ chr 'T') (hstop : c ≠ r.stop) (s : QString) :
    jjMoveStringLiteralDfa0 r (c :: s) = (jjMoveNfa r).munch {0} (c :: s) 0 none :=
  (if_neg hT).trans (if_neg hstop)

theorem munch_bound (s : QString) (n : ℕ) (m : Option (TokenKind × ℕ)) :
    (jjMoveNfa r).munch {2, 4} s n m = ((boundQuote s).map (fun j => (r.quoted, n + j))).or m := by
  cases s with
  | nil =>
    rw [munch_nil]
    rfl
  | cons c s =>
    by_cases hc : c = chr '"'
    · subst hc
      have hne : chr '"' ≠ chr '\\' := by decide
      have hkinds : (jjMoveNfa r).kinds {2, 4} (chr '"') = ⊤ := by
        simp [kinds, jjMoveNfa, moveRange, on, hne]
      have hnexts : (jjMoveNfa r).nexts {2, 4} (chr '"') = ∅ := by
        simp [nexts, jjMoveNfa, moveRange, on, hne]
      rw [munch_stop hkinds hnexts]
      rfl
    · have hkinds : (jjMoveNfa r).kinds {2, 4} c = ⊤ := by
        by_cases hb : c = chr '\\'
        · subst hb
          simp [kinds, jjMoveNfa, moveRange, on, hc]
        · simp [kinds, jjMoveNfa, moveRange, on, hc, hb]
      have hnexts : (jjMoveNfa r).nexts {2, 4} c = boundStates (c = chr '\\') := by
        by_cases hb : c = chr '\\'
        · subst hb
          simp [nexts, jjMoveNfa, moveRange, on, boundStates, hc]
        · simp [nexts, jjMoveNfa, moveRange, on, boundStates, hc, hb]
      have hhead : (c :: s).head? ≠ some (chr '"') := by
        rw [List.head?_cons, Ne, Option.some.injEq]
        exact hc
      rw [munch_cons hkinds hnexts, matched_top, munch_quoted (boundStates_plain r) (boundStates_quote r), boundQuote,
        if_neg hhead, lastQuote, if_neg hc]
      cases lastQuote (decide (c = chr '\\')) s with
      | none => rfl
      | some j =>
        have hj : n + 1 + j = n + (j + 1) := by omega
        rw [Option.map_some, hj]
        rfl

/-- The characters of a bound. -/
theorem munch_goop (s : QString) (n : ℕ) (m : Option (TokenKind × ℕ)) : (jjMoveNfa r).munch {6} s n m =
    if s.takeWhile r.isGoop = [] then m else some (r.goop, n + (s.takeWhile r.isGoop).length) := by
  apply munch_run
  · intro c hc
    simp [kinds, nexts, jjMoveNfa, moveRange, on, hc]
  · intro c hc
    simp [kinds, nexts, jjMoveNfa, moveRange, on, hc]

/-- The characters that matter in both ranges. -/
theorem IsRange.chars (hr : IsRange r) : r.isGoop (chr '*') = true ∧ r.isGoop (chr '"') = true ∧
    r.isGoop (chr 'T') = true ∧ r.isGoop (chr 'O') = true ∧ r.isGoop r.stop = false ∧ r.stop ≠ chr 'T' ∧
    r.stop ≠ chr '*' ∧ r.stop ≠ chr '"' ∧ TokenKind.whitespace ≤ r.goop ∧ r.quoted ≤ r.goop := by
  rcases hr with rfl | rfl
  · decide
  · decide

/-- **A text that begins with a quote**: the longer of a bound and a quoted bound. -/
theorem jjMove_range_quote (hr : IsRange r) (s : QString) : jjMoveStringLiteralDfa0 r (chr '"' :: s) =
    best (some (r.goop, 1 + (s.takeWhile r.isGoop).length)) ((boundQuote s).map fun j => (r.quoted, 1 + j)) := by
  obtain ⟨-, hgoop, -, -, -, -, -, hstop, -⟩ := hr.chars
  have hT : chr '"' ≠ chr 'T' := by decide
  have hspace : isWhitespace (chr '"') = false := by decide
  have hkinds : (jjMoveNfa r).kinds {0} (chr '"') = r.goop := by
    simp [kinds, jjMoveNfa, moveRange, both, on, hgoop, hspace]
  have hnexts : (jjMoveNfa r).nexts {0} (chr '"') = {6} ∪ {2, 4} := by
    simp [nexts, jjMoveNfa, moveRange, both, on, hgoop, hspace]
  have hfirst : Within (some (r.goop, 0 + 1)) (0 + 1) := fun x hx => by
    cases hx
    exact le_rfl
  have hnone : Within (none : Option (TokenKind × ℕ)) (0 + 1) := fun x hx => by cases hx
  have hunion : (jjMoveNfa r).munch ({6} ∪ {2, 4}) s (0 + 1) (best (some (r.goop, 0 + 1)) none) =
      best ((jjMoveNfa r).munch {6} s (0 + 1) (some (r.goop, 0 + 1))) ((jjMoveNfa r).munch {2, 4} s (0 + 1) none) :=
    munch_union hfirst hnone
  rw [jjMoveStringLiteralDfa0_of_ne hT (Ne.symm hstop), munch_cons hkinds hnexts, matched_coe]
  refine hunion.trans ?_
  rw [munch_goop, munch_bound, Option.or_none]
  split_ifs with hnil
  · rw [hnil]
    rfl
  · rfl

/-- What a maximal text of characters of a bound is. -/
def goopToken (r : RangeTokens) (w : QString) : Option (TokenKind × ℕ) :=
  if w = [chr 'T', chr 'O'] then some (r.TO, w.length)
  else if w.length = 1 ∧ w.all isWhitespace then some (.whitespace, w.length)
  else some (r.goop, w.length)

/-- **A text that begins with another character** of a bound. -/
theorem jjMove_range_goop (hr : IsRange r) (hc : r.isGoop c = true) (hquote : c ≠ chr '"') (s : QString) :
    jjMoveStringLiteralDfa0 r (c :: s) = goopToken r (c :: s.takeWhile r.isGoop) := by
  obtain ⟨-, -, -, hO, hstop, -, -, -, hwhitespace, -⟩ := hr.chars
  have hne : c ≠ r.stop := by
    rintro rfl
    rw [hc] at hstop
    cases hstop
  by_cases hT : c = chr 'T'
  · subst hT
    have hspace : isWhitespace (chr 'T') = false := by decide
    cases s with
    | nil => simp [jjMoveStringLiteralDfa0, goopToken, hspace]
    | cons c' s =>
      by_cases hc' : c' = chr 'O'
      · subst hc'
        have htwo : jjMoveStringLiteralDfa0 r (chr 'T' :: chr 'O' :: s) = (jjMoveNfa r).munch {6} s 2 (some (r.TO, 2)) := rfl
        rw [htwo, munch_goop, List.takeWhile_cons_of_pos hO]
        split_ifs with hnil
        · rw [hnil]
          rfl
        · have hword : ¬chr 'T' :: chr 'O' :: s.takeWhile r.isGoop = [chr 'T', chr 'O'] := by simpa using hnil
          have hlength : ¬(chr 'T' :: chr 'O' :: s.takeWhile r.isGoop).length = 1 := by simp
          rw [goopToken, if_neg hword, if_neg fun h => hlength h.1, List.length_cons, List.length_cons]
          congr 2
          omega
      · have hone : jjMoveStringLiteralDfa0 r (chr 'T' :: c' :: s) =
            (jjMoveNfa r).munch {6} (c' :: s) 1 (some (r.goop, 1)) := by simp [jjMoveStringLiteralDfa0, hc']
        rw [hone, munch_goop]
        have hword : ¬chr 'T' :: (c' :: s).takeWhile r.isGoop = [chr 'T', chr 'O'] := by
          intro h
          rw [List.cons.injEq] at h
          rw [List.takeWhile_cons] at h
          split_ifs at h with hg
          · exact hc' (List.cons.inj h.2).1
          · cases h.2
        have hblank : ¬((chr 'T' :: (c' :: s).takeWhile r.isGoop).length = 1 ∧
            (chr 'T' :: (c' :: s).takeWhile r.isGoop).all isWhitespace = true) := by
          rw [List.all_cons, hspace, Bool.false_and]
          exact fun h => Bool.false_ne_true h.2
        rw [goopToken, if_neg hword, if_neg hblank, List.length_cons]
        split_ifs with hnil
        · rw [hnil]
          rfl
        · congr 2
          omega
  · have hword : ¬c :: s.takeWhile r.isGoop = [chr 'T', chr 'O'] := fun h => hT (List.cons.inj h).1
    have hnexts : (jjMoveNfa r).nexts {0} c = {6} := by
      simp [nexts, jjMoveNfa, moveRange, both, on, hc, hquote]
      split_ifs <;> rfl
    have hkinds : (jjMoveNfa r).kinds {0} c =
        ((if isWhitespace c then .whitespace else r.goop : TokenKind) : WithTop TokenKind) := by
      cases hspace : isWhitespace c with
      | true => simp [kinds, jjMoveNfa, moveRange, both, on, hc, hquote, hspace, hwhitespace]
      | false => simp [kinds, jjMoveNfa, moveRange, both, on, hc, hquote, hspace]
    rw [jjMoveStringLiteralDfa0_of_ne hT hne, munch_cons hkinds hnexts, matched_coe, munch_goop, goopToken, if_neg hword]
    by_cases hnil : s.takeWhile r.isGoop = []
    · rw [if_pos hnil, hnil]
      cases hspace : isWhitespace c with
      | true => simp [hspace]
      | false => simp [hspace]
    · have hlength : ¬(c :: s.takeWhile r.isGoop).length = 1 := by simpa using hnil
      rw [if_neg hnil, if_neg fun h => hlength h.1, List.length_cons]
      congr 2
      omega

theorem goopToken_length {w : QString} {k : TokenKind} {i : ℕ} (h : goopToken r w = some (k, i)) : i = w.length := by
  rw [goopToken] at h
  split_ifs at h
  all_goals
    cases h
    rfl

theorem jjMove_range_stop (hr : IsRange r) (s : QString) :
    jjMoveStringLiteralDfa0 r (r.stop :: s) = some (r.stopKind, 1) := by
  obtain ⟨-, -, -, -, -, hT, -⟩ := hr.chars
  exact (if_neg hT).trans (if_pos rfl)

/-- Neither a bound nor what ends the range. -/
theorem jjMove_range_other (hr : IsRange r) (hc : r.isGoop c = false) (hstop : c ≠ r.stop) (s : QString) :
    jjMoveStringLiteralDfa0 r (c :: s) = if isWhitespace c then some (.whitespace, 1) else none := by
  obtain ⟨-, hquote, hT, -⟩ := hr.chars
  have hne : c ≠ chr 'T' := by
    rintro rfl
    rw [hc] at hT
    cases hT
  have hne' : c ≠ chr '"' := by
    rintro rfl
    rw [hc] at hquote
    cases hquote
  have hnexts : (jjMoveNfa r).nexts {0} c = ∅ := by
    cases hspace : isWhitespace c with
    | true => simp [nexts, jjMoveNfa, moveRange, both, on, hc, hne', hspace]
    | false => simp [nexts, jjMoveNfa, moveRange, both, on, hc, hne', hspace]
  rw [jjMoveStringLiteralDfa0_of_ne hne hstop, munch_cons rfl hnexts, munch_empty]
  cases hspace : isWhitespace c with
  | true =>
    have hkinds : (jjMoveNfa r).kinds {0} c = TokenKind.whitespace := by
      simp [kinds, jjMoveNfa, moveRange, both, on, hc, hne', hspace]
    rw [hkinds]
    rfl
  | false =>
    have hkinds : (jjMoveNfa r).kinds {0} c = ⊤ := by
      simp [kinds, jjMoveNfa, moveRange, both, on, hc, hne', hspace]
    rw [hkinds]
    rfl

/-! ### What follows a bound -/

/-- The last quote of a bound without its stars, in the text and by itself. -/
theorem boundQuote_stays {w rest : QString} (hkept : quotesKept false false w = true)
    (hbound : ∀ j, boundQuote (w ++ rest) = some j → j ≤ w.length) (hnil : w = [] → rest.head? ≠ some (chr '"')) :
    boundQuote (text4highlight w ++ text4highlight rest) = boundQuote (text4highlight w) := by
  by_cases hhead : (w ++ rest).head? = some (chr '"')
  · cases w with
    | nil => exact absurd hhead (hnil rfl)
    | cons c w =>
      obtain rfl : c = chr '"' := Option.some.inj hhead
      rw [text4highlight_cons (by decide)]
      rfl
  · cases hlast : lastQuote false (w ++ rest) with
    | none =>
      have hcontext : lastQuote false (text4highlight w ++ text4highlight rest) = none := by
        rw [← text4highlight_append]
        exact lastQuote_text4highlight_none hlast
      have hself : lastQuote false (text4highlight w) = none := by
        rw [lastQuote_eq_none_iff] at hcontext ⊢
        exact fun hmem => hcontext (List.mem_append_left _ hmem)
      rw [boundQuote, boundQuote, hcontext, hself, ite_self, ite_self]
    | some j =>
      have hj : j ≤ w.length := hbound j (by rw [boundQuote, if_neg hhead, hlast])
      have htake : (w ++ rest).take j = w.take j := List.take_append_of_le_length hj
      have hself : lastQuote false w = some j := by
        have h := lastQuote_take hlast hj
        rwa [List.take_left] at h
      have hcontext' : lastQuote false (text4highlight w ++ text4highlight rest) = some (text4highlight (w.take j)).length := by
        rw [← text4highlight_append, ← htake]
        exact lastQuote_text4highlight (fun h => h) hlast (by rw [htake]; exact quotesKept_take hkept j)
      have hself' : lastQuote false (text4highlight w) = some (text4highlight (w.take j)).length :=
        lastQuote_text4highlight (fun h => h) hself (quotesKept_take hkept j)
      have hhead' : (text4highlight w ++ text4highlight rest).head? = (text4highlight w).head? := by
        cases hw : text4highlight w with
        | nil =>
          rw [hw] at hself'
          cases hself'
        | cons c w => rfl
      rw [boundQuote, boundQuote, hcontext', hself', hhead']

/-- **In the lexical state of a range** a token stays one without its stars, whatever follows: if it
is one by itself, begins with a quote only if it did and no quote comes to be escaped. -/
theorem jjMove_range_stays (hr : IsRange r) {w rest : QString} {k k' : TokenKind}
    (h : jjMoveStringLiteralDfa0 r (w ++ rest) = some (k, w.length)) (hw : w ≠ [])
    (halone : jjMoveStringLiteralDfa0 r (text4highlight w) = some (k', (text4highlight w).length))
    (hquotes : w.head? = some (chr '"') → quotesKept false false (w.drop 1) = true)
    (hopen : (text4highlight w).head? = some (chr '"') → w.head? = some (chr '"')) :
    jjMoveStringLiteralDfa0 r (text4highlight w ++ text4highlight rest) = some (k', (text4highlight w).length) := by
  obtain ⟨hstar, hquote, -, -, hstop, -, hstopstar, -⟩ := hr.chars
  obtain ⟨c, w, rfl⟩ := List.exists_cons_of_ne_nil hw
  rw [List.cons_append] at h
  by_cases hgoop : r.isGoop c = true
  · by_cases hc : c = chr '"'
    · subst hc
      have hcons : text4highlight (chr '"' :: w) = chr '"' :: text4highlight w := text4highlight_cons (by decide) w
      rw [jjMove_range_quote hr, List.length_cons] at h
      obtain ⟨hgoops, hquoted, -⟩ := best_length h
      have hlength : ((w ++ rest).takeWhile r.isGoop).length ≤ w.length := by
        simp only at hgoops
        omega
      have hall : (∀ d ∈ w, r.isGoop d = true) → (w ++ rest).takeWhile r.isGoop = w := by
        intro hall
        rw [List.takeWhile_append_of_pos hall, List.length_append] at hlength
        have hrest : rest.takeWhile r.isGoop = [] := List.length_eq_zero_iff.1 (by omega)
        rw [List.takeWhile_append_of_pos hall, hrest, List.append_nil]
      have hbound : ∀ j, boundQuote (w ++ rest) = some j → j ≤ w.length := by
        intro j hj
        have hle := hquoted (r.quoted, 1 + j) (by rw [hj]; rfl)
        simp only at hle
        omega
      have hnil : w = [] → rest.head? ≠ some (chr '"') := by
        rintro rfl hhead
        cases rest with
        | nil => cases hhead
        | cons d rest =>
          obtain rfl : d = chr '"' := Option.some.inj hhead
          rw [List.nil_append, List.takeWhile_cons_of_pos hquote] at hlength
          exact absurd hlength (Nat.not_succ_le_zero _)
      have hkept : quotesKept false false w = true := hquotes rfl
      rw [hcons, jjMove_range_quote hr] at halone
      rw [hcons, List.cons_append, jjMove_range_quote hr, takeWhile_text4highlight hstar hall,
        boundQuote_stays hkept hbound hnil]
      exact halone
    · rw [jjMove_range_goop hr hgoop hc] at h
      have hmax : ((c :: w) ++ rest).takeWhile r.isGoop = c :: w := by
        have hlength := goopToken_length h
        have hprefix : c :: (w ++ rest).takeWhile r.isGoop <+: c :: (w ++ rest) := by
          rw [List.prefix_cons_inj]
          exact List.takeWhile_prefix _
        have hprefix' : c :: w <+: c :: (w ++ rest) := by
          rw [List.prefix_cons_inj]
          exact List.prefix_append w rest
        have heq := (List.prefix_of_prefix_length_le hprefix hprefix' hlength.ge).eq_of_length hlength.symm
        rw [List.cons_append, List.takeWhile_cons_of_pos hgoop]
        exact heq
      have hstays := takeWhile_stays hstar hmax
      have hself : (text4highlight (c :: w)).takeWhile r.isGoop = text4highlight (c :: w) := by
        rw [List.takeWhile_eq_self_iff]
        apply forall_mem_text4highlight
        intro d hd
        rw [← hmax] at hd
        exact List.mem_takeWhile_imp hd
      cases hd : text4highlight (c :: w) with
      | nil =>
        rw [hd] at halone
        cases halone
      | cons d v =>
        rw [hd] at halone hopen hstays hself
        have hdgoop : r.isGoop d = true := by
          by_contra hdgoop
          rw [List.takeWhile_cons_of_neg hdgoop] at hself
          cases hself
        have hdquote : d ≠ chr '"' := by
          rintro rfl
          have hhead := hopen rfl
          exact hc (Option.some.inj hhead)
        rw [List.cons_append, List.takeWhile_cons_of_pos hdgoop, List.cons.injEq] at hstays
        rw [List.takeWhile_cons_of_pos hdgoop, List.cons.injEq] at hself
        rw [jjMove_range_goop hr hdgoop hdquote, hself.2] at halone
        rw [List.cons_append, jjMove_range_goop hr hdgoop hdquote, hstays.2]
        exact halone
  · rw [Bool.not_eq_true] at hgoop
    have hc : c ≠ chr '*' := by
      rintro rfl
      rw [hstar] at hgoop
      cases hgoop
    have hcons : text4highlight (c :: w) = c :: text4highlight w := text4highlight_cons hc w
    rw [hcons] at halone ⊢
    rw [List.cons_append]
    by_cases hcstop : c = r.stop
    · subst hcstop
      rw [jjMove_range_stop hr] at halone ⊢
      exact halone
    · rw [jjMove_range_other hr hgoop hcstop] at halone ⊢
      exact halone

theorem jjMove_range_bounds (hr : IsRange r) {s : QString} {k : TokenKind} {i : ℕ}
    (h : jjMoveStringLiteralDfa0 r s = some (k, i)) : 0 < i ∧ i ≤ s.length := by
  cases s with
  | nil => cases h
  | cons c s =>
    rw [List.length_cons]
    by_cases hgoop : r.isGoop c = true
    · have hle : (s.takeWhile r.isGoop).length ≤ s.length := (List.takeWhile_prefix _).length_le
      by_cases hc : c = chr '"'
      · subst hc
        rw [jjMove_range_quote hr] at h
        obtain ⟨hgoops, -, hlength⟩ := best_length h
        simp only at hgoops hlength
        refine ⟨by omega, ?_⟩
        rcases hlength with hlength | ⟨x, hx, hlength⟩
        · omega
        · obtain ⟨j, hj, rfl⟩ := Option.map_eq_some_iff.1 hx
          rw [boundQuote] at hj
          split_ifs at hj with hhead
          have hj' := lastQuote_le hj
          simp only at hlength
          omega
      · rw [jjMove_range_goop hr hgoop hc] at h
        have hlength := goopToken_length h
        rw [List.length_cons] at hlength
        omega
    · rw [Bool.not_eq_true] at hgoop
      by_cases hstop : c = r.stop
      · subst hstop
        rw [jjMove_range_stop hr] at h
        cases h
        omega
      · rw [jjMove_range_other hr hgoop hstop] at h
        split_ifs at h
        cases h
        omega

/-- The kinds of the tokens of a range. -/
theorem jjMove_range_kind (hr : IsRange r) {s : QString} {k : TokenKind} {i : ℕ}
    (h : jjMoveStringLiteralDfa0 r s = some (k, i)) : k ∈ [r.goop, r.quoted, r.TO, r.stopKind, .whitespace] := by
  cases s with
  | nil => cases h
  | cons c s =>
    by_cases hgoop : r.isGoop c = true
    · by_cases hc : c = chr '"'
      · subst hc
        rw [jjMove_range_quote hr] at h
        rcases best_kind h with rfl | ⟨x, hx, rfl⟩
        · exact List.mem_cons_self
        · obtain ⟨j, -, rfl⟩ := Option.map_eq_some_iff.1 hx
          simp
      · rw [jjMove_range_goop hr hgoop hc] at h
        unfold goopToken at h
        split_ifs at h
        all_goals
          cases h
          simp
    · rw [Bool.not_eq_true] at hgoop
      by_cases hstop : c = r.stop
      · subst hstop
        rw [jjMove_range_stop hr] at h
        cases h
        simp
      · rw [jjMove_range_other hr hgoop hstop] at h
        split_ifs at h
        cases h
        simp

end QueryParserTokenManager

end QDesktopSearch
