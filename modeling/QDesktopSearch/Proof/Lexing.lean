import QDesktopSearch.Proof.LexDefault
import QDesktopSearch.Proof.LexRange

/-!
# The tokens of a text without its stars

A token of a text need not be one without its stars, and where it is one it may be read on into
what follows. `Stays` says of a token when neither happens; `jjMove_stays`: then the token manager
stops at the same place.
-/

namespace QDesktopSearch

namespace QueryParserTokenManager

open Automaton Searcher

/-! ## Any lexical state -/

/-- **A token ends in the text**, and is not empty. -/
theorem jjMove_bounds {st : LexState} {s : QString} {k : TokenKind} {i : ℕ} (h : jjMove st s = some (k, i)) :
    0 < i ∧ i ≤ s.length := by
  cases st with
  | Boost =>
    rcases munch_bounds (show jjMoveNfa_0.munch {0} s 0 none = some (k, i) from h) with hnone | hlater
    · cases hnone
    · omega
  | RangeEx => exact jjMove_range_bounds (Or.inr rfl) h
  | RangeIn => exact jjMove_range_bounds (Or.inl rfl) h
  | DEFAULT => exact jjMove_DEFAULT_bounds h

/-- **A token stays one** without its stars, whatever follows it. -/
structure Stays (st : LexState) (t : QueryToken) (rest : QString) (k : TokenKind) : Prop where
  /-- By itself and without its stars it is a token. -/
  token : jjMove st (text4highlight t.image) = some (k, (text4highlight t.image).length)
  /-- A term does not begin with a star. -/
  term : st = .DEFAULT → t.image.head? ≠ some (chr '*')
  /-- It begins with a quote only if it did. -/
  unquoted : (text4highlight t.image).head? = some (chr '"') → t.image.head? = some (chr '"')
  /-- No quote comes to be escaped. -/
  quoted : t.image.head? = some (chr '"') → quotesKept false false (t.image.drop 1) = true
  /-- A number, as also a slop is, does not go on with what follows. -/
  number : t.kind = .NUMBER ∨ t.kind = .FUZZY_SLOP →
    jjMove st (t.image ++ text4highlight rest) = some (t.kind, t.image.length)

/-- **The token manager stops at the same place** without the stars. -/
theorem jjMove_stays {st : LexState} {w rest : QString} {k k' : TokenKind} (h : jjMove st (w ++ rest) = some (k, w.length))
    (hstays : Stays st ⟨k, w⟩ rest k') :
    jjMove st (text4highlight w ++ text4highlight rest) = some (k', (text4highlight w).length) := by
  have hw : w ≠ [] := by
    rintro rfl
    exact absurd (jjMove_bounds h).1 (lt_irrefl 0)
  cases st with
  | Boost =>
    obtain ⟨rfl, hstar⟩ := jjMove_number h
    rw [List.take_left] at hstar
    have htoken := hstays.token
    rw [text4highlight_eq_self hstar] at htoken ⊢
    obtain ⟨rfl, -⟩ := jjMove_number htoken
    exact hstays.number (Or.inl rfl)
  | RangeEx => exact jjMove_range_stays (Or.inr rfl) h hw hstays.token hstays.quoted hstays.unquoted
  | RangeIn => exact jjMove_range_stays (Or.inl rfl) h hw hstays.token hstays.quoted hstays.unquoted
  | DEFAULT =>
    exact jjMove_DEFAULT_stays h (hstays.term rfl) hstays.token hstays.quoted fun hk => hstays.number (Or.inr hk)

/-- **A blank stays one.** -/
theorem jjMove_whitespace {st : LexState} {w rest : QString} (h : jjMove st (w ++ rest) = some (.whitespace, w.length)) :
    text4highlight w = w ∧ jjMove st (w ++ text4highlight rest) = some (.whitespace, w.length) := by
  obtain ⟨c, w, rfl⟩ := List.exists_cons_of_ne_nil (show w ≠ [] by
    rintro rfl
    exact absurd (jjMove_bounds h).1 (lt_irrefl 0))
  have hrange : ∀ r, IsRange r → jjMoveStringLiteralDfa0 r (c :: w ++ rest) = some (.whitespace, (c :: w).length) →
      text4highlight (c :: w) = c :: w ∧
        jjMoveStringLiteralDfa0 r (c :: w ++ text4highlight rest) = some (.whitespace, (c :: w).length) := by
    intro r hr h
    obtain ⟨hstar, hquote, -⟩ := hr.chars
    have hkinds : r.goop ≠ .whitespace ∧ r.quoted ≠ .whitespace ∧ r.TO ≠ .whitespace ∧ r.stopKind ≠ .whitespace := by
      rcases hr with rfl | rfl
      · decide
      · decide
    rw [List.cons_append] at h ⊢
    have hblank : isWhitespace c = true → text4highlight [c] = [c] := by
      intro hspace
      have hc : c ≠ chr '*' := by
        rintro rfl
        cases hspace
      exact text4highlight_cons hc []
    by_cases hgoop : r.isGoop c = true
    · by_cases hc : c = chr '"'
      · subst hc
        rw [jjMove_range_quote hr] at h
        rcases best_kind h with hk | ⟨x, hx, hk⟩
        · exact absurd hk.symm hkinds.1
        · obtain ⟨j, -, rfl⟩ := Option.map_eq_some_iff.1 hx
          exact absurd hk.symm hkinds.2.1
      · rw [jjMove_range_goop hr hgoop hc] at h
        have hlength := goopToken_length h
        have hone : (c :: (w ++ rest).takeWhile r.isGoop).length = 1 ∧
            (c :: (w ++ rest).takeWhile r.isGoop).all isWhitespace = true := by
          by_contra hone
          rw [goopToken, if_neg hone] at h
          split_ifs at h
          · rw [Option.some.injEq, Prod.mk.injEq] at h
            exact hkinds.2.2.1 h.1
          · rw [Option.some.injEq, Prod.mk.injEq] at h
            exact hkinds.1 h.1
        rw [hone.1] at hlength
        have hw : w = [] := List.length_eq_zero_iff.1 (Nat.succ_injective hlength)
        subst hw
        have hrest : (([] : QString) ++ rest).takeWhile r.isGoop = [] :=
          List.length_eq_zero_iff.1 (Nat.succ_injective hone.1)
        have hspace : isWhitespace c = true := by
          rw [List.all_cons, Bool.and_eq_true] at hone
          exact hone.2.1
        have hrest' := takeWhile_stays hstar hrest
        rw [text4highlight_nil] at hrest'
        refine ⟨hblank hspace, ?_⟩
        rw [jjMove_range_goop hr hgoop hc, hrest']
        rwa [hrest] at h
    · rw [Bool.not_eq_true] at hgoop
      by_cases hstop : c = r.stop
      · subst hstop
        rw [jjMove_range_stop hr, Option.some.injEq, Prod.mk.injEq] at h
        exact absurd h.1 hkinds.2.2.2
      · rw [jjMove_range_other hr hgoop hstop] at h ⊢
        split_ifs at h with hspace
        have hw : w = [] := by
          rw [Option.some.injEq, Prod.mk.injEq] at h
          exact List.length_eq_zero_iff.1 (Nat.succ_injective h.2.symm)
        subst hw
        exact ⟨hblank hspace, if_pos hspace⟩
  cases st with
  | Boost => cases (jjMove_number h).1
  | RangeEx => exact hrange rangeEx (Or.inr rfl) h
  | RangeIn => exact hrange rangeIn (Or.inl rfl) h
  | DEFAULT =>
    have hspace : isWhitespace c = true := by
      rcases jjMove_DEFAULT_kind h with hk | ⟨hspace, -⟩ | ⟨-, hk⟩ | ⟨-, hk⟩ | ⟨-, hk⟩ | ⟨-, hk⟩ | ⟨-, hk⟩
      · have hliterals : ∀ x ∈ literals, x.2 ≠ TokenKind.whitespace := by decide
        exact absurd rfl (hliterals _ hk)
      · exact hspace
      · cases hk
      · cases hk
      · cases hk
      · exact absurd hk (by decide)
      · exact absurd hk (by decide)
    have hsingle : ∀ s, jjMove .DEFAULT (c :: s) = some (.whitespace, 1) := by
      intro s
      have hne : c ≠ chr '!' := by
        rintro rfl
        cases hspace
      have h := jjMove_single (s := s) (Or.inl hspace)
      rwa [if_neg hne] at h
    have hw : w = [] := by
      rw [List.cons_append, hsingle] at h
      cases w with
      | nil => rfl
      | cons d w => cases h
    subst hw
    have hc : c ≠ chr '*' := by
      rintro rfl
      cases hspace
    exact ⟨text4highlight_cons hc [], hsingle _⟩

end QueryParserTokenManager

end QDesktopSearch
