import QDesktopSearch.Proof.Lexing

/-!
# The tokens that a `FastCharStream` gives

The buffer is filled anew every 2048 characters. Where a token ends there (`Unbroken`) nothing is
lost, and the tokens are those of the text (`tokens_eq`): a stream that is `Reading` has the token
so far and what follows it in its buffer, and the rest in its reader.
-/

namespace QDesktopSearch

open QueryParserTokenManager

/-! ## What the token manager asks for -/

namespace QueryParserTokenManager

open Automaton

/-- Texts that begin alike. -/
theorem exists_cons_of_take {c : QChar} {s s' : QString} {n : ℕ} (h : s'.take (n + 1) = (c :: s).take (n + 1)) :
    ∃ t, s' = c :: t ∧ t.take n = s.take n := by
  cases s' with
  | nil => cases h
  | cons d t =>
    rw [List.take_succ_cons, List.take_succ_cons, List.cons.injEq] at h
    obtain ⟨rfl, ht⟩ := h
    exact ⟨t, rfl, ht⟩

theorem eq_nil_of_take {s' : QString} {n : ℕ} (h : s'.take (n + 1) = ([] : QString).take (n + 1)) : s' = [] := by
  simpa using h

theorem asks_pos (M : Automaton ℕ QChar TokenKind) (S : Finset ℕ) (s : QString) : ∃ n, M.asks S s = n + 1 := by
  cases s with
  | nil => exact ⟨0, rfl⟩
  | cons c s =>
    rw [asks]
    split_ifs
    · exact ⟨0, rfl⟩
    · exact ⟨_, rfl⟩

theorem jjMove_3_congr {s s' : QString} (h : s'.take (jjAsks_3 s) = s.take (jjAsks_3 s)) :
    jjMoveStringLiteralDfa0_3 s' = jjMoveStringLiteralDfa0_3 s ∧ jjAsks_3 s' = jjAsks_3 s := by
  cases s with
  | nil =>
    rw [eq_nil_of_take h]
    exact ⟨rfl, rfl⟩
  | cons c s =>
    have hliterals : [chr '(', chr ')', chr '+', chr '-', chr ':', chr '[', chr '^', chr '\x7b'].contains c = true ↔
        ∃ k, (c, k) ∈ literals := by
      simp only [literals, List.contains_eq_mem, decide_eq_true_eq, List.mem_cons, List.not_mem_nil, or_false,
        Prod.mk.injEq, exists_or, exists_and_left, exists_eq, and_true]
    by_cases hliteral : [chr '(', chr ')', chr '+', chr '-', chr ':', chr '[', chr '^', chr '\x7b'].contains c = true
    · have hone : ∀ s, jjAsks_3 (c :: s) = 1 := fun s => if_pos hliteral
      rw [hone] at h
      obtain ⟨t, rfl, -⟩ := exists_cons_of_take h
      obtain ⟨k, hk⟩ := hliterals.1 hliteral
      exact ⟨by rw [jjMove_literal hk, jjMove_literal hk], by rw [hone, hone]⟩
    · by_cases hstar : c = chr '*'
      · subst hstar
        have hasks : ∀ s, jjAsks_3 (chr '*' :: s) = jjMoveNfa_3.asks {36} s + 1 := fun _ => rfl
        rw [hasks] at h
        obtain ⟨t, rfl, ht⟩ := exists_cons_of_take h
        obtain ⟨hmunch, hsame⟩ := munch_congr (n := 1) (m := some (.STAR, 1)) ht
        exact ⟨hmunch, congrArg (· + 1) hsame⟩
      · have hnot : ∀ k, (c, k) ∉ literals := fun k hk => hliteral (hliterals.2 ⟨k, hk⟩)
        have hasks : ∀ s, jjAsks_3 (c :: s) = jjMoveNfa_3.asks {0} (c :: s) := by
          intro s
          rw [jjAsks_3, if_neg hliteral, if_neg hstar]
        rw [hasks] at h
        obtain ⟨n, hn⟩ := asks_pos jjMoveNfa_3 {0} (c :: s)
        obtain ⟨t, rfl, -⟩ := exists_cons_of_take (hn ▸ h)
        obtain ⟨hmunch, hsame⟩ := munch_congr (n := 0) (m := none) h
        rw [jjMove_of_not_literal hnot hstar, jjMove_of_not_literal hnot hstar, hasks, hasks]
        exact ⟨hmunch, hsame⟩

theorem jjMoveRange_congr {r : RangeTokens} {s s' : QString} (h : s'.take (jjAsksRange r s) = s.take (jjAsksRange r s)) :
    jjMoveStringLiteralDfa0 r s' = jjMoveStringLiteralDfa0 r s ∧ jjAsksRange r s' = jjAsksRange r s := by
  cases s with
  | nil =>
    rw [eq_nil_of_take h]
    exact ⟨rfl, rfl⟩
  | cons c s =>
    by_cases hT : c = chr 'T'
    · subst hT
      cases s with
      | nil =>
        obtain ⟨t, rfl, ht⟩ := exists_cons_of_take h
        rw [eq_nil_of_take ht]
        exact ⟨rfl, rfl⟩
      | cons d s =>
        by_cases hO : d = chr 'O'
        · subst hO
          obtain ⟨t, rfl, ht⟩ := exists_cons_of_take (n := (jjMoveNfa r).asks {6} s + 1) h
          obtain ⟨u, rfl, hu⟩ := exists_cons_of_take ht
          obtain ⟨hmunch, hsame⟩ := munch_congr (n := 2) (m := some (r.TO, 2)) hu
          exact ⟨hmunch, congrArg (· + 2) hsame⟩
        · have hmove : ∀ s, jjMoveStringLiteralDfa0 r (chr 'T' :: d :: s) =
              (jjMoveNfa r).munch {6} (d :: s) 1 (some (r.goop, 1)) := fun s => if_neg hO
          have hasks : ∀ s, jjAsksRange r (chr 'T' :: d :: s) = (jjMoveNfa r).asks {6} (d :: s) + 1 :=
            fun s => if_neg hO
          rw [hasks] at h
          obtain ⟨t, rfl, ht⟩ := exists_cons_of_take h
          obtain ⟨n, hn⟩ := asks_pos (jjMoveNfa r) {6} (d :: s)
          obtain ⟨u, rfl, -⟩ := exists_cons_of_take (hn ▸ ht)
          obtain ⟨hmunch, hsame⟩ := munch_congr (n := 1) (m := some (r.goop, 1)) ht
          rw [hmove, hmove, hasks, hasks]
          exact ⟨hmunch, congrArg (· + 1) hsame⟩
    · by_cases hstop : c = r.stop
      · have hone : ∀ s, jjAsksRange r (c :: s) = 1 := fun s => (if_neg hT).trans (if_pos hstop)
        have hmove : ∀ s, jjMoveStringLiteralDfa0 r (c :: s) = some (r.stopKind, 1) :=
          fun s => (if_neg hT).trans (if_pos hstop)
        rw [hone] at h
        obtain ⟨t, rfl, -⟩ := exists_cons_of_take h
        rw [hone, hone, hmove, hmove]
        exact ⟨rfl, rfl⟩
      · have hasks : ∀ s, jjAsksRange r (c :: s) = (jjMoveNfa r).asks {0} (c :: s) :=
          fun s => (if_neg hT).trans (if_neg hstop)
        rw [hasks] at h
        obtain ⟨n, hn⟩ := asks_pos (jjMoveNfa r) {0} (c :: s)
        obtain ⟨t, rfl, -⟩ := exists_cons_of_take (hn ▸ h)
        obtain ⟨hmunch, hsame⟩ := munch_congr (n := 0) (m := none) h
        rw [jjMoveStringLiteralDfa0_of_ne hT hstop, jjMoveStringLiteralDfa0_of_ne hT hstop, hasks, hasks]
        exact ⟨hmunch, hsame⟩

/-- **A token depends on what is asked for**, and so does how much is asked for. -/
theorem jjMove_congr {st : LexState} {s s' : QString} (h : s'.take (jjAsks st s) = s.take (jjAsks st s)) :
    jjMove st s' = jjMove st s ∧ jjAsks st s' = jjAsks st s := by
  cases st with
  | Boost => exact munch_congr h
  | RangeEx => exact jjMoveRange_congr h
  | RangeIn => exact jjMoveRange_congr h
  | DEFAULT => exact jjMove_3_congr h

/-- A token is within what is asked for. -/
theorem jjMove_asks {st : LexState} {s : QString} {k : TokenKind} {i : ℕ} (h : jjMove st s = some (k, i)) :
    i ≤ jjAsks st s := by
  -- what is not asked for is not in the token, or it would be one of the shorter text
  have htake : (s.take (jjAsks st s)).take (jjAsks st s) = s.take (jjAsks st s) := by rw [List.take_take, min_self]
  have hshort := (jjMove_bounds ((jjMove_congr htake).1.trans h)).2
  rw [List.length_take] at hshort
  omega

theorem jjAsks_bounds (st : LexState) (s : QString) : 0 < jjAsks st s ∧ jjAsks st s ≤ s.length + 1 := by
  have hmunch : ∀ (M : Automaton ℕ QChar TokenKind) S s, 0 < M.asks S s ∧ M.asks S s ≤ s.length + 1 := by
    intro M S s
    obtain ⟨n, hn⟩ := asks_pos M S s
    exact ⟨by omega, asks_le⟩
  have hrange : ∀ r, 0 < jjAsksRange r s ∧ jjAsksRange r s ≤ s.length + 1 := by
    intro r
    unfold jjAsksRange
    split
    · exact ⟨by decide, le_rfl⟩
    · rename_i c s
      split_ifs
      · split
        · exact ⟨by decide, le_rfl⟩
        · rename_i d s
          have h1 := (hmunch (jjMoveNfa r) {6} s).2
          have h2 := (hmunch (jjMoveNfa r) {6} (d :: s)).2
          simp only [List.length_cons] at h2 ⊢
          split_ifs
          · omega
          · omega
      · simp
      · exact hmunch _ _ _
  cases st with
  | Boost => exact hmunch _ _ _
  | RangeEx => exact hrange _
  | RangeIn => exact hrange _
  | DEFAULT =>
    change 0 < jjAsks_3 s ∧ jjAsks_3 s ≤ s.length + 1
    unfold jjAsks_3
    split
    · exact ⟨by decide, le_rfl⟩
    · rename_i c s
      have h1 := (hmunch jjMoveNfa_3 {36} s).2
      split_ifs
      · simp
      · rw [List.length_cons]
        omega
      · exact hmunch _ _ _

/-- The image of a star. -/
theorem take_of_star {st : LexState} {s : QString} {i : ℕ} (h : jjMove st s = some (.STAR, i)) :
    s.take i = [chr '*'] := by
  have hrange : ∀ r, IsRange r → jjMoveStringLiteralDfa0 r s ≠ some (.STAR, i) := by
    intro r hr h
    have hkind := jjMove_range_kind hr h
    rcases hr with rfl | rfl
    · exact absurd hkind (by decide)
    · exact absurd hkind (by decide)
  cases st with
  | Boost => cases (jjMove_number h).1
  | RangeEx => exact absurd h (hrange _ (Or.inr rfl))
  | RangeIn => exact absurd h (hrange _ (Or.inl rfl))
  | DEFAULT =>
    cases s with
    | nil => exact absurd (jjMove_bounds h).2 (by have hpos := (jjMove_bounds h).1; simp; omega)
    | cons c s =>
      rcases jjMove_DEFAULT_kind h with hl | ⟨-, hl⟩ | ⟨-, hl⟩ | ⟨-, hl⟩ | ⟨-, hl⟩ | ⟨rfl, -⟩ | ⟨-, hl⟩
      · have hliterals : ∀ x ∈ literals, x.2 ≠ .STAR := by decide
        exact absurd rfl (hliterals _ hl)
      · cases hl
      · cases hl
      · cases hl
      · cases hl
      · rcases jjMove_star h with ⟨-, rfl⟩ | hterm
        · rfl
        · exact absurd hterm (by decide)
      · exact absurd hl (by decide)

end QueryParserTokenManager

/-! ## The stream -/

/-- What is copied is all there up to a NUL. -/
theorem _tcsncpy_eq {source w : QString} {n : ℕ} (h : source.take n = w) (hn : w.length = n) (hw : ∀ c ∈ w, c ≠ 0) :
    _tcsncpy source n = w := by
  have hcopied : (source.take n).takeWhile (· ≠ 0) = w := by
    rw [h, List.takeWhile_eq_self_iff]
    exact fun c hc => decide_eq_true (hw c hc)
  unfold _tcsncpy
  rw [hcopied]
  dsimp only
  rw [hn, Nat.sub_self, List.replicate_zero, List.append_nil]

theorem _tcsncpy_length (source : QString) (n : ℕ) : (_tcsncpy source n).length = n := by
  have hle : ((source.take n).takeWhile (· ≠ 0)).length ≤ n :=
    (List.takeWhile_prefix _).length_le.trans (List.length_take_le n source)
  unfold _tcsncpy
  dsimp only
  rw [List.length_append, List.length_replicate]
  omega

namespace FastCharStream

/-- A stream has read `w` since the token began, which is `p` characters into the text, and has `b`
in its buffer. -/
structure Reading (s : FastCharStream) (p : ℕ) (w b : QString) : Prop where
  size : s.buffer.length = s._bufferSize
  start : s.tokenStart ≤ s.bufferLength
  length_le : s.bufferLength ≤ s._bufferSize
  position : s.bufferPosition = s.tokenStart + w.length
  cells : (s.buffer.take s.bufferLength).drop s.tokenStart = w ++ b
  /-- The buffer is full where there is more. -/
  full : s.input ≠ [] → (s.buffer = [] ∧ p = 0) ∨
    (s._bufferSize = 2048 ∧ s.bufferLength = 2048 ∧ s.tokenStart % 2048 = p % 2048)
  ne_nul : ∀ c ∈ w ++ b ++ s.input, c ≠ 0

variable {s s' : FastCharStream} {p : ℕ} {w b : QString} {c : QChar}

theorem reading_new {text : QString} (h : ∀ c ∈ text, c ≠ 0) : (new text).Reading 0 [] [] where
  size := rfl
  start := le_rfl
  length_le := le_rfl
  position := rfl
  cells := rfl
  full _ := Or.inl ⟨rfl, rfl⟩
  ne_nul := h

theorem Reading.length (h : s.Reading p w b) : w.length + b.length = s.bufferLength - s.tokenStart := by
  have hcells := congrArg List.length h.cells
  have hsize := h.size
  have hle := h.length_le
  rw [List.length_drop, List.length_take, List.length_append] at hcells
  omega

/-- A character of the buffer. -/
theorem Reading.readChar (h : s.Reading p w (c :: b)) :
    s.readChar = (.ok c, { s with bufferPosition := s.bufferPosition + 1 }) ∧
      { s with bufferPosition := s.bufferPosition + 1 : FastCharStream }.Reading p (w ++ [c]) b := by
  have hlength := h.length
  have hposition := h.position
  rw [List.length_cons] at hlength
  have hcell : s.buffer[s.bufferPosition]? = some c := by
    have hget : (w ++ c :: b)[w.length]? = some c := by simp
    rw [← h.cells, List.getElem?_drop, List.getElem?_take_of_lt (by omega)] at hget
    rwa [hposition]
  constructor
  · unfold FastCharStream.readChar
    rw [if_neg (by omega)]
    dsimp only
    rw [hcell]
  · constructor
    · exact h.size
    · exact h.start
    · exact h.length_le
    · rw [List.length_append, List.length_singleton]
      dsimp only
      omega
    · rw [List.append_assoc]
      exact h.cells
    · exact h.full
    · rw [List.append_assoc w]
      exact h.ne_nul

/-- The token is at the front. -/
theorem Reading.makeRoom (h : s.Reading p w []) : s.makeRoom.1.length = s.makeRoom.2 ∧ w.length ≤ s.makeRoom.2 ∧
    s.makeRoom.1.take w.length = w := by
  have hlength := h.length
  have hsize := h.size
  have hle := h.length_le
  have hcells := h.cells
  rw [List.length_nil, Nat.add_zero] at hlength
  rw [List.append_nil] at hcells
  have hnul : ∀ c ∈ w, c ≠ 0 := fun c hc => h.ne_nul c (by simp [hc])
  have hcopy : _tcsncpy (s.buffer.drop s.tokenStart) (s.bufferLength - s.tokenStart) = w := by
    apply _tcsncpy_eq _ hlength hnul
    rwa [← List.drop_take]
  unfold FastCharStream.makeRoom
  split_ifs with hfirst hnull hfull
  · have hw : w = [] := by
      apply List.eq_nil_of_length_eq_zero
      rw [hnull, List.length_nil] at hsize
      omega
    rw [hw]
    exact ⟨List.length_replicate, Nat.zero_le _, List.take_zero⟩
  · rw [hfirst, List.drop_zero, Nat.sub_zero] at hcopy
    refine ⟨?_, ?_, ?_⟩
    · dsimp only
      rw [List.length_append, _tcsncpy_length, List.length_replicate]
      omega
    · dsimp only
      omega
    · rw [hcopy]
      exact List.take_left
  · rw [hfirst, List.drop_zero] at hcells
    rw [hfirst, Nat.sub_zero] at hlength
    rw [hlength]
    exact ⟨hsize, hle, hcells⟩
  · refine ⟨?_, ?_, ?_⟩
    · dsimp only
      rw [List.length_append, _tcsncpy_length, List.length_drop]
      omega
    · dsimp only
      omega
    · dsimp only
      rw [hcopy]
      exact List.take_left

/-- At the end of the text the token is kept. -/
theorem Reading.eof (h : s.Reading p w []) (hinput : s.input = []) :
    ∃ s', s.readChar = (.error .eof, s') ∧ s'.Reading p w [] ∧ s'.input = [] := by
  have hlength := h.length
  have hposition := h.position
  have hstart := h.start
  rw [List.length_nil, Nat.add_zero] at hlength
  obtain ⟨hsize, hle, htake⟩ := h.makeRoom
  have hread : ∀ min max, FastCharStream.read s.input min max = none := fun min max => if_pos hinput
  refine ⟨⟨s.makeRoom.1, s.makeRoom.2, w.length, w.length, 0, s.input⟩, ?_, ?_, hinput⟩
  · unfold FastCharStream.readChar
    rw [if_pos (by omega)]
    unfold FastCharStream.refill
    dsimp only
    rw [hread, hlength]
  · constructor
    · exact hsize
    · exact Nat.zero_le _
    · exact hle
    · exact (Nat.zero_add _).symm
    · rw [List.append_nil]
      exact htake
    · exact fun hne => absurd hinput hne
    · exact h.ne_nul

/-- Between two tokens the buffer is filled anew. -/
theorem Reading.refill (h : s.Reading p [] []) (hinput : s.input ≠ []) :
    ∃ s' : FastCharStream, s.readChar = s'.readChar ∧ s'.Reading p [] (s.input.take 2048) ∧
      s'.input = s.input.drop 2048 := by
  have hlength := h.length
  have hposition := h.position
  have hstart := h.start
  rw [List.length_nil] at hlength hposition
  have hempty : s.bufferLength - s.tokenStart = 0 := by omega
  obtain ⟨hsize, -, -⟩ := h.makeRoom
  have hroom : s.makeRoom.2 = 2048 ∧ p % 2048 = 0 := by
    unfold FastCharStream.makeRoom
    rcases h.full hinput with ⟨hnull, hp⟩ | ⟨h1, h2, h3⟩
    · have hsize := h.size
      have hle := h.length_le
      rw [hnull, List.length_nil] at hsize
      rw [if_pos (by omega), if_pos hnull, hp]
      exact ⟨rfl, rfl⟩
    · rw [if_neg (by omega)]
      exact ⟨h1, by omega⟩
  have hread : FastCharStream.read s.input 0 (2048 - 0) = some (s.input.take 2048) := if_neg hinput
  have htaken : (s.input.take 2048).length = min 2048 s.input.length := List.length_take
  have hdrop : s.input.drop (s.input.take 2048).length = s.input.drop 2048 := by
    rw [htaken]
    rcases le_total 2048 s.input.length with hle | hle
    · rw [min_eq_left hle]
    · rw [min_eq_right hle, List.drop_length, List.drop_of_length_le hle]
  refine ⟨⟨s.input.take 2048 ++ s.makeRoom.1.drop (s.input.take 2048).length, 2048, (s.input.take 2048).length, 0, 0,
    s.input.drop 2048⟩, ?_, ?_, rfl⟩
  · have hpos : 0 < s.input.length := List.length_pos_of_ne_nil hinput
    unfold FastCharStream.readChar
    rw [if_pos (by omega), if_neg (by dsimp only; omega)]
    unfold FastCharStream.refill
    dsimp only
    rw [hempty, hroom.1, hread]
    dsimp only
    rw [Nat.zero_add, hdrop]
  · constructor
    · dsimp only
      rw [List.length_append, List.length_drop]
      omega
    · exact Nat.zero_le _
    · dsimp only
      omega
    · rfl
    · exact List.take_left
    · intro hmore
      right
      have hlong : 2048 < s.input.length := by
        by_contra hle
        exact hmore (List.drop_of_length_le (by omega))
      refine ⟨rfl, ?_, hroom.2.symm⟩
      dsimp only
      omega
    · intro c hc
      apply h.ne_nul c
      simpa using hc

theorem Reading.beginToken (h : s.Reading p w b) : s.beginToken.Reading (p + w.length) [] b := by
  have hlength := h.length
  have hposition := h.position
  have hstart := h.start
  constructor
  · exact h.size
  · dsimp only [FastCharStream.beginToken]
    omega
  · exact h.length_le
  · exact (Nat.add_zero _).symm
  · have hdrop := congrArg (List.drop w.length) h.cells
    rw [List.drop_drop, List.drop_left, ← hposition] at hdrop
    exact hdrop
  · intro hinput
    rcases h.full hinput with ⟨hnull, hp⟩ | ⟨h1, h2, h3⟩
    · left
      have hsize := h.size
      have hle := h.length_le
      rw [hnull, List.length_nil] at hsize
      exact ⟨hnull, by omega⟩
    · right
      refine ⟨h1, h2, ?_⟩
      dsimp only [FastCharStream.beginToken]
      omega
  · intro c hc
    apply h.ne_nul c
    rw [List.nil_append] at hc
    rw [List.append_assoc]
    exact List.mem_append_right _ hc

theorem Reading.backup {w' : QString} (h : s.Reading p (w ++ w') b) : (s.backup w'.length).Reading p w (w' ++ b) := by
  have hposition := h.position
  rw [List.length_append] at hposition
  constructor
  · exact h.size
  · exact h.start
  · exact h.length_le
  · dsimp only [FastCharStream.backup]
    omega
  · rw [← List.append_assoc]
    exact h.cells
  · exact h.full
  · rw [← List.append_assoc]
    exact h.ne_nul

theorem Reading.GetImage (h : s.Reading p w b) : s.GetImage = w := by
  have hlength := h.length
  have hposition := h.position
  have hstart := h.start
  have hnul : ∀ c ∈ w, c ≠ 0 := fun c hc => h.ne_nul c (by simp [hc])
  have htake : (s.buffer.drop s.tokenStart).take w.length = w := by
    have hcells := congrArg (List.take w.length) h.cells
    rw [List.take_left, List.drop_take, List.take_take, min_eq_left (by omega)] at hcells
    exact hcells
  unfold FastCharStream.GetImage
  rw [hposition, Nat.add_sub_cancel_left, _tcsncpy_eq htake rfl hnul, List.takeWhile_eq_self_iff]
  exact fun c hc => decide_eq_true (hnul c hc)

/-- **Calls of `readChar`** that stay in the buffer, or go on to the end of the text. -/
theorem Reading.calls (h : s.Reading p w b) {k n : ℕ} (hk : s.input = [] ∨ k ≤ b.length) (hn : k ≤ n) :
    (s.ahead n).take k = b.take k ∧
      ∃ s', s.after k = some s' ∧ s'.Reading p (w ++ b.take k) (b.drop k) ∧ s'.input = s.input := by
  induction k generalizing s w b n with
  | zero =>
    refine ⟨rfl, s, rfl, ?_, rfl⟩
    rw [List.take_zero, List.append_nil, List.drop_zero]
    exact h
  | succ k ih =>
    obtain ⟨n, rfl⟩ : ∃ m, n = m + 1 := ⟨n - 1, by omega⟩
    cases b with
    | nil =>
      have hinput : s.input = [] := by
        rcases hk with hinput | hk
        · exact hinput
        · cases hk
      obtain ⟨s', hchar, hreading, hinput'⟩ := h.eof hinput
      obtain ⟨-, u, hafter, hu, huinput⟩ := ih hreading (n := n) (Or.inl hinput') (by omega)
      refine ⟨?_, u, ?_, ?_, ?_⟩
      · rw [ahead, hchar]
      · rw [after, hchar]
        exact hafter
      · simpa using hu
      · rw [huinput, hinput', hinput]
    | cons c b =>
      obtain ⟨hchar, hreading⟩ := h.readChar
      have hk' : s.input = [] ∨ k ≤ b.length := hk.imp_right Nat.le_of_succ_le_succ
      obtain ⟨hahead, u, hafter, hu, huinput⟩ := ih hreading (n := n) hk' (by omega)
      refine ⟨?_, u, ?_, ?_, huinput⟩
      · rw [ahead, hchar]
        exact congrArg (c :: ·) hahead
      · rw [after, hchar]
        exact hafter
      · simpa using hu

end FastCharStream

/-! ## The tokens -/

namespace QueryParserTokenManager

/-- The tokens of a text past its first `skip` characters. -/
def tokensFrom : LexState → ℕ → QString → TokenStream
  | _, _, [] => .eof
  | curLexState, skip + 1, _ :: input => tokensFrom curLexState skip input
  | curLexState, 0, curChar :: input =>
    match jjMove curLexState (curChar :: input) with
    | none => .lexicalError
    | some (kind, length) =>
      let rest := tokensFrom (jjnewLexState curLexState kind) (length - 1) input
      if kind = .whitespace then rest else .next ⟨kind, (curChar :: input).take length⟩ rest

/-- No token is read across a multiple of 2048 characters: those of a text past its first `skip`
characters, which is `p` characters into the whole. -/
def unbrokenFrom : LexState → (skip p : ℕ) → QString → Bool
  | _, _, _, [] => true
  | curLexState, skip + 1, p, _ :: input => unbrokenFrom curLexState skip (p + 1) input
  | curLexState, 0, p, curChar :: input =>
    p % 2048 + min (jjAsks curLexState (curChar :: input)) (input.length + 1) ≤ 2048 &&
      match jjMove curLexState (curChar :: input) with
      | none => true
      | some (kind, length) => unbrokenFrom (jjnewLexState curLexState kind) (length - 1) (p + 1) input

/-- **No token is read across the end of the buffer.** -/
def Unbroken (query : QString) : Prop := unbrokenFrom .DEFAULT 0 0 (cString query) = true

instance (query : QString) : Decidable (Unbroken query) := inferInstanceAs (Decidable (_ = _))

theorem tokensFrom_drop (st : LexState) (i : ℕ) (s : QString) : tokensFrom st i s = tokensFrom st 0 (s.drop i) := by
  induction s generalizing i with
  | nil =>
    rw [List.drop_nil]
    cases i with
    | zero => rfl
    | succ i => rfl
  | cons c s ih =>
    cases i with
    | zero => rfl
    | succ i => exact ih i

theorem unbrokenFrom_drop (st : LexState) {i p : ℕ} {s : QString} (hi : i ≤ s.length) :
    unbrokenFrom st i p s = unbrokenFrom st 0 (p + i) (s.drop i) := by
  induction s generalizing i p with
  | nil =>
    obtain rfl : i = 0 := Nat.le_zero.1 hi
    rfl
  | cons c s ih =>
    cases i with
    | zero => rfl
    | succ i =>
      rw [unbrokenFrom, ih (Nat.le_of_succ_le_succ hi), List.drop_succ_cons, Nat.add_assoc, Nat.add_comm 1]

/-- What a text begins with, and the tokens that follow. -/
theorem tokensFrom_append {st : LexState} {w rest : QString} {k : TokenKind} (h : jjMove st (w ++ rest) = some (k, w.length)) :
    tokensFrom st 0 (w ++ rest) = if k = .whitespace then tokensFrom (jjnewLexState st k) 0 rest
      else .next ⟨k, w⟩ (tokensFrom (jjnewLexState st k) 0 rest) := by
  cases w with
  | nil => exact absurd (jjMove_bounds h).1 (lt_irrefl 0)
  | cons c w =>
    have hrest : tokensFrom (jjnewLexState st k) ((c :: w).length - 1) (w ++ rest) =
        tokensFrom (jjnewLexState st k) 0 rest := by
      rw [tokensFrom_drop, List.length_cons, Nat.add_sub_cancel, List.drop_left]
    have htake : (c :: (w ++ rest)).take (c :: w).length = c :: w := List.take_left
    rw [List.cons_append] at h ⊢
    rw [tokensFrom, h]
    dsimp only
    rw [hrest, htake]

theorem tokensFrom_none {st : LexState} {s : QString} (hs : s ≠ []) (h : jjMove st s = none) :
    tokensFrom st 0 s = .lexicalError := by
  cases s with
  | nil => exact absurd rfl hs
  | cons c s =>
    rw [tokensFrom, h]

/-- A text is empty, begins with no token, or with one. -/
theorem exists_token_or (st : LexState) (s : QString) : s = [] ∨ (s ≠ [] ∧ jjMove st s = none) ∨
    ∃ w rest k, s = w ++ rest ∧ 0 < w.length ∧ jjMove st (w ++ rest) = some (k, w.length) := by
  by_cases hs : s = []
  · exact Or.inl hs
  · right
    cases h : jjMove st s with
    | none => exact Or.inl ⟨hs, rfl⟩
    | some x =>
      obtain ⟨hpos, hle⟩ := jjMove_bounds h
      have hlength : (s.take x.2).length = x.2 := List.length_take_of_le hle
      refine Or.inr ⟨s.take x.2, s.drop x.2, x.1, (List.take_append_drop _ _).symm, ?_, ?_⟩
      · omega
      · rw [List.take_append_drop, h, hlength]

/-- An unbroken text: the first token, and those that follow. -/
theorem unbrokenFrom_token {st : LexState} {p : ℕ} {s : QString} (hs : s ≠ []) (h : unbrokenFrom st 0 p s = true) :
    p % 2048 + min (jjAsks st s) s.length ≤ 2048 ∧ ∀ k i, jjMove st s = some (k, i) →
      unbrokenFrom (jjnewLexState st k) 0 (p + i) (s.drop i) = true := by
  cases s with
  | nil => exact absurd rfl hs
  | cons c s =>
    rw [unbrokenFrom, Bool.and_eq_true, decide_eq_true_eq] at h
    obtain ⟨hfits, hrest⟩ := h
    refine ⟨hfits, fun k i hmove => ?_⟩
    obtain ⟨hpos, hle⟩ := jjMove_bounds hmove
    obtain ⟨i, rfl⟩ : ∃ j, i = j + 1 := ⟨i - 1, by omega⟩
    rw [hmove] at hrest
    dsimp only at hrest
    rw [Nat.add_sub_cancel, unbrokenFrom_drop _ (Nat.le_of_succ_le_succ hle), Nat.add_assoc, Nat.add_comm 1] at hrest
    exact hrest

/-- A short text is unbroken. -/
theorem unbrokenFrom_of_length {st : LexState} {p : ℕ} {s : QString} (h : p + s.length ≤ 2048) :
    unbrokenFrom st 0 p s = true := by
  induction hn : s.length using Nat.strong_induction_on generalizing st p s with
  | _ n ih =>
    cases s with
    | nil => rfl
    | cons c s =>
      have hmod : p % 2048 ≤ p := Nat.mod_le p 2048
      rw [List.length_cons] at h hn
      rw [unbrokenFrom, Bool.and_eq_true, decide_eq_true_eq]
      refine ⟨by omega, ?_⟩
      cases hmove : jjMove st (c :: s) with
      | none => rfl
      | some x =>
        obtain ⟨hpos, hle⟩ := jjMove_bounds hmove
        rw [List.length_cons] at hle
        have hlength : (s.drop (x.2 - 1)).length = s.length - (x.2 - 1) := List.length_drop
        dsimp only
        rw [unbrokenFrom_drop _ (by omega)]
        exact ih (s.drop (x.2 - 1)).length (by omega) (by omega) rfl

/-- A token may be read: there is no more text, or its characters are in the buffer. -/
theorem exists_filled {s : FastCharStream} {p k : ℕ} {b : QString} (h : s.Reading p [] b)
    (hk : p % 2048 + min k (b ++ s.input).length ≤ 2048) : ∃ (s' : FastCharStream) (b' : QString), s'.Reading p [] b' ∧
      b' ++ s'.input = b ++ s.input ∧ (s'.input = [] ∨ k ≤ b'.length) ∧
      (∀ n, s.ahead n = s'.ahead n) ∧ ∀ n, 0 < n → s.after n = s'.after n := by
  -- where there is more text the buffer is full
  have hfull : ∀ (s : FastCharStream) (b : QString), s.Reading p [] b → b ≠ [] →
      p % 2048 + min k (b ++ s.input).length ≤ 2048 → s.input = [] ∨ k ≤ b.length := by
    intro s b h hb hk
    by_cases hinput : s.input = []
    · exact Or.inl hinput
    · right
      have hpos := List.length_pos_of_ne_nil hb
      have hmore := List.length_pos_of_ne_nil hinput
      have hlength := h.length
      rw [List.length_nil, Nat.zero_add] at hlength
      rw [List.length_append] at hk
      rcases h.full hinput with ⟨hnull, -⟩ | ⟨-, h2, h3⟩
      · have hsize := h.size
        have hle := h.length_le
        rw [hnull, List.length_nil] at hsize
        omega
      · omega
  by_cases hb : b = [] ∧ s.input ≠ []
  · obtain ⟨rfl, hinput⟩ := hb
    obtain ⟨s', hchar, hreading, hinput'⟩ := h.refill hinput
    have htext : s.input.take 2048 ++ s'.input = s.input := by rw [hinput', List.take_append_drop]
    have hne : s.input.take 2048 ≠ [] := by
      intro hnil
      rcases List.take_eq_nil_iff.1 hnil with h0 | h0
      · cases h0
      · exact hinput h0
    refine ⟨s', s.input.take 2048, hreading, htext, hfull s' _ hreading hne (by rwa [htext]), ?_, ?_⟩
    · intro n
      cases n with
      | zero => rfl
      | succ n => rw [FastCharStream.ahead, FastCharStream.ahead, hchar]
    · intro n hn
      obtain ⟨n, rfl⟩ : ∃ m, n = m + 1 := ⟨n - 1, by omega⟩
      rw [FastCharStream.after, FastCharStream.after, hchar]
  · refine ⟨s, b, h, rfl, ?_, fun _ => rfl, fun _ _ => rfl⟩
    by_cases hnil : b = []
    · left
      by_contra hinput
      exact hb ⟨hnil, hinput⟩
    · exact hfull s b h hnil hk

/-- **A token is read as in the text**, where the end of the buffer does not come within it. -/
theorem read_token {s : FastCharStream} {st : LexState} {p n : ℕ} {b text : QString} (h : s.Reading p [] b)
    (htext : b ++ s.input = text) (hk : p % 2048 + min (jjAsks st text) text.length ≤ 2048) (hn : text.length < n) :
    (s.ahead n).take (jjAsks st text) = text.take (jjAsks st text) ∧
      ∃ s' b', s.after (jjAsks st text) = some s' ∧ s'.Reading p (text.take (jjAsks st text)) b' ∧
        b' ++ s'.input = text.drop (jjAsks st text) := by
  subst htext
  obtain ⟨hpos, hle⟩ := jjAsks_bounds st (b ++ s.input)
  obtain ⟨s₁, b₁, hreading, htext, hroom, hahead, hafter⟩ := exists_filled h hk
  obtain ⟨htake, s', hs', hreading', hinput'⟩ := hreading.calls hroom (show jjAsks st (b ++ s.input) ≤ n by omega)
  rw [← htext] at *
  have htake₁ : (b₁ ++ s₁.input).take (jjAsks st (b₁ ++ s₁.input)) = b₁.take (jjAsks st (b₁ ++ s₁.input)) := by
    rcases hroom with hinput | hroom
    · rw [hinput, List.append_nil]
    · exact List.take_append_of_le_length hroom
  have hdrop₁ : (b₁ ++ s₁.input).drop (jjAsks st (b₁ ++ s₁.input)) = b₁.drop (jjAsks st (b₁ ++ s₁.input)) ++ s₁.input := by
    rcases hroom with hinput | hroom
    · rw [hinput, List.append_nil, List.append_nil]
    · exact List.drop_append_of_le_length hroom
  refine ⟨?_, s', b₁.drop (jjAsks st (b₁ ++ s₁.input)), ?_, ?_, ?_⟩
  · rw [hahead, htake, htake₁]
  · rw [hafter _ (jjAsks_bounds st _).1, hs']
  · rw [htake₁]
    rwa [List.nil_append] at hreading'
  · rw [hinput', hdrop₁]

/-- **The tokens of a stream** are those of the text that it has still to read. -/
theorem getTokens_eq {overread : LexState → FastCharStream → TokenStream} {n p : ℕ} {st : LexState} {s : FastCharStream}
    {w b text : QString} (h : s.Reading p w b) (htext : b ++ s.input = text) (hn : text.length < n)
    (hunbroken : unbrokenFrom st 0 (p + w.length) text = true) :
    getTokens overread n st s = tokensFrom st 0 text := by
  induction n generalizing p st s w b text with
  | zero => exact absurd hn (Nat.not_lt_zero _)
  | succ n ih =>
    have hfits : (p + w.length) % 2048 + min (jjAsks st text) text.length ≤ 2048 := by
      by_cases hnil : text = []
      · subst hnil
        have hmod := Nat.mod_lt (p + w.length) (show 0 < 2048 by decide)
        rw [List.length_nil, Nat.min_zero]
        exact hmod.le
      · exact (unbrokenFrom_token hnil hunbroken).1
    obtain ⟨htake, s', b', hafter, hreading, hdrop⟩ := read_token h.beginToken htext hfits hn
    obtain ⟨hmove, hasks⟩ := jjMove_congr htake
    obtain ⟨hpos, -⟩ := jjAsks_bounds st text
    have hread : min (jjAsks st text) (s.beginToken.ahead (n + 1)).length = (text.take (jjAsks st text)).length := by
      rw [← htake, List.length_take]
    have hnil : s.beginToken.ahead (n + 1) = [] ↔ text = [] := by
      rw [← List.length_eq_zero_iff, ← List.length_eq_zero_iff]
      rw [List.length_take] at hread
      omega
    unfold getTokens
    dsimp only
    rw [hasks, hafter, hmove, hread]
    dsimp only
    rcases exists_token_or st text with htext | ⟨hne, hnone⟩ | ⟨v, rest, k, htext, hv, hfirst⟩
    · rw [if_pos (hnil.2 htext), htext]
      cases st
      all_goals rfl
    · rw [if_neg (hnil.not.2 hne), hnone, tokensFrom_none hne hnone]
    · have hne : text ≠ [] := by
        rintro rfl
        rw [eq_comm, List.append_eq_nil_iff] at htext
        rw [htext.1] at hv
        exact absurd hv (lt_irrefl 0)
      rw [← htext] at hfirst
      obtain ⟨v', hv'⟩ : ∃ v', text.take (jjAsks st text) = v ++ v' := by
        have hprefix : v <+: text.take (jjAsks st text) := by
          rw [List.prefix_take_iff]
          exact ⟨htext ▸ List.prefix_append v rest, jjMove_asks hfirst⟩
        obtain ⟨v', hv'⟩ := hprefix
        exact ⟨v', hv'.symm⟩
      have hrest : v' ++ b' ++ s'.input = rest := by
        have hsplit := List.take_append_drop (jjAsks st text) text
        rw [hv', ← hdrop, htext, List.append_assoc] at hsplit
        rw [List.append_assoc]
        exact List.append_cancel_left hsplit
      rw [hv'] at hreading
      rw [hv', List.length_append]
      have hback := hreading.backup
      have hlength : text.length = v.length + rest.length := by rw [htext, List.length_append]
      have hunbroken' := (unbrokenFrom_token hne hunbroken).2 k v.length hfirst
      have hdrop' : text.drop v.length = rest := by rw [htext, List.drop_left]
      rw [hdrop'] at hunbroken'
      have hnext := ih hback hrest (by omega) hunbroken'
      have himage : jjFillToken (s'.backup v'.length) k = ⟨k, v⟩ := by
        unfold jjFillToken
        split_ifs with hstar
        · subst hstar
          have hone := take_of_star hfirst
          rw [htext, List.take_left] at hone
          rw [hone]
        · rw [hback.GetImage]
      rw [if_neg (hnil.not.2 hne), hfirst]
      dsimp only
      rw [Nat.add_sub_cancel_left, hnext, himage, htext, tokensFrom_append (htext ▸ hfirst)]

/-- **The tokens of an unbroken text** are those that it has. -/
theorem tokens_eq (overread : LexState → FastCharStream → TokenStream) {query : QString} (h : Unbroken query) :
    tokens overread query = tokensFrom .DEFAULT 0 (cString query) := by
  have hnul : ∀ c ∈ cString query, c ≠ 0 := by
    intro c hc
    have hne := List.mem_takeWhile_imp hc
    exact of_decide_eq_true hne
  exact getTokens_eq (FastCharStream.reading_new hnul) rfl (Nat.lt_succ_self _) h

/-- A text that fits into the buffer is unbroken. -/
theorem Unbroken.of_length {query : QString} (h : (cString query).length ≤ 2048) : Unbroken query :=
  unbrokenFrom_of_length (by omega)

end QueryParserTokenManager

end QDesktopSearch
