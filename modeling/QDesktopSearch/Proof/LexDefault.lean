import QDesktopSearch.Proof.Stars

/-!
# The lexical state `DEFAULT`

What the token manager reads by its first character: `jjMove_run` for terms, `jjMove_quote` for
quoted texts and `jjMove_slop` for slops. `jjMove_DEFAULT_stays`: when a token stays one without
its stars.
-/

namespace QDesktopSearch

namespace QueryParserTokenManager

open Automaton Searcher

variable {c : QChar} {n : ℕ} {m : Option (TokenKind × ℕ)}

/-! ## Terms -/

/-- Characters of a term with wildcards, and characters that are escaped. -/
inductive Run : QString → Prop
  | nil : Run []
  | char {c : QChar} {s : QString} : isWildChar c = true → Run s → Run (c :: s)
  | escape {d : QChar} {s : QString} : Run s → Run (chr '\\' :: d :: s)

/-- A text that does not begin with one. -/
inductive Ends : QString → Prop
  | nil : Ends []
  | lone : Ends [chr '\\']
  | char {c : QChar} {s : QString} : isWildChar c = false → c ≠ chr '\\' → Ends (c :: s)

theorem isWildChar_backslash : isWildChar (chr '\\') = false := by decide

theorem exists_run : ∀ s : QString, ∃ w r, s = w ++ r ∧ Run w ∧ Ends r
  | [] => ⟨[], [], rfl, .nil, .nil⟩
  | [c] => by
    cases hc : isWildChar c with
    | true => exact ⟨[c], [], rfl, .char hc .nil, .nil⟩
    | false =>
      by_cases hb : c = chr '\\'
      · subst hb
        exact ⟨[], _, rfl, .nil, .lone⟩
      · exact ⟨[], _, rfl, .nil, .char hc hb⟩
  | c :: d :: s => by
    cases hc : isWildChar c with
    | true =>
      obtain ⟨w, r, hs, hw, hr⟩ := exists_run (d :: s)
      exact ⟨c :: w, r, by rw [hs, List.cons_append], .char hc hw, hr⟩
    | false =>
      by_cases hb : c = chr '\\'
      · subst hb
        obtain ⟨w, r, hs, hw, hr⟩ := exists_run s
        exact ⟨_ :: d :: w, r, by rw [hs]; rfl, .escape hw, hr⟩
      · exact ⟨[], _, rfl, .nil, .char hc hb⟩

/-- A star does not end a run, so that what follows one begins the same without its stars. -/
theorem Ends.text4highlight {r : QString} (h : Ends r) : Ends (text4highlight r) := by
  cases h with
  | nil => exact .nil
  | lone =>
    rw [text4highlight_cons (by decide), text4highlight_nil]
    exact .lone
  | @char c s hc hb =>
    have hstar : c ≠ chr '*' := by
      rintro rfl
      cases hc
    rw [text4highlight_cons hstar]
    exact .char hc hb

/-- The states of the automaton between the characters of a term. -/
def termStates : Finset ℕ := {25, 26, 29, 30, 32, 23, 33, 1, 2, 4, 6, 8, 10, 11}

/-- Its states after a backslash. -/
def escapeStates : Finset ℕ := {27, 31, 34}

/-- The states between the characters of a term, among which are those that read any term. -/
def InTerm (S : Finset ℕ) : Prop := S ⊆ termStates ∧ 25 ∈ S ∧ 26 ∈ S

/-- The states after a backslash, among which is the one that reads any character. -/
def InEscape (S : Finset ℕ) : Prop := S ⊆ escapeStates ∧ 27 ∈ S

variable {S : Finset ℕ}

theorem nexts_subset {U : Finset ℕ} (h : ∀ s ∈ S, (move_3 s c).2 ⊆ U) : jjMoveNfa_3.nexts S c ⊆ U :=
  Finset.biUnion_subset.2 h

theorem mem_nexts {s t : ℕ} (hs : s ∈ S) (ht : t ∈ (move_3 s c).2) : t ∈ jjMoveNfa_3.nexts S c :=
  Finset.mem_biUnion.2 ⟨s, hs, ht⟩

theorem kinds_eq_top (h : ∀ s ∈ S, (move_3 s c).1 = ⊤) : jjMoveNfa_3.kinds S c = ⊤ := by
  rw [kinds, Finset.inf_eq_top_iff]
  exact h

theorem on_subset {b : Bool} {k : WithTop TokenKind} {T U : Finset ℕ} (h : b = true → T ⊆ U) : (on b k T).2 ⊆ U := by
  cases b with
  | true => exact h rfl
  | false => exact Finset.empty_subset U

/-- A state that matches a kind leaves no less. -/
theorem exists_kinds {s : ℕ} {k : TokenKind} (hs : s ∈ S) (hk : (move_3 s c).1 = k) :
    ∃ k' : TokenKind, jjMoveNfa_3.kinds S c = k' := by
  have hle : jjMoveNfa_3.kinds S c ≤ k := by
    rw [← hk]
    exact Finset.inf_le hs
  obtain ⟨k', hk', -⟩ := WithTop.le_coe_iff.1 hle
  exact ⟨k', hk'⟩

/-- A character of a term goes on with it, and matches. -/
theorem InTerm.char (hS : InTerm S) (hc : isWildChar c = true) :
    InTerm (jjMoveNfa_3.nexts S c) ∧ ∃ k : TokenKind, jjMoveNfa_3.kinds S c = k := by
  have h25 : move_3 25 c = ((TokenKind.WILDTERM : WithTop TokenKind), {25, 26}) := by simp [move_3, on, hc]
  have hsubset : ∀ s ∈ termStates, (move_3 s c).2 ⊆ termStates := by
    have hb : c ≠ chr '\\' := by
      rintro rfl
      rw [isWildChar_backslash] at hc
      cases hc
    intro s hs
    simp only [termStates, Finset.mem_insert, Finset.mem_singleton] at hs
    rcases hs with rfl | rfl | rfl | rfl | rfl | rfl | rfl | rfl | rfl | rfl | rfl | rfl | rfl | rfl
    all_goals
      apply on_subset
      intro h
      first
        | decide
        | exact absurd (of_decide_eq_true h) hb
  refine ⟨⟨?_, ?_, ?_⟩, ?_⟩
  · exact nexts_subset fun s hs => hsubset s (hS.1 hs)
  · exact mem_nexts hS.2.1 (by rw [h25]; decide)
  · exact mem_nexts hS.2.1 (by rw [h25]; decide)
  · exact exists_kinds hS.2.1 (by rw [h25])

/-- A backslash waits for the character that it escapes. -/
theorem InTerm.backslash (hS : InTerm S) :
    InEscape (jjMoveNfa_3.nexts S (chr '\\')) ∧ jjMoveNfa_3.kinds S (chr '\\') = ⊤ := by
  have hmove : ∀ s ∈ termStates, (move_3 s (chr '\\')).2 ⊆ escapeStates ∧ (move_3 s (chr '\\')).1 = ⊤ := by decide
  refine ⟨⟨?_, ?_⟩, ?_⟩
  · exact nexts_subset fun s hs => (hmove s (hS.1 hs)).1
  · exact mem_nexts hS.2.2 (by decide)
  · exact kinds_eq_top fun s hs => (hmove s (hS.1 hs)).2

/-- Any character may be escaped. -/
theorem InEscape.char (hS : InEscape S) :
    InTerm (jjMoveNfa_3.nexts S c) ∧ ∃ k : TokenKind, jjMoveNfa_3.kinds S c = k := by
  have h27 : move_3 27 c = ((TokenKind.WILDTERM : WithTop TokenKind), {25, 26}) := by simp [move_3, on]
  have hsubset : ∀ s ∈ escapeStates, (move_3 s c).2 ⊆ termStates := by
    intro s hs
    simp only [escapeStates, Finset.mem_insert, Finset.mem_singleton] at hs
    rcases hs with rfl | rfl | rfl
    all_goals
      simp only [move_3, on, isAny_eq, if_true]
      decide
  refine ⟨⟨?_, ?_, ?_⟩, ?_⟩
  · exact nexts_subset fun s hs => hsubset s (hS.1 hs)
  · exact mem_nexts hS.2 (by rw [h27]; decide)
  · exact mem_nexts hS.2 (by rw [h27]; decide)
  · exact exists_kinds hS.2 (by rw [h27])

/-- Any other character ends a term. -/
theorem InTerm.stop (hS : InTerm S) (hc : isWildChar c = false) (hb : c ≠ chr '\\') :
    jjMoveNfa_3.kinds S c = ⊤ ∧ jjMoveNfa_3.nexts S c = ∅ := by
  have hne : ∀ d : Char, isWildChar (chr d) = true → c ≠ chr d := by
    rintro d hd rfl
    rw [hd] at hc
    cases hc
  have hterm : isTermChar c = false := by
    rw [← Bool.not_eq_true]
    intro h
    rw [isWildChar_of_isTermChar h] at hc
    cases hc
  have hmove : ∀ s ∈ termStates, move_3 s c = (⊤, ∅) := by
    intro s hs
    simp only [termStates, Finset.mem_insert, Finset.mem_singleton] at hs
    rcases hs with rfl | rfl | rfl | rfl | rfl | rfl | rfl | rfl | rfl | rfl | rfl | rfl | rfl | rfl
    all_goals simp [move_3, on, hc, hb, hterm, hne '*' (by decide), hne 'D' (by decide), hne 'N' (by decide),
      hne '&' (by decide), hne 'R' (by decide), hne '|' (by decide), hne 'T' (by decide), hne 'O' (by decide)]
  refine ⟨kinds_eq_top fun s hs => by rw [hmove s (hS.1 hs)], ?_⟩
  rw [← Finset.subset_empty]
  exact nexts_subset fun s hs => by rw [hmove s (hS.1 hs)]

/-- **What follows a run** makes no difference to how it is read. -/
theorem InTerm.munch {w r : QString} (hw : Run w) (hr : Ends r) (hS : InTerm S) :
    jjMoveNfa_3.munch S (w ++ r) n m = jjMoveNfa_3.munch S w n m := by
  induction hw generalizing S n m with
  | nil =>
    rw [List.nil_append, munch_nil]
    cases hr with
    | nil => exact munch_nil
    | lone =>
      rw [munch_cons hS.backslash.2 rfl, munch_nil, matched_top]
    | char hc hb =>
      obtain ⟨hkinds, hnexts⟩ := hS.stop hc hb
      exact munch_stop hkinds hnexts
  | char hc _ ih =>
    rw [List.cons_append, munch_cons rfl rfl, munch_cons rfl rfl]
    exact ih (hS.char hc).1
  | escape _ ih =>
    rw [List.cons_append, List.cons_append, munch_cons rfl rfl, munch_cons rfl rfl, munch_cons rfl rfl,
      munch_cons rfl rfl]
    exact ih hS.backslash.1.char.1

/-- A run is read to its end. -/
theorem InTerm.munch_run {w : QString} (hw : Run w) (hS : InTerm S) (h : w = [] → ∃ k, m = some (k, n)) :
    ∃ k, jjMoveNfa_3.munch S w n m = some (k, n + w.length) := by
  induction hw generalizing S n m with
  | nil =>
    rw [munch_nil]
    exact h rfl
  | @char c s hc _ ih =>
    obtain ⟨hS', k, hk⟩ := hS.char hc
    have hlength : n + (c :: s).length = n + 1 + s.length := by
      rw [List.length_cons]
      omega
    rw [munch_cons hk rfl, matched_coe, hlength]
    exact ih hS' fun _ => ⟨k, rfl⟩
  | @escape d s _ ih =>
    obtain ⟨hS', k, hk⟩ := hS.backslash.1.char (c := d)
    have hlength : n + (chr '\\' :: d :: s).length = n + 1 + 1 + s.length := by
      rw [List.length_cons, List.length_cons]
      omega
    rw [munch_cons hS.backslash.2 rfl, munch_cons hk rfl, matched_coe, hlength]
    exact ih hS' fun _ => ⟨k, rfl⟩

/-! ## What a text begins with -/

/-- The characters that are tokens by themselves. -/
def literals : List (QChar × TokenKind) :=
  [(chr '(', .LPAREN), (chr ')', .RPAREN), (chr '+', .PLUS), (chr '-', .MINUS), (chr ':', .COLON),
    (chr '[', .RANGEIN_START), (chr '^', .CARAT), (chr '{', .RANGEEX_START)]

theorem jjMove_literal {k : TokenKind} (h : (c, k) ∈ literals) (s : QString) :
    jjMoveStringLiteralDfa0_3 (c :: s) = some (k, 1) := by
  simp only [literals, List.mem_cons, List.not_mem_nil, or_false, Prod.mk.injEq] at h
  rcases h with ⟨rfl, rfl⟩ | ⟨rfl, rfl⟩ | ⟨rfl, rfl⟩ | ⟨rfl, rfl⟩ | ⟨rfl, rfl⟩ | ⟨rfl, rfl⟩ | ⟨rfl, rfl⟩ | ⟨rfl, rfl⟩
  all_goals rfl

/-- Any other character but the star is read by the automaton. -/
theorem jjMove_of_not_literal (h : ∀ k, (c, k) ∉ literals) (hstar : c ≠ chr '*') (s : QString) :
    jjMoveStringLiteralDfa0_3 (c :: s) = jjMoveNfa_3.munch {0} (c :: s) 0 none := by
  have hne : ∀ d k, (chr d, k) ∈ literals → c ≠ chr d := by
    rintro d k hd rfl
    exact h k hd
  rw [jjMoveStringLiteralDfa0_3, if_neg (hne '(' .LPAREN (by decide)), if_neg (hne ')' .RPAREN (by decide)),
    if_neg hstar, if_neg (hne '+' .PLUS (by decide)), if_neg (hne '-' .MINUS (by decide)),
    if_neg (hne ':' .COLON (by decide)), if_neg (hne '[' .RANGEIN_START (by decide)),
    if_neg (hne '^' .CARAT (by decide)), if_neg (hne '{' .RANGEEX_START (by decide))]

theorem foldr_subset {l : List (WithTop TokenKind × Finset ℕ)} {U : Finset ℕ} (h : ∀ x ∈ l, x.2 ⊆ U) :
    (l.foldr both (⊤, ∅)).2 ⊆ U := by
  induction l with
  | nil => exact Finset.empty_subset U
  | cons x l ih =>
    obtain ⟨hx, hl⟩ := List.forall_mem_cons.1 h
    exact Finset.union_subset hx (ih hl)

theorem mem_foldr {l : List (WithTop TokenKind × Finset ℕ)} {x : WithTop TokenKind × Finset ℕ} {t : ℕ} (hx : x ∈ l)
    (ht : t ∈ x.2) : t ∈ (l.foldr both (⊤, ∅)).2 := by
  induction l with
  | nil => cases hx
  | cons y l ih =>
    rcases List.mem_cons.1 hx with rfl | hx
    · exact Finset.mem_union_left _ ht
    · exact Finset.mem_union_right _ (ih hx)

theorem foldr_le {l : List (WithTop TokenKind × Finset ℕ)} {x : WithTop TokenKind × Finset ℕ} (hx : x ∈ l) :
    (l.foldr both (⊤, ∅)).1 ≤ x.1 := by
  induction l with
  | nil => cases hx
  | cons y l ih =>
    rcases List.mem_cons.1 hx with rfl | hx
    · exact min_le_left _ _
    · exact (min_le_right _ _).trans (ih hx)

theorem kinds_singleton (s : ℕ) (c : QChar) : jjMoveNfa_3.kinds {s} c = (move_3 s c).1 := Finset.inf_singleton

theorem nexts_singleton (s : ℕ) (c : QChar) : jjMoveNfa_3.nexts {s} c = (move_3 s c).2 := Finset.singleton_biUnion

/-- A character that a term may begin with. -/
theorem start_char (hc : isWildStart c = true) (hstar : c ≠ chr '*') :
    InTerm (jjMoveNfa_3.nexts {0} c) ∧ ∃ k : TokenKind, jjMoveNfa_3.kinds {0} c = k := by
  have hne : ∀ d : Char, isWildStart (chr d) = false → c ≠ chr d := by
    rintro d hd rfl
    rw [hd] at hc
    cases hc
  rw [kinds_singleton, nexts_singleton]
  have hfirst : on (isWildStart c) TokenKind.WILDTERM {25, 26} = ((TokenKind.WILDTERM : WithTop TokenKind), {25, 26}) := by
    simp [on, hc]
  refine ⟨⟨foldr_subset ?_, ?_, ?_⟩, ?_⟩
  · simp only [List.forall_mem_cons]
    refine ⟨?_, ?_, ?_, ?_, ?_, ?_, ?_, ?_, ?_, ?_, ?_, ?_, List.forall_mem_nil _⟩
    all_goals
      apply on_subset
      intro h
      first
        | decide
        | exact absurd (of_decide_eq_true h) (hne _ (by decide))
  · exact mem_foldr List.mem_cons_self (by rw [hfirst]; decide)
  · exact mem_foldr List.mem_cons_self (by rw [hfirst]; decide)
  · have hle : (move_3 0 c).1 ≤ (on (isWildStart c) TokenKind.WILDTERM {25, 26}).1 := foldr_le List.mem_cons_self
    rw [hfirst] at hle
    obtain ⟨k, hk, -⟩ := WithTop.le_coe_iff.1 hle
    exact ⟨k, hk⟩

theorem start_backslash :
    InEscape (jjMoveNfa_3.nexts {0} (chr '\\')) ∧ jjMoveNfa_3.kinds {0} (chr '\\') = ⊤ := by
  rw [kinds_singleton, nexts_singleton]
  exact ⟨⟨by decide, by decide⟩, by decide⟩

/-- A character that a term begins with, or the escape of one. -/
def Starts (c : QChar) : Prop := isWildStart c = true ∧ c ≠ chr '*' ∨ c = chr '\\'

theorem Starts.jjMove (h : Starts c) (s : QString) :
    jjMoveStringLiteralDfa0_3 (c :: s) = jjMoveNfa_3.munch {0} (c :: s) 0 none := by
  have hliterals : ∀ x ∈ literals, isWildStart x.1 = false ∧ x.1 ≠ chr '\\' := by decide
  have hliteral : ∀ k, (c, k) ∉ literals := by
    intro k hk
    obtain ⟨hstart, hbackslash⟩ := hliterals _ hk
    rcases h with ⟨hc, -⟩ | hc
    · rw [hc] at hstart
      cases hstart
    · exact hbackslash hc
  have hstar : c ≠ chr '*' := by
    rcases h with ⟨-, hc⟩ | rfl
    · exact hc
    · decide
  exact jjMove_of_not_literal hliteral hstar s

/-- **A run** is read to its end, whatever follows. -/
theorem jjMove_run {w r : QString} (hstart : Starts c) (hw : Run (c :: w)) (hr : Ends r) :
    jjMoveStringLiteralDfa0_3 (c :: (w ++ r)) = jjMoveStringLiteralDfa0_3 (c :: w) ∧
      ∃ k, jjMoveStringLiteralDfa0_3 (c :: w) = some (k, (c :: w).length) := by
  rw [hstart.jjMove, hstart.jjMove]
  cases hw with
  | char hc hw =>
    have hwild : isWildStart c = true ∧ c ≠ chr '*' := by
      rcases hstart with h | rfl
      · exact h
      · rw [isWildChar_backslash] at hc
        cases hc
    obtain ⟨hS, k, hk⟩ := start_char hwild.1 hwild.2
    rw [munch_cons hk rfl, munch_cons hk rfl]
    refine ⟨hS.munch hw hr, ?_⟩
    have hlength : (c :: w).length = 0 + 1 + w.length := by
      rw [List.length_cons]
      omega
    rw [hlength]
    exact hS.munch_run hw fun _ => ⟨k, rfl⟩
  | @escape d w hw =>
    obtain ⟨hS, hk⟩ := start_backslash
    obtain ⟨hS', k, hk'⟩ := hS.char (c := d)
    rw [List.cons_append, munch_cons hk rfl, munch_cons hk rfl, munch_cons hk' rfl, munch_cons hk' rfl]
    refine ⟨hS'.munch hw hr, ?_⟩
    have hlength : (chr '\\' :: d :: w).length = 0 + 1 + 1 + w.length := by
      rw [List.length_cons, List.length_cons]
      omega
    rw [hlength]
    exact hS'.munch_run hw fun _ => ⟨k, rfl⟩

/-! ## The lexical state `DEFAULT` -/

/-- The states of a quoted text. -/
def quotedStates (escaped : Bool) : Finset ℕ := if escaped then {15, 17, 18, 16} else {15, 17, 18}

theorem quotedStates_plain (e : Bool) (c : QChar) (hc : c ≠ chr '"') :
    jjMoveNfa_3.kinds (quotedStates e) c = ⊤ ∧ jjMoveNfa_3.nexts (quotedStates e) c = quotedStates (c = chr '\\') := by
  by_cases hb : c = chr '\\'
  · subst hb
    cases e with
    | false => decide
    | true => decide
  · cases e with
    | false => simp [quotedStates, kinds, nexts, jjMoveNfa_3, move_3, on, hc, hb]
    | true => simp [quotedStates, kinds, nexts, jjMoveNfa_3, move_3, on, hc, hb]

theorem quotedStates_quote (e : Bool) : jjMoveNfa_3.kinds (quotedStates e) (chr '"') = TokenKind.QUOTED ∧
    jjMoveNfa_3.nexts (quotedStates e) (chr '"') = if e then quotedStates false else ∅ := by
  cases e with
  | false => decide
  | true => decide

/-- A quoted text. -/
theorem jjMove_quote (s : QString) :
    jjMoveStringLiteralDfa0_3 (chr '"' :: s) = (lastQuote false s).map fun j => (.QUOTED, 1 + j) := by
  have hliteral : ∀ k, (chr '"', k) ∉ literals := by
    intro k hk
    have hne : ∀ x ∈ literals, x.1 ≠ chr '"' := by decide
    exact hne _ hk rfl
  have hkinds : jjMoveNfa_3.kinds {0} (chr '"') = ⊤ := by decide
  have hnexts : jjMoveNfa_3.nexts {0} (chr '"') = quotedStates false := by decide
  rw [jjMove_of_not_literal hliteral (by decide), munch_cons hkinds hnexts, matched_top,
    munch_quoted quotedStates_plain quotedStates_quote]
  cases lastQuote false s with
  | none => rfl
  | some j => rfl

/-- **Numbers**: states that match one kind, and do not read stars. -/
theorem munch_number {M : Automaton ℕ QChar TokenKind} (U : Finset ℕ) (number : TokenKind) {S : Finset ℕ}
    {k : TokenKind} {s : QString} {i : ℕ}
    (hnext : ∀ t ∈ U, ∀ c, M.next t c ⊆ U) (hkind : ∀ t ∈ U, ∀ c, M.kind t c = ⊤ ∨ M.kind t c = number)
    (hstar : ∀ t ∈ U, M.kind t (chr '*') = ⊤ ∧ M.next t (chr '*') = ∅) (hS : S ⊆ U)
    (h : M.munch S s n m = some (k, i)) : m = some (k, i) ∨ (k = number ∧ chr '*' ∉ s.take (i - n)) := by
  have hclosed : ∀ S c, S ⊆ U → M.nexts S c ⊆ U := fun S c hS =>
    Finset.biUnion_subset.2 fun t ht => hnext t (hS ht) c
  have hkinds : ∀ S c, S ⊆ U → ∀ k : TokenKind, M.kinds S c = k → k = number := by
    intro S c hS k hk
    have hne : S.Nonempty := by
      rw [Finset.nonempty_iff_ne_empty]
      rintro rfl
      rw [kinds, Finset.inf_empty] at hk
      cases hk
    obtain ⟨t, ht, heq⟩ := Finset.exists_mem_eq_inf S hne fun t => M.kind t c
    have hk' : M.kind t c = k := heq.symm.trans hk
    rcases hkind t (hS ht) c with htop | hnumber
    · rw [htop] at hk'
      cases hk'
    · rw [hnumber] at hk'
      cases hk'
      rfl
  have hstop : ∀ S c, S ⊆ U → ¬c ≠ chr '*' → M.kinds S c = ⊤ ∧ M.nexts S c = ∅ := by
    intro S c hS hc
    obtain rfl := not_not.1 hc
    constructor
    · rw [kinds, Finset.inf_eq_top_iff]
      exact fun t ht => (hstar t (hS ht)).1
    · rw [← Finset.subset_empty]
      exact Finset.biUnion_subset.2 fun t ht => (hstar t (hS ht)).2.subset
  rcases munch_kind hclosed hkinds hS h with h' | h'
  · exact Or.inl h'
  · rcases munch_take hclosed hstop hS h with h'' | h''
    · exact Or.inl h''
    · exact Or.inr ⟨h', fun hmem => h'' _ hmem rfl⟩

/-- A slop is read by itself. -/
theorem jjMove_slop {s : QString} {k : TokenKind} {i : ℕ} (h : jjMoveStringLiteralDfa0_3 (chr '~' :: s) = some (k, i)) :
    k = .FUZZY_SLOP ∧ chr '*' ∉ (chr '~' :: s).take i := by
  have hliteral : ∀ k, (chr '~', k) ∉ literals := by
    intro k hk
    have hne : ∀ x ∈ literals, x.1 ≠ chr '~' := by decide
    exact hne _ hk rfl
  have hkinds : jjMoveNfa_3.kinds {0} (chr '~') = TokenKind.FUZZY_SLOP := by decide
  have hnexts : jjMoveNfa_3.nexts {0} (chr '~') = {20} := by decide
  rw [jjMove_of_not_literal hliteral (by decide), munch_cons hkinds hnexts, matched_coe] at h
  have hnext : ∀ t ∈ ({20, 21, 22} : Finset ℕ), ∀ c, jjMoveNfa_3.next t c ⊆ {20, 21, 22} := by
    intro t ht c
    simp only [Finset.mem_insert, Finset.mem_singleton] at ht
    rcases ht with rfl | rfl | rfl
    all_goals
      apply on_subset
      intro _
      decide
  have hkind : ∀ t ∈ ({20, 21, 22} : Finset ℕ), ∀ c,
      jjMoveNfa_3.kind t c = ⊤ ∨ jjMoveNfa_3.kind t c = TokenKind.FUZZY_SLOP := by
    intro t ht c
    simp only [Finset.mem_insert, Finset.mem_singleton] at ht
    rcases ht with rfl | rfl | rfl
    all_goals
      simp only [jjMoveNfa_3, move_3, on]
      split_ifs
      all_goals simp
  have hlone : chr '*' ∉ (chr '~' :: s).take (0 + 1) := by
    rw [Nat.zero_add, List.take_succ_cons, List.take_zero]
    decide
  rcases munch_number {20, 21, 22} .FUZZY_SLOP hnext hkind (by decide) (by decide) h with hfirst | ⟨rfl, hstar⟩
  · cases hfirst
    exact ⟨rfl, hlone⟩
  · refine ⟨rfl, ?_⟩
    rcases munch_bounds h with hfirst | ⟨hi, -⟩
    · cases hfirst
      exact hlone
    · obtain ⟨j, rfl⟩ : ∃ j, i = 0 + 1 + j := ⟨i - (0 + 1), by omega⟩
      rw [Nat.add_sub_cancel_left] at hstar
      rw [Nat.zero_add, Nat.add_comm, List.take_succ_cons, List.mem_cons, not_or]
      exact ⟨by decide, hstar⟩

/-- A number is read by itself. -/
theorem jjMove_number {s : QString} {k : TokenKind} {i : ℕ} (h : jjMoveStringLiteralDfa0_0 s = some (k, i)) :
    k = .NUMBER ∧ chr '*' ∉ s.take i := by
  have hnext : ∀ t ∈ ({0, 1, 2} : Finset ℕ), ∀ c, jjMoveNfa_0.next t c ⊆ {0, 1, 2} := by
    intro t ht c
    simp only [Finset.mem_insert, Finset.mem_singleton] at ht
    rcases ht with rfl | rfl | rfl
    all_goals
      apply on_subset
      intro _
      decide
  have hkind : ∀ t ∈ ({0, 1, 2} : Finset ℕ), ∀ c,
      jjMoveNfa_0.kind t c = ⊤ ∨ jjMoveNfa_0.kind t c = TokenKind.NUMBER := by
    intro t ht c
    simp only [Finset.mem_insert, Finset.mem_singleton] at ht
    rcases ht with rfl | rfl | rfl
    all_goals
      simp only [jjMoveNfa_0, move_0, on]
      split_ifs
      all_goals simp
  rcases munch_number {0, 1, 2} .NUMBER hnext hkind (by decide) (by decide) h with hfirst | hnumber
  · cases hfirst
  · exact hnumber

/-- A token ends in the text, and is not empty. -/
theorem jjMove_DEFAULT_bounds {s : QString} {k : TokenKind} {i : ℕ} (h : jjMoveStringLiteralDfa0_3 s = some (k, i)) :
    0 < i ∧ i ≤ s.length := by
  cases s with
  | nil => cases h
  | cons c s =>
    by_cases hliteral : ∃ k, (c, k) ∈ literals
    · obtain ⟨k', hk'⟩ := hliteral
      rw [jjMove_literal hk'] at h
      cases h
      exact ⟨Nat.one_pos, Nat.succ_le_succ (Nat.zero_le _)⟩
    · rw [List.length_cons]
      by_cases hstar : c = chr '*'
      · subst hstar
        have hmunch : jjMoveNfa_3.munch {36} s 1 (some (.STAR, 1)) = some (k, i) := h
        rcases munch_bounds hmunch with hfirst | hlater
        · cases hfirst
          omega
        · omega
      · rw [jjMove_of_not_literal (fun k hk => hliteral ⟨k, hk⟩) hstar] at h
        rcases munch_bounds h with hfirst | hlater
        · cases hfirst
        · rw [List.length_cons] at hlater
          omega

/-- The automaton reads nothing that it does not know. -/
theorem jjMove_unknown {s : QString} (hliteral : ∀ k, (c, k) ∉ literals) (hstar : c ≠ chr '*')
    (hspace : isWhitespace c = false) (hquote : c ≠ chr '"') (hnot : c ≠ chr '!') (hslop : c ≠ chr '~')
    (hstart : ¬Starts c) : jjMoveStringLiteralDfa0_3 (c :: s) = none := by
  rw [Starts, not_or, not_and_not_right] at hstart
  have hwild : isWildStart c = false := by
    rw [← Bool.not_eq_true]
    exact fun h => hstar (hstart.1 h)
  have hterm : isTermStart c = false := by
    rw [← Bool.not_eq_true]
    intro h
    rw [isWildStart_of_isTermStart h] at hwild
    cases hwild
  have hne : ∀ d : Char, isWildStart (chr d) = true → c ≠ chr d := by
    rintro d hd rfl
    rw [hd] at hwild
    cases hwild
  have hmove : move_3 0 c = (⊤, ∅) := by
    simp [move_3, both, on, hwild, hterm, hspace, hquote, hnot, hslop, hstart.2, hne '&' (by decide),
      hne 'N' (by decide), hne '|' (by decide), hne 'O' (by decide), hne 'A' (by decide)]
  have hkinds : jjMoveNfa_3.kinds {0} c = ⊤ := by rw [kinds_singleton, hmove]
  have hnexts : jjMoveNfa_3.nexts {0} c = ∅ := by rw [nexts_singleton, hmove]
  rw [jjMove_of_not_literal hliteral hstar, munch_stop hkinds hnexts]

/-- A blank, and the exclamation mark. -/
theorem jjMove_single {s : QString} (h : isWhitespace c = true ∨ c = chr '!') :
    jjMoveStringLiteralDfa0_3 (c :: s) = some (if c = chr '!' then .NOT else .whitespace, 1) := by
  have hcases : c ∈ [9, 10, 13, 32, chr '!'] := by
    rcases h with h | rfl
    · simp only [isWhitespace, List.contains_eq_mem, decide_eq_true_eq] at h
      exact List.mem_append_left [chr '!'] h
    · decide
  -- over the list, as there is a finite number of code units to range over as well
  have hliteral : ([9, 10, 13, 32, chr '!'] : QString).all (fun c => decide ((∀ x ∈ literals, x.1 ≠ c) ∧ c ≠ chr '*' ∧
      jjMoveNfa_3.nexts {0} c = ∅ ∧
      jjMoveNfa_3.kinds {0} c = ((if c = chr '!' then .NOT else .whitespace : TokenKind) : WithTop TokenKind))) = true := by
    decide
  obtain ⟨hne, hstar, hnexts, hkinds⟩ := of_decide_eq_true (List.all_eq_true.1 hliteral c hcases)
  rw [jjMove_of_not_literal (fun k hk => hne _ hk rfl) hstar, munch_cons hkinds hnexts, munch_empty, matched_coe]

/-- A term is a run. -/
theorem exists_run_of_starts {s : QString} {k : TokenKind} {i : ℕ} (hstart : Starts c)
    (h : jjMoveStringLiteralDfa0_3 (c :: s) = some (k, i)) :
    ∃ w r, s = w ++ r ∧ Run (c :: w) ∧ Ends r ∧ i = (c :: w).length := by
  obtain ⟨w, r, heq, hw, hr⟩ := exists_run (c :: s)
  cases w with
  | nil =>
    rw [List.nil_append] at heq
    subst heq
    exfalso
    cases hr with
    | lone =>
      rw [hstart.jjMove, munch_cons start_backslash.2 rfl, munch_nil] at h
      cases h
    | char hc hb =>
      rcases hstart with ⟨hwild, -⟩ | hbackslash
      · rw [isWildChar_of_isWildStart hwild] at hc
        cases hc
      · exact hb hbackslash
  | cons c' w =>
    rw [List.cons_append, List.cons.injEq] at heq
    obtain ⟨rfl, rfl⟩ := heq
    obtain ⟨hself, k', hk'⟩ := jjMove_run hstart hw hr
    rw [hself, hk'] at h
    cases h
    exact ⟨w, r, rfl, hw, hr, rfl⟩

/-- **In the lexical state `DEFAULT`** a token stays one without its stars, whatever follows: if it
is one by itself, does not begin with a star, no quote comes to be escaped and a slop does not go on. -/
theorem jjMove_DEFAULT_stays {w r : QString} {k k' : TokenKind}
    (h : jjMoveStringLiteralDfa0_3 (w ++ r) = some (k, w.length)) (hstar : w.head? ≠ some (chr '*'))
    (halone : jjMoveStringLiteralDfa0_3 (text4highlight w) = some (k', (text4highlight w).length))
    (hquotes : w.head? = some (chr '"') → quotesKept false false (w.drop 1) = true)
    (hslop : k = .FUZZY_SLOP → jjMoveStringLiteralDfa0_3 (w ++ text4highlight r) = some (k, w.length)) :
    jjMoveStringLiteralDfa0_3 (text4highlight w ++ text4highlight r) = some (k', (text4highlight w).length) := by
  cases w with
  | nil => exact absurd (jjMove_DEFAULT_bounds h).1 (lt_irrefl 0)
  | cons c w =>
    have hc : c ≠ chr '*' := fun hc => hstar (by rw [hc]; rfl)
    have hcons : text4highlight (c :: w) = c :: text4highlight w := text4highlight_cons hc w
    rw [List.cons_append] at h
    rw [hcons] at halone ⊢
    rw [List.cons_append]
    by_cases hliteral : ∃ k, (c, k) ∈ literals
    · obtain ⟨k₁, hk₁⟩ := hliteral
      rw [jjMove_literal hk₁] at halone ⊢
      exact halone
    · have hnot : ∀ k, (c, k) ∉ literals := fun k hk => hliteral ⟨k, hk⟩
      by_cases hsingle : isWhitespace c = true ∨ c = chr '!'
      · rw [jjMove_single hsingle] at halone ⊢
        exact halone
      · rw [not_or, Bool.not_eq_true] at hsingle
        by_cases hquote : c = chr '"'
        · subst hquote
          rw [jjMove_quote] at h halone ⊢
          obtain ⟨j, hj, heq⟩ := Option.map_eq_some_iff.1 h
          have hjw : j = w.length := by
            rw [List.length_cons, Prod.mk.injEq] at heq
            omega
          subst hjw
          have hkept : quotesKept false false w = true := hquotes rfl
          obtain ⟨hcontext, hself⟩ := lastQuote_stays hj hkept
          rw [hself] at halone
          rw [hcontext]
          exact halone
        · by_cases htilde : c = chr '~'
          · subst htilde
            obtain ⟨rfl, hself⟩ := jjMove_slop h
            obtain ⟨rfl, -⟩ := jjMove_slop halone
            have hw : text4highlight w = w := by
              apply text4highlight_eq_self
              rw [List.length_cons, List.take_succ_cons, List.take_left] at hself
              exact fun hmem => hself (List.mem_cons_of_mem _ hmem)
            rw [hw]
            exact hslop rfl
          · by_cases hstart : Starts c
            · obtain ⟨w₁, r₁, heq, -, hr, hlength⟩ := exists_run_of_starts hstart h
              obtain ⟨w₂, r₂, heq', hw, -, hlength'⟩ := exists_run_of_starts hstart halone
              obtain ⟨rfl, rfl⟩ := List.append_inj heq (by simpa using hlength)
              have hnil : w₂.length = (text4highlight w).length := by simpa using hlength'.symm
              obtain ⟨rfl, -⟩ := List.append_inj (heq'.symm.trans (List.append_nil _).symm) hnil
              rw [(jjMove_run hstart hw hr.text4highlight).1]
              exact halone
            · rw [jjMove_unknown hnot hc hsingle.1 hquote hsingle.2 htilde hstart] at h
              cases h

/-! ### The kinds of tokens -/

theorem foldr_eq {l : List (WithTop TokenKind × Finset ℕ)} {k : TokenKind} (h : (l.foldr both (⊤, ∅)).1 = k) :
    ∃ x ∈ l, x.1 = k := by
  induction l with
  | nil => cases h
  | cons y l ih =>
    rcases min_choice y.1 (l.foldr both (⊤, ∅)).1 with hmin | hmin
    · exact ⟨y, List.mem_cons_self, hmin.symm.trans h⟩
    · obtain ⟨x, hx, hk⟩ := ih (hmin.symm.trans h)
      exact ⟨x, List.mem_cons_of_mem y hx, hk⟩

theorem on_eq {b : Bool} {k k' : TokenKind} {U : Finset ℕ} (h : (on b k U).1 = k') : b = true ∧ k = k' := by
  cases b with
  | true => exact ⟨rfl, WithTop.coe_injective h⟩
  | false => cases h

theorem on_top {b : Bool} {k : TokenKind} {U : Finset ℕ} : (on b ⊤ U).1 ≠ k := by
  cases b with
  | true => exact WithTop.top_ne_coe
  | false => exact WithTop.top_ne_coe

/-- The kinds of terms. -/
def termTokens : List TokenKind := [.AND, .OR, .NOT, .TERM, .PREFIXTERM, .WILDTERM]

/-- Terms are read by states that match such kinds. -/
theorem munch_termTokens {s : QString} {k : TokenKind} {i : ℕ} (hS : S ⊆ termStates ∪ escapeStates)
    (h : jjMoveNfa_3.munch S s n m = some (k, i)) : m = some (k, i) ∨ k ∈ termTokens := by
  have hmove : ∀ t ∈ termStates ∪ escapeStates, ∀ c, (move_3 t c).2 ⊆ termStates ∪ escapeStates ∧
      ∀ k : TokenKind, (move_3 t c).1 = k → k ∈ termTokens := by
    intro t ht c
    simp only [termStates, escapeStates, Finset.mem_union, Finset.mem_insert, Finset.mem_singleton] at ht
    rcases ht with (rfl | rfl | rfl | rfl | rfl | rfl | rfl | rfl | rfl | rfl | rfl | rfl | rfl | rfl) | rfl | rfl | rfl
    all_goals
      refine ⟨on_subset fun _ => by decide, fun k hk => ?_⟩
      first
        | exact absurd hk on_top
        | (obtain ⟨-, rfl⟩ := on_eq hk
           decide)
  refine munch_kind (I := (· ⊆ termStates ∪ escapeStates)) ?_ ?_ hS h
  · exact fun S c hS => nexts_subset fun t ht => (hmove t (hS ht) c).1
  · intro S c hS k hk
    have hne : S.Nonempty := by
      rw [Finset.nonempty_iff_ne_empty]
      rintro rfl
      rw [kinds, Finset.inf_empty] at hk
      cases hk
    obtain ⟨t, ht, heq⟩ := Finset.exists_mem_eq_inf S hne fun t => jjMoveNfa_3.kind t c
    exact (hmove t (hS ht) c).2 k (heq.symm.trans hk)

theorem Starts.kind (hstart : Starts c) {s : QString} {k : TokenKind} {i : ℕ}
    (h : jjMoveStringLiteralDfa0_3 (c :: s) = some (k, i)) : k ∈ termTokens := by
  rw [hstart.jjMove] at h
  rcases hstart with ⟨hwild, hstar⟩ | rfl
  · obtain ⟨hS, k', hk'⟩ := start_char hwild hstar
    rw [munch_cons hk' rfl, matched_coe] at h
    rcases munch_termTokens (hS.1.trans Finset.subset_union_left) h with hfirst | hlater
    · cases hfirst
      rw [kinds_singleton] at hk'
      obtain ⟨x, hx, hxk⟩ := foldr_eq hk'
      have hne : ∀ d : Char, isWildStart (chr d) = false → c ≠ chr d := by
        rintro d hd rfl
        rw [hd] at hwild
        cases hwild
      have hspace : isWhitespace c = false := by
        rw [← Bool.not_eq_true]
        intro hspace
        have hblank : ([9, 10, 13, 32] : QString).all (fun d => !isWildStart d) = true := by decide
        rw [isWhitespace, List.contains_eq_mem, decide_eq_true_eq] at hspace
        have hnot := List.all_eq_true.1 hblank c hspace
        rw [hwild] at hnot
        cases hnot
      simp only [List.mem_cons, List.not_mem_nil, or_false] at hx
      rcases hx with rfl | rfl | rfl | rfl | rfl | rfl | rfl | rfl | rfl | rfl | rfl | rfl
      all_goals
        first
          | exact absurd hxk on_top
          | (obtain ⟨hcond, rfl⟩ := on_eq hxk
             first
               | decide
               | (rw [hspace] at hcond
                  cases hcond)
               | exact absurd (of_decide_eq_true hcond) (hne _ (by decide)))
    · exact hlater
  · obtain ⟨hS, hk⟩ := start_backslash
    rw [munch_cons hk rfl, matched_top] at h
    rcases munch_termTokens (hS.1.trans Finset.subset_union_right) h with hfirst | hlater
    · cases hfirst
    · exact hlater

/-- A star is a token by itself, or begins a term. -/
theorem jjMove_star {s : QString} {k : TokenKind} {i : ℕ}
    (h : jjMoveStringLiteralDfa0_3 (chr '*' :: s) = some (k, i)) : (k = .STAR ∧ i = 1) ∨ k ∈ termTokens := by
  have hmunch : jjMoveNfa_3.munch {36} s 1 (some (.STAR, 1)) = some (k, i) := h
  cases s with
  | nil =>
    cases hmunch
    exact Or.inl ⟨rfl, rfl⟩
  | cons d s =>
    have hmove : (move_3 36 d).2 ⊆ termStates ∪ escapeStates := by
      apply Finset.union_subset
      · exact on_subset fun _ => by decide
      · exact on_subset fun _ => by decide
    rw [munch_cons rfl rfl, nexts_singleton, kinds_singleton] at hmunch
    rcases munch_termTokens hmove hmunch with hfirst | hlater
    · have hkind : (move_3 36 d).1 = (on (isWildChar d) TokenKind.WILDTERM {25, 26}).1 := by
        have htop : (on (d = chr '\\') ⊤ {27}).1 = ⊤ := by
          by_cases hb : d = chr '\\'
          · simp [on, hb]
          · simp [on, hb]
        rw [move_3, both, htop]
        exact min_eq_left le_top
      rw [hkind] at hfirst
      cases hd : isWildChar d with
      | true =>
        rw [hd] at hfirst
        cases hfirst
        exact Or.inr (by decide)
      | false =>
        rw [hd] at hfirst
        cases hfirst
        exact Or.inl ⟨rfl, rfl⟩
    · exact Or.inr hlater

/-- **The kind of a token** tells what it begins with. -/
theorem jjMove_DEFAULT_kind {s : QString} {k : TokenKind} {i : ℕ} (h : jjMoveStringLiteralDfa0_3 (c :: s) = some (k, i)) :
    (c, k) ∈ literals ∨ (isWhitespace c = true ∧ k = .whitespace) ∨ (c = chr '!' ∧ k = .NOT) ∨
      (c = chr '"' ∧ k = .QUOTED) ∨ (c = chr '~' ∧ k = .FUZZY_SLOP) ∨ (c = chr '*' ∧ k ∈ TokenKind.STAR :: termTokens) ∨
      (Starts c ∧ k ∈ termTokens) := by
  by_cases hliteral : ∃ k, (c, k) ∈ literals
  · obtain ⟨k', hk'⟩ := hliteral
    rw [jjMove_literal hk'] at h
    cases h
    exact Or.inl hk'
  · have hnot : ∀ k, (c, k) ∉ literals := fun k hk => hliteral ⟨k, hk⟩
    right
    by_cases hspace : isWhitespace c = true
    · rw [jjMove_single (Or.inl hspace)] at h
      have hne : c ≠ chr '!' := by
        rintro rfl
        cases hspace
      rw [if_neg hne] at h
      cases h
      exact Or.inl ⟨hspace, rfl⟩
    · right
      by_cases hbang : c = chr '!'
      · rw [jjMove_single (Or.inr hbang), if_pos hbang] at h
        cases h
        exact Or.inl ⟨hbang, rfl⟩
      · right
        by_cases hquote : c = chr '"'
        · subst hquote
          rw [jjMove_quote] at h
          obtain ⟨j, -, hj⟩ := Option.map_eq_some_iff.1 h
          cases hj
          exact Or.inl ⟨rfl, rfl⟩
        · right
          by_cases hslop : c = chr '~'
          · subst hslop
            exact Or.inl ⟨rfl, (jjMove_slop h).1⟩
          · right
            by_cases hstar : c = chr '*'
            · subst hstar
              refine Or.inl ⟨rfl, ?_⟩
              rcases jjMove_star h with ⟨rfl, -⟩ | hterm
              · exact List.mem_cons_self
              · exact List.mem_cons_of_mem _ hterm
            · by_cases hstart : Starts c
              · exact Or.inr ⟨hstart, hstart.kind h⟩
              · rw [Bool.not_eq_true] at hspace
                rw [jjMove_unknown hnot hstar hspace hquote hbang hslop hstart] at h
                cases h

end QueryParserTokenManager

end QDesktopSearch
