import QDesktopSearch.Proof.Clauses
import QDesktopSearch.Proof.FastCharStream

/-!
# The highlight query is parseable

`search` parses a text for its hits, and without its stars for the highlighting. The tokens of the
text are gone through (`lexemes`): where each `Survives` the parser accepts the text without its
stars too, if it has accepted the text (`text4highlight_accepted`). A star that a backslash stands
before is where it goes wrong.
-/

namespace QDesktopSearch

open QueryParserTokenManager QueryParser Searcher

/-! ## Tokens -/

/-- A token with the lexical state it is read in and the text that follows it. -/
structure Lexeme where
  state : LexState
  token : QueryToken
  rest : QString

/-- The tokens that follow. -/
def Lexeme.after (l : Lexeme) : TokenStream := tokensFrom (jjnewLexState l.state l.token.kind) 0 l.rest

/-- The tokens of a text past its first `skip` characters, up to an error. -/
def lexemesFrom : LexState → ℕ → QString → List Lexeme
  | _, _, [] => []
  | curLexState, skip + 1, _ :: input => lexemesFrom curLexState skip input
  | curLexState, 0, curChar :: input =>
    match jjMove curLexState (curChar :: input) with
    | none => []
    | some (kind, length) =>
      let rest := lexemesFrom (jjnewLexState curLexState kind) (length - 1) input
      if kind = .whitespace then rest
      else ⟨curLexState, ⟨kind, (curChar :: input).take length⟩, (curChar :: input).drop length⟩ :: rest

theorem lexemesFrom_drop (st : LexState) (i : ℕ) (s : QString) : lexemesFrom st i s = lexemesFrom st 0 (s.drop i) := by
  induction s generalizing i with
  | nil =>
    rw [List.drop_nil]
    cases i with
    | zero => rfl
    | succ i => rfl
  | cons c s ih =>
    cases i with
    | zero => rfl
    | succ i => exact ih i

theorem lexemesFrom_append {st : LexState} {w rest : QString} {k : TokenKind}
    (h : jjMove st (w ++ rest) = some (k, w.length)) :
    lexemesFrom st 0 (w ++ rest) = if k = .whitespace then lexemesFrom (jjnewLexState st k) 0 rest
      else ⟨st, ⟨k, w⟩, rest⟩ :: lexemesFrom (jjnewLexState st k) 0 rest := by
  cases w with
  | nil => exact absurd (jjMove_bounds h).1 (lt_irrefl 0)
  | cons c w =>
    have hrest : lexemesFrom (jjnewLexState st k) ((c :: w).length - 1) (w ++ rest) =
        lexemesFrom (jjnewLexState st k) 0 rest := by
      rw [lexemesFrom_drop, List.length_cons, Nat.add_sub_cancel, List.drop_left]
    have htake : (c :: (w ++ rest)).take (c :: w).length = c :: w := List.take_left
    have hdrop : (c :: (w ++ rest)).drop (c :: w).length = rest := List.drop_left
    rw [List.cons_append] at h ⊢
    rw [lexemesFrom, h]
    dsimp only
    rw [hrest, htake, hdrop]

/-! ## The text without its stars -/

/-- **A token survives** where it stays a token of a kind that is parsed like its own; where there may
be too many clauses (`N`), as one that has a query only if it had one. -/
def Survives (T : ParserTables) (N : Prop) (l : Lexeme) : Prop :=
  ∃ k, Stays l.state l.token l.rest k ∧ Kept T N l.token ⟨k, text4highlight l.token.image⟩ l.after

instance (st : LexState) (t : QueryToken) (rest : QString) (k : TokenKind) : Decidable (Stays st t rest k) :=
  decidable_of_iff (jjMove st (text4highlight t.image) = some (k, (text4highlight t.image).length) ∧
      (st = .DEFAULT → t.image.head? ≠ some (chr '*')) ∧
      ((text4highlight t.image).head? = some (chr '"') → t.image.head? = some (chr '"')) ∧
      (t.image.head? = some (chr '"') → quotesKept false false (t.image.drop 1) = true) ∧
      (t.kind = .NUMBER ∨ t.kind = .FUZZY_SLOP →
        jjMove st (t.image ++ text4highlight rest) = some (t.kind, t.image.length)))
    ⟨fun h => ⟨h.1, h.2.1, h.2.2.1, h.2.2.2.1, h.2.2.2.2⟩, fun h => ⟨h.token, h.term, h.unquoted, h.quoted, h.number⟩⟩

instance (T : ParserTables) (N : Prop) [Decidable N] (l : Lexeme) : Decidable (Survives T N l) :=
  decidable_of_iff (∃ x ∈ jjMove l.state (text4highlight l.token.image), Stays l.state l.token l.rest x.1 ∧
      Kept T N l.token ⟨x.1, text4highlight l.token.image⟩ l.after)
    ⟨fun ⟨x, _, h⟩ => ⟨x.1, h⟩, fun ⟨_, h⟩ => ⟨_, h.1.token, h⟩⟩

/-- Numbers and slops have no stars. -/
theorem star_notMem_number {st : LexState} {w rest : QString} {k : TokenKind}
    (h : jjMove st (w ++ rest) = some (k, w.length)) (hk : k = .NUMBER ∨ k = .FUZZY_SLOP) : chr '*' ∉ w := by
  have hrange : ∀ r, QueryParserTokenManager.IsRange r → jjMoveStringLiteralDfa0 r (w ++ rest) = some (k, w.length) →
      chr '*' ∉ w := by
    intro r hr h
    have hkind := jjMove_range_kind hr h
    exfalso
    rcases hr with rfl | rfl
    · rcases hk with rfl | rfl
      · exact absurd hkind (by decide)
      · exact absurd hkind (by decide)
    · rcases hk with rfl | rfl
      · exact absurd hkind (by decide)
      · exact absurd hkind (by decide)
  cases st with
  | Boost =>
    have hstar := (jjMove_number h).2
    rwa [List.take_left] at hstar
  | RangeEx => exact hrange _ (Or.inr rfl) h
  | RangeIn => exact hrange _ (Or.inl rfl) h
  | DEFAULT =>
    cases w with
    | nil => exact List.not_mem_nil
    | cons c w =>
      have hslop : c = chr '~' := by
        rcases jjMove_DEFAULT_kind h with hl | ⟨-, hl⟩ | ⟨-, hl⟩ | ⟨-, hl⟩ | ⟨hl, -⟩ | ⟨-, hl⟩ | ⟨-, hl⟩
        · exfalso
          have hliterals : ∀ x ∈ literals, x.2 ≠ .NUMBER ∧ x.2 ≠ .FUZZY_SLOP := by decide
          rcases hk with rfl | rfl
          · exact (hliterals _ hl).1 rfl
          · exact (hliterals _ hl).2 rfl
        · subst hl
          rcases hk with hk | hk
          · cases hk
          · cases hk
        · subst hl
          rcases hk with hk | hk
          · cases hk
          · cases hk
        · subst hl
          rcases hk with hk | hk
          · cases hk
          · cases hk
        · exact hl
        · exfalso
          rcases hk with rfl | rfl
          · exact absurd hl (by decide)
          · exact absurd hl (by decide)
        · exfalso
          rcases hk with rfl | rfl
          · exact absurd hl (by decide)
          · exact absurd hl (by decide)
      subst hslop
      have hstar := (jjMove_slop h).2
      have htake : (chr '~' :: w.append rest).take (chr '~' :: w).length = chr '~' :: w := List.take_left
      rwa [htake] at hstar

/-- A token is read on in the same lexical state. -/
theorem jjnewLexState_becomes {k k' : TokenKind} (st : LexState) (h : k' ∈ becomes k) :
    jjnewLexState st k' = jjnewLexState st k := by
  revert k'
  cases k
  all_goals
    intro k' h
    simp only [becomes, List.mem_cons, List.not_mem_nil, or_false] at h
    try rcases h with rfl | rfl
    all_goals rfl

/-- **Where all tokens survive** those without the stars are the same ones, kept. -/
theorem tokens_deleted (T : ParserTables) (N : Prop) (st : LexState) (s : QString)
    (h : ∀ l ∈ lexemesFrom st 0 s, Survives T N l) : Deleted T N (tokensFrom st 0 s) (tokensFrom st 0 (text4highlight s)) := by
  induction hn : s.length using Nat.strong_induction_on generalizing st s with
  | _ n ih =>
    rcases exists_token_or st s with rfl | ⟨hs, hnone⟩ | ⟨w, rest, k, rfl, hpos, hmove⟩
    · exact .eof
    · rw [tokensFrom_none hs hnone]
      exact .lexicalError _
    · have hlt : rest.length < n := by
        rw [← hn, List.length_append]
        omega
      rw [lexemesFrom_append hmove] at h
      rw [tokensFrom_append hmove, text4highlight_append]
      by_cases hk : k = .whitespace
      · subst hk
        rw [if_pos rfl] at h ⊢
        obtain ⟨hw, hmove'⟩ := jjMove_whitespace hmove
        rw [hw, tokensFrom_append hmove', if_pos rfl]
        exact ih _ hlt _ rest h rfl
      · rw [if_neg hk] at h ⊢
        obtain ⟨k', hstays, hkept⟩ := h _ List.mem_cons_self
        have hmove' := jjMove_stays hmove hstays
        have hk' : k' ≠ .whitespace := by
          intro hspace
          exact hk ((becomes_iff (by decide) hkept.kind).2 hspace)
        have hrest := ih _ hlt (jjnewLexState st k) rest (fun l hl => h l (List.mem_cons_of_mem _ hl)) rfl
        rw [tokensFrom_append hmove', if_neg hk', jjnewLexState_becomes st hkept.kind]
        refine .next hkept ?_ hrest
        intro hsame
        have hstar := text4highlight_eq_self (star_notMem_number hmove hsame)
        have hkind : k' ∈ becomes k := hkept.kind
        have hfixed : becomes k = [k] := by
          rcases hsame with hsame | hsame
          · rw [show k = .NUMBER from hsame]
            rfl
          · rw [show k = .FUZZY_SLOP from hsame]
            rfl
        rw [hfixed] at hkind
        rw [hstar, List.mem_singleton.1 hkind]

/-! ## Room for the clauses -/

/-- Something that reads on as a term. -/
def BeginsTerm (s : QString) : Prop := ∃ c ∈ s.head?, Starts c

theorem boost_iff {st : LexState} {k : TokenKind} (h : st ≠ .Boost ∨ k = .NUMBER) :
    jjnewLexState st k = .Boost ↔ k = .CARAT := by
  cases k
  all_goals
    cases st
    all_goals simp_all [jjnewLexState]

/-- What a token weighs in a lexical state: a number behind a caret weighs nothing. -/
def cost (st : LexState) (t : QueryToken) : ℕ := if st = .Boost then 0 else t.weight

/-- A token is longer than its weight, as long with a range to go on, or a term. -/
theorem cost_cases {st : LexState} {w rest : QString} {k : TokenKind} (h : jjMove st (w ++ rest) = some (k, w.length))
    (hstar : chr '*' ∉ w) : cost st ⟨k, w⟩ + 1 ≤ w.length ∨
      (cost st ⟨k, w⟩ ≤ w.length ∧ jjnewLexState st k ≠ .DEFAULT) ∨
      (cost st ⟨k, w⟩ ≤ w.length + 1 ∧ st = .DEFAULT ∧ jjnewLexState st k = .DEFAULT ∧ BeginsTerm (w ++ rest) ∧ Ends rest) := by
  have hpos := (jjMove_bounds h).1
  have hrange : ∀ r, QueryParserTokenManager.IsRange r → st ≠ .Boost → st ≠ .DEFAULT →
      jjMoveStringLiteralDfa0 r (w ++ rest) = some (k, w.length) →
      cost st ⟨k, w⟩ + 1 ≤ w.length ∨ (cost st ⟨k, w⟩ ≤ w.length ∧ jjnewLexState st k ≠ .DEFAULT) := by
    intro r hr hboost hdefault h
    have hkind := jjMove_range_kind hr h
    have hweight : QueryToken.weight ⟨k, w⟩ = 0 ∨ (QueryToken.weight ⟨k, w⟩ = 1 ∧ jjnewLexState st k = st) := by
      rcases hr with rfl | rfl
      all_goals
        simp only [QueryParserTokenManager.rangeIn, QueryParserTokenManager.rangeEx, List.mem_cons, List.not_mem_nil,
          or_false] at hkind
        rcases hkind with rfl | rfl | rfl | rfl | rfl
        · exact Or.inr ⟨rfl, rfl⟩
        · exact Or.inr ⟨rfl, rfl⟩
        · exact Or.inl rfl
        · exact Or.inl rfl
        · exact Or.inl rfl
    unfold cost
    rw [if_neg hboost]
    rcases hweight with hweight | ⟨hweight, hst⟩
    · left
      omega
    · right
      rw [hst]
      exact ⟨by omega, hdefault⟩
  cases st with
  | Boost =>
    left
    have hcost : cost .Boost ⟨k, w⟩ = 0 := if_pos rfl
    omega
  | RangeEx =>
    rcases hrange _ (Or.inr rfl) (by decide) (by decide) h with h | h
    · exact Or.inl h
    · exact Or.inr (Or.inl h)
  | RangeIn =>
    rcases hrange _ (Or.inl rfl) (by decide) (by decide) h with h | h
    · exact Or.inl h
    · exact Or.inr (Or.inl h)
  | DEFAULT =>
    have hcost : cost .DEFAULT ⟨k, w⟩ = QueryToken.weight ⟨k, w⟩ := rfl
    rw [hcost]
    cases w with
    | nil => exact absurd hpos (lt_irrefl 0)
    | cons c w =>
      have hzero : QueryToken.weight ⟨k, c :: w⟩ = 0 → QueryToken.weight ⟨k, c :: w⟩ + 1 ≤ (c :: w).length := by
        intro hweight
        omega
      rcases jjMove_DEFAULT_kind h with hl | ⟨-, rfl⟩ | ⟨-, rfl⟩ | ⟨-, rfl⟩ | ⟨-, rfl⟩ | ⟨rfl, -⟩ | ⟨hstart, hl⟩
      · left
        have hliterals : ∀ x ∈ literals, x.2 ≠ .QUOTED ∧ kindWeight x.2 = 0 := by decide
        exact hzero ((weight_of_kind (hliterals _ hl).1).trans (hliterals _ hl).2)
      · exact Or.inl (hzero rfl)
      · exact Or.inl (hzero rfl)
      · left
        unfold QueryToken.weight
        rw [if_pos rfl]
        split_ifs with hlen
        · exact hlen
        · omega
      · exact Or.inl (hzero rfl)
      · exact absurd List.mem_cons_self hstar
      · right
        right
        have hterms : ∀ k ∈ termTokens, k ≠ .QUOTED ∧ kindWeight k ≤ 2 ∧ jjnewLexState .DEFAULT k = .DEFAULT := by decide
        obtain ⟨hquoted, hweight, hst⟩ := hterms k hl
        obtain ⟨w', r, heq, -, hends, hlen⟩ := exists_run_of_starts hstart h
        have hsplit : w = w' ∧ rest = r := List.append_inj heq (Nat.succ_injective hlen)
        rw [weight_of_kind hquoted]
        refine ⟨?_, rfl, hst, ⟨c, rfl, hstart⟩, ?_⟩
        · exact hweight.trans (by omega)
        · rw [hsplit.2]
          exact hends

/-- What follows a term does not begin one that is read. -/
theorem weight_ends {s : QString} (h : Ends s) : ¬BeginsTerm s ∨ tokensFrom .DEFAULT 0 s = .lexicalError := by
  cases h with
  | nil =>
    left
    intro ⟨c, hc, _⟩
    cases hc
  | lone =>
    right
    have hnone : jjMove .DEFAULT [chr '\\'] = none := by decide +kernel
    exact tokensFrom_none (List.cons_ne_nil _ _) hnone
  | @char c s hc hb =>
    left
    intro ⟨d, hd, hstart⟩
    obtain rfl : c = d := Option.some.inj hd
    rcases hstart with ⟨hwild, _⟩ | hbackslash
    · rw [isWildChar_of_isWildStart hwild] at hc
      cases hc
    · exact hb hbackslash

/-- **The tokens of a text without stars** weigh no more than it is long, and one more if it begins
with a term. -/
theorem weight_tokensFrom (st : LexState) (s : QString) (hstar : chr '*' ∉ s) :
    (tokensFrom st 0 s).weightFrom (st = .Boost) ≤ s.length + 1 ∧
      (st ≠ .DEFAULT ∨ ¬BeginsTerm s → (tokensFrom st 0 s).weightFrom (st = .Boost) ≤ s.length) := by
  induction hn : s.length using Nat.strong_induction_on generalizing st s with
  | _ n ih =>
    rcases exists_token_or st s with rfl | ⟨hs, hnone⟩ | ⟨w, rest, k, rfl, hpos, hmove⟩
    · exact ⟨Nat.zero_le _, fun _ => Nat.zero_le _⟩
    · rw [tokensFrom_none hs hnone]
      exact ⟨Nat.zero_le _, fun _ => Nat.zero_le _⟩
    · rw [List.length_append] at hn
      have hlt : rest.length < n := by omega
      have hrest := ih _ hlt (jjnewLexState st k) rest (fun hmem => hstar (List.mem_append_right _ hmem)) rfl
      by_cases hk : k = .whitespace
      · subst hk
        have hst : jjnewLexState st .whitespace = st := rfl
        rw [hst] at hrest
        rw [tokensFrom_append hmove, if_pos rfl, hst]
        exact ⟨by omega, fun _ => by omega⟩
      · have hboost : decide (k = .CARAT) = decide (jjnewLexState st k = .Boost) := by
          apply decide_eq_decide.2 (boost_iff _).symm
          by_cases hst : st = .Boost
          · subst hst
            exact Or.inr (jjMove_number hmove).1
          · exact Or.inl hst
        have hweight : (tokensFrom st 0 (w ++ rest)).weightFrom (st = .Boost) =
            cost st ⟨k, w⟩ + (tokensFrom (jjnewLexState st k) 0 rest).weightFrom (jjnewLexState st k = .Boost) := by
          rw [tokensFrom_append hmove, if_neg hk, TokenStream.weightFrom, hboost, cost]
          simp only [decide_eq_true_eq]
        rw [hweight]
        rcases cost_cases hmove (fun hmem => hstar (List.mem_append_left _ hmem)) with
          h | ⟨h, hst⟩ | ⟨h, rfl, hst, hbegins, hends⟩
        · exact ⟨by omega, fun _ => by omega⟩
        · have hle := hrest.2 (Or.inl hst)
          exact ⟨by omega, fun _ => by omega⟩
        · have hle : (tokensFrom (jjnewLexState .DEFAULT k) 0 rest).weightFrom (jjnewLexState .DEFAULT k = .Boost) ≤
              rest.length := by
            rcases weight_ends hends with hnone | herror
            · exact hrest.2 (Or.inr hnone)
            · rw [hst, herror]
              exact Nat.zero_le _
          refine ⟨by omega, fun hnone => ?_⟩
          rcases hnone with hnone | hnone
          · exact absurd rfl hnone
          · exact absurd hbegins hnone

/-! ## Accepted texts -/

theorem cString_cons (c : QChar) (s : QString) : cString (c :: s) = if c = 0 then [] else c :: cString s := by
  unfold cString
  rw [List.takeWhile_cons]
  by_cases h : c = 0
  · simp [h]
  · simp [h]

theorem cString_text4highlight (s : QString) : cString (text4highlight s) = text4highlight (cString s) := by
  induction s with
  | nil => rfl
  | cons c s ih =>
    by_cases hc : c = chr '*'
    · have hne : chr '*' ≠ 0 := by decide
      subst hc
      rw [cString_cons, if_neg hne, text4highlight_star, text4highlight_star, ih]
    · rw [text4highlight_cons hc, cString_cons, cString_cons]
      split_ifs
      · rfl
      · rw [text4highlight_cons hc, ih]

/-- The parser accepts a text where it accepts its tokens. -/
theorem isOk_parse {T : ParserTables} {s field : QString} : (parse T s field).isOk = true ↔
    ∃ q, parseTokens T field (tokens T.overread s) = .ok q := by
  unfold parse
  cases h : parseTokens T field (tokens T.overread s) with
  | error e =>
    refine iff_of_false ?_ ?_
    · cases e
      all_goals exact Bool.false_ne_true
    · intro ⟨q, hq⟩
      cases hq
  | ok q => exact iff_of_true rfl ⟨q, rfl⟩

/-- Without its stars a text has more terms, ranges and quoted texts than a query may have clauses. -/
def Crowded (s : QString) : Prop :=
  2 * LUCENE_BOOLEANQUERY_MAXCLAUSECOUNT + 1 < (tokensFrom .DEFAULT 0 (text4highlight (cString s))).weight

instance (s : QString) : Decidable (Crowded s) := inferInstanceAs (Decidable (_ < _))

/-- **The stars may be deleted** from a text: there are none; or each of its tokens survives, and with
and without the stars none is read across the end of the buffer. -/
def Highlightable (T : ParserTables) (s : QString) : Prop :=
  chr '*' ∉ cString s ∨
    (Unbroken s ∧ Unbroken (text4highlight s) ∧ ∀ l ∈ lexemesFrom .DEFAULT 0 (cString s), Survives T (Crowded s) l)

instance (T : ParserTables) (s : QString) : Decidable (Highlightable T s) :=
  inferInstanceAs (Decidable (_ ∨ _))

/-- A text that fits into the buffer is not crowded. -/
theorem not_crowded {s : QString} (h : (cString s).length ≤ 2048) : ¬Crowded s := by
  have hlength := length_text4highlight_le (cString s)
  have hweight := (weight_tokensFrom .DEFAULT _ (star_notMem (cString s))).1
  have hdefault : decide (LexState.DEFAULT = LexState.Boost) = false := rfl
  have hmax : 2 * LUCENE_BOOLEANQUERY_MAXCLAUSECOUNT = 2048 := rfl
  rw [hdefault] at hweight
  unfold Crowded TokenStream.weight
  omega

/-- **In a text that fits into the buffer** the tokens need only survive. -/
theorem highlightable_of_length {T : ParserTables} {s : QString} (h : (cString s).length ≤ 2048)
    (hs : ∀ l ∈ lexemesFrom .DEFAULT 0 (cString s), Survives T False l) : Highlightable T s := by
  have hlength := length_text4highlight_le (cString s)
  refine Or.inr ⟨.of_length h, .of_length ?_, fun l hl => ?_⟩
  · rw [cString_text4highlight]
    exact hlength.trans h
  · obtain ⟨k, hstays, hkept⟩ := hs l hl
    exact ⟨k, hstays, hkept.kind, hkept.text, hkept.slop, fun hcrowded => absurd hcrowded (not_crowded h)⟩

/-- A similarity is one as `float_t` has it: next to 1 it is 1. -/
example : ¬Highlightable asciiTables (qs "hello*~0.99999998") := by decide +kernel

end QDesktopSearch
