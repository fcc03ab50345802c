import Mathlib.Algebra.Order.Ring.Unbundled.Rat
import QDesktopSearch.Proof.Reads

/-!
# The parser on the tokens without stars

`Deleted` relates the tokens of a text to those of the text without its stars, where each token
is kept, but may be of another kind. On related tokens the parser goes the same way
(`TopLevelQuery_simulates`): what it accepts with the stars it accepts without.
-/

namespace QDesktopSearch

open Program

/-! ## Tokens -/

/-- The kinds that a token may have without its stars. -/
def becomes : TokenKind → List TokenKind
  | .STAR => []
  | .PREFIXTERM => [.TERM]
  | .WILDTERM => [.WILDTERM, .TERM]
  | .RANGEIN_QUOTED => [.RANGEIN_QUOTED, .RANGEIN_GOOP]
  | .RANGEIN_GOOP => [.RANGEIN_GOOP, .RANGEIN_QUOTED]
  | .RANGEEX_QUOTED => [.RANGEEX_QUOTED, .RANGEEX_GOOP]
  | .RANGEEX_GOOP => [.RANGEEX_GOOP, .RANGEEX_QUOTED]
  | k => [k]

/-- A kind that no other one becomes, and that does not change. -/
def Fixed (k : TokenKind) : Prop := becomes k = [k] ∧ k ≠ .TERM

instance (k : TokenKind) : Decidable (Fixed k) := inferInstanceAs (Decidable (_ ∧ _))

/-- A kind that may be kept or become one that changes: what does not change in it was kept. -/
theorem eq_of_mem_pair {k other fixed : TokenKind} (hother : ¬Fixed other) (hfixed : Fixed fixed)
    (h : fixed ∈ [k, other]) : k = fixed := by
  rcases List.mem_cons.1 h with rfl | h
  · rfl
  · obtain rfl := List.mem_singleton.1 h
    exact absurd hfixed hother

theorem becomes_iff {k k' fixed : TokenKind} (hfixed : Fixed fixed) (h : k' ∈ becomes k) : k = fixed ↔ k' = fixed := by
  constructor
  · rintro rfl
    rw [hfixed.1] at h
    exact List.mem_singleton.1 h
  · rintro rfl
    cases k with
    | STAR => cases h
    | PREFIXTERM => exact absurd (List.mem_singleton.1 h) hfixed.2
    | WILDTERM => exact eq_of_mem_pair (by decide) hfixed h
    | RANGEIN_QUOTED => exact eq_of_mem_pair (by decide) hfixed h
    | RANGEIN_GOOP => exact eq_of_mem_pair (by decide) hfixed h
    | RANGEEX_QUOTED => exact eq_of_mem_pair (by decide) hfixed h
    | RANGEEX_GOOP => exact eq_of_mem_pair (by decide) hfixed h
    | _ => exact (List.mem_singleton.1 h).symm

namespace QueryParser

open QueryParserTokenManager (chr)
open TokenStream

/-- The text that the parser makes of a token that is no prefix. -/
def tokenText (t : QueryToken) : Except ParseError QString :=
  match t.kind with
  | .QUOTED => discardEscapeChar (t.image.dropLast.drop 1)
  | .RANGEIN_QUOTED => discardEscapeChar (rangeIn.unquote t.image)
  | .RANGEEX_QUOTED => discardEscapeChar (rangeEx.unquote t.image)
  | _ => discardEscapeChar t.image

/-- A token has a text, and one that may be a query with wildcards if it is one. -/
def Texted (t : QueryToken) : Prop :=
  ∃ s, tokenText t = .ok s ∧ (t.kind = .WILDTERM → s.head? ≠ some (chr '*') ∧ s.head? ≠ some (chr '?'))

/-- The kinds of tokens whose text is analyzed. -/
def analyzedKinds : List TokenKind := [.TERM, .NUMBER, .QUOTED]

/-- A token has a query by itself: where it is a text for the analyzer, one in which a term is found. -/
def found (T : ParserTables) (t : QueryToken) : Bool :=
  if t.kind ∈ analyzedKinds then (tokenText t).toOption.any fun s => analyze T s ≠ [] else true

/-- The slop behind a term, before the boost or after it. -/
def slopOf (ts : TokenStream) : Option QueryToken :=
  match fSuffix ts with
  | .ok (x, _) => x.1
  | .error _ => none

/-- **A token is kept as one**, before `ts`: as a token of a kind that is parsed like its own. Where
there may be too many clauses (`N`), it has a query only if it had one. -/
structure Kept (T : ParserTables) (N : Prop) (t t' : QueryToken) (ts : TokenStream) : Prop where
  kind : t'.kind ∈ becomes t.kind
  text : Texted t'
  /-- Where it comes to be a term, a slop behind it is a similarity. -/
  slop : t'.kind = .TERM → t.kind ≠ .TERM → ∀ f ∈ slopOf ts, 0 ≤ fms T f ∧ fms T f < 1
  found : N → found T t' = true → found T t = true

instance (t : QueryToken) : Decidable (Texted t) :=
  match h : tokenText t with
  | .ok s => decidable_of_iff (t.kind = .WILDTERM → s.head? ≠ some (chr '*') ∧ s.head? ≠ some (chr '?'))
      (by simp [Texted, h])
  | .error _ => isFalse (by simp [Texted, h])

instance (T : ParserTables) (N : Prop) [Decidable N] (t t' : QueryToken) (ts : TokenStream) :
    Decidable (Kept T N t t' ts) :=
  decidable_of_iff (t'.kind ∈ becomes t.kind ∧ Texted t' ∧
      (t'.kind = .TERM → t.kind ≠ .TERM → ∀ f ∈ slopOf ts, 0 ≤ fms T f ∧ fms T f < 1) ∧
      (N → found T t' = true → found T t = true))
    ⟨fun h => ⟨h.1, h.2.1, h.2.2.1, h.2.2.2⟩, fun h => ⟨h.kind, h.text, h.slop, h.found⟩⟩

/-- The tokens of a text, and those without its stars. -/
inductive Deleted (T : ParserTables) (N : Prop) : TokenStream → TokenStream → Prop
  | eof : Deleted T N .eof .eof
  | lexicalError (ts : TokenStream) : Deleted T N .lexicalError ts
  | next {t t' : QueryToken} {rest rest' : TokenStream} : Kept T N t t' rest →
      (t.kind = .NUMBER ∨ t.kind = .FUZZY_SLOP → t' = t) → Deleted T N rest rest' →
      Deleted T N (.next t rest) (.next t' rest')

variable {T : ParserTables} {N : Prop} {X : TokenStream → Prop}

theorem Deleted.length_le {ts ts' : TokenStream} (h : Deleted T N ts ts') : ts.length ≤ ts'.length := by
  induction h with
  | eof => exact le_rfl
  | lexicalError ts => exact Nat.zero_le _
  | next _ _ _ ih => exact Nat.succ_le_succ ih

/-- The kind of the next token. -/
def headKind : TokenStream → Option TokenKind
  | .eof => some ._EOF
  | .lexicalError => none
  | .next t _ => some t.kind

theorem jj_ntk_head {ts : TokenStream} {k : TokenKind} : jj_ntk ts = .ok (k, ts) ↔ headKind ts = some k := by
  unfold jj_ntk headKind
  cases ts with
  | eof => simp
  | lexicalError => simp
  | next t rest => simp

theorem jj_ntk_simulates : Simulates X (Deleted T N) jj_ntk jj_ntk fun k k' ts ts' =>
    k' ∈ becomes k ∧ headKind ts = some k ∧ headKind ts' = some k' ∧ Deleted T N ts ts' := by
  intro ts ts' k u h hrun
  obtain rfl := jj_ntk_ok hrun
  right
  cases h with
  | eof =>
    cases hrun
    exact ⟨._EOF, .eof, rfl, by decide, rfl, rfl, .eof⟩
  | lexicalError => cases hrun
  | next hkept hsame hrest =>
    cases hrun
    exact ⟨_, _, rfl, hkept.kind, rfl, rfl, .next hkept hsame hrest⟩

/-- What is known of two tokens that have been read. -/
structure Both (T : ParserTables) (N : Prop) (t t' : QueryToken) (ts ts' : TokenStream) : Prop where
  kept : Kept T N t t' ts
  same : t.kind = .NUMBER ∨ t.kind = .FUZZY_SLOP → t' = t
  rest : Deleted T N ts ts'

/-- A token is read where the other one is. -/
theorem jj_consume_token_simulates {k k' : TokenKind} (hk : k ≠ ._EOF) : Simulates X
    (fun ts ts' => (headKind ts = some k → headKind ts' = some k') ∧ Deleted T N ts ts') (jj_consume_token k)
    (jj_consume_token k') fun t t' ts ts' => t.kind = k ∧ t'.kind = k' ∧ Both T N t t' ts ts' := by
  intro ts ts' t r h hrun
  obtain ⟨rfl, rfl⟩ := jj_consume_token_ok hk hrun
  obtain ⟨hkind, hdeleted⟩ := h
  right
  cases hdeleted with
  | @next _ t' _ r' hkept hsame hrest =>
    have hk' : t'.kind = k' := Option.some.inj (hkind rfl)
    exact ⟨t', r', if_pos hk', rfl, hk', hkept, hsame, hrest⟩

/-- A token of a kind that does not change. -/
theorem jj_consume_fixed {k : TokenKind} (hk : k ≠ ._EOF) (hfixed : becomes k = [k]) : Simulates X (Deleted T N)
    (jj_consume_token k) (jj_consume_token k) fun t t' ts ts' => t.kind = k ∧ t'.kind = k ∧ Both T N t t' ts ts' := by
  apply (jj_consume_token_simulates hk).mono
  · exact fun _ h => h
  · intro ts ts' h
    refine ⟨fun hhead => ?_, h⟩
    cases h with
    | eof => exact absurd (Option.some.inj hhead).symm hk
    | lexicalError => cases hhead
    | @next t t' _ _ hkept =>
      have ht : t.kind = k := Option.some.inj hhead
      have hmem := hkept.kind
      rw [ht, hfixed] at hmem
      exact congrArg some (List.mem_singleton.1 hmem)
  · exact fun _ _ _ _ h => h

/-- The next token of a kind that does not change, where there is one. -/
theorem optionalToken_simulates {k : TokenKind} (hk : k ≠ ._EOF) (hfixed : Fixed k) : Simulates X (Deleted T N)
    (optionalToken k) (optionalToken k) fun o o' ts ts' =>
      (k = .FUZZY_SLOP → o' = o) ∧ Deleted T N ts ts' := by
  unfold optionalToken
  apply jj_ntk_simulates.bind
  intro kind kind'
  apply Simulates.of_pre
  intro hkind
  apply Simulates.ite (becomes_iff hfixed hkind)
  · intro _
    apply ((jj_consume_fixed hk hfixed.1).weaken fun _ _ h => h.2.2).bind
    intro t t'
    apply Simulates.pure
    intro ts ts' ⟨ht, _, hboth⟩
    exact ⟨fun hslop => congrArg some (hboth.same (Or.inr (ht.trans hslop))), hboth.rest⟩
  · intro _
    apply Simulates.pure
    intro ts ts' h
    exact ⟨fun _ => rfl, h.2.2⟩

theorem fBoost_simulates : Simulates X (Deleted T N) fBoost fBoost fun b b' ts ts' =>
    b' = b ∧ Deleted T N ts ts' := by
  unfold fBoost
  apply jj_ntk_simulates.bind
  intro kind kind'
  apply Simulates.of_pre
  intro hkind
  apply Simulates.ite (becomes_iff (by decide) hkind)
  · intro _
    apply ((jj_consume_fixed (by decide) (by decide)).weaken fun _ _ h => h.2.2).bind
    intro _ _
    apply ((jj_consume_fixed (by decide) (by decide)).weaken fun _ _ h => h.2.2.rest).bind
    intro boost boost'
    apply Simulates.pure
    intro ts ts' ⟨hboost, _, hboth⟩
    exact ⟨congrArg some (hboth.same (Or.inl hboost)), hboth.rest⟩
  · intro _
    apply Simulates.pure
    intro ts ts' h
    exact ⟨rfl, h.2.2⟩

/-- **A slop and a boost** are the same ones. -/
theorem fSuffix_simulates : Simulates X (Deleted T N) fSuffix fSuffix fun x x' ts ts' =>
    x' = x ∧ Deleted T N ts ts' := by
  unfold fSuffix
  apply (optionalToken_simulates (by decide) (by decide)).bind
  intro slop slop'
  apply Simulates.of_pre
  intro hslop
  obtain rfl := hslop rfl
  apply fBoost_simulates.bind
  intro boost boost'
  apply Simulates.of_pre
  intro hboost
  subst hboost
  cases boost' with
  | none =>
    apply Simulates.pure
    intro ts ts' h
    exact ⟨rfl, h⟩
  | some boost =>
    apply (optionalToken_simulates (by decide) (by decide)).bind
    intro last last'
    apply Simulates.pure
    intro ts ts' ⟨hlast, h⟩
    rw [hlast rfl]
    exact ⟨rfl, h⟩

/-- Where there may be too many clauses, there is a query only if there was one. -/
def Fewer (N : Prop) (q q' : Option Query) : Prop := N → q'.isSome = true → q.isSome = true

theorem Fewer.boostQuery {q q' : Option Query} (h : Fewer N q q') (boost boost' : Option QueryToken) :
    Fewer N (boostQuery T q boost) (boostQuery T q' boost') := by
  unfold Fewer
  rw [isSome_boostQuery, isSome_boostQuery]
  exact h

/-- The two ranges. -/
def IsRange (r : RangeGrammar) : Prop := r = rangeIn ∨ r = rangeEx

theorem goopText_eq {r : RangeGrammar} (hr : IsRange r) {t : QueryToken}
    (h : t.kind = r.tokens.goop ∨ t.kind = r.tokens.quoted) :
    goopText r t = tokenText t := by
  unfold goopText tokenText
  rcases hr with rfl | rfl
  · rcases h with h | h
    · rw [h]
      rfl
    · rw [h]
      rfl
  · rcases h with h | h
    · rw [h]
      rfl
    · rw [h]
      rfl

/-- A bound stays one, quoted or not. -/
theorem fGoop_simulates {r : RangeGrammar} (hr : IsRange r) : Simulates X (Deleted T N) (fGoop r) (fGoop r)
    fun _ t' ts ts' => (∃ s, goopText r t' = .ok s) ∧ Deleted T N ts ts' := by
  have hkinds : ∀ k', k' ∈ becomes r.tokens.goop ∨ k' ∈ becomes r.tokens.quoted →
      k' = r.tokens.goop ∨ k' = r.tokens.quoted := by
    rcases hr with rfl | rfl
    all_goals
      intro k' h
      rcases h with h | h
      · exact List.mem_pair.1 h
      · exact (List.mem_pair.1 h).symm
  have hne : r.tokens.goop ≠ ._EOF ∧ r.tokens.quoted ≠ ._EOF ∧ r.tokens.quoted ≠ r.tokens.goop := by
    rcases hr with rfl | rfl
    · decide
    · decide
  -- the one that is read without the stars
  have hread : ∀ {k k'}, k ≠ ._EOF → k' = r.tokens.goop ∨ k' = r.tokens.quoted →
      Simulates X (fun ts ts' => headKind ts = some k ∧ headKind ts' = some k' ∧ Deleted T N ts ts')
        (jj_consume_token k) (if k' = r.tokens.goop then jj_consume_token r.tokens.goop
          else if k' = r.tokens.quoted then jj_consume_token r.tokens.quoted else throw .ParseException)
        fun t t' ts ts' => (∃ s, goopText r t' = .ok s) ∧ Deleted T N ts ts' := by
    intro k k' hk hk'
    have hrun : (if k' = r.tokens.goop then jj_consume_token r.tokens.goop
          else if k' = r.tokens.quoted then jj_consume_token r.tokens.quoted else throw .ParseException) =
        jj_consume_token k' := by
      rcases hk' with rfl | rfl
      · exact if_pos rfl
      · rw [if_neg hne.2.2, if_pos rfl]
    rw [hrun]
    apply (jj_consume_token_simulates hk).mono (fun _ h => h)
    · exact fun ts ts' h => ⟨fun _ => h.2.1, h.2.2⟩
    · intro t t' ts ts' ⟨_, ht', hboth⟩
      obtain ⟨s, hs, -⟩ := hboth.kept.text
      rw [goopText_eq hr (ht' ▸ hk')]
      exact ⟨⟨s, hs⟩, hboth.rest⟩
  unfold fGoop
  apply jj_ntk_simulates.bind
  intro k k'
  apply Simulates.of_pre
  intro hkind
  by_cases h1 : k = r.tokens.goop
  · subst h1
    rw [if_pos rfl]
    exact hread hne.1 (hkinds k' (Or.inl hkind))
  · rw [if_neg h1]
    by_cases h2 : k = r.tokens.quoted
    · subst h2
      rw [if_pos rfl]
      exact hread hne.2.1 (hkinds k' (Or.inr hkind))
    · rw [if_neg h2]
      exact Simulates.throw

/-- The text of a bound, after what else has been read. -/
theorem goopText_simulates {r : RangeGrammar} {t t' : QueryToken} (h : ∃ s, goopText r t' = .ok s) :
    Simulates X (Deleted T N) (liftM (goopText r t) : Parser QString) (liftM (goopText r t')) fun _ _ ts ts' =>
      Deleted T N ts ts' := by
  obtain ⟨s, hs⟩ := h
  apply Simulates.lift
  intro _ ts ts' _ hrelated
  exact ⟨s, hs, hrelated⟩

theorem fRange_simulates {r : RangeGrammar} (hr : IsRange r) (field field' : QString) : Simulates X (Deleted T N)
    (fRange T r field) (fRange T r field') (fun q q' ts ts' => Fewer N q q' ∧ Deleted T N ts ts') := by
  have hkinds : Fixed r.start ∧ r.start ≠ ._EOF ∧ Fixed r.tokens.TO ∧ r.tokens.TO ≠ ._EOF ∧
      Fixed r.tokens.stopKind ∧ r.tokens.stopKind ≠ ._EOF := by
    rcases hr with rfl | rfl
    · decide
    · decide
  obtain ⟨hstart, hstart', hTO, hTO', hstop, hstop'⟩ := hkinds
  unfold fRange
  apply (jj_consume_fixed hstart' hstart.1).bind
  intro _ _
  apply ((fGoop_simulates hr).weaken fun _ _ h => h.2.2.rest).bind
  intro goop1 goop1'
  apply Simulates.of_pre
  intro htext1
  apply (optionalToken_simulates hTO' hTO).bind
  intro _ _
  apply ((fGoop_simulates hr).weaken fun _ _ h => h.2).bind
  intro goop2 goop2'
  apply Simulates.of_pre
  intro htext2
  apply (jj_consume_fixed hstop' hstop.1).bind
  intro _ _
  apply (fBoost_simulates.weaken fun _ _ h => h.2.2.rest).bind
  intro boost boost'
  apply ((goopText_simulates htext1).weaken fun _ _ h => h.2).bind
  intro t1 t1'
  apply (goopText_simulates htext2).bind
  intro t2 t2'
  apply Simulates.pure
  intro _ _ h
  refine ⟨Fewer.boostQuery ?_ boost boost', h⟩
  exact fun _ _ => rfl

theorem isSome_getFieldQuery (field s : QString) (slop : ℕ) :
    (getFieldQuery T field s slop).isSome = true ↔ analyze T s ≠ [] := by
  unfold getFieldQuery
  cases analyze T s with
  | nil => exact iff_of_false Bool.false_ne_true fun hne => hne rfl
  | cons v vs =>
    cases vs with
    | nil => exact iff_of_true rfl (List.cons_ne_nil _ _)
    | cons _ _ => exact iff_of_true rfl (List.cons_ne_nil _ _)

/-- The text of a token for the analyzer. -/
theorem found_iff {t : QueryToken} {s : QString} (hkind : t.kind ∈ analyzedKinds)
    (hs : tokenText t = .ok s) : found T t = true ↔ analyze T s ≠ [] := by
  unfold found
  rw [if_pos hkind, hs]
  exact decide_eq_true_iff

theorem fQuoted_simulates (field field' : QString) : Simulates X (Deleted T N) (fQuoted T field)
    (fQuoted T field') (fun q q' ts ts' => Fewer N q q' ∧ Deleted T N ts ts') := by
  unfold fQuoted
  apply (jj_consume_fixed (by decide) (by decide)).bind
  intro term term'
  have hpre : ∀ ts ts', term.kind = .QUOTED ∧ term'.kind = .QUOTED ∧ Both T N term term' ts ts' →
      (term.kind = .QUOTED ∧ term'.kind = .QUOTED ∧ Texted term' ∧ (N → found T term' = true → found T term = true)) ∧
        Deleted T N ts ts' :=
    fun ts ts' h => ⟨⟨h.1, h.2.1, h.2.2.kept.text, h.2.2.kept.found⟩, h.2.2.rest⟩
  apply Simulates.weaken _ hpre
  apply Simulates.of_pre
  intro ⟨hterm, hterm', ⟨s, hs, _⟩, hfound⟩
  apply (optionalToken_simulates (by decide) (by decide)).bind
  intro slop slop'
  apply (fBoost_simulates.weaken fun _ _ h => h.2).bind
  intro boost boost'
  have htext : ∀ t : QueryToken, t.kind = .QUOTED → tokenText t = discardEscapeChar (t.image.dropLast.drop 1) := by
    intro t ht
    unfold tokenText
    rw [ht]
  have hlift : Simulates (fun _ => False) (Deleted T N)
      (liftM (discardEscapeChar (term.image.dropLast.drop 1)) : Parser QString)
      (liftM (discardEscapeChar (term'.image.dropLast.drop 1)) : Parser QString) fun tmp tmp' ts ts' =>
        (tokenText term = .ok tmp ∧ tokenText term' = .ok tmp') ∧ Deleted T N ts ts' := by
    apply Simulates.lift
    intro tmp _ _ htmp h
    exact ⟨s, (htext term' hterm').symm.trans hs, ⟨(htext term hterm).trans htmp, hs⟩, h⟩
  apply (hlift.weaken fun _ _ h => h.2).bind
  intro tmp tmp'
  apply Simulates.pure
  intro ts ts' ⟨⟨htmp, htmp'⟩, h⟩
  refine ⟨Fewer.boostQuery ?_ boost boost', h⟩
  intro hN hsome
  rw [isSome_getFieldQuery] at hsome ⊢
  have hkind : TokenKind.QUOTED ∈ analyzedKinds := by decide
  rw [← found_iff (by rwa [hterm']) htmp'] at hsome
  exact (found_iff (by rwa [hterm]) htmp).1 (hfound hN hsome)

theorem bind_ok_iff {α β : Type} {x : Except ParseError α} {f : α → Except ParseError β} {b : β} :
    (x >>= f) = .ok b ↔ ∃ a, x = .ok a ∧ f a = .ok b := by
  cases x with
  | error e =>
    refine iff_of_false (fun h => by cases h) ?_
    intro ⟨a, ha, _⟩
    cases ha
  | ok a =>
    constructor
    · intro h
      exact ⟨a, rfl, h⟩
    · intro ⟨b, hb, hf⟩
      cases hb
      exact hf

section Terms

variable {field : QString} {t : QueryToken} {slop : Option QueryToken} {q : Option Query}

/-- A term without wildcards. -/
def Plain (t : QueryToken) : Prop := t.kind = .TERM ∨ t.kind = .NUMBER

theorem Plain.kinds (h : Plain t) : ¬(t.kind = .STAR ∨ t.kind = .WILDTERM) ∧ t.kind ≠ .PREFIXTERM := by
  rcases h with h | h
  · rw [h]
    decide
  · rw [h]
    decide

theorem Plain.analyzed (h : Plain t) : t.kind ∈ analyzedKinds := by
  rcases h with h | h
  · rw [h]
    decide
  · rw [h]
    decide

theorem Plain.text (h : Plain t) : tokenText t = discardEscapeChar t.image := by
  unfold tokenText
  rcases h with h | h
  · rw [h]
  · rw [h]

/-- The query of a term without a slop. -/
theorem termQuery_plain (h : Plain t) : termQuery T field t none = .ok q ↔
    ∃ s, tokenText t = .ok s ∧ q = getFieldQuery T field s 0 := by
  unfold termQuery
  rw [if_neg h.kinds.1, if_neg h.kinds.2, bind_ok_iff, h.text]
  apply exists_congr
  intro s
  apply and_congr_right
  intro _
  constructor
  · intro hq
    cases hq
    rfl
  · intro hq
    subst hq
    rfl

/-- The query of a term with a slop, which has to be a similarity. -/
theorem termQuery_fuzzy {f : QueryToken} (h : Plain t) : termQuery T field t (some f) = .ok q ↔
    (0 ≤ fms T f ∧ fms T f < 1) ∧ ∃ s, tokenText t = .ok s ∧ q = some (.FuzzyQuery field (T._tcslwr s) (fms T f)) := by
  unfold termQuery
  rw [if_neg h.kinds.1, if_neg h.kinds.2, ← h.text]
  dsimp only
  by_cases hout : fms T f < 0 ∨ fms T f > 1
  · rw [if_pos hout]
    refine iff_of_false (fun hq => by cases hq) ?_
    intro ⟨⟨h0, h1⟩, _⟩
    rcases hout with hout | hout
    · exact absurd h0 (not_le.2 hout)
    · exact absurd h1 (not_lt.2 hout.le)
  · rw [if_neg hout, bind_ok_iff]
    rw [not_or, not_lt] at hout
    simp only [bind_ok_iff, getFuzzyQuery]
    constructor
    · intro ⟨s, hs, fuzzy, hfuzzy, hq⟩
      split_ifs at hfuzzy with h1
      cases hfuzzy
      cases hq
      exact ⟨⟨hout.1, not_le.1 h1⟩, s, hs, rfl⟩
    · intro ⟨⟨_, h1⟩, s, hs, hq⟩
      subst hq
      exact ⟨s, hs, _, if_neg (not_le.2 h1), rfl⟩

/-- A term with wildcards has a query if it does not begin with one. -/
theorem termQuery_wild (h : t.kind = .WILDTERM) {s : QString} (hs : tokenText t = .ok s)
    (hstar : s.head? ≠ some (chr '*')) (hquestion : s.head? ≠ some (chr '?')) :
    ∃ q, termQuery T field t slop = .ok q := by
  have htext : discardEscapeChar t.image = .ok s := by
    unfold tokenText at hs
    rwa [h] at hs
  have hquery : ∃ q, getWildcardQuery T field s = .ok q := by
    unfold getWildcardQuery
    split_ifs with h1 h2
    · exact ⟨_, rfl⟩
    · rcases h2 with h2 | h2
      · exact absurd h2 hstar
      · exact absurd h2 hquestion
    · exact ⟨_, rfl⟩
  obtain ⟨q, hq⟩ := hquery
  unfold termQuery
  rw [if_pos (Or.inr h)]
  exact ⟨some q, bind_ok_iff.2 ⟨s, htext, bind_ok_iff.2 ⟨q, hq, rfl⟩⟩⟩

/-- A term has a query where it has a slop, or is found. -/
theorem isSome_termQuery (hterm : t.kind ∈ termKinds) (hq : termQuery T field t slop = .ok q)
    (h : slop.isSome = true ∨ found T t = true) : q.isSome = true := by
  by_cases hplain : Plain t
  · cases slop with
    | none =>
      rcases h with h | h
      · cases h
      · obtain ⟨s, hs, rfl⟩ := (termQuery_plain hplain).1 hq
        exact (isSome_getFieldQuery field s 0).2 ((found_iff hplain.analyzed hs).1 h)
    | some f =>
      obtain ⟨-, s, -, rfl⟩ := (termQuery_fuzzy hplain).1 hq
      rfl
  · -- a query with wildcards
    have hsome : ∀ (x : Except ParseError QString) (f : QString → Except ParseError Query),
        (do let s ← x; return some (← f s)) = .ok q → q.isSome = true := by
      intro x f hrun
      obtain ⟨s, -, hrun⟩ := bind_ok_iff.1 hrun
      obtain ⟨w, -, hrun⟩ := bind_ok_iff.1 hrun
      cases hrun
      rfl
    simp only [termKinds, List.mem_cons, List.not_mem_nil, or_false] at hterm
    unfold termQuery at hq
    rcases hterm with ht | ht | ht | ht | ht
    · rw [if_pos (Or.inl ht)] at hq
      exact hsome _ _ hq
    · exact absurd (Or.inl ht) hplain
    · rw [if_neg (by rw [ht]; decide), if_pos ht] at hq
      exact hsome _ _ hq
    · rw [if_pos (Or.inr ht)] at hq
      exact hsome _ _ hq
    · exact absurd (Or.inr ht) hplain

/-- **The query of a term** that is kept. -/
theorem termQuery_kept {t' : QueryToken} (hterm : t.kind ∈ termKinds) (hkind : t'.kind ∈ becomes t.kind)
    (htext : Texted t') (hslop : t'.kind = .TERM → t.kind ≠ .TERM → ∀ f ∈ slop, 0 ≤ fms T f ∧ fms T f < 1)
    (hfound : N → found T t' = true → found T t = true) (hq : termQuery T field t slop = .ok q) (field' : QString) :
    ∃ q', termQuery T field' t' slop = .ok q' ∧ Fewer N q q' := by
  obtain ⟨s', hs', hwild⟩ := htext
  have hkinds : t'.kind = .WILDTERM ∨ (Plain t' ∧ (Plain t ∨ (t'.kind = .TERM ∧ t.kind ≠ .TERM))) := by
    simp only [termKinds, List.mem_cons, List.not_mem_nil, or_false] at hterm
    rcases hterm with h | h | h | h | h
    · rw [h] at hkind
      cases hkind
    · rw [h] at hkind
      exact Or.inr ⟨Or.inl (List.mem_singleton.1 hkind), Or.inl (Or.inl h)⟩
    · have hne : t.kind ≠ .TERM := by
        rw [h]
        decide
      rw [h] at hkind
      have hterm' := List.mem_singleton.1 hkind
      exact Or.inr ⟨Or.inl hterm', Or.inr ⟨hterm', hne⟩⟩
    · have hne : t.kind ≠ .TERM := by
        rw [h]
        decide
      rw [h] at hkind
      rcases List.mem_pair.1 hkind with hwild' | hterm'
      · exact Or.inl hwild'
      · exact Or.inr ⟨Or.inl hterm', Or.inr ⟨hterm', hne⟩⟩
    · rw [h] at hkind
      exact Or.inr ⟨Or.inr (List.mem_singleton.1 hkind), Or.inl (Or.inr h)⟩
  rcases hkinds with h | ⟨hplain', hplain⟩
  · obtain ⟨q', hq'⟩ : ∃ q', termQuery T field' t' slop = .ok q' := termQuery_wild h hs' (hwild h).1 (hwild h).2
    refine ⟨q', hq', fun _ _ => isSome_termQuery hterm hq (Or.inr ?_)⟩
    have hkinds : ∀ k, .WILDTERM ∈ becomes k → k ∉ analyzedKinds := by
      intro k
      cases k
      all_goals decide
    exact if_neg (hkinds _ (h ▸ hkind))
  · cases slop with
    | none =>
      refine ⟨_, (termQuery_plain hplain').2 ⟨s', hs', rfl⟩, fun hN hsome => isSome_termQuery hterm hq (Or.inr ?_)⟩
      exact hfound hN ((found_iff hplain'.analyzed hs').2 ((isSome_getFieldQuery _ _ _).1 hsome))
    | some f =>
      have hfms : 0 ≤ fms T f ∧ fms T f < 1 := by
        rcases hplain with hplain | ⟨hterm', hne⟩
        · exact ((termQuery_fuzzy hplain).1 hq).1
        · exact hslop hterm' hne f rfl
      exact ⟨_, (termQuery_fuzzy hplain').2 ⟨hfms, s', hs', rfl⟩, fun _ _ => isSome_termQuery hterm hq (Or.inl rfl)⟩

end Terms

theorem termKinds_iff {k k' : TokenKind} (h : k' ∈ becomes k) : k ∈ termKinds ↔ k' ∈ termKinds := by
  revert k'
  cases k
  all_goals decide

/-- **A term** is read as one. -/
theorem fTerm_simulates (field field' : QString) : Simulates X (Deleted T N) (fTerm T field) (fTerm T field')
    (fun q q' ts ts' => Fewer N q q' ∧ Deleted T N ts ts') := by
  unfold fTerm
  apply jj_ntk_simulates.bind
  intro k k'
  apply Simulates.of_pre
  intro hkind
  apply Simulates.ite (termKinds_iff hkind)
  · intro hterm
    have hk : k ≠ ._EOF := by
      rintro rfl
      exact absurd hterm (by decide)
    apply ((jj_consume_token_simulates hk).weaken fun _ _ h => ⟨fun _ => h.2.1, h.2.2⟩).bind
    intro t t'
    have hsuffix : Simulates (fun _ => False)
        (fun ts ts' => t.kind = k ∧ t'.kind = k' ∧ Both T N t t' ts ts') fSuffix fSuffix fun x x' ts ts' =>
          (x' = x ∧ t.kind = k ∧ t'.kind = k' ∧ Texted t' ∧ (N → found T t' = true → found T t = true) ∧
            (t'.kind = .TERM → t.kind ≠ .TERM → ∀ f ∈ x.1, 0 ≤ fms T f ∧ fms T f < 1)) ∧ Deleted T N ts ts' := by
      intro ts ts' x r h hrun
      obtain ⟨ht, ht', hboth⟩ := h
      have hsame : Simulates (fun _ => False) (Deleted T N) fSuffix fSuffix _ := fSuffix_simulates
      rcases hsame hboth.rest hrun with hstuck | ⟨x', r', hrun', hx, hrest⟩
      · exact Or.inl hstuck
      · refine Or.inr ⟨x', r', hrun', ⟨hx, ht, ht', hboth.kept.text, hboth.kept.found, ?_⟩, hrest⟩
        intro h1 h2 f hf
        apply hboth.kept.slop h1 h2 f
        unfold slopOf
        rw [hrun]
        exact hf
    apply hsuffix.bind
    intro x x'
    apply Simulates.of_pre
    intro ⟨hx, ht, ht', htext, hfound, hslop⟩
    subst hx
    obtain ⟨slop, boost⟩ := x'
    have hquery : Simulates (fun _ => False) (Deleted T N) (liftM (termQuery T field t slop) : Parser _)
        (liftM (termQuery T field' t' slop) : Parser _) (fun q q' ts ts' => Fewer N q q' ∧ Deleted T N ts ts') := by
      apply Simulates.lift
      intro q ts ts' hq h
      obtain ⟨q', hq', hfewer⟩ := termQuery_kept (ht ▸ hterm) (by rwa [ht, ht']) htext hslop hfound hq field'
      exact ⟨q', hq', hfewer, h⟩
    apply hquery.bind
    intro q q'
    exact Simulates.pure fun _ _ h => ⟨h.1.boostQuery boost boost, h.2⟩
  · intro _
    apply Simulates.ite (becomes_iff (by decide) hkind)
    · intro _
      exact (fRange_simulates (Or.inl rfl) field field').weaken fun _ _ h => h.2.2
    · intro _
      apply Simulates.ite (becomes_iff (by decide) hkind)
      · intro _
        exact (fRange_simulates (Or.inr rfl) field field').weaken fun _ _ h => h.2.2
      · intro _
        apply Simulates.ite (becomes_iff (by decide) hkind)
        · intro _
          exact (fQuoted_simulates field field').weaken fun _ _ h => h.2.2
        · intro _
          exact Simulates.throw

/-- An operator has the same value. -/
theorem operator_simulates {α : Type} {k : TokenKind} (hk : k ≠ ._EOF) (hfixed : becomes k = [k]) (a : α) : Simulates X
    (Deleted T N) (do let _ ← jj_consume_token k; return a) (do let _ ← jj_consume_token k; return a)
    fun a a' ts ts' => a' = a ∧ Deleted T N ts ts' := by
  apply (jj_consume_fixed hk hfixed).bind
  intro t t'
  apply Simulates.pure
  intro ts ts' h
  exact ⟨rfl, h.2.2.rest⟩

theorem Conjunction_simulates : Simulates X (Deleted T N) Conjunction Conjunction fun c c' ts ts' =>
    c' = c ∧ Deleted T N ts ts' := by
  unfold Conjunction
  apply jj_ntk_simulates.bind
  intro k k'
  apply Simulates.of_pre
  intro hkind
  apply Simulates.weaken _ fun _ _ h => h.2.2
  apply Simulates.ite (becomes_iff (by decide) hkind)
  · intro _
    exact operator_simulates (by decide) (by decide) _
  · intro _
    apply Simulates.ite (becomes_iff (by decide) hkind)
    · intro _
      exact operator_simulates (by decide) (by decide) _
    · intro _
      exact Simulates.pure fun _ _ h => ⟨rfl, h⟩

theorem Modifiers_simulates : Simulates X (Deleted T N) Modifiers Modifiers fun m m' ts ts' =>
    m' = m ∧ Deleted T N ts ts' := by
  unfold Modifiers
  apply jj_ntk_simulates.bind
  intro k k'
  apply Simulates.of_pre
  intro hkind
  apply Simulates.weaken _ fun _ _ h => h.2.2
  apply Simulates.ite (becomes_iff (by decide) hkind)
  · intro _
    exact operator_simulates (by decide) (by decide) _
  · intro _
    apply Simulates.ite (becomes_iff (by decide) hkind)
    · intro _
      exact operator_simulates (by decide) (by decide) _
    · intro _
      apply Simulates.ite (becomes_iff (by decide) hkind)
      · intro _
        exact operator_simulates (by decide) (by decide) _
      · intro _
        exact Simulates.pure fun _ _ h => ⟨rfl, h⟩

end QueryParser

end QDesktopSearch
