import QDesktopSearch.Lib.Program
import QDesktopSearch.Model.QueryParser
import QDesktopSearch.Proof.Analysis

/-!
# The parser reads on

Each function of the parser goes on in the stream of the tokens (`Reads`), and for each clause it
adds it takes tokens of weight 2, where a quoted text without content weighs nothing. So there is
always fuel (`parseTokens_ne_outOfFuel`), and a query has at most half as many clauses as its
tokens weigh.
-/

namespace QDesktopSearch

open Program

/-- What a token counts for the clause that it is part of. -/
def kindWeight : TokenKind → ℕ
  | .STAR | .TERM | .PREFIXTERM | .WILDTERM | .NUMBER => 2
  | .RANGEIN_QUOTED | .RANGEIN_GOOP | .RANGEEX_QUOTED | .RANGEEX_GOOP => 1
  | _ => 0

def QueryToken.weight (t : QueryToken) : ℕ :=
  if t.kind = .QUOTED then if 2 < t.image.length then 2 else 0 else kindWeight t.kind

namespace TokenStream

/-- The weight of the tokens that are left; that behind a caret, a number, has none. -/
def weightFrom (caret : Bool) : TokenStream → ℕ
  | eof => 0
  | lexicalError => 0
  | next t rest => (if caret then 0 else t.weight) + rest.weightFrom (t.kind = .CARAT)

def weight (ts : TokenStream) : ℕ := ts.weightFrom false

theorem weight_next (t : QueryToken) (rest : TokenStream) (h : t.kind ≠ .CARAT) :
    (next t rest).weight = t.weight + rest.weight := by
  unfold weight
  rw [weightFrom, decide_eq_false h]
  rfl

/-- `r` is what is left of `ts` past `m` tokens of the weight `w`. -/
structure After (ts r : TokenStream) (m w : ℕ) : Prop where
  length_le : r.length + m ≤ ts.length
  weight_le : r.weight + w ≤ ts.weight

theorem After.refl (ts : TokenStream) : After ts ts 0 0 := ⟨le_rfl, le_rfl⟩

theorem After.trans {ts r u : TokenStream} {m m' v w x : ℕ} (h : After ts r m v) (h' : After r u m' w) (hx : x ≤ v + w) :
    After ts u (m + m') x := by
  have h1 := h.length_le
  have h2 := h'.length_le
  have h3 := h.weight_le
  have h4 := h'.weight_le
  constructor
  · omega
  · omega

end TokenStream

namespace QueryParser

open TokenStream

variable {T : ParserTables} {fuel m m' : ℕ} {α β : Type}

/-- `p` goes past `m` tokens, of the weight `w` for what it gives, and needs fuel only for more than
`fuel` tokens. -/
def Reads (fuel : ℕ) (p : Parser α) (m : ℕ) (w : α → ℕ) : Prop :=
  ∀ ts, Meets p ts (fun e => e = .outOfFuel → fuel ≤ ts.length) fun a r => After ts r m (w a)

theorem Reads.of_pure {a : α} {w : α → ℕ} (h : w a = 0) : Reads fuel (pure a) 0 w := by
  intro ts
  apply Meets.pure
  rw [h]
  exact .refl ts

theorem Reads.of_throw {e : ParseError} {w : α → ℕ} (h : e ≠ .outOfFuel) : Reads fuel (throw e : Parser α) m w :=
  fun _ => Meets.throw fun he => absurd he h

theorem Reads.of_lift {x : Except ParseError α} {w : α → ℕ} (hx : x ≠ .error .outOfFuel) (hw : ∀ a, x = .ok a → w a = 0) :
    Reads fuel (liftM x) 0 w := by
  intro ts
  apply Meets.lift
  · intro a ha
    rw [hw a ha]
    exact .refl ts
  · intro e he hfuel
    subst hfuel
    exact absurd he hx

theorem Reads.bind {p : Parser α} {f : α → Parser β} {v : α → ℕ} {w : β → ℕ} (hp : Reads fuel p m v)
    (hf : ∀ a, Reads fuel (f a) m' fun b => w b - v a) : Reads fuel (p >>= f) (m + m') w := by
  intro ts
  apply (hp ts).bind
  intro a r hr
  have hle := hr.length_le
  apply (hf a r).mono
  · intro e he hfuel
    have h := he hfuel
    omega
  · intro b u hu
    have hw : w b ≤ v a + (w b - v a) := by omega
    exact hr.trans hu hw

/-- What is read afterwards are no more tokens. -/
theorem Reads.after {p : Parser α} {f : α → Parser β} {v : α → ℕ} {w : β → ℕ} (hp : Reads fuel p m v)
    (hf : ∀ a, Reads fuel (f a) 0 fun b => w b - v a) : Reads fuel (p >>= f) m w :=
  hp.bind hf

/-- What is read first does not count. -/
theorem Reads.skip {p : Parser α} {f : α → Parser β} {w : β → ℕ} (hp : Reads fuel p 0 fun _ => 0)
    (hf : ∀ a, Reads fuel (f a) m w) : Reads fuel (p >>= f) m w := by
  have h := hp.bind hf
  rwa [Nat.zero_add] at h

/-- What is read first counts. -/
theorem Reads.count {p : Parser α} {f : α → Parser β} {c d : ℕ} (hp : Reads fuel p 0 fun _ => c)
    (hf : ∀ a, Reads fuel (f a) m fun _ => d) : Reads fuel (p >>= f) m fun _ => c + d := by
  have h : Reads fuel (p >>= f) (0 + m) fun _ => c + d := by
    apply hp.bind
    intro a
    rw [Nat.add_sub_cancel_left]
    exact hf a
  rwa [Nat.zero_add] at h

/-- A computation without tokens. -/
theorem Reads.lift {x : Except ParseError α} {f : α → Parser β} {w : β → ℕ} (hx : x ≠ .error .outOfFuel)
    (hf : ∀ a, x = .ok a → Reads fuel (f a) m w) : Reads fuel (liftM x >>= f) m w := by
  cases x with
  | error e => exact fun ts => Meets.throw fun he => absurd (congrArg _ he) hx
  | ok a => exact hf a rfl

theorem Reads.mono {p : Parser α} {v w : α → ℕ} (h : Reads fuel p m v) (hm : m' ≤ m) (hw : ∀ a, w a ≤ v a) :
    Reads fuel p m' w := by
  intro ts
  apply (h ts).mono
  · exact fun _ he => he
  · intro a r hr
    have h1 := hr.length_le
    have h2 := hr.weight_le
    have h3 := hw a
    constructor
    · omega
    · omega

/-! ## Tokens -/

/-- The next token is looked at, and stays. -/
theorem jj_ntk_ok {ts r : TokenStream} {kind : TokenKind} (h : jj_ntk ts = .ok (kind, r)) : r = ts := by
  unfold jj_ntk at h
  split at h
  · cases h
    rfl
  · cases h
  · cases h
    rfl

theorem jj_ntk_reads : Reads fuel jj_ntk 0 fun _ => 0 := by
  intro ts
  constructor
  · intro kind r hrun
    obtain rfl := jj_ntk_ok hrun
    exact .refl r
  · intro e hrun he
    subst he
    unfold jj_ntk at hrun
    split at hrun
    · cases hrun
    · cases hrun
    · cases hrun

/-- A token of a kind is the next one, and is read. -/
theorem jj_consume_token_ok {kind : TokenKind} {ts r : TokenStream} {t : QueryToken} (hkind : kind ≠ ._EOF)
    (h : jj_consume_token kind ts = .ok (t, r)) : ts = .next t r ∧ t.kind = kind := by
  unfold jj_consume_token at h
  cases ts with
  | eof =>
    rw [if_neg hkind] at h
    cases h
  | lexicalError => cases h
  | next u rest =>
    by_cases hu : u.kind = kind
    · simp only [if_pos hu, Except.ok.injEq, Prod.mk.injEq] at h
      obtain ⟨rfl, rfl⟩ := h
      exact ⟨rfl, hu⟩
    · simp only [if_neg hu] at h
      cases h

theorem jj_consume_token_error {kind : TokenKind} {ts : TokenStream} {e : ParseError}
    (h : jj_consume_token kind ts = .error e) : e ≠ .outOfFuel := by
  unfold jj_consume_token at h
  rintro rfl
  split at h
  · split at h
    · cases h
    · cases h
  · cases h
  · split at h
    · cases h
    · cases h

/-- **What comes after a token** has a token less, and its weight. -/
theorem Reads.after_token {kind : TokenKind} {f : QueryToken → Parser β} {w : β → ℕ} (hEOF : kind ≠ ._EOF)
    (hcaret : kind ≠ .CARAT) (hf : ∀ t, t.kind = kind → Reads fuel (f t) m fun b => w b - t.weight) :
    Reads (fuel + 1) (jj_consume_token kind >>= f) (m + 1) w := by
  intro ts
  have hp : Meets (jj_consume_token kind) ts (fun e => e = .outOfFuel → fuel + 1 ≤ ts.length)
      fun t r => ts = .next t r ∧ t.kind = kind := by
    constructor
    · intro t r hrun
      exact jj_consume_token_ok hEOF hrun
    · intro e hrun he
      exact absurd he (jj_consume_token_error hrun)
  apply hp.bind
  intro t r ⟨hts, ht⟩
  subst hts
  apply (hf t ht r).mono
  · intro e he hfuel
    have hle := he hfuel
    rw [TokenStream.length]
    omega
  · intro b u hu
    have h1 := hu.length_le
    have h2 : u.weight + (w b - t.weight) ≤ r.weight := hu.weight_le
    constructor
    · rw [TokenStream.length]
      omega
    · rw [weight_next t r (ht ▸ hcaret)]
      omega

theorem Reads.token {kind : TokenKind} {f : QueryToken → Parser β} {w : β → ℕ} (hEOF : kind ≠ ._EOF)
    (hcaret : kind ≠ .CARAT) (hf : ∀ t, t.kind = kind → Reads fuel (f t) m fun b => w b - t.weight) :
    Reads fuel (jj_consume_token kind >>= f) (m + 1) w := by
  intro ts
  apply (Reads.after_token hEOF hcaret hf ts).mono
  · intro e he hfuel
    have hle := he hfuel
    omega
  · exact fun _ _ hr => hr

/-- A token that need not count. -/
theorem Reads.one_token {kind : TokenKind} {f : QueryToken → Parser β} {w : β → ℕ} (hEOF : kind ≠ ._EOF)
    (hcaret : kind ≠ .CARAT) (hf : ∀ t, Reads fuel (f t) m w) : Reads fuel (jj_consume_token kind >>= f) (m + 1) w := by
  apply Reads.token hEOF hcaret
  intro t _
  exact (hf t).mono le_rfl fun b => Nat.sub_le _ _

theorem Reads.skip_token {kind : TokenKind} {f : QueryToken → Parser β} {w : β → ℕ} (hEOF : kind ≠ ._EOF)
    (hcaret : kind ≠ .CARAT) (hf : ∀ t, Reads fuel (f t) m w) : Reads fuel (jj_consume_token kind >>= f) m w :=
  (Reads.one_token hEOF hcaret hf).mono (Nat.le_succ m) fun _ => le_rfl

theorem jj_consume_token_reads {kind : TokenKind} {c : ℕ} (hEOF : kind ≠ ._EOF) (hcaret : kind ≠ .CARAT)
    (hc : ∀ t : QueryToken, t.kind = kind → c ≤ t.weight) : Reads fuel (jj_consume_token kind) 1 fun _ => c := by
  have h : Reads fuel (jj_consume_token kind >>= pure) (0 + 1) fun _ => c := by
    apply Reads.token hEOF hcaret
    intro t ht
    exact .of_pure (Nat.sub_eq_zero_of_le (hc t ht))
  rwa [bind_pure] at h

/-! ## The grammar -/

theorem optionalToken_reads {kind : TokenKind} (hEOF : kind ≠ ._EOF) (hcaret : kind ≠ .CARAT) :
    Reads fuel (optionalToken kind) 0 fun _ => 0 := by
  unfold optionalToken
  apply jj_ntk_reads.skip
  intro k
  split_ifs
  · exact Reads.skip_token hEOF hcaret fun _ => .of_pure rfl
  · exact .of_pure rfl

theorem Conjunction_reads : Reads fuel Conjunction 0 fun _ => 0 := by
  unfold Conjunction
  apply jj_ntk_reads.skip
  intro k
  split_ifs
  · exact Reads.skip_token (by decide) (by decide) fun _ => .of_pure rfl
  · exact Reads.skip_token (by decide) (by decide) fun _ => .of_pure rfl
  · exact .of_pure rfl

theorem Modifiers_reads : Reads fuel Modifiers 0 fun _ => 0 := by
  unfold Modifiers
  apply jj_ntk_reads.skip
  intro k
  split_ifs
  · exact Reads.skip_token (by decide) (by decide) fun _ => .of_pure rfl
  · exact Reads.skip_token (by decide) (by decide) fun _ => .of_pure rfl
  · exact Reads.skip_token (by decide) (by decide) fun _ => .of_pure rfl
  · exact .of_pure rfl

/-- The number behind a caret does not count. -/
theorem fBoost_reads : Reads fuel fBoost 0 fun _ => 0 := by
  unfold fBoost
  apply jj_ntk_reads.skip
  intro k
  split_ifs
  · intro ts
    constructor
    · intro boost r hrun
      obtain ⟨t, u, ht, hrun1⟩ := run_bind_ok.1 hrun
      obtain ⟨t', u', ht', hrun2⟩ := run_bind_ok.1 hrun1
      cases hrun2
      obtain ⟨rfl, hcaret⟩ := jj_consume_token_ok (by decide) ht
      obtain ⟨rfl, hnumber⟩ := jj_consume_token_ok (by decide) ht'
      constructor
      · simp only [TokenStream.length]
        omega
      · simp [weight, weightFrom, hcaret, hnumber]
    · intro e hrun he
      have hmeets : Meets (jj_consume_token .CARAT >>= fun _ => jj_consume_token .NUMBER >>= fun boost =>
          (pure (some boost) : Parser _)) ts (· ≠ .outOfFuel) fun _ _ => True := by
        have hconsume : ∀ kind ts, Meets (jj_consume_token kind) ts (· ≠ .outOfFuel) fun _ _ => True :=
          fun kind ts => ⟨fun _ _ _ => trivial, fun _ h => jj_consume_token_error h⟩
        apply (hconsume _ ts).bind
        intro _ r _
        exact (hconsume _ r).bind fun _ _ _ => Meets.pure trivial
      exact absurd he (hmeets.2 e hrun)
  · exact .of_pure rfl

theorem fSuffix_reads : Reads fuel fSuffix 0 fun _ => 0 := by
  unfold fSuffix
  apply (optionalToken_reads (by decide) (by decide)).skip
  intro fuzzySlop
  apply fBoost_reads.skip
  intro boost
  cases boost with
  | none => exact .of_pure rfl
  | some boost => exact (optionalToken_reads (by decide) (by decide)).skip fun _ => .of_pure rfl

theorem weight_of_kind {t : QueryToken} (h : t.kind ≠ .QUOTED) : t.weight = kindWeight t.kind := if_neg h

theorem fGoop_reads {r : RangeGrammar} (hr : r = rangeIn ∨ r = rangeEx) : Reads fuel (fGoop r) 0 fun _ => 1 := by
  have hone : ∀ kind, kind ∈ [TokenKind.RANGEIN_GOOP, .RANGEIN_QUOTED, .RANGEEX_GOOP, .RANGEEX_QUOTED] →
      Reads fuel (jj_consume_token kind) 0 fun _ => 1 := by
    intro kind hkind
    have hcases : kind ≠ ._EOF ∧ kind ≠ .CARAT ∧ kind ≠ .QUOTED ∧ kindWeight kind = 1 := by
      revert kind
      decide
    obtain ⟨hEOF, hcaret, hquoted, hweight⟩ := hcases
    apply (jj_consume_token_reads hEOF hcaret _).mono (Nat.zero_le 1) fun _ => le_rfl
    intro t ht
    rw [weight_of_kind (ht ▸ hquoted), ht, hweight]
  unfold fGoop
  apply jj_ntk_reads.skip
  intro k
  split_ifs
  · rcases hr with rfl | rfl
    · exact hone _ (by decide)
    · exact hone _ (by decide)
  · rcases hr with rfl | rfl
    · exact hone _ (by decide)
    · exact hone _ (by decide)
  · apply Reads.of_throw
    decide

theorem discardEscapeLoop_ne (input : QString) (b : Bool) (m n : ℕ) :
    discardEscapeLoop input b m n ≠ .error .outOfFuel := by
  induction input generalizing b m n with
  | nil =>
    unfold discardEscapeLoop
    split_ifs
    · simp
    · simp
    · simp
  | cons c input ih =>
    have hmap : ∀ (f : QString → QString) b m n, (discardEscapeLoop input b m n).map f ≠ .error .outOfFuel := by
      intro f b m n
      have hne := ih b m n
      cases hrun : discardEscapeLoop input b m n with
      | error e =>
        rw [hrun] at hne
        exact fun he => hne (congrArg _ (Except.error.inj he))
      | ok s => exact fun he => by cases he
    have hhex : ∀ e, hexToInt c = .error e → e ≠ .outOfFuel := by
      intro e he
      unfold hexToInt at he
      split_ifs at he
      cases he
      simp
    unfold discardEscapeLoop
    split_ifs
    · split
      · rename_i e he
        exact fun h => hhex e he (Except.error.inj h)
      · dsimp only
        split_ifs
        · exact hmap _ _ _ _
        · exact ih _ _ _
    · exact ih _ _ _
    · exact hmap _ _ _ _
    · exact ih _ _ _
    · exact hmap _ _ _ _

theorem discardEscapeChar_ne (input : QString) : discardEscapeChar input ≠ .error .outOfFuel :=
  discardEscapeLoop_ne _ _ _ _

theorem goopText_ne (r : RangeGrammar) (goop : QueryToken) : goopText r goop ≠ .error .outOfFuel :=
  discardEscapeChar_ne _

theorem bind_ne {x : Except ParseError α} {f : α → Except ParseError β} (hx : x ≠ .error .outOfFuel)
    (hf : ∀ a, f a ≠ .error .outOfFuel) : (x >>= f) ≠ .error .outOfFuel := by
  cases x with
  | error e => exact fun h => hx (congrArg _ (Except.error.inj h))
  | ok a => exact hf a

theorem termQuery_ne (field : QString) (term : QueryToken) (fuzzySlop : Option QueryToken) :
    termQuery T field term fuzzySlop ≠ .error .outOfFuel := by
  have hwildcard : ∀ s, getWildcardQuery T field s ≠ .error .outOfFuel := by
    intro s
    unfold getWildcardQuery
    split_ifs
    · simp
    · simp
    · simp
  have hprefixed : ∀ s, getPrefixQuery T field s ≠ .error .outOfFuel := by
    intro s
    unfold getPrefixQuery
    split_ifs
    · simp
    · simp
  have hfuzzy : ∀ s f, getFuzzyQuery T field s f ≠ .error .outOfFuel := by
    intro s f
    unfold getFuzzyQuery
    split_ifs
    · simp
    · simp
  unfold termQuery
  split_ifs
  · apply bind_ne (discardEscapeChar_ne _)
    intro s
    exact bind_ne (hwildcard s) fun q => by simp [pure, Except.pure]
  · apply bind_ne (discardEscapeChar_ne _)
    intro s
    exact bind_ne (hprefixed s) fun q => by simp [pure, Except.pure]
  · cases fuzzySlop with
    | none => exact bind_ne (discardEscapeChar_ne _) fun q => by simp [pure, Except.pure]
    | some fuzzySlop =>
      dsimp only
      split_ifs
      · simp [throw, throwThe, MonadExceptOf.throw, bind, Except.bind]
      · apply bind_ne (discardEscapeChar_ne _)
        intro s
        exact bind_ne (hfuzzy s _) fun q => by simp [pure, Except.pure]

theorem getBooleanQuery_ne (clauses : List (Query × Occur)) : getBooleanQuery clauses ≠ .error .outOfFuel := by
  unfold getBooleanQuery
  split_ifs
  · simp
  · simp
  · simp

/-- What is read for a query that is none, and for one. -/
def queryWeight (q : Option Query) : ℕ := if q.isSome then 2 else 0

theorem queryWeight_le (q : Option Query) : queryWeight q ≤ 2 := by
  unfold queryWeight
  split_ifs
  · exact le_rfl
  · exact Nat.zero_le 2

theorem isSome_boostQuery (q : Option Query) (boost : Option QueryToken) : (boostQuery T q boost).isSome = q.isSome := by
  unfold boostQuery
  cases boost with
  | none => rfl
  | some boost => exact Option.isSome_map

theorem queryWeight_boostQuery (q : Option Query) (boost : Option QueryToken) :
    queryWeight (boostQuery T q boost) = queryWeight q := by
  unfold queryWeight
  rw [isSome_boostQuery]

theorem fRange_reads {r : RangeGrammar} (hr : r = rangeIn ∨ r = rangeEx) (field : QString) :
    Reads fuel (fRange T r field) 1 fun _ => 2 := by
  have hkinds : r.start ≠ ._EOF ∧ r.start ≠ .CARAT ∧ r.tokens.TO ≠ ._EOF ∧ r.tokens.TO ≠ .CARAT ∧
      r.tokens.stopKind ≠ ._EOF ∧ r.tokens.stopKind ≠ .CARAT := by
    rcases hr with rfl | rfl
    · decide
    · decide
  obtain ⟨hstart, hstart', hTO, hTO', hstop, hstop'⟩ := hkinds
  unfold fRange
  apply Reads.one_token hstart hstart'
  intro _
  apply (fGoop_reads hr).count (d := 1)
  intro goop1
  apply (optionalToken_reads hTO hTO').skip
  intro _
  apply (fGoop_reads hr).count (d := 0)
  intro goop2
  apply Reads.skip_token hstop hstop'
  intro _
  apply fBoost_reads.skip
  intro boost
  apply Reads.lift (goopText_ne r goop1)
  intro t1 _
  apply Reads.lift (goopText_ne r goop2)
  intro t2 _
  exact .of_pure rfl

/-- The analyzer finds nothing in an empty text. -/
theorem analyze_nil : analyze T [] = [] := by
  have htokens := QStandardAnalyzer.pull_spec T.toCharTables (QStandardAnalyzer.tokenStream_spec (Reader.stringReader [])) 1
  have hnone : analysisFrom T.toCharTables 0 [] = [] := rfl
  have hrest : (Reader.stringReader []).rest = [] := rfl
  rw [hrest, hnone, List.take_nil] at htokens
  exact htokens

/-- A quoted text without content is no query. -/
theorem fQuoted_reads (field : QString) : Reads fuel (fQuoted T field) 1 queryWeight := by
  unfold fQuoted
  apply Reads.token (m := 0) (by decide) (by decide)
  intro term hterm
  apply (optionalToken_reads (by decide) (by decide)).skip
  intro fuzzySlop
  apply fBoost_reads.skip
  intro boost
  apply Reads.lift (discardEscapeChar_ne _)
  intro tmp htmp
  apply Reads.of_pure
  rw [queryWeight_boostQuery]
  unfold QueryToken.weight
  rw [if_pos hterm]
  split_ifs with hlen
  · exact Nat.sub_eq_zero_of_le (queryWeight_le _)
  · have hempty : term.image.dropLast.drop 1 = [] := by
      apply List.eq_nil_of_length_eq_zero
      rw [List.length_drop, List.length_dropLast]
      omega
    rw [hempty] at htmp
    cases htmp
    unfold getFieldQuery
    rw [analyze_nil]
    rfl

theorem fTerm_reads (field : QString) : Reads fuel (fTerm T field) 1 queryWeight := by
  unfold fTerm
  apply jj_ntk_reads.skip
  intro kind
  split_ifs with hterm
  · have hkind : kind ≠ ._EOF ∧ kind ≠ .CARAT ∧ kind ≠ .QUOTED ∧ kindWeight kind = 2 := by
      revert kind
      decide
    obtain ⟨hEOF, hcaret, hquoted, hweight⟩ := hkind
    apply Reads.token (m := 0) hEOF hcaret
    intro term hkind
    apply fSuffix_reads.skip
    intro x
    apply Reads.lift (termQuery_ne _ _ _)
    intro q _
    apply Reads.of_pure
    have hle := queryWeight_le (boostQuery T q x.2)
    rw [weight_of_kind (hkind ▸ hquoted), hkind, hweight]
    omega
  · exact (fRange_reads (Or.inl rfl) field).mono le_rfl queryWeight_le
  · exact (fRange_reads (Or.inr rfl) field).mono le_rfl queryWeight_le
  · exact fQuoted_reads field
  · apply Reads.of_throw
    decide

theorem jj_2_1_reads : Reads fuel jj_2_1 0 fun _ => 0 := by
  intro ts
  constructor
  · intro b r hrun
    have hr : r = ts := by
      unfold jj_2_1 at hrun
      split at hrun
      · cases hrun
        rfl
      · cases hrun
      · split_ifs at hrun
        · split at hrun
          · cases hrun
            rfl
          · cases hrun
          · cases hrun
            rfl
        · cases hrun
          rfl
    subst hr
    exact .refl r
  · intro e hrun he
    subst he
    unfold jj_2_1 at hrun
    split at hrun
    · cases hrun
    · cases hrun
    · split_ifs at hrun
      split at hrun
      · cases hrun
      · cases hrun
      · cases hrun

theorem fField_reads : Reads fuel fField 0 fun _ => 0 := by
  unfold fField
  apply jj_2_1_reads.skip
  intro b
  split_ifs
  · apply jj_ntk_reads.skip
    intro kind
    split_ifs
    · apply Reads.skip_token (by decide) (by decide)
      intro fieldToken
      apply Reads.skip_token (by decide) (by decide)
      intro _
      apply Reads.lift (discardEscapeChar_ne _)
      intro tmpField _
      exact .of_pure rfl
    · apply Reads.skip_token (by decide) (by decide)
      intro _
      exact Reads.skip_token (by decide) (by decide) fun _ => .of_pure rfl
  · exact .of_pure rfl

/-- **A clause** is read past a token, and its parentheses take one more. -/
theorem fClause_reads {fQuery : QString → Parser (Option Query)} (h : ∀ field, Reads fuel (fQuery field) 1 queryWeight)
    (field : QString) : Reads (fuel + 1) (fClause T fQuery field) 1 queryWeight := by
  unfold fClause
  apply fField_reads.skip
  intro tmpField
  apply jj_ntk_reads.skip
  intro kind
  split_ifs
  · exact fTerm_reads _
  · apply Reads.after_token (m := 0) (by decide) (by decide)
    intro _ _
    have hquery := (h (tmpField.getD field)).mono (Nat.zero_le 1) fun _ => le_rfl
    apply (hquery.after fun q => _).mono le_rfl fun q => Nat.sub_le _ _
    intro q
    apply Reads.skip_token (by decide) (by decide)
    intro _
    apply fBoost_reads.skip
    intro boost
    apply Reads.of_pure
    rw [queryWeight_boostQuery]
    exact Nat.sub_self _
  · apply Reads.of_throw
    decide

@[simp] theorem length_requireLast (clauses : List (Query × Occur)) : (requireLast clauses).length = clauses.length := by
  fun_induction requireLast clauses with
  | case1 => rfl
  | case2 c occur => rfl
  | case3 c clauses hne ih => exact congrArg (· + 1) ih

/-- A clause is added where there is a query. -/
theorem length_addClause (clauses : List (Query × Occur)) (conj : Conj) (mods : Mod) (q : Option Query) :
    (addClause clauses conj mods q).length = clauses.length + if q.isSome then 1 else 0 := by
  have hlast : (if conj = .CONJ_AND then requireLast clauses else clauses).length = clauses.length := by
    split_ifs
    · exact length_requireLast clauses
    · rfl
  unfold addClause
  cases q with
  | none => exact hlast
  | some q =>
    dsimp only
    rw [List.length_append, hlast]
    rfl

/-- **The loop over the clauses** adds one at most for each weight of 2 that it reads past. -/
theorem clausesLoop_reads {fClause : Parser (Option Query)} (h : Reads fuel fClause 1 queryWeight) (n : ℕ)
    (clauses : List (Query × Occur)) (ts : TokenStream) :
    Meets (clausesLoop fClause n clauses) ts (fun e => e = .outOfFuel → fuel ≤ ts.length ∨ n ≤ ts.length)
      fun clauses' r => After ts r 0 0 ∧ 2 * clauses'.length + r.weight ≤ 2 * clauses.length + ts.weight := by
  induction n generalizing clauses ts with
  | zero => exact Meets.throw fun _ => Or.inr (Nat.zero_le _)
  | succ n ih =>
    have herror : ∀ r : TokenStream, r.length ≤ ts.length → ∀ e : ParseError, (e = .outOfFuel → fuel ≤ r.length) →
        e = .outOfFuel → fuel ≤ ts.length ∨ n + 1 ≤ ts.length := by
      intro r hr e he hfuel
      have hle := he hfuel
      omega
    unfold clausesLoop
    apply ((jj_ntk_reads ts).mono (herror ts le_rfl) fun _ _ hr => hr).bind
    intro kind r hr
    have h1 := hr.length_le
    split_ifs
    · apply ((Conjunction_reads r).mono (herror r h1) fun _ _ h => hr.trans h le_rfl).bind
      intro conj r hr
      have h1 := hr.length_le
      apply ((Modifiers_reads r).mono (herror r h1) fun _ _ h => hr.trans h le_rfl).bind
      intro mods r hr
      have h1 := hr.length_le
      apply ((h r).mono (herror r h1) fun _ _ h => hr.trans h le_rfl).bind
      intro q r hr
      have h1 := hr.length_le
      have h2 := hr.weight_le
      apply (ih _ r).mono
      · intro e he hfuel
        have hle := he hfuel
        omega
      · intro clauses' u hu
        have hu1 := hu.1.length_le
        have hu2 := hu.1.weight_le
        have hadd := hu.2
        rw [length_addClause] at hadd
        unfold queryWeight at h2
        refine ⟨⟨?_, ?_⟩, ?_⟩
        · omega
        · omega
        · split_ifs at h2 hadd
          · omega
          · omega
    · apply Meets.pure
      have h2 := hr.weight_le
      exact ⟨hr, by omega⟩

/-- How `fQuery` ends. -/
def closing (clauses : List (Query × Occur)) (firstQuery : Option Query) : Parser (Option Query) :=
  if clauses.length = 1 ∧ firstQuery.isSome then return firstQuery else getBooleanQuery clauses

/-- A query has a clause. -/
theorem closing_reads (clauses : List (Query × Occur)) (firstQuery : Option Query) :
    Reads fuel (closing clauses firstQuery) 0 fun q => queryWeight q - 2 * clauses.length := by
  have hle := fun q => queryWeight_le q
  unfold closing
  split_ifs with hone
  · apply Reads.of_pure
    have h := hle firstQuery
    omega
  · apply Reads.of_lift (getBooleanQuery_ne clauses)
    intro q hq
    have h := hle q
    unfold getBooleanQuery at hq
    split_ifs at hq with hnone
    · cases hq
      exact Nat.zero_sub _
    · omega

/-- **A query** is read past a token. -/
theorem fQuery_reads {n depth : ℕ} (h : depth ≤ n) (field : QString) :
    Reads depth (fQuery T n depth field) 1 queryWeight := by
  induction depth generalizing field with
  | zero => exact fun _ => Meets.throw fun _ => Nat.zero_le _
  | succ depth ih =>
    have hclause : Reads (depth + 1) (fClause T (fQuery T n depth) field) 1 queryWeight :=
      fClause_reads (fun field => ih (by omega) field) field
    unfold fQuery
    apply Modifiers_reads.skip
    intro mods
    apply hclause.after
    intro q ts
    apply ((clausesLoop_reads hclause n _ ts).mono _ fun _ _ h => h).bind
    · intro clauses r ⟨hr, hle⟩
      have hr1 := hr.length_le
      have hr2 := hr.weight_le
      have hclosing : Reads (depth + 1) (closing clauses (if mods = .MOD_NONE then q else none)) 0 _ :=
        closing_reads clauses _
      apply (hclosing r).mono
      · intro e he hfuel
        have hle := he hfuel
        omega
      · intro b u hu
        have hu1 := hu.length_le
        have hu2 : u.weight + (queryWeight b - 2 * clauses.length) ≤ r.weight := hu.weight_le
        rw [length_addClause] at hle
        have hq : queryWeight q = 2 * if q.isSome then 1 else 0 := by
          unfold queryWeight
          split_ifs
          · rfl
          · rfl
        rw [List.length_nil, Nat.zero_add] at hle
        have hweight : u.weight + (queryWeight b - queryWeight q) ≤ ts.weight := by omega
        exact ⟨by omega, hweight⟩
    · intro e he hfuel
      have hle := he hfuel
      omega

theorem parseTokens_eq (field : QString) (ts : TokenStream) :
    parseTokens T field ts = (TopLevelQuery T (ts.length + 1) field ts).map Prod.fst := rfl

/-- **There is always fuel.** -/
theorem parseTokens_ne_outOfFuel (field : QString) (ts : TokenStream) : parseTokens T field ts ≠ .error .outOfFuel := by
  intro h
  rw [parseTokens_eq] at h
  cases hrun : TopLevelQuery T (ts.length + 1) field ts with
  | error e =>
    rw [hrun] at h
    have hEOF : ∀ q : Option Query, ∀ ts, Meets (jj_consume_token ._EOF >>= fun _ => (pure q : Parser _)) ts
        (· ≠ .outOfFuel) fun _ _ => True := by
      intro q ts
      have hconsume : Meets (jj_consume_token ._EOF) ts (· ≠ .outOfFuel) fun _ _ => True :=
        ⟨fun _ _ _ => trivial, fun _ h => jj_consume_token_error h⟩
      exact hconsume.bind fun _ _ _ => Meets.pure trivial
    have hread : Meets (TopLevelQuery T (ts.length + 1) field) ts (fun e => e = .outOfFuel → ts.length + 1 ≤ ts.length)
        fun _ _ => True := by
      unfold TopLevelQuery
      apply (fQuery_reads le_rfl field ts).bind
      intro q r _
      exact (hEOF q r).mono (fun _ hne he => absurd he hne) fun _ _ h => h
    have hfuel := hread.2 e hrun (Except.error.inj h)
    omega
  | ok x =>
    rw [hrun] at h
    cases h

end QueryParser

end QDesktopSearch
