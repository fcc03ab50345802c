import QDesktopSearch.Proof.Deletion

/-!
# The clauses of a text without its stars

`parseTokens_simulated`: where the tokens of a text are kept, one by one, without its stars, the
parser accepts them if it has accepted those of the text. The clauses are no more than the tokens
have room for, or than those of the text (`Related`).
-/

namespace QDesktopSearch

open Program

namespace QueryParser

open TokenStream

variable {T : ParserTables} {N : Prop} {X : TokenStream → Prop}

/-- A colon comes next, where a clause, an operator or the end is expected. -/
def Colon (ts : TokenStream) : Prop := headKind ts = some .COLON

/-- A term with wildcards before a colon, or before what is no token: without its stars it may
come to be a field. -/
def BecomesField : TokenStream → Prop
  | .next t rest => (t.kind = .PREFIXTERM ∨ t.kind = .WILDTERM) ∧ (rest = .lexicalError ∨ Colon rest)
  | _ => False

theorem jj_2_1_next (t : QueryToken) (rest : TokenStream) : jj_2_1 (.next t rest) =
    if t.kind = .TERM ∨ t.kind = .STAR then
      (headKind rest).elim (.error .TokenMgr) fun k => .ok (decide (k = .COLON), .next t rest)
    else .ok (false, .next t rest) := by
  unfold jj_2_1
  dsimp only
  split_ifs
  · cases rest with
    | eof => rfl
    | lexicalError => rfl
    | next u r => rfl
  · rfl

theorem Deleted.head {ts ts' : TokenStream} {k : TokenKind} (h : Deleted T N ts ts') (hk : headKind ts = some k) :
    ∃ k', headKind ts' = some k' ∧ k' ∈ becomes k := by
  cases h with
  | eof =>
    cases hk
    exact ⟨._EOF, rfl, by decide⟩
  | lexicalError => cases hk
  | next hkept =>
    cases hk
    exact ⟨_, rfl, hkept.kind⟩

/-- Nothing comes to be a star, and only these come to be terms. -/
theorem ne_star_of_becomes {k k' : TokenKind} (h : k' ∈ becomes k) : k' ≠ .STAR := by
  revert k'
  cases k
  all_goals decide

theorem of_becomes_term {k : TokenKind} (h : .TERM ∈ becomes k) : k = .TERM ∨ k = .PREFIXTERM ∨ k = .WILDTERM := by
  revert h
  cases k
  all_goals decide

/-- Whether a field comes next. -/
theorem jj_2_1_simulates : Simulates X (fun ts ts' => ¬BecomesField ts ∧ Deleted T N ts ts') jj_2_1 jj_2_1
    fun b b' ts ts' => b' = b ∧ (b = true → headKind ts = some .TERM ∧ headKind ts' = some .TERM) ∧
      Deleted T N ts ts' := by
  intro ts ts' b u ⟨hfield, h⟩ hrun
  right
  cases h with
  | eof =>
    cases hrun
    exact ⟨false, _, rfl, rfl, fun hb => absurd hb Bool.false_ne_true, .eof⟩
  | lexicalError => cases hrun
  | @next t t' rest rest' hkept hsame hrest =>
    have h : Deleted T N (.next t rest) (.next t' rest') := .next hkept hsame hrest
    have hkind := hkept.kind
    rw [jj_2_1_next] at hrun
    simp only [jj_2_1_next]
    by_cases hterm' : t'.kind = .TERM
    · rw [hterm'] at hkind
      rw [if_pos (Or.inl hterm')]
      rcases of_becomes_term hkind with hterm | hwild
      · -- a term in both
        rw [if_pos (Or.inl hterm)] at hrun
        cases hk : headKind rest with
        | none =>
          rw [hk] at hrun
          cases hrun
        | some k =>
          rw [hk] at hrun
          cases hrun
          obtain ⟨k', hk', hbecomes⟩ := hrest.head hk
          rw [hk']
          have hcolon : decide (k' = .COLON) = decide (k = .COLON) :=
            decide_eq_decide.2 (becomes_iff (by decide) hbecomes).symm
          exact ⟨_, _, rfl, hcolon, fun _ => ⟨congrArg some hterm, congrArg some hterm'⟩, h⟩
      · -- a term only without its stars, and no field
        have hne : ¬(t.kind = .TERM ∨ t.kind = .STAR) := by
          rcases hwild with ht | ht
          · rw [ht]
            decide
          · rw [ht]
            decide
        rw [if_neg hne] at hrun
        cases hrun
        cases hk : headKind rest with
        | none =>
          cases rest with
          | lexicalError => exact absurd ⟨hwild, Or.inl rfl⟩ hfield
          | eof => cases hk
          | next _ _ => cases hk
        | some k =>
          obtain ⟨k', hk', hbecomes⟩ := hrest.head hk
          rw [hk']
          have hcolon : k' ≠ .COLON := by
            intro hcolon
            rw [← becomes_iff (by decide) hbecomes] at hcolon
            exact hfield ⟨hwild, Or.inr (hk.trans (congrArg some hcolon))⟩
          exact ⟨_, _, rfl, decide_eq_false hcolon, fun hb => absurd hb Bool.false_ne_true, h⟩
    · have hne' : ¬(t'.kind = .TERM ∨ t'.kind = .STAR) := by
        rw [not_or]
        exact ⟨hterm', ne_star_of_becomes hkind⟩
      have hne : ¬(t.kind = .TERM ∨ t.kind = .STAR) := by
        intro ht
        rcases ht with ht | ht
        · rw [ht] at hkind
          exact hterm' (List.mem_singleton.1 hkind)
        · rw [ht] at hkind
          cases hkind
      rw [if_neg hne] at hrun
      rw [if_neg hne']
      cases hrun
      exact ⟨false, _, rfl, rfl, fun hb => absurd hb Bool.false_ne_true, h⟩

/-- **The field of a clause** may be another one. -/
theorem fField_simulates : Simulates X (fun ts ts' => ¬BecomesField ts ∧ Deleted T N ts ts') fField fField
    fun _ _ ts ts' => Deleted T N ts ts' := by
  unfold fField
  apply jj_2_1_simulates.bind
  intro b b'
  apply Simulates.of_pre
  intro hb
  subst hb
  apply Simulates.ite Iff.rfl
  · intro htrue
    have hpre : ∀ ts ts', (b' = true → headKind ts = some .TERM ∧ headKind ts' = some .TERM) ∧ Deleted T N ts ts' →
        (headKind ts = some .TERM ∧ headKind ts' = some .TERM) ∧ Deleted T N ts ts' :=
      fun ts ts' h => ⟨h.1 htrue, h.2⟩
    apply Simulates.weaken _ hpre
    have hterm : Simulates (fun _ => False)
        (fun ts ts' => (headKind ts = some .TERM ∧ headKind ts' = some .TERM) ∧ Deleted T N ts ts') jj_ntk jj_ntk
        fun k k' ts ts' => (k = .TERM ∧ k' = .TERM) ∧ Deleted T N ts ts' := by
      intro ts ts' k u ⟨⟨hts, hts'⟩, h⟩ hrun
      obtain rfl := jj_ntk_ok hrun
      rw [jj_ntk_head, hts] at hrun
      cases hrun
      exact Or.inr ⟨.TERM, ts', jj_ntk_head.2 hts', ⟨rfl, rfl⟩, h⟩
    apply hterm.bind
    intro k k'
    apply Simulates.of_pre
    intro ⟨hk, hk'⟩
    subst hk hk'
    rw [if_pos rfl]
    apply (jj_consume_fixed (by decide) (by decide)).bind
    intro t t'
    have hpre : ∀ ts ts', t.kind = .TERM ∧ t'.kind = .TERM ∧ Both T N t t' ts ts' →
        (∃ s, discardEscapeChar t'.image = .ok s) ∧ Deleted T N ts ts' := by
      intro ts ts' ⟨_, ht', hboth⟩
      obtain ⟨s, hs, -⟩ := hboth.kept.text
      have hplain : Plain t' := Or.inl ht'
      exact ⟨⟨s, hplain.text ▸ hs⟩, hboth.rest⟩
    apply Simulates.weaken _ hpre
    apply Simulates.of_pre
    intro ⟨s, hs⟩
    apply (jj_consume_fixed (by decide) (by decide)).bind
    intro _ _
    have hlift : Simulates (fun _ => False) (Deleted T N) (liftM (discardEscapeChar t.image) : Parser QString)
        (liftM (discardEscapeChar t'.image) : Parser QString) fun _ _ ts ts' => Deleted T N ts ts' :=
      Simulates.lift fun _ _ _ _ h => ⟨s, hs, h⟩
    apply (hlift.weaken fun _ _ h => h.2.2.rest).bind
    intro _ _
    exact Simulates.pure fun _ _ h => h
  · intro _
    exact Simulates.pure fun _ _ h => h.2

/-- Before a colon there is neither a slop nor a boost. -/
theorem fSuffix_colon {ts : TokenStream} (h : Colon ts) : fSuffix ts = .ok ((none, none), ts) := by
  have hntk := jj_ntk_head.2 h
  have hslop : optionalToken .FUZZY_SLOP ts = .ok (none, ts) := by
    unfold optionalToken
    exact run_bind_ok.2 ⟨_, _, hntk, rfl⟩
  have hboost : fBoost ts = .ok (none, ts) := by
    unfold fBoost
    exact run_bind_ok.2 ⟨_, _, hntk, rfl⟩
  unfold fSuffix
  exact run_bind_ok.2 ⟨_, _, hslop, run_bind_ok.2 ⟨_, _, hboost, rfl⟩⟩

/-- A clause that would come to be a field ends before the colon. -/
theorem fClause_colon {fQuery : QString → Parser (Option Query)} {field : QString} {ts u : TokenStream} {q : Option Query}
    (hfield : BecomesField ts) (hrun : fClause T fQuery field ts = .ok (q, u)) : Colon u := by
  unfold BecomesField at hfield
  split at hfield
  · rename_i t rest
    obtain ⟨hwild, hrest⟩ := hfield
    have hkind : ¬(t.kind = .TERM ∨ t.kind = .STAR) ∧ t.kind ∈ termKinds ∧ t.kind ≠ ._EOF := by
      rcases hwild with h | h
      · rw [h]
        decide
      · rw [h]
        decide
    obtain ⟨hne, hterm, hEOF⟩ := hkind
    have hnone : fField (.next t rest) = .ok (none, .next t rest) := by
      unfold fField
      exact run_bind_ok.2 ⟨false, _, (jj_2_1_next t rest).trans (if_neg hne), rfl⟩
    unfold fClause at hrun
    obtain ⟨o, ts, ho, hrun⟩ := run_bind_ok.1 hrun
    rw [hnone] at ho
    cases ho
    obtain ⟨k, ts, hk, hrun⟩ := run_bind_ok.1 hrun
    cases hk
    rw [if_pos (List.mem_append_left _ hterm)] at hrun
    unfold fTerm at hrun
    obtain ⟨k, ts, hk, hrun⟩ := run_bind_ok.1 hrun
    cases hk
    rw [if_pos hterm] at hrun
    obtain ⟨t', r, ht', hrun⟩ := run_bind_ok.1 hrun
    obtain ⟨heq, -⟩ := jj_consume_token_ok hEOF ht'
    cases heq
    obtain ⟨x, ts, hx, hrun⟩ := run_bind_ok.1 hrun
    rcases hrest with rfl | hcolon
    · cases hx
    · rw [fSuffix_colon hcolon] at hx
      cases hx
      obtain ⟨q', ts, hq', hrun⟩ := run_bind_ok.1 hrun
      cases hquery : termQuery T ((none : Option QString).getD field) t none with
      | error e =>
        rw [hquery] at hq'
        cases hq'
      | ok w =>
        rw [hquery] at hq'
        cases hq'
        cases hrun
        exact hcolon
  · exact hfield.elim

/-- Without the stars there is room for the clauses, or there are as many with them. -/
structure Related (T : ParserTables) (N : Prop) (ts ts' : TokenStream) : Prop where
  deleted : Deleted T N ts ts'
  room : N ∨ ts'.weight ≤ 2 * LUCENE_BOOLEANQUERY_MAXCLAUSECOUNT + 1

/-- **What is read leaves the room.** -/
theorem related_of_reads {α α' : Type} {p : Parser α} {p' : Parser α'} {m : ℕ} {w : α' → ℕ} {P : TokenStream → Prop}
    {S : α → α' → Prop} (h : Simulates X (fun ts ts' => P ts ∧ Deleted T N ts ts') p p' fun a a' ts ts' =>
      S a a' ∧ Deleted T N ts ts') (hread : Reads 0 p' m w) : Simulates X (fun ts ts' => P ts ∧ Related T N ts ts') p p'
      fun a a' ts ts' => S a a' ∧ Related T N ts ts' := by
  have hsame := h.weaken fun ts ts' (hR : P ts ∧ Related T N ts ts') => ⟨hR.1, hR.2.deleted⟩
  apply hsame.runs.mono (fun _ h => h) (fun _ _ h => h)
  intro a a' ts ts' ⟨⟨hS, hdeleted⟩, s, s', ⟨_, hrelated⟩, _, hrun'⟩
  have hle := ((hread s').1 a' ts' hrun').weight_le
  refine ⟨hS, hdeleted, hrelated.room.imp_right fun hroom => ?_⟩
  omega

/-- The same without more to know first. -/
theorem related_of_result {α α' : Type} {p : Parser α} {p' : Parser α'} {m : ℕ} {w : α' → ℕ} {S : α → α' → Prop}
    (h : Simulates X (Deleted T N) p p' fun a a' ts ts' => S a a' ∧ Deleted T N ts ts') (hread : Reads 0 p' m w) :
    Simulates X (Related T N) p p' fun a a' ts ts' => S a a' ∧ Related T N ts ts' := by
  have htrue : Simulates X (fun ts ts' => True ∧ Deleted T N ts ts') p p' fun a a' ts ts' => S a a' ∧ Deleted T N ts ts' :=
    h.weaken fun _ _ h => h.2
  exact (related_of_reads htrue hread).weaken fun _ _ h => ⟨trivial, h⟩

/-- The same without more to know. -/
theorem related_of_deleted {α α' : Type} {p : Parser α} {p' : Parser α'} {m : ℕ} {w : α' → ℕ}
    (h : Simulates X (Deleted T N) p p' fun _ _ => Deleted T N) (hread : Reads 0 p' m w) :
    Simulates X (Related T N) p p' fun _ _ => Related T N := by
  have htrue : Simulates X (Deleted T N) p p' fun _ _ ts ts' => True ∧ Deleted T N ts ts' :=
    h.mono (fun _ h => h) (fun _ _ h => h) fun _ _ _ _ h => ⟨trivial, h⟩
  exact (related_of_result htrue hread).mono (fun _ h => h) (fun _ _ h => h) fun _ _ _ _ h => h.2

theorem jj_ntk_related : Simulates X (Related T N) jj_ntk jj_ntk fun k k' ts ts' => k' ∈ becomes k ∧ Related T N ts ts' := by
  have hkind : Simulates X (Deleted T N) jj_ntk jj_ntk fun k k' ts ts' => k' ∈ becomes k ∧ Deleted T N ts ts' :=
    jj_ntk_simulates.mono (fun _ h => h) (fun _ _ h => h) fun _ _ _ _ h => ⟨h.1, h.2.2.2⟩
  exact related_of_result hkind jj_ntk_reads

theorem jj_consume_related {k : TokenKind} (hEOF : k ≠ ._EOF) (hcaret : k ≠ .CARAT) (hfixed : becomes k = [k]) :
    Simulates X (Related T N) (jj_consume_token k) (jj_consume_token k) fun _ _ => Related T N := by
  apply related_of_deleted _ (jj_consume_token_reads hEOF hcaret fun _ _ => Nat.zero_le _)
  exact (jj_consume_fixed hEOF hfixed).mono (fun _ h => h) (fun _ _ h => h) fun _ _ _ _ h => h.2.2.rest

theorem same_related {α : Type} {p : Parser α}
    (h : Simulates X (Deleted T N) p p fun a a' ts ts' => a' = a ∧ Deleted T N ts ts')
    (hread : Reads 0 p 0 fun _ => 0) : Simulates X (Related T N) p p fun _ _ => Related T N :=
  related_of_deleted (h.mono (fun _ h => h) (fun _ _ h => h) fun _ _ _ _ h => h.2) hread

/-- The kinds of the tokens that `fTerm` begins with. -/
def fTermKinds : List TokenKind := termKinds ++ [.QUOTED, .RANGEIN_START, .RANGEEX_START]

theorem fTermKinds_iff {k k' : TokenKind} (h : k' ∈ becomes k) : k ∈ fTermKinds ↔ k' ∈ fTermKinds := by
  revert k'
  cases k
  all_goals decide

/-- Nothing else than a colon is read where one comes next. -/
theorem not_consume_colon {k : TokenKind} {ts u : TokenStream} {t : QueryToken} (hts : Colon ts) (hk : k ≠ .COLON) :
    jj_consume_token k ts ≠ .ok (t, u) := by
  intro hrun
  unfold jj_consume_token at hrun
  split at hrun
  · cases hts
  · cases hrun
  · have hcolon := Option.some.inj hts
    split at hrun
    · rename_i h
      exact hk (h.symm.trans hcolon)
    · cases hrun

/-- There is a query only if there was one, and the tokens stay related. -/
def FewerRelated (T : ParserTables) (N : Prop) (q q' : Option Query) (ts ts' : TokenStream) : Prop :=
  Fewer N q q' ∧ Related T N ts ts'

/-- **A clause** is read as one, or ends before a colon. -/
theorem fClause_simulates {fQuery fQuery' : QString → Parser (Option Query)}
    (h : ∀ field field', Simulates Colon (Related T N) (fQuery field) (fQuery' field') (FewerRelated T N))
    (field field' : QString) : Simulates Colon (Related T N) (fClause T fQuery field) (fClause T fQuery' field')
      (FewerRelated T N) := by
  have hfield : Simulates (fun _ => False) (fun ts ts' => ¬BecomesField ts ∧ Related T N ts ts') fField fField
      fun _ _ => Related T N := by
    have hboth : Simulates (fun _ => False) (fun ts ts' => ¬BecomesField ts ∧ Deleted T N ts ts') fField fField
        fun _ _ ts ts' => True ∧ Deleted T N ts ts' :=
      fField_simulates.mono (fun _ h => h) (fun _ _ h => h) fun _ _ _ _ h => ⟨trivial, h⟩
    exact (related_of_reads hboth fField_reads).mono (fun _ h => h) (fun _ _ h => h) fun _ _ _ _ h => h.2
  have hclause : Simulates Colon (fun ts ts' => ¬BecomesField ts ∧ Related T N ts ts') (fClause T fQuery field)
      (fClause T fQuery' field') (FewerRelated T N) := by
    unfold fClause
    apply hfield.bind
    intro tmpField tmpField'
    apply jj_ntk_related.bind
    intro k k'
    apply Simulates.of_pre
    intro hkind
    apply Simulates.ite (fTermKinds_iff hkind)
    · intro _
      exact related_of_result (fTerm_simulates _ _) (fTerm_reads _)
    · intro _
      apply Simulates.ite (becomes_iff (by decide) hkind)
      · intro _
        apply (jj_consume_related (by decide) (by decide) (by decide)).bind
        intro _ _
        apply (h _ _).bind_of
        · intro q ts q' u hts hrun
          obtain ⟨t, r, ht, -⟩ := run_bind_ok.1 hrun
          exact absurd ht (not_consume_colon hts (by decide))
        · intro q q'
          apply Simulates.of_pre
          intro hfewer
          apply (jj_consume_related (by decide) (by decide) (by decide)).bind
          intro _ _
          apply (same_related fBoost_simulates fBoost_reads).bind
          intro boost boost'
          exact Simulates.pure fun _ _ h => ⟨hfewer.boostQuery boost boost', h⟩
      · intro _
        exact Simulates.throw
  intro ts ts' q u hrelated hrun
  by_cases hfield : BecomesField ts
  · exact Or.inl (fClause_colon hfield hrun)
  · exact hclause ⟨hfield, hrelated⟩ hrun

theorem clauseKinds_iff {k k' : TokenKind} (h : k' ∈ becomes k) : k ∈ clauseKinds ↔ k' ∈ clauseKinds := by
  revert k'
  cases k
  all_goals decide

/-- The loop goes no further before a colon. -/
theorem clausesLoop_colon {fClause : Parser (Option Query)} {n : ℕ} {clauses clauses' : List (Query × Occur)}
    {ts u : TokenStream} (hts : Colon ts) (hrun : clausesLoop fClause n clauses ts = .ok (clauses', u)) : Colon u := by
  cases n with
  | zero => cases hrun
  | succ n =>
    unfold clausesLoop at hrun
    obtain ⟨k, r, hk, hrun⟩ := run_bind_ok.1 hrun
    rw [jj_ntk_head.2 hts] at hk
    cases hk
    cases hrun
    exact hts

/-- A clause less, or as many. -/
theorem length_addClause_le {clauses clauses' : List (Query × Occur)} {q q' : Option Query}
    (hle : N → clauses'.length ≤ clauses.length) (hfewer : Fewer N q q') (conj conj' : Conj) (mods mods' : Mod) :
    N → (addClause clauses' conj' mods' q').length ≤ (addClause clauses conj mods q).length := by
  intro hN
  have hle := hle hN
  have hfewer := hfewer hN
  rw [length_addClause, length_addClause]
  by_cases hq' : q'.isSome = true
  · rw [if_pos hq', if_pos (hfewer hq')]
    omega
  · rw [if_neg hq']
    omega

/-- **The loop over the clauses** takes as many rounds. -/
theorem clausesLoop_simulates {fClause fClause' : Parser (Option Query)}
    (h : Simulates Colon (Related T N) fClause fClause' (FewerRelated T N)) {n n' : ℕ} (hn : n ≤ n')
    {clauses clauses' : List (Query × Occur)} (hle : N → clauses'.length ≤ clauses.length) :
    Simulates Colon (Related T N) (clausesLoop fClause n clauses) (clausesLoop fClause' n' clauses')
      fun clauses clauses' ts ts' => (N → clauses'.length ≤ clauses.length) ∧ Related T N ts ts' := by
  induction n generalizing n' clauses clauses' with
  | zero => exact Simulates.throw
  | succ n ih =>
    obtain ⟨n', rfl⟩ : ∃ m, n' = m + 1 := ⟨n' - 1, by omega⟩
    unfold clausesLoop
    apply jj_ntk_related.bind
    intro k k'
    apply Simulates.of_pre
    intro hkind
    apply Simulates.ite (clauseKinds_iff hkind)
    · intro _
      apply (same_related Conjunction_simulates Conjunction_reads).bind
      intro conj conj'
      apply (same_related Modifiers_simulates Modifiers_reads).bind
      intro mods mods'
      apply h.bind_of
      · intro q ts clauses' u hts hrun
        exact clausesLoop_colon hts hrun
      · intro q q'
        apply Simulates.of_pre
        intro hfewer
        exact ih (by omega) (length_addClause_le hle hfewer conj conj' mods mods')
    · intro _
      exact Simulates.pure fun _ _ h => ⟨hle, h⟩

/-- How `fQuery` ends leaves the tokens as they are; there are not too many clauses, and there is a
query if there are any. -/
theorem closing_ok {clauses : List (Query × Occur)} {firstQuery q : Option Query} {ts u : TokenStream}
    (h : closing clauses firstQuery ts = .ok (q, u)) :
    u = ts ∧ clauses.length ≤ LUCENE_BOOLEANQUERY_MAXCLAUSECOUNT ∧ (q.isSome = true ↔ 0 < clauses.length) := by
  unfold closing at h
  split_ifs at h with hone
  · cases h
    refine ⟨rfl, ?_, iff_of_true hone.2 (by omega)⟩
    rw [hone.1]
    decide
  · cases hquery : getBooleanQuery clauses with
    | error e =>
      rw [hquery] at h
      cases h
    | ok q' =>
      rw [hquery] at h
      cases h
      unfold getBooleanQuery at hquery
      split_ifs at hquery with h1 h2
      · cases hquery
        exact ⟨rfl, by omega, iff_of_false Bool.false_ne_true (by omega)⟩
      · cases hquery
        exact ⟨rfl, by omega, iff_of_true rfl (by omega)⟩

/-- Where there are not too many clauses. -/
theorem closing_run {clauses : List (Query × Occur)} (h : clauses.length ≤ LUCENE_BOOLEANQUERY_MAXCLAUSECOUNT)
    (firstQuery : Option Query) (ts : TokenStream) : ∃ q, closing clauses firstQuery ts = .ok (q, ts) := by
  unfold closing
  split_ifs
  · exact ⟨firstQuery, rfl⟩
  · unfold getBooleanQuery
    split_ifs
    · exact ⟨none, rfl⟩
    · omega
    · exact ⟨_, rfl⟩

/-- **A query** is read as one, or ends before a colon. -/
theorem fQuery_simulates {n n' depth depth' : ℕ} (hn : n ≤ n') (hdepth : depth ≤ depth') (hdepth' : depth' ≤ n')
    (field field' : QString) : Simulates Colon (Related T N) (fQuery T n depth field) (fQuery T n' depth' field')
      (FewerRelated T N) := by
  induction depth generalizing depth' field field' with
  | zero => exact Simulates.throw
  | succ depth ih =>
    obtain ⟨depth', rfl⟩ : ∃ m, depth' = m + 1 := ⟨depth' - 1, by omega⟩
    have hclause : Simulates Colon (Related T N) (fClause T (fQuery T n depth) field)
        (fClause T (fQuery T n' depth') field') (FewerRelated T N) :=
      fClause_simulates (fun field field' => ih (by omega) (by omega) field field') field field'
    have hreads : Reads (depth' + 1) (fClause T (fQuery T n' depth') field') 1 queryWeight :=
      fClause_reads (fun field => fQuery_reads (by omega) field) field'
    -- the first clause leaves room for itself
    have hfirst : Simulates Colon (Related T N) (fClause T (fQuery T n depth) field)
        (fClause T (fQuery T n' depth') field') fun q q' ts ts' => Fewer N q q' ∧
          (N ∨ ts'.weight + queryWeight q' ≤ 2 * LUCENE_BOOLEANQUERY_MAXCLAUSECOUNT + 1) ∧ Related T N ts ts' := by
      apply hclause.runs.mono (fun _ h => h) (fun _ _ h => h)
      rintro q q' ts ts' ⟨⟨hfewer, hrest⟩, s, s', hrelated, _, hrun'⟩
      have hle := ((hreads s').1 q' ts' hrun').weight_le
      refine ⟨hfewer, hrelated.room.imp_right fun hroom => ?_, hrest⟩
      omega
    unfold fQuery
    apply (same_related Modifiers_simulates Modifiers_reads).bind
    intro mods mods'
    apply hfirst.bind_of
    · intro q ts q' u hts hrun
      obtain ⟨clauses, r, hclauses, hrun⟩ := run_bind_ok.1 hrun
      obtain rfl := (closing_ok hrun).1
      exact clausesLoop_colon hts hclauses
    · intro q q'
      apply Simulates.of_pre
      intro hfewer
      have hlen : 2 * (addClause [] .CONJ_NONE mods' q').length = queryWeight q' := by
        rw [length_addClause, queryWeight]
        split_ifs
        · rfl
        · rfl
      have hempty : N → ([] : List (Query × Occur)).length ≤ ([] : List (Query × Occur)).length := fun _ => le_rfl
      have hadd := length_addClause_le hempty hfewer .CONJ_NONE .CONJ_NONE mods mods'
      have hloop : Simulates Colon (fun ts ts' =>
            (N ∨ ts'.weight + queryWeight q' ≤ 2 * LUCENE_BOOLEANQUERY_MAXCLAUSECOUNT + 1) ∧ Related T N ts ts')
          (clausesLoop (fClause T (fQuery T n depth) field) n (addClause [] .CONJ_NONE mods q))
          (clausesLoop (fClause T (fQuery T n' depth') field') n' (addClause [] .CONJ_NONE mods' q'))
          fun clauses clauses' ts ts' => ((N → clauses'.length ≤ clauses.length) ∧
            (N ∨ clauses'.length ≤ LUCENE_BOOLEANQUERY_MAXCLAUSECOUNT)) ∧ Related T N ts ts' := by
        have hsame := (clausesLoop_simulates hclause hn hadd).weaken fun ts ts'
          (h : (N ∨ ts'.weight + queryWeight q' ≤ 2 * LUCENE_BOOLEANQUERY_MAXCLAUSECOUNT + 1) ∧ _) => h.2
        apply hsame.runs.mono (fun _ h => h) (fun _ _ h => h)
        rintro clauses clauses' ts ts' ⟨⟨hle, hrest⟩, s, s', ⟨hroom, _⟩, _, hrun'⟩
        have hadded := ((clausesLoop_reads hreads n' _ s').1 clauses' ts' hrun').2
        refine ⟨⟨hle, hroom.imp_right fun hroom => ?_⟩, hrest⟩
        omega
      apply hloop.bind_of
      · intro clauses ts q' u hts hrun
        obtain rfl := (closing_ok hrun).1
        exact hts
      · intro clauses clauses'
        apply Simulates.of_pre
        rintro ⟨hle, hroom⟩ ts ts' q₁ u hrelated hrun
        obtain ⟨rfl, hmax, hsome⟩ := closing_ok hrun
        have hmax' : clauses'.length ≤ LUCENE_BOOLEANQUERY_MAXCLAUSECOUNT := by
          rcases hroom with hN | hroom
          · exact (hle hN).trans hmax
          · exact hroom
        obtain ⟨q₁', hrun'⟩ := closing_run hmax' (if mods' = .MOD_NONE then q' else none) ts'
        refine Or.inr ⟨q₁', ts', hrun', fun hN hq₁' => hsome.2 ?_, hrelated⟩
        exact ((closing_ok hrun').2.2.1 hq₁').trans_le (hle hN)

theorem jj_consume_EOF : Simulates X (Related T N) (jj_consume_token ._EOF) (jj_consume_token ._EOF)
    fun _ _ _ _ => True := by
  intro ts ts' t u h hrun
  have hdeleted := h.deleted
  unfold jj_consume_token at hrun ⊢
  cases hdeleted with
  | eof => exact Or.inr ⟨_, _, rfl, trivial⟩
  | lexicalError => cases hrun
  | @next v v' rest rest' hkept =>
    have hkind := hkept.kind
    by_cases hv : v.kind = ._EOF
    · rw [hv] at hkind
      have hv' : v'.kind = ._EOF := List.mem_singleton.1 hkind
      exact Or.inr ⟨v', rest', if_pos hv', trivial⟩
    · simp only [if_neg hv] at hrun
      cases hrun

/-- **What is accepted with the stars is accepted without.** -/
theorem parseTokens_simulated {field : QString} {ts ts' : TokenStream} {q : Option Query}
    (h : Related T N ts ts') (hrun : parseTokens T field ts = .ok q) : ∃ q', parseTokens T field ts' = .ok q' := by
  have htop : Simulates (fun _ => False) (Related T N) (TopLevelQuery T (ts.length + 1) field)
      (TopLevelQuery T (ts'.length + 1) field) fun _ _ _ _ => True := by
    have hle := h.deleted.length_le
    unfold TopLevelQuery
    apply (fQuery_simulates (by omega) (by omega) le_rfl field field).bind_of
    · intro q ts q' u hts hrun
      obtain ⟨t, r, ht, -⟩ := run_bind_ok.1 hrun
      exact absurd ht (not_consume_colon hts (by decide))
    · intro q q'
      apply Simulates.weaken _ fun _ _ h => h.2
      apply jj_consume_EOF.bind
      intro _ _
      exact Simulates.pure fun _ _ _ => trivial
  rw [parseTokens_eq] at hrun ⊢
  cases hmain : TopLevelQuery T (ts.length + 1) field ts with
  | error e =>
    rw [hmain] at hrun
    cases hrun
  | ok x =>
    rcases htop h hmain with hstuck | ⟨q', u', hrun', -⟩
    · exact hstuck.elim
    · rw [hrun']
      exact ⟨q', rfl⟩

end QueryParser

end QDesktopSearch
