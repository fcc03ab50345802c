import QDesktopSearch.Model.Highlighter
import QDesktopSearch.Proof.Analysis

/-!
# Highlighting and its buffers

The token stream of a text has nonempty spans one after the other (`spans_tokenStream`), and
two of them touch only where the first was cut at `LUCENE_MAX_WORD_LEN`. As long as no token
is that long each is a group of its own (`OneEach`); one that is leaves no room for the
terminator, in whatever group it ends up (`overlong_copied`).

`hitEnv_in_bounds_iff`: the copies are in bounds exactly if each such token comes after two
others that end beyond `DEFAULT_MAX_DOC_BYTES_TO_ANALYZE`, so that the loop ends before it.
-/

namespace QDesktopSearch

open Runs

/-! ## The spans of a token stream -/

/-- Nonempty spans in a text of `n` characters, one after the other. -/
structure Spans (n : ℕ) (tokens : List Token) : Prop where
  nonempty : ∀ t ∈ tokens, t.startOffset < t.endOffset
  inside : ∀ t ∈ tokens, t.endOffset ≤ n
  disjoint : tokens.Pairwise fun t u => t.endOffset ≤ u.startOffset

/-- The token was cut where `CharTokenizer` has no room for more. -/
def Token.IsFull (t : Token) : Prop := t.endOffset = t.startOffset + LUCENE_MAX_WORD_LEN

/-- Spans that touch only after a full token, and are not longer than that. -/
structure Cut (n : ℕ) (tokens : List Token) : Prop extends Spans n tokens where
  short : ∀ t ∈ tokens, t.endOffset ≤ t.startOffset + LUCENE_MAX_WORD_LEN
  apart : tokens.Pairwise fun t u => t.endOffset = u.startOffset → t.IsFull

variable (T : CharTables) (text : List TCHAR)

/-- A word of the text at the position, of that length, which is no stop word. -/
def IsWordAt (k m : ℕ) : Prop :=
  IsPiece LUCENE_MAX_WORD_LEN (holdsAt (QTokenizer.isTokenChar T) text) k m ∧
    segment (text.map T.cl_tcasefold) k m ∉ ENGLISH_STOP_WORDS

theorem tokenStream4HitEnv_eq : tokenStream4HitEnv T text = analysisFrom T 0 text :=
  QStandardAnalyzer.tokens_eq T (.stringReader text)

/-- The tokens by position. -/
theorem mem_tokenStream {t : Token} (ht : t ∈ tokenStream4HitEnv T text) :
    ∃ m, IsWordAt T text t.startOffset m ∧ t.endOffset = t.startOffset + m := by
  rw [tokenStream4HitEnv_eq] at ht
  obtain ⟨k, m, hp, hkept, rfl⟩ := (QStandardAnalyzer.mem_analysisFrom T).1 ht
  refine ⟨m, ⟨hp, hkept⟩, ?_⟩
  show k + (segment (text.map T.cl_tcasefold) k m).length = k + m
  rw [QStandardAnalyzer.folded_length T hp]

theorem exists_token {k m : ℕ} (h : IsWordAt T text k m) :
    ∃ t ∈ tokenStream4HitEnv T text, t.startOffset = k ∧ t.endOffset = k + m := by
  refine ⟨tokenAt (k, segment (text.map T.cl_tcasefold) k m), ?_, rfl, ?_⟩
  · rw [tokenStream4HitEnv_eq]
    exact (QStandardAnalyzer.mem_analysisFrom T).2 ⟨k, m, h.1, h.2, rfl⟩
  · show k + (segment (text.map T.cl_tcasefold) k m).length = k + m
    rw [QStandardAnalyzer.folded_length T h.1]

/-- **The spans of the stream**: a token ends where its run does, unless it is full. -/
theorem cut_tokenStream : Cut text.length (tokenStream4HitEnv T text) := by
  have hsorted : (tokenStream4HitEnv T text).Pairwise fun t u => t.startOffset < u.startOffset := by
    rw [tokenStream4HitEnv_eq]
    exact QStandardAnalyzer.analysisFrom_sorted T text
  -- a later token starts behind this one
  have hbehind : ∀ t ∈ tokenStream4HitEnv T text, ∀ u ∈ tokenStream4HitEnv T text, t.startOffset < u.startOffset →
      t.endOffset ≤ u.startOffset ∧ (t.endOffset = u.startOffset → t.IsFull) := by
    intro t ht u hu hlt
    obtain ⟨m, ⟨hp, -⟩, hend⟩ := mem_tokenStream T text ht
    obtain ⟨m', ⟨hp', -⟩, hend'⟩ := mem_tokenStream T text hu
    have hpos' := hp'.pos
    have hle : t.endOffset ≤ u.startOffset := by
      by_contra hgt
      have hsame := hp.unique hp' (i := u.startOffset) ⟨by omega, by omega⟩ ⟨Nat.le_refl _, by omega⟩
      omega
    refine ⟨hle, fun htouch => ?_⟩
    rcases hp.stop with hfull | hstop
    · rw [Token.IsFull, hend, hfull]
    · have hholds := hp'.holds (Nat.le_refl u.startOffset) (by omega)
      rw [← htouch, hend, hstop] at hholds
      exact absurd hholds (by simp)
  refine ⟨⟨?_, ?_, ?_⟩, ?_, ?_⟩
  · intro t ht
    obtain ⟨m, ⟨hp, -⟩, hend⟩ := mem_tokenStream T text ht
    have hpos := hp.pos
    omega
  · intro t ht
    obtain ⟨m, ⟨hp, -⟩, hend⟩ := mem_tokenStream T text ht
    have hpos := hp.pos
    have hlt := lt_of_holdsAt (hp.holds (i := t.startOffset + m - 1) (by omega) (by omega))
    omega
  · exact hsorted.imp_of_mem fun ht hu hlt => (hbehind _ ht _ hu hlt).1
  · intro t ht
    obtain ⟨m, ⟨hp, -⟩, hend⟩ := mem_tokenStream T text ht
    have hle := hp.le
    omega
  · exact hsorted.imp_of_mem fun ht hu hlt => (hbehind _ ht _ hu hlt).2

/-- **The token stream has nonempty, increasing, disjoint spans inside the text.** -/
theorem spans_tokenStream : Spans text.length (tokenStream4HitEnv T text) := (cut_tokenStream T text).toSpans

variable {T text} {n : ℕ} {tokens pre post : List Token} {t u : Token}

/-- Of two spans, the one that ends first is the first. -/
theorem Spans.le_of_lt (h : Spans n tokens) (ht : t ∈ tokens) (hu : u ∈ tokens) (hlt : t.endOffset < u.endOffset) :
    t.endOffset ≤ u.startOffset := by
  obtain ⟨i, hi, rfl⟩ := List.mem_iff_getElem.1 ht
  obtain ⟨j, hj, rfl⟩ := List.mem_iff_getElem.1 hu
  have hordered := List.pairwise_iff_getElem.1 h.disjoint
  rcases Nat.lt_trichotomy i j with hij | rfl | hij
  · exact hordered i j hi hj hij
  · omega
  · have hle := hordered j i hj hi hij
    have hpos := h.nonempty _ ht
    omega

theorem Spans.before (h : Spans n (pre ++ t :: post)) (hu : u ∈ pre) : u.endOffset ≤ t.startOffset :=
  (List.pairwise_append.1 h.disjoint).2.2 u hu t List.mem_cons_self

/-- A span that ends before the token starts is among those before it. -/
theorem Spans.mem_before (h : Spans n (pre ++ t :: post)) (hu : u ∈ pre ++ t :: post) (hle : u.endOffset ≤ t.startOffset) :
    u ∈ pre := by
  have hpos := h.nonempty u hu
  have hpos' := h.nonempty t (List.mem_append_right _ List.mem_cons_self)
  rcases List.mem_append.1 hu with hu | hu
  · exact hu
  · exfalso
    rcases List.mem_cons.1 hu with rfl | hu
    · omega
    · have hpair := (List.pairwise_append.1 h.disjoint).2.1
      have hafter := (List.pairwise_cons.1 hpair).1 u hu
      omega

theorem Cut.sublist (h : Cut n tokens) {l : List Token} (hl : l.Sublist tokens) : Cut n l where
  nonempty t ht := h.nonempty t (hl.subset ht)
  inside t ht := h.inside t (hl.subset ht)
  disjoint := h.disjoint.sublist hl
  short t ht := h.short t (hl.subset ht)
  apart := h.apart.sublist hl

/-! ## A round of the loop -/

namespace TokenGroup

variable {g : TokenGroup}

theorem addToken_first (h : g.getNumTokens = 0) : (g.addToken t).getNumTokens = 1 ∧
    (g.addToken t).startOffset = t.startOffset ∧ (g.addToken t).endOffset = t.endOffset := by
  have hroom : g.getNumTokens < MAX_NUM_TOKENS_PER_GROUP := by
    rw [h]
    decide
  rw [addToken, dif_pos hroom]
  refine ⟨?_, if_pos h, if_pos h⟩
  rw [getNumTokens] at h ⊢
  simp [h]

/-- The text of the group does not fit into `substringBuffer`. -/
def Overlong (g : TokenGroup) : Prop := 0 < g.getNumTokens ∧ g.startOffset + LUCENE_MAX_WORD_LEN ≤ g.endOffset

/-- A token that joins makes the group no shorter. -/
theorem Overlong.addToken (h : g.Overlong) : (g.addToken t).Overlong := by
  obtain ⟨hnum, hlen⟩ := h
  unfold TokenGroup.addToken
  split
  · refine ⟨?_, ?_⟩
    · simp [getNumTokens]
    · have hne : g.getNumTokens ≠ 0 := by omega
      simp only [if_neg hne]
      have hmin := Nat.min_le_left g.startOffset t.startOffset
      have hmax := Nat.le_max_left g.endOffset t.endOffset
      omega
  · exact ⟨hnum, hlen⟩

end TokenGroup

namespace Highlighter

variable {matched : TokenGroup → Bool} {s : State} {c : Copy}

theorem finishGroup_spec : (finishGroup matched text t s).tokenGroup = s.tokenGroup.clear ∧
    (finishGroup matched text t s).lastEndOffset = s.tokenGroup.endOffset ∧
    (finishGroup matched text t s).copies = (flush matched text s).copies := by
  unfold finishGroup
  dsimp only
  split
  · exact ⟨rfl, rfl, rfl⟩
  · exact ⟨rfl, rfl, rfl⟩

/-- The token joins the group, or starts the first one. -/
theorem round_joined (h : s.tokenGroup.getNumTokens = 0 ∨ t.startOffset ≤ s.tokenGroup.endOffset) :
    round matched text t s = { s with tokenGroup := s.tokenGroup.addToken t } := by
  have hcond : (s.tokenGroup.getNumTokens > 0 && s.tokenGroup.isDistinct t) = false := by
    simp only [TokenGroup.isDistinct, Bool.and_eq_false_iff, decide_eq_false_iff_not]
    omega
  rw [round, hcond]
  rfl

/-- The token is distinct from the group, which is written. -/
theorem round_distinct (hnum : 0 < s.tokenGroup.getNumTokens) (h : s.tokenGroup.endOffset < t.startOffset) :
    (round matched text t s).tokenGroup = s.tokenGroup.clear.addToken t ∧
      (round matched text t s).lastEndOffset = s.tokenGroup.endOffset ∧
      (round matched text t s).copies = (flush matched text s).copies := by
  have hcond : (s.tokenGroup.getNumTokens > 0 && s.tokenGroup.isDistinct t) = true := by
    simp only [TokenGroup.isDistinct, Bool.and_eq_true, decide_eq_true_eq]
    exact ⟨hnum, h⟩
  have hspec : (finishGroup matched text t s).tokenGroup = s.tokenGroup.clear ∧
      (finishGroup matched text t s).lastEndOffset = s.tokenGroup.endOffset ∧
      (finishGroup matched text t s).copies = (flush matched text s).copies := finishGroup_spec
  obtain ⟨hgroup, hlast, hcopies⟩ := hspec
  simp only [round, hcond, if_true]
  exact ⟨by rw [hgroup], hlast, hcopies⟩

/-! ## What is copied stays copied -/

theorem mem_copies_round (h : c ∈ s.copies) : c ∈ (round matched text t s).copies := by
  by_cases hjoined : s.tokenGroup.getNumTokens = 0 ∨ t.startOffset ≤ s.tokenGroup.endOffset
  · rw [round_joined hjoined]
    exact h
  · rw [(round_distinct (by omega) (by omega)).2.2]
    exact List.mem_append_left _ h

theorem mem_copies_finish (h : c ∈ s.copies) : c ∈ (finish matched text s).copies := by
  unfold finish
  dsimp only
  split
  · exact List.mem_append_left _ h
  · exact h

theorem mem_copies_loop (h : c ∈ s.copies) : c ∈ (loop matched text tokens s).copies := by
  induction tokens generalizing s with
  | nil => exact h
  | cons t tokens ih =>
    rw [loop]
    have hround : c ∈ (round matched text t s).copies := mem_copies_round h
    split
    · exact hround
    · exact ih hround

theorem groupCopy_overlong (h : s.tokenGroup.Overlong) : ¬(groupCopy s.tokenGroup).InBounds text := by
  rintro ⟨-, hlt⟩
  have hlen := h.2
  simp only [groupCopy, StackBuffer.size] at hlt
  omega

theorem overlong_finish (h : s.tokenGroup.Overlong) : ∃ c ∈ (finish matched text s).copies, ¬c.InBounds text := by
  refine ⟨groupCopy s.tokenGroup, ?_, groupCopy_overlong h⟩
  rw [finish, if_pos h.1]
  exact List.mem_append_right _ List.mem_cons_self

/-- **A group that is too long is copied**, whatever comes after it. -/
theorem overlong_copied (h : s.tokenGroup.Overlong) :
    ∃ c ∈ (finish matched text (loop matched text tokens s)).copies, ¬c.InBounds text := by
  induction tokens generalizing s with
  | nil => exact overlong_finish h
  | cons t tokens ih =>
    rw [loop]
    by_cases hjoined : s.tokenGroup.getNumTokens = 0 ∨ t.startOffset ≤ s.tokenGroup.endOffset
    · -- the group grows
      rw [round_joined hjoined]
      split
      · exact overlong_finish (s := { s with tokenGroup := s.tokenGroup.addToken t }) h.addToken
      · exact ih (s := { s with tokenGroup := s.tokenGroup.addToken t }) h.addToken
    · -- it is written
      have hcopied : groupCopy s.tokenGroup ∈ (round matched text t s).copies := by
        rw [(round_distinct (by omega) (by omega)).2.2]
        exact List.mem_append_right _ List.mem_cons_self
      refine ⟨groupCopy s.tokenGroup, mem_copies_finish ?_, groupCopy_overlong h⟩
      split
      · exact hcopied
      · exact mem_copies_loop hcopied

/-! ## Each token a group of its own -/

/-- The last token is the group, and those before it are written. -/
inductive OneEach (s : State) : List Token → Prop
  | none : s.tokenGroup.getNumTokens = 0 → s.lastEndOffset = 0 → OneEach s []
  | last (pre : List Token) (u : Token) : 0 < s.tokenGroup.getNumTokens →
      s.tokenGroup.startOffset = u.startOffset → s.tokenGroup.endOffset = u.endOffset →
      (∀ t ∈ pre, t.endOffset ≤ s.lastEndOffset) →
      (s.lastEndOffset = 0 ∨ ∃ t ∈ pre, t.endOffset = s.lastEndOffset) → OneEach s (pre ++ [u])

/-- Writing a group of one token that is not full. -/
theorem flush_inBounds (hstart : s.tokenGroup.startOffset = u.startOffset) (hend : s.tokenGroup.endOffset = u.endOffset)
    (hcut : Cut text.length [u]) (hfull : ¬u.IsFull) (hok : ∀ c ∈ s.copies, c.InBounds text) :
    ∀ c ∈ (flush matched text s).copies, c.InBounds text := by
  have hinside := hcut.inside u (List.mem_singleton_self u)
  have hnonempty := hcut.nonempty u (List.mem_singleton_self u)
  have hshort := hcut.short u (List.mem_singleton_self u)
  rw [Token.IsFull] at hfull
  have hgroup : (groupCopy s.tokenGroup).InBounds text := by
    simp only [Copy.InBounds, groupCopy, StackBuffer.size]
    omega
  have hbetween : ∀ c ∈ betweenCopy s, c.InBounds text := by
    intro c hc
    unfold betweenCopy at hc
    split at hc
    · obtain rfl := List.mem_singleton.1 hc
      simp only [Copy.InBounds, StackBuffer.size]
      split <;> omega
    · exact absurd hc List.not_mem_nil
  intro c hc
  rcases List.mem_append.1 hc with hc | hc
  · exact hok c hc
  · rcases List.mem_cons.1 hc with rfl | hc
    · exact hgroup
    · exact hbetween c hc

/-- **One round**: a token after one that is not full starts a group of its own. -/
theorem OneEach.round (h : OneEach s pre) (hcut : Cut text.length (pre ++ [t])) (hfull : ∀ u ∈ pre, ¬u.IsFull)
    (hok : ∀ c ∈ s.copies, c.InBounds text) : OneEach (round matched text t s) (pre ++ [t]) ∧
      ∀ c ∈ (Highlighter.round matched text t s).copies, c.InBounds text := by
  cases h with
  | none hnum hlast =>
    rw [round_joined (Or.inl hnum)]
    obtain ⟨hone, hstart, hend⟩ := TokenGroup.addToken_first (t := t) hnum
    refine ⟨.last [] t (Nat.lt_of_lt_of_eq Nat.one_pos hone.symm) hstart hend ?_ (Or.inl hlast), hok⟩
    exact fun u hu => absurd hu List.not_mem_nil
  | last pre u hnum hstart hend hle _ =>
    have hu : u ∈ pre ++ [u] := List.mem_append_right _ (List.mem_singleton_self u)
    have hpre : Cut text.length (pre ++ [u]) := hcut.sublist (List.sublist_append_left _ _)
    -- the token before does not touch this one
    have hdistinct : s.tokenGroup.endOffset < t.startOffset := by
      have hbefore := hcut.toSpans.before hu
      have hapart := (List.pairwise_append.1 hcut.apart).2.2 u hu t (List.mem_singleton_self t)
      by_contra hge
      exact hfull u hu (hapart (by omega))
    obtain ⟨hgroup, hwritten, hcopies⟩ := round_distinct hnum hdistinct
    obtain ⟨hone, hstart', hend'⟩ := TokenGroup.addToken_first (g := s.tokenGroup.clear) (t := t) rfl
    rw [← hgroup] at hone hstart' hend'
    refine ⟨.last (pre ++ [u]) t (by omega) hstart' hend' ?_ (Or.inr ⟨u, hu, by omega⟩), ?_⟩
    · intro w hw
      rcases List.mem_append.1 hw with hw | hw
      · have hbefore := hpre.toSpans.before hw
        have hpos := hpre.nonempty u hu
        omega
      · obtain rfl := List.mem_singleton.1 hw
        omega
    · rw [hcopies]
      have hsingle : Cut text.length [u] := hpre.sublist (List.sublist_append_right _ _)
      exact flush_inBounds hstart hend hsingle (hfull u hu) hok

theorem OneEach.finish (h : OneEach s pre) (hcut : Cut text.length pre) (hfull : ∀ u ∈ pre, ¬u.IsFull)
    (hok : ∀ c ∈ s.copies, c.InBounds text) : ∀ c ∈ (finish matched text s).copies, c.InBounds text := by
  cases h with
  | none hnum =>
    rw [Highlighter.finish, if_neg (by omega)]
    exact hok
  | last pre u hnum hstart hend _ _ =>
    have hu : u ∈ pre ++ [u] := List.mem_append_right _ (List.mem_singleton_self u)
    have hsingle : Cut text.length [u] := hcut.sublist (List.sublist_append_right _ _)
    have hflush : ∀ c ∈ (flush matched text s).copies, c.InBounds text :=
      flush_inBounds hstart hend hsingle (hfull u hu) hok
    rwa [Highlighter.finish, if_pos hnum]

/-- Two of the tokens end beyond what is analysed. -/
def Beyond (l : List Token) : Prop :=
  ∃ t ∈ l, ∃ u ∈ l, t.endOffset < u.endOffset ∧ DEFAULT_MAX_DOC_BYTES_TO_ANALYZE < t.endOffset

theorem Beyond.mono {l : List Token} (h : Beyond pre) (hsub : pre ⊆ l) : Beyond l := by
  obtain ⟨t, ht, u, hu, hrest⟩ := h
  exact ⟨t, hsub ht, u, hsub hu, hrest⟩

/-- **When the loop ends**: after two tokens beyond what is analysed. -/
theorem OneEach.beyond_iff (h : OneEach s pre) (hspans : Spans n pre) :
    Beyond pre ↔ DEFAULT_MAX_DOC_BYTES_TO_ANALYZE < s.lastEndOffset := by
  cases h with
  | none _ hlast =>
    rw [hlast]
    refine ⟨?_, fun h => absurd h (Nat.not_lt_zero _)⟩
    rintro ⟨t, ht, -⟩
    exact absurd ht List.not_mem_nil
  | last pre u _ _ _ hle hlast =>
    constructor
    · rintro ⟨t, ht, w, hw, hlt, hmax⟩
      -- the first of the two is not the last token
      have ht' : t ∈ pre := by
        rcases List.mem_append.1 ht with ht | ht
        · exact ht
        · exfalso
          obtain rfl := List.mem_singleton.1 ht
          rcases List.mem_append.1 hw with hw | hw
          · have hbefore := hspans.before hw
            have hpos := hspans.nonempty t (List.mem_append_right _ (List.mem_singleton_self t))
            omega
          · obtain rfl := List.mem_singleton.1 hw
            omega
      have hwritten := hle t ht'
      omega
    · intro hmax
      rcases hlast with h0 | ⟨t, ht, htlast⟩
      · omega
      · have hu : u ∈ pre ++ [u] := List.mem_append_right _ (List.mem_singleton_self u)
        have hbefore := hspans.before ht
        have hpos := hspans.nonempty u hu
        exact ⟨t, List.mem_append_left _ ht, u, hu, by omega, by omega⟩

/-- **The whole loop**, from where the tokens `pre` are behind it. -/
theorem loop_inBounds_iff (tokens : List Token) {pre : List Token} {s : State} (h : OneEach s pre)
    (hcut : Cut text.length (pre ++ tokens)) (hfull : ∀ u ∈ pre, ¬u.IsFull) (hmax : ¬Beyond pre)
    (hok : ∀ c ∈ s.copies, c.InBounds text) :
    (∀ c ∈ (Highlighter.finish matched text (loop matched text tokens s)).copies, c.InBounds text) ↔
      ∀ between t post, tokens = between ++ t :: post → t.IsFull → Beyond (pre ++ between) := by
  induction tokens generalizing pre s with
  | nil =>
    refine ⟨fun _ between t post heq => ?_, fun _ => ?_⟩
    · exact absurd heq (by simp)
    · rw [List.append_nil] at hcut
      exact h.finish hcut hfull hok
  | cons t tokens ih =>
    have hcut' : Cut text.length (pre ++ [t]) := hcut.sublist (by simp)
    obtain ⟨hone, hok'⟩ := h.round hcut' hfull hok
    have hbeyond := hone.beyond_iff hcut'.toSpans
    by_cases ht : t.IsFull
    · -- it is reached, and its group is too long
      constructor
      · intro hall
        exfalso
        obtain ⟨c, hc, hout⟩ : ∃ c ∈ (Highlighter.finish matched text (loop matched text (t :: tokens) s)).copies,
            ¬c.InBounds text := by
          have hlong : (Highlighter.round matched text t s).tokenGroup.Overlong := by
            generalize hpre' : pre ++ [t] = pre' at hone
            cases hone with
            | none => exact absurd hpre' (by simp)
            | last pre' u hnum hstart hend _ _ =>
              obtain ⟨-, hlast⟩ := List.append_inj' hpre' rfl
              obtain rfl : t = u := by simpa using hlast
              exact ⟨hnum, by rw [hstart, hend, ht]⟩
          rw [loop]
          split
          · exact overlong_finish hlong
          · exact overlong_copied hlong
        exact hout (hall c hc)
      · intro hcond
        have hpre := hcond [] t tokens rfl ht
        rw [List.append_nil] at hpre
        exact absurd hpre hmax
    · have hfull' : ∀ u ∈ pre ++ [t], ¬u.IsFull := by
        intro u hu
        rcases List.mem_append.1 hu with hu | hu
        · exact hfull u hu
        · rwa [List.mem_singleton.1 hu]
      -- a full token comes after this one
      have hcond : (∀ between u post, t :: tokens = between ++ u :: post → u.IsFull → Beyond (pre ++ between)) ↔
          ∀ between u post, tokens = between ++ u :: post → u.IsFull → Beyond (pre ++ [t] ++ between) := by
        constructor
        · intro hall between u post heq hu
          have hbetween := hall (t :: between) u post (by rw [heq, List.cons_append]) hu
          rwa [List.append_assoc, List.singleton_append]
        · intro hall between u post heq hu
          cases between with
          | nil =>
            obtain ⟨rfl, -⟩ := List.cons.inj heq
            exact absurd hu ht
          | cons w between =>
            obtain ⟨rfl, heq'⟩ := List.cons.inj heq
            have hbetween := hall between u post heq' hu
            rwa [List.append_assoc, List.singleton_append] at hbetween
      rw [hcond, loop]
      split
      · rename_i hbreak
        have hended := hbeyond.2 hbreak
        refine ⟨fun _ between u post _ _ => hended.mono (List.subset_append_left _ _), fun _ => ?_⟩
        exact hone.finish hcut' hfull' hok'
      · rename_i hgoes
        refine ih hone ?_ hfull' (fun hb => hgoes (hbeyond.1 hb)) hok'
        rwa [List.append_assoc, List.singleton_append]

end Highlighter

/-! ## `GetHitEnv` -/

variable (T text)

/-- **Highlighting stays in its buffers** exactly if, for each stretch of a text that is cut
out as a token of `LUCENE_MAX_WORD_LEN` characters, two words before it end beyond
`DEFAULT_MAX_DOC_BYTES_TO_ANALYZE`. -/
theorem hitEnv_in_bounds_iff (matched : TokenGroup → Bool) :
    (Spans text.length (tokenStream4HitEnv T text) ∧ ∀ c ∈ (GetHitEnv T matched text).copies, c.InBounds text) ↔
      ∀ k, IsPiece LUCENE_MAX_WORD_LEN (holdsAt (QTokenizer.isTokenChar T) text) k LUCENE_MAX_WORD_LEN →
        ∃ k₁ m₁ k₂ m₂, IsWordAt T text k₁ m₁ ∧ IsWordAt T text k₂ m₂ ∧ k₁ + m₁ ≤ k₂ ∧ k₂ + m₂ ≤ k ∧
          Highlighter.DEFAULT_MAX_DOC_BYTES_TO_ANALYZE < k₁ + m₁ := by
  have hspans := spans_tokenStream T text
  have hcopies : ∀ c ∈ Highlighter.start.copies, c.InBounds text := fun c hc => absurd hc List.not_mem_nil
  have hloop := @Highlighter.loop_inBounds_iff text matched (tokenStream4HitEnv T text) [] Highlighter.start
    (.none rfl rfl) (cut_tokenStream T text) (fun u hu => absurd hu List.not_mem_nil)
    (fun ⟨t, ht, _⟩ => absurd ht List.not_mem_nil) hcopies
  rw [and_iff_right hspans, GetHitEnv, Highlighter.getBestTextFragments, hloop]
  constructor
  · intro h k hp
    obtain ⟨t, ht, hstart, hend⟩ := exists_token T text ⟨hp, QStandardAnalyzer.full_kept T hp⟩
    obtain ⟨pre, post, heq⟩ := List.append_of_mem ht
    rw [heq] at hspans
    obtain ⟨a, ha, b, hb, hlt, hmax⟩ := h pre t post heq (by rw [Token.IsFull, hstart, hend])
    have ha' : a ∈ pre ++ t :: post := List.mem_append_left _ ha
    have hb' : b ∈ pre ++ t :: post := List.mem_append_left _ hb
    have horder := hspans.le_of_lt ha' hb' hlt
    have hbefore := hspans.before hb
    rw [← heq] at ha' hb'
    obtain ⟨m₁, hword₁, hend₁⟩ := mem_tokenStream T text ha'
    obtain ⟨m₂, hword₂, hend₂⟩ := mem_tokenStream T text hb'
    exact ⟨_, m₁, _, m₂, hword₁, hword₂, by omega, by omega, by omega⟩
  · intro h pre t post heq hfull
    obtain ⟨m, ⟨hp, -⟩, hend⟩ := mem_tokenStream T text (heq ▸ List.mem_append_right _ List.mem_cons_self : t ∈ _)
    obtain rfl : m = LUCENE_MAX_WORD_LEN := by
      rw [Token.IsFull] at hfull
      omega
    obtain ⟨k₁, m₁, k₂, m₂, hword₁, hword₂, horder, hbefore, hmax⟩ := h _ hp
    obtain ⟨a, ha, hstart₁, hend₁⟩ := exists_token T text hword₁
    obtain ⟨b, hb, hstart₂, hend₂⟩ := exists_token T text hword₂
    have hpos := hword₂.1.pos
    rw [heq] at ha hb hspans
    exact ⟨a, hspans.mem_before ha (by omega), b, hspans.mem_before hb (by omega), by omega, by omega⟩

/-- A text of `LUCENE_MAX_WORD_LEN` letters is copied without room for the terminator. -/
theorem full_word_overflows : ¬∀ (matched : TokenGroup → Bool) (text : List TCHAR),
    Spans text.length (tokenStream4HitEnv cyrillicTables text) ∧
      ∀ c ∈ (GetHitEnv cyrillicTables matched text).copies, c.InBounds text := by
  intro h
  have hcopies : ⟨.substringBuffer, 0, LUCENE_MAX_WORD_LEN⟩ ∈
      (GetHitEnv cyrillicTables (fun _ => true) (List.replicate LUCENE_MAX_WORD_LEN 97)).copies := by
    -- the runs of the text are found sooner than the tokenizer goes through its buffers
    unfold GetHitEnv
    rw [tokenStream4HitEnv_eq]
    decide +kernel
  have hin := (h _ _).2 _ hcopies
  exact absurd hin.2 (Nat.lt_irrefl _)

end QDesktopSearch
