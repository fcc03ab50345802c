import Mathlib.Data.List.Sort
import QDesktopSearch.Lib.Machine
import QDesktopSearch.Proof.Tokens

/-!
# The analysis of a text

The filters of `QStandardAnalyzer` fold the case of each piece and drop those that are stop
words; the stream delivers `analysisFrom`, a function of the position and the text that are
left (`next_delivers`). From this alone:

* `reusable_eq_fresh`: a reused stream gives the tokens of a fresh one, as `reset` leaves
  nothing of the text before.
* `analysis_local`: a separator cuts the analysis in two, and readers do not matter.
* `case_insensitive_iff`: texts that differ in case only have the same analysis exactly if
  no word that is not a stop word touches a position where `isTokenChar` differs.
-/

namespace QDesktopSearch

open Runs Source

variable (T : CharTables)

/-! ## What the filters do to a token -/

/-- `LowerCaseFilter`'s change to a token. -/
def Token.caseFold (token : Token) : Token := { token with termBuffer := token.termBuffer.map T.cl_tcasefold }

/-- `StopFilter` lets the token through. -/
def Token.isKept (token : Token) : Bool := !ENGLISH_STOP_WORDS.contains token.termBuffer

/-- The token, as many characters later. -/
def Token.shift (d : ℕ) (token : Token) : Token :=
  { token with startOffset := token.startOffset + d, endOffset := token.endOffset + d }

/-- The analysis of a text from its position on. -/
def analysisFrom (k : ℕ) (text : List TCHAR) : List Token :=
  ((pieces (QTokenizer.isTokenChar T) LUCENE_MAX_WORD_LEN k [] text).map fun r =>
    (tokenAt r).caseFold T).filter Token.isKept

/-- `QTokenizer` makes words only, which `StandardFilter` leaves as they are. -/
theorem StandardFilter.next_tokenizer : StandardFilter.next (QTokenizer.next T) = QTokenizer.next T := by
  funext t
  obtain ⟨hhead, -⟩ := QTokenizer.next_delivers T t
  rw [StandardFilter.next]
  cases hnext : QTokenizer.next T t with
  | mk token t' =>
    cases token with
    | none => rfl
    | some token =>
      rw [hnext] at hhead
      obtain ⟨r, -, rfl⟩ := List.mem_map.1 (List.mem_of_head? hhead.symm)
      simp [tokenAt, Token.set]

theorem LowerCaseFilter.next_eq (input : QTokenizer → Option Token × QTokenizer) :
    LowerCaseFilter.next T input = fun t => ((input t).1.map (Token.caseFold T), (input t).2) := by
  funext t
  rw [LowerCaseFilter.next]
  cases input t with
  | mk token t' => cases token <;> rfl

/-- `StopFilter` skips the stop words; positions are not counted. -/
theorem StopFilter.loop_eq (input : QTokenizer → Option Token × QTokenizer) {n : ℕ} {t : QTokenizer} {k : ℕ} :
    StopFilter.loop input n t k = skip input Token.isKept n t := by
  induction n generalizing t k with
  | zero => rfl
  | succ n ih =>
    rw [StopFilter.loop, skip]
    cases input t with
    | mk token t' =>
      cases token with
      | none => rfl
      | some token =>
        simp only [ih, Token.isKept]
        rfl

namespace QStandardAnalyzer

/-- **The stream delivers the analysis of what is left of the text.** -/
theorem next_delivers : Delivers (next T) fun t => analysisFrom T t.offset t.pending := by
  have hfold : Delivers (LowerCaseFilter.next T (StandardFilter.next (QTokenizer.next T)))
      fun t => (t.tokens T).map (Token.caseFold T) := by
    rw [StandardFilter.next_tokenizer, LowerCaseFilter.next_eq]
    exact (QTokenizer.next_delivers T).map (Token.caseFold T)
  have hbound : ∀ t : QTokenizer, ((t.tokens T).map (Token.caseFold T)).length < t.pending.length + 1 := by
    intro t
    have hle := pieces_length_le (p := QTokenizer.isTokenChar T) (n := LUCENE_MAX_WORD_LEN) (k := t.offset) (a := [])
      (s := t.pending)
    rw [List.length_map, QTokenizer.tokens, List.length_map, QTokenizer.left]
    simp only [List.length_nil] at hle
    omega
  have hskip := hfold.skip Token.isKept hbound
  have hnext : next T = fun t => skip (LowerCaseFilter.next T (StandardFilter.next (QTokenizer.next T))) Token.isKept
      (t.pending.length + 1) t := by
    funext t
    rw [next, StopFilter.next, StopFilter.loop_eq]
  rw [hnext]
  simpa [QTokenizer.tokens, QTokenizer.left, analysisFrom, List.map_map, Function.comp_def] using hskip

/-! ## Fresh and reused streams -/

/-- A fresh stream is at the start of its text. -/
theorem tokenStream_spec (reader : Reader) :
    (tokenStream reader).offset = 0 ∧ (tokenStream reader).pending = reader.rest := by
  unfold tokenStream
  split
  · exact ⟨rfl, rfl⟩
  · exact ⟨rfl, rfl⟩

/-- **`reset` leaves nothing of the text before**, wherever the stream was left. -/
theorem reset_spec (t : QTokenizer) (reader : Reader) :
    (t.reset reader).offset = 0 ∧ (t.reset reader).pending = reader.rest :=
  ⟨rfl, by simp [QTokenizer.reset, QTokenizer.pending, Input.content]⟩

theorem reusableTokenStream_spec (a : QStandardAnalyzer) (reader : Reader) :
    (a.reusableTokenStream reader).offset = 0 ∧ (a.reusableTokenStream reader).pending = reader.rest := by
  unfold reusableTokenStream
  split
  · exact tokenStream_spec reader
  · exact reset_spec _ reader

/-- Any number of calls on a stream at the start of its text. -/
theorem pull_spec {t : QTokenizer} {text : List TCHAR} (h : t.offset = 0 ∧ t.pending = text) (n : ℕ) :
    (pull (next T) n t).1 = (analysisFrom T 0 text).take n := by
  have hpull := (next_delivers T).pull (s := t) (n := n)
  rw [h.1, h.2] at hpull
  exact hpull.1

/-- **A reused stream gives the tokens of a fresh one.** Texts follow one another on one
analyzer; `fresh` is any reader, of any kind, of the same text. -/
theorem reusable_eq_fresh (texts : List (Reader × ℕ)) (fresh : Reader → Reader) (hfresh : ∀ r, (fresh r).rest = r.rest) :
    ∃ a, Machine.run (step T) new texts =
      some (a, texts.map fun text => (pull (next T) text.2 (tokenStream (fresh text.1))).1) := by
  apply Machine.run_answers
  intro a text
  have hreused := pull_spec T (a.reusableTokenStream_spec text.1) text.2
  have hfreshTokens := pull_spec T (tokenStream_spec (fresh text.1)) text.2
  rw [hfresh] at hfreshTokens
  refine ⟨⟨some (pull (next T) text.2 (a.reusableTokenStream text.1)).2⟩, ?_⟩
  rw [hfreshTokens, ← hreused]
  rfl

/-- Analyses of a reader that gives at most a character at a time, and of one that gives the
whole text, of which a part was analysed before. -/
theorem reusable_eq_fresh_sample : ∃ a, Machine.run (step cyrillicTables) new
    [(⟨word "the Lazy", 0, fun _ _ => 1, false⟩, 0), (.stringReader (word "quick fox"), 1)] =
      some (a, [(pull (next cyrillicTables) 0 (tokenStream (.stringReader (word "the Lazy")))).1,
        (pull (next cyrillicTables) 1 (tokenStream (.stringReader (word "quick fox")))).1]) :=
  reusable_eq_fresh cyrillicTables _ (fun r => .stringReader r.rest) fun _ => rfl

/-! ## Separators and parts -/

/-- All tokens of a text: not more than it has characters. -/
def tokens (reader : Reader) : List Token := (pull (next T) reader.rest.length (tokenStream reader)).1

theorem tokens_eq (reader : Reader) : tokens T reader = analysisFrom T 0 reader.rest := by
  have hle := pieces_length_le (p := QTokenizer.isTokenChar T) (n := LUCENE_MAX_WORD_LEN) (k := 0) (a := [])
    (s := reader.rest)
  have hfilter := List.length_filter_le Token.isKept
    ((pieces (QTokenizer.isTokenChar T) LUCENE_MAX_WORD_LEN 0 [] reader.rest).map fun r => (tokenAt r).caseFold T)
  rw [List.length_map] at hfilter
  simp only [List.length_nil, Nat.zero_add] at hle
  rw [tokens, pull_spec T (tokenStream_spec reader), List.take_of_length_le]
  rw [analysisFrom]
  omega

theorem analysisFrom_shift (d : ℕ) (text : List TCHAR) :
    analysisFrom T d text = (analysisFrom T 0 text).map (Token.shift d) := by
  have hpieces := pieces_shift (p := QTokenizer.isTokenChar T) (n := LUCENE_MAX_WORD_LEN) (k := 0) (a := []) (s := text)
    (d := d) (Nat.zero_le _)
  rw [Nat.zero_add] at hpieces
  -- a token is kept or not wherever it is
  have hfilter : ∀ l, (List.filter Token.isKept l).map (Token.shift d) = (l.map (Token.shift d)).filter Token.isKept :=
    fun l => (List.filter_map (p := Token.isKept)).symm
  have htoken : ∀ r : ℕ × List TCHAR,
      (tokenAt (r.1 + d, r.2)).caseFold T = Token.shift d ((tokenAt r).caseFold T) := by
    intro r
    simp only [tokenAt, Token.set, Token.caseFold, Token.shift, Nat.add_right_comm]
  rw [analysisFrom, analysisFrom, hpieces, hfilter, List.map_map, List.map_map]
  congr 1
  exact List.map_congr_left fun r _ => htoken r

/-- A separator cuts the analysis in two. -/
theorem analysisFrom_append {a b : List TCHAR} {c : TCHAR} (hc : QTokenizer.isTokenChar T c = false) :
    analysisFrom T 0 (a ++ c :: b) = analysisFrom T 0 a ++ (analysisFrom T 0 b).map (Token.shift (a.length + 1)) := by
  rw [← analysisFrom_shift, analysisFrom, pieces_append hc, List.map_append, List.filter_append, Nat.zero_add]
  rfl

/-- **Analysis is local**: a separator cuts it in two, readers of one text do not differ, and
so a word between separators is analysed as the same word alone. -/
theorem analysis_local :
    (∀ (a b : List TCHAR) (c : TCHAR), QTokenizer.isTokenChar T c = false → ∀ r r₁ r₂ : Reader,
      r.rest = a ++ c :: b → r₁.rest = a → r₂.rest = b →
        tokens T r = tokens T r₁ ++ (tokens T r₂).map (Token.shift (a.length + 1))) ∧
    (∀ r r' : Reader, r.rest = r'.rest → tokens T r = tokens T r' ∧
      ∀ n, (pull (next T) n (tokenStream r)).1 = (pull (next T) n (tokenStream r')).1) ∧
    ∀ (a w b : List TCHAR) (c d : TCHAR), QTokenizer.isTokenChar T c = false → QTokenizer.isTokenChar T d = false →
      ∀ r query : Reader, r.rest = a ++ c :: (w ++ d :: b) → query.rest = w →
        tokens T r = tokens T (.stringReader a) ++ (tokens T query).map (Token.shift (a.length + 1)) ++
          (tokens T (.stringReader b)).map (Token.shift (a.length + 1 + (w.length + 1))) := by
  have hshift : ∀ d e : ℕ, Token.shift d ∘ Token.shift e = Token.shift (d + e) := by
    intro d e
    funext token
    simp only [Token.shift, Function.comp_apply, Nat.add_assoc, Nat.add_comm d e]
  refine ⟨?_, ?_, ?_⟩
  · intro a b c hc r r₁ r₂ hr h₁ h₂
    rw [tokens_eq, tokens_eq, tokens_eq, hr, h₁, h₂, analysisFrom_append T hc]
  · intro r r' hr
    refine ⟨by rw [tokens_eq, tokens_eq, hr], fun n => ?_⟩
    rw [pull_spec T (tokenStream_spec r), pull_spec T (tokenStream_spec r'), hr]
  · intro a w b c d hc hd r query hr hquery
    rw [tokens_eq, tokens_eq, tokens_eq, tokens_eq, hr, hquery, analysisFrom_append T hc, analysisFrom_append T hd,
      List.map_append, List.map_map, hshift, ← List.append_assoc]
    rfl

/-! ## Letter case -/

/-- **The tokens of a text by position**: the pieces that are no stop words after folding. -/
theorem mem_analysisFrom {text : List TCHAR} {token : Token} : token ∈ analysisFrom T 0 text ↔
    ∃ k m, IsPiece LUCENE_MAX_WORD_LEN (holdsAt (QTokenizer.isTokenChar T) text) k m ∧
      segment (text.map T.cl_tcasefold) k m ∉ ENGLISH_STOP_WORDS ∧
      token = tokenAt (k, segment (text.map T.cl_tcasefold) k m) := by
  have hfold : ∀ k m, (tokenAt (k, segment text k m)).caseFold T =
      tokenAt (k, segment (text.map T.cl_tcasefold) k m) := by
    intro k m
    simp only [segment_map, tokenAt, Token.set, Token.caseFold, List.length_map]
  simp only [analysisFrom, List.mem_filter, List.mem_map, Token.isKept, Bool.not_eq_true', List.contains_eq_mem,
    decide_eq_false_iff_not]
  constructor
  · rintro ⟨⟨r, hr, rfl⟩, hkept⟩
    obtain ⟨hp, hseg⟩ := (mem_pieces (by decide)).1 hr
    have hr' : r = (r.1, segment text r.1 r.2.length) := Prod.ext rfl hseg
    rw [hr', hfold] at hkept ⊢
    exact ⟨r.1, r.2.length, hp, hkept, rfl⟩
  · rintro ⟨k, m, hp, hkept, rfl⟩
    rw [← hfold k m]
    refine ⟨⟨(k, segment text k m), (mem_pieces (by decide)).2 ?_, rfl⟩, ?_⟩
    · rw [hp.segment_length]
      exact ⟨hp, rfl⟩
    · rw [hfold k m]
      exact hkept

theorem analysisFrom_sorted (text : List TCHAR) :
    (analysisFrom T 0 text).Pairwise fun x y => x.startOffset < y.startOffset := by
  refine List.Pairwise.filter _ (List.Pairwise.map _ ?_ pieces_sorted)
  intro r r' h
  exact h

/-- Analyses are equal if they have the same tokens. -/
theorem analysisFrom_ext {s t : List TCHAR} (h : ∀ token, token ∈ analysisFrom T 0 s ↔ token ∈ analysisFrom T 0 t) :
    analysisFrom T 0 s = analysisFrom T 0 t := by
  have hirrefl : Std.Irrefl fun x y : Token => x.startOffset < y.startOffset := ⟨fun x => Nat.lt_irrefl _⟩
  have hantisymm : Std.Antisymm fun x y : Token => x.startOffset < y.startOffset :=
    ⟨fun x y h h' => absurd (Nat.lt_trans h h') (Nat.lt_irrefl _)⟩
  exact List.Pairwise.eq_of_mem_iff (analysisFrom_sorted T s) (analysisFrom_sorted T t) h

/-- Folded, a piece is as long as it was. -/
theorem folded_length {text : List TCHAR} {k m : ℕ}
    (hp : IsPiece LUCENE_MAX_WORD_LEN (holdsAt (QTokenizer.isTokenChar T) text) k m) :
    (segment (text.map T.cl_tcasefold) k m).length = m := by
  rw [segment_map, List.length_map, hp.segment_length]

/-- No stop word is as long as a piece that is cut. -/
theorem full_kept {text : List TCHAR} {k : ℕ}
    (hp : IsPiece LUCENE_MAX_WORD_LEN (holdsAt (QTokenizer.isTokenChar T) text) k LUCENE_MAX_WORD_LEN) :
    segment (text.map T.cl_tcasefold) k LUCENE_MAX_WORD_LEN ∉ ENGLISH_STOP_WORDS := by
  intro hstop
  have hshort : ∀ w ∈ ENGLISH_STOP_WORDS, w.length < LUCENE_MAX_WORD_LEN := by decide
  have hlt := hshort _ hstop
  rw [folded_length T hp] at hlt
  exact absurd hlt (Nat.lt_irrefl _)

/-- Where two texts have the same analysis, a piece of one that is kept is one of the other. -/
theorem piece_of_same {s t : List TCHAR} {k m : ℕ} (heq : analysisFrom T 0 s = analysisFrom T 0 t)
    (hp : IsPiece LUCENE_MAX_WORD_LEN (holdsAt (QTokenizer.isTokenChar T) s) k m)
    (hk : segment (s.map T.cl_tcasefold) k m ∉ ENGLISH_STOP_WORDS) :
    IsPiece LUCENE_MAX_WORD_LEN (holdsAt (QTokenizer.isTokenChar T) t) k m := by
  have hmem := (mem_analysisFrom T).2 ⟨k, m, hp, hk, rfl⟩
  rw [heq] at hmem
  obtain ⟨k', m', hp', -, htok⟩ := (mem_analysisFrom T).1 hmem
  simp only [tokenAt, Token.set, Token.mk.injEq] at htok
  have hm := congrArg List.length htok.1
  rw [folded_length T hp, folded_length T hp'] at hm
  rw [htok.2.1, hm]
  exact hp'

/-- **Texts that differ in case only** have the same analysis exactly if each word of either
that contains or borders a position where `isTokenChar` differs is a stop word. -/
theorem case_insensitive_iff (s t : Reader) (h : s.rest.map T.cl_tcasefold = t.rest.map T.cl_tcasefold) :
    (∀ n, (pull (next T) n (tokenStream s)).1 = (pull (next T) n (tokenStream t)).1) ↔
      ∀ i, holdsAt (QTokenizer.isTokenChar T) s.rest i ≠ holdsAt (QTokenizer.isTokenChar T) t.rest i →
        ∀ k m, IsPiece LUCENE_MAX_WORD_LEN (holdsAt (QTokenizer.isTokenChar T) s.rest) k m ∨
          IsPiece LUCENE_MAX_WORD_LEN (holdsAt (QTokenizer.isTokenChar T) t.rest) k m →
        Touches LUCENE_MAX_WORD_LEN k m i → segment (s.rest.map T.cl_tcasefold) k m ∈ ENGLISH_STOP_WORDS := by
  have hpull : (∀ n, (pull (next T) n (tokenStream s)).1 = (pull (next T) n (tokenStream t)).1) ↔
      analysisFrom T 0 s.rest = analysisFrom T 0 t.rest := by
    rw [(next_delivers T).pull_same_iff, (tokenStream_spec s).1, (tokenStream_spec s).2, (tokenStream_spec t).1,
      (tokenStream_spec t).2]
  have hfull : ∀ k, IsPiece LUCENE_MAX_WORD_LEN (holdsAt (QTokenizer.isTokenChar T) s.rest) k LUCENE_MAX_WORD_LEN ∨
      IsPiece LUCENE_MAX_WORD_LEN (holdsAt (QTokenizer.isTokenChar T) t.rest) k LUCENE_MAX_WORD_LEN →
      segment (s.rest.map T.cl_tcasefold) k LUCENE_MAX_WORD_LEN ∉ ENGLISH_STOP_WORDS := by
    rintro k (hp | hp)
    · exact full_kept T hp
    · rw [h]
      exact full_kept T hp
  have hkept := kept_iff (K := fun k m => segment (s.rest.map T.cl_tcasefold) k m ∉ ENGLISH_STOP_WORDS) hfull
  simp only [not_not] at hkept
  rw [hpull, ← hkept]
  constructor
  · intro heq k m hk
    have hk' : segment (t.rest.map T.cl_tcasefold) k m ∉ ENGLISH_STOP_WORDS := by
      rw [← h]
      exact hk
    exact ⟨fun hp => piece_of_same T heq hp hk, fun hp => piece_of_same T heq.symm hp hk'⟩
  · intro hsame
    apply analysisFrom_ext
    intro token
    rw [mem_analysisFrom, mem_analysisFrom, ← h]
    constructor
    · rintro ⟨k, m, hp, hk, rfl⟩
      exact ⟨k, m, (hsame k m hk).1 hp, hk, rfl⟩
    · rintro ⟨k, m, hp, hk, rfl⟩
      exact ⟨k, m, (hsame k m hk).2 hp, hk, rfl⟩

/-- A word in two cases; `isTokenChar` does not differ on them. -/
theorem case_insensitive_sample :
    (pull (next cyrillicTables) 1 (tokenStream (.stringReader (word "Fox")))).1 = [⟨word "fox", 0, 3, .word, 1⟩] ∧
      ∀ n, (pull (next cyrillicTables) n (tokenStream (.stringReader (word "Fox")))).1 =
        (pull (next cyrillicTables) n (tokenStream (.stringReader (word "fOX")))).1 := by
  have hsame : ∀ i, holdsAt (QTokenizer.isTokenChar cyrillicTables) (word "Fox") i =
      holdsAt (QTokenizer.isTokenChar cyrillicTables) (word "fOX") i := by
    intro i
    by_cases hi : i < 3
    · have hall : ∀ i < 3, holdsAt (QTokenizer.isTokenChar cyrillicTables) (word "Fox") i =
          holdsAt (QTokenizer.isTokenChar cyrillicTables) (word "fOX") i := by decide +kernel
      exact hall i hi
    · have h : (word "Fox").length ≤ i := Nat.le_of_not_lt hi
      have h' : (word "fOX").length ≤ i := Nat.le_of_not_lt hi
      rw [holdsAt_eq_false h, holdsAt_eq_false h']
  refine ⟨by decide +kernel, ?_⟩
  have hfold : (word "Fox").map cyrillicTables.cl_tcasefold = (word "fOX").map cyrillicTables.cl_tcasefold := by decide
  have hiff := case_insensitive_iff cyrillicTables (.stringReader (word "Fox")) (.stringReader (word "fOX")) hfold
  exact hiff.2 fun i hne => absurd (hsame i) hne

/-- The letters U+0410 and U+0430 are one letter in two cases, but have the low bytes of a
control character and of a digit. -/
theorem case_matters : [0x410].map cyrillicTables.cl_tcasefold = [0x430].map cyrillicTables.cl_tcasefold ∧
    (pull (next cyrillicTables) 1 (tokenStream (.stringReader [0x410]))).1 = [] ∧
    (pull (next cyrillicTables) 1 (tokenStream (.stringReader [0x430]))).1 = [⟨[0x430], 0, 1, .word, 1⟩] := by
  decide +kernel

end QStandardAnalyzer

end QDesktopSearch
