import QDesktopSearch.Lib.Runs
import QDesktopSearch.Model.Analysis

/-!
# The tokens of a text

A reader gives its text in nonempty parts, buffered or not (`input_chunks`), so `ioBuffer`
and the reader together are a list of which the loop of `CharTokenizer::next` takes one
character a round. `next_delivers`: the tokens are the pieces of the runs of `isTokenChar`.

`isTokenChar` looks at the low byte of a character (`isTokenChar_eq`). `tokens_are_words`:
the tokens of a text are its words exactly if no character of it is classified differently
from its low byte.
-/

namespace QDesktopSearch

open Runs Source

/-! ## Readers give their text in parts -/

theorem Reader.read_chunks (size : ℕ) (r : Reader) : (r.read 1 size = (none, r) ∧ r.rest = []) ∨
    ∃ data r', r.read 1 size = (some data, r') ∧ data ≠ [] ∧ r.rest = data ++ r'.rest := by
  by_cases hr : r.rest = []
  · exact Or.inl ⟨by rw [Reader.read, if_pos hr], hr⟩
  · refine Or.inr ⟨_, _, by rw [Reader.read, if_neg hr], ?_, (List.take_append_drop _ _).symm⟩
    have hpos : 0 < r.rest.length := List.length_pos_iff.2 hr
    have hn : 1 ≤ Nat.max 1 (Nat.min (r.sizes r.calls size) size) := Nat.le_max_left _ _
    rw [← List.length_pos_iff, List.length_take]
    omega

@[simp] theorem StreamBuffer.makeSpace_data (b : StreamBuffer) (needed : ℕ) : (b.makeSpace needed).2.data = b.data := by
  unfold StreamBuffer.makeSpace
  by_cases havail : b.avail > 0 <;> by_cases hpos : b.readPos ≠ 0 <;> simp only [havail, hpos, if_true, if_false] <;>
    split_ifs <;> rfl

namespace FilteredBufferedReader

/-- What is still to come: the buffer, and the reader below unless it is at its end. -/
def toCome (x : FilteredBufferedReader) : List TCHAR :=
  x.buffer.data ++ if x.finishedWritingToBuffer then [] else x.input.rest

/-- **Filling the buffer loses nothing**, and ends with enough of it or at the end. -/
theorem writeToBuffer_spec {ntoread maxread n : ℕ} {x : FilteredBufferedReader}
    (hx : x.finishedWritingToBuffer = false) (hn : ntoread ≤ n + x.buffer.avail) :
    (writeToBuffer ntoread maxread n x).toCome = x.toCome ∧
      (writeToBuffer ntoread maxread n x).m_status = x.m_status ∧
      (ntoread ≤ (writeToBuffer ntoread maxread n x).buffer.avail ∨
        (writeToBuffer ntoread maxread n x).finishedWritingToBuffer = true) := by
  induction n generalizing x with
  | zero => exact ⟨rfl, rfl, Or.inl (by rw [writeToBuffer]; omega)⟩
  | succ n ih =>
    rw [writeToBuffer]
    split
    · rename_i hle
      exact ⟨rfl, rfl, Or.inl hle⟩
    · rename_i hlt
      have hdata := StreamBuffer.makeSpace_data x.buffer (ntoread - x.buffer.avail)
      generalize x.buffer.makeSpace (ntoread - x.buffer.avail) = made at hdata ⊢
      obtain ⟨space, buffer⟩ := made
      simp only at hdata ⊢
      generalize (if maxread ≥ ntoread && space > maxread then maxread else space) = space
      rcases Reader.read_chunks space x.input with ⟨hread, hrest⟩ | ⟨data, r, hread, hne, hrest⟩
      · simp only [fillBuffer, hread]
        refine ⟨?_, trivial, Or.inr trivial⟩
        simp [toCome, hx, hdata, hrest]
      · simp only [fillBuffer, hread]
        have hlen : 0 < data.length := List.length_pos_iff.2 hne
        obtain ⟨h1, h2, h3⟩ := ih (x := { x with input := r, buffer := { buffer with data := buffer.data ++ data } }) hx (by
          simp only [StreamBuffer.avail, hdata, List.length_append] at hn ⊢
          omega)
        refine ⟨?_, h2, h3⟩
        rw [h1]
        simp [toCome, hx, hdata, hrest]

/-- `content` of a filtered input. -/
def left (x : FilteredBufferedReader) : List TCHAR := if x.m_status = .Eof then [] else x.toCome

/-- The buffer, filled where there is nothing in it. -/
def filled (x : FilteredBufferedReader) : FilteredBufferedReader :=
  if !x.finishedWritingToBuffer && 1 > x.buffer.avail then writeToBuffer 1 LUCENE_IO_BUFFER_SIZE 1 x else x

theorem filled_spec (x : FilteredBufferedReader) : x.filled.toCome = x.toCome ∧ x.filled.m_status = x.m_status ∧
    (0 < x.filled.buffer.avail ∨ x.filled.finishedWritingToBuffer = true) := by
  unfold filled
  split
  · rename_i h
    simp only [Bool.and_eq_true, Bool.not_eq_true'] at h
    exact writeToBuffer_spec h.1 (by omega)
  · rename_i h
    refine ⟨rfl, rfl, ?_⟩
    by_cases hx : x.finishedWritingToBuffer = true
    · exact Or.inr hx
    · simp only [hx, Bool.not_false, Bool.true_and, decide_eq_true_eq] at h
      exact Or.inl (by omega)

theorem read_eq {x : FilteredBufferedReader} (hx : x.m_status ≠ .Eof) : x.read 1 LUCENE_IO_BUFFER_SIZE =
    let (data, buffer) := x.filled.buffer.read LUCENE_IO_BUFFER_SIZE
    if buffer.avail = 0 && x.filled.finishedWritingToBuffer then
      (if data = [] then none else some data, { x.filled with buffer := buffer, m_status := .Eof })
    else (some data, { x.filled with buffer := buffer }) := by
  rw [FilteredBufferedReader.read, if_neg hx]
  rfl

theorem read_chunks (x : FilteredBufferedReader) :
    (∃ x', x.read 1 LUCENE_IO_BUFFER_SIZE = (none, x') ∧ x.left = [] ∧ x'.left = []) ∨
      ∃ data x', x.read 1 LUCENE_IO_BUFFER_SIZE = (some data, x') ∧ data ≠ [] ∧ x.left = data ++ x'.left := by
  by_cases hx : x.m_status = .Eof
  · refine Or.inl ⟨x, ?_, ?_, ?_⟩
    · rw [FilteredBufferedReader.read, if_pos hx]
    · rw [left, if_pos hx]
    · rw [left, if_pos hx]
  · obtain ⟨hcome, hstatus, hfilled⟩ := x.filled_spec
    have hleft : x.left = x.filled.toCome := by rw [left, if_neg hx, hcome]
    rw [read_eq hx, hleft]
    generalize x.filled = y at *
    rw [← hstatus] at hx
    -- what is taken out of the buffer
    obtain ⟨n, hn, hread⟩ : ∃ n, (y.buffer.data ≠ [] → 0 < n) ∧
        y.buffer.read LUCENE_IO_BUFFER_SIZE =
          (y.buffer.data.take n, { y.buffer with readPos := y.buffer.readPos + n, data := y.buffer.data.drop n }) := by
      refine ⟨_, ?_, rfl⟩
      intro hne
      have hpos : 0 < y.buffer.avail := List.length_pos_iff.2 hne
      split
      · exact hpos
      · decide
    have hsplit := List.take_append_drop n y.buffer.data
    have hne : y.buffer.data ≠ [] → y.buffer.data.take n ≠ [] := by
      intro hne
      have hpos := List.length_pos_iff.2 hne
      rw [← List.length_pos_iff, List.length_take]
      have := hn hne
      omega
    rw [hread]
    simp only
    by_cases hend : y.buffer.data.drop n = [] ∧ y.finishedWritingToBuffer = true
    · obtain ⟨hdrop, hfin⟩ := hend
      rw [hdrop, List.append_nil] at hsplit
      rw [if_pos (by simp [StreamBuffer.avail, hdrop, hfin])]
      by_cases hdata : y.buffer.data = []
      · rw [if_pos (by simp [hdata])]
        exact Or.inl ⟨_, rfl, by simp [toCome, hdata, hfin], by simp [left]⟩
      · rw [if_neg (hne hdata)]
        exact Or.inr ⟨_, _, rfl, hne hdata, by simp [left, toCome, hsplit, hfin]⟩
    · have hdata : y.buffer.data ≠ [] := by
        intro he
        rcases hfilled with h | h
        · simp [StreamBuffer.avail, he] at h
        · exact hend ⟨by simp [he], h⟩
      rw [if_neg (by simpa [StreamBuffer.avail, Nat.sub_eq_zero_iff_le] using hend)]
      refine Or.inr ⟨_, _, rfl, hne hdata, ?_⟩
      simp only [left, if_neg hx, toCome]
      rw [← List.append_assoc, hsplit]

end FilteredBufferedReader

/-- **Any input gives its text in nonempty parts.** -/
theorem input_chunks : Chunks (Input.read 1 LUCENE_IO_BUFFER_SIZE) Input.content := by
  intro input
  cases input with
  | reader r =>
    rcases r.read_chunks LUCENE_IO_BUFFER_SIZE with ⟨hread, hrest⟩ | ⟨data, r', hread, hne, hrest⟩
    · exact Or.inl ⟨.reader r, by rw [Input.read, hread], hrest, hrest⟩
    · exact Or.inr ⟨data, .reader r', by rw [Input.read, hread], hne, hrest⟩
  | filtered x =>
    rcases x.read_chunks with ⟨x', hread, h, h'⟩ | ⟨data, x', hread, hne, h⟩
    · exact Or.inl ⟨.filtered x', by rw [Input.read, hread], h, h'⟩
    · exact Or.inr ⟨data, .filtered x', by rw [Input.read, hread], hne, h⟩

/-! ## The loop takes one character a round -/

namespace QTokenizer

/-- After the refill there is a character in `ioBuffer`, unless the text is at its end. -/
theorem refill_spec (t : QTokenizer) : (t.refill.dataLen = 0 ∧ t.pending = [] ∧ t.refill.pending = []) ∨
    ∃ c s, t.refill.dataLen ≠ 0 ∧ t.refill.ioBuffer.getD t.refill.bufferIndex 0 = c ∧ t.pending = c :: s ∧
      { t.refill with bufferIndex := t.refill.bufferIndex + 1 : QTokenizer }.pending = s := by
  -- a character before `dataLen` is the first that is pending
  have hfirst : ∀ t : QTokenizer, t.bufferIndex < t.dataLen →
      t.pending = t.ioBuffer.getD t.bufferIndex 0 :: { t with bufferIndex := t.bufferIndex + 1 : QTokenizer }.pending := by
    intro t hlt
    have hle := t.dataLen_le
    have hlen : t.bufferIndex < (t.ioBuffer.take t.dataLen).length := by
      rw [List.length_take]
      omega
    have hget : t.ioBuffer.getD t.bufferIndex 0 = (t.ioBuffer.take t.dataLen)[t.bufferIndex] := by
      rw [List.getElem_take, ← List.getElem_eq_getD 0]
    rw [pending, List.drop_eq_getElem_cons hlen, hget, pending]
    rfl
  by_cases hlt : t.bufferIndex < t.dataLen
  · have hrefill : t.refill = t := by rw [refill, if_neg (by omega)]
    rw [hrefill]
    exact Or.inr ⟨_, _, by omega, rfl, hfirst t hlt, rfl⟩
  · have hpending : t.pending = t.input.content := by
      rw [pending, List.drop_of_length_le (by rw [List.length_take]; omega), List.nil_append]
    rcases input_chunks t.input with ⟨input, hread, h, h'⟩ | ⟨data, input, hread, hne, h⟩
    · rw [refill, if_pos (by omega), hread]
      exact Or.inl ⟨rfl, hpending.trans h, by simp [pending, h']⟩
    · rw [refill, if_pos (by omega), hread]
      have hpos : 0 < data.length := List.length_pos_iff.2 hne
      refine Or.inr ⟨_, _, by simp only; omega, rfl, ?_, rfl⟩
      rw [hpending, h, ← hfirst _ hpos]
      simp [pending]

@[simp] theorem refill_offset (t : QTokenizer) : t.refill.offset = t.offset := by
  unfold refill
  split
  · split <;> rfl
  · rfl

@[simp] theorem pending_offset (t : QTokenizer) (k : ℕ) : { t with offset := k : QTokenizer }.pending = t.pending := rfl

end QTokenizer

/-- A piece of the text as a token. -/
def tokenAt (r : ℕ × List TCHAR) : Token := .set r.2 r.1 (r.1 + r.2.length)

variable (T : CharTables)

namespace QTokenizer

/-- The pieces of what is left of the text, with those of `buffer` before it. -/
def left (t : QTokenizer) (buffer : List TCHAR) : List (ℕ × List TCHAR) :=
  pieces (isTokenChar T) LUCENE_MAX_WORD_LEN t.offset buffer t.pending

/-- **The loop finds the next piece**, and leaves those after it. -/
theorem loop_spec (n : ℕ) (t : QTokenizer) (buffer : List TCHAR) (start : ℕ) (hn : t.pending.length < n)
    (hbuffer : buffer.length < LUCENE_MAX_WORD_LEN) (hstart : buffer ≠ [] → start + buffer.length = t.offset) :
    (loop T n t buffer start).1 = ((t.left T buffer).map tokenAt).head? ∧
      (loop T n t buffer start).2.left T [] = (t.left T buffer).tail := by
  induction n generalizing t buffer start with
  | zero => omega
  | succ n ih =>
    have hstart' : buffer ≠ [] → start = t.offset - buffer.length := by
      intro h
      have := hstart h
      omega
    have hle : buffer.length ≤ t.offset := by
      by_cases hb : buffer = []
      · simp [hb]
      · have := hstart hb
        omega
    have hempty : buffer = [] ↔ buffer.length = 0 := List.length_eq_zero_iff.symm
    rw [loop]
    have hrefill := refill_spec { t with offset := t.offset + 1 }
    have hoffset := refill_offset { t with offset := t.offset + 1 }
    generalize { t with offset := t.offset + 1 : QTokenizer }.refill = u at *
    rw [pending_offset] at hrefill
    rcases hrefill with ⟨hlen, hnil, hnil'⟩ | ⟨c, s, hlen, hc, hcons, hs⟩
    · -- the end of the text
      simp only [hlen, if_true]
      by_cases hb : buffer = []
      · simp [hb, left, pieces, hnil, hnil']
      · rw [if_pos (List.length_pos_iff.2 hb), hstart' hb]
        simp [hb, left, pieces, hnil, hnil', tokenAt]
    · -- one more character
      simp only [hlen, if_false, hc]
      generalize ht' : { u with bufferIndex := u.bufferIndex + 1 : QTokenizer } = t' at *
      have hoffset' : t'.offset = t.offset + 1 := by rw [← ht']; exact hoffset
      have hu : u.offset - 1 = t.offset := by simp [hoffset]
      have hleft : t.left T buffer = pieces (isTokenChar T) LUCENE_MAX_WORD_LEN t.offset buffer (c :: t'.pending) := by
        rw [left, hcons, hs]
      have hleft' : ∀ b, t'.left T b = pieces (isTokenChar T) LUCENE_MAX_WORD_LEN (t.offset + 1) b t'.pending := by
        intro b
        rw [left, hoffset']
      have hn' : t'.pending.length < n := by
        rw [hcons, List.length_cons] at hn
        rw [hs]
        omega
      rw [hleft, pieces]
      by_cases hchar : isTokenChar T c = true
      · have hstart'' : (if buffer.length = 0 then u.offset - 1 else start) = t.offset - buffer.length := by
          by_cases hb : buffer = []
          · simp [hb, hu]
          · rw [if_neg (fun h => hb (hempty.2 h)), hstart' hb]
        simp only [hchar, if_true, hstart'', normalize, List.length_append, List.length_singleton]
        by_cases hfull : buffer.length + 1 = LUCENE_MAX_WORD_LEN
        · simp [hfull, hleft', tokenAt]
        · simp only [hfull, if_false]
          have hi := ih t' (buffer ++ [c]) (t.offset - buffer.length) hn'
            (by simp; omega) (fun _ => by simp; omega)
          rwa [hleft'] at hi
      · simp only [hchar]
        by_cases hb : buffer = []
        · have hi := ih t' [] start hn' (by decide) (fun h => absurd rfl h)
          rw [hleft'] at hi
          simpa [hb] using hi
        · rw [if_pos (List.length_pos_iff.2 hb), hstart' hb]
          simp [hb, hleft', tokenAt]

/-- The tokens that are left. -/
def tokens (t : QTokenizer) : List Token := (t.left T []).map tokenAt

/-- **The tokenizer delivers the pieces of the runs of `isTokenChar`.** -/
theorem next_delivers : Delivers (next T) (tokens T) := by
  intro t
  obtain ⟨hhead, htail⟩ := loop_spec T _ t [] t.offset (Nat.lt_succ_self _) (by decide) (fun h => absurd rfl h)
  refine ⟨hhead, ?_⟩
  show List.map tokenAt (left T (loop T _ t [] t.offset).2 []) = _
  rw [htail, List.map_tail, tokens]

end QTokenizer

/-! ## Words -/

/-- None of the excluded characters is a letter or a digit. -/
theorem isTokenChar_excluded {c : ℕ}
    (h : ([0, 32, 9, 45, 46, 10, 13, 44, 47, 34, 58, 39, 39, 60, 62].contains c || c ≤ 9) = true) :
    c < 256 ∧ isLatin1LetterOrNumber c = false := by
  have hall : ∀ c ∈ [32, 45, 46, 10, 13, 44, 47, 34, 58, 39, 60, 62] ++ List.range 10,
      c < 256 ∧ isLatin1LetterOrNumber c = false := by decide
  refine hall c ?_
  simp only [Bool.or_eq_true, decide_eq_true_eq, List.contains_iff_mem, List.mem_cons, List.not_mem_nil, or_false] at h
  simp only [List.mem_append, List.mem_range, List.mem_cons, List.not_mem_nil, or_false]
  grind

/-- The low byte decides. -/
theorem isTokenChar_eq (c : TCHAR) : QTokenizer.isTokenChar T c = T.isLetterOrNumber (c % 256) := by
  rw [QTokenizer.isTokenChar]
  split
  · rename_i h
    obtain ⟨hc, hlatin⟩ := isTokenChar_excluded h
    rw [Nat.mod_eq_of_lt hc, T.isLetterOrNumber_latin1 c hc, hlatin]
  · rfl

/-- The words of a text: its runs of letters and digits, cut at `LUCENE_MAX_WORD_LEN`. -/
def words (text : List TCHAR) : List Token :=
  ((runs T.isLetterOrNumber 0 text).flatMap fun r => cut LUCENE_MAX_WORD_LEN r.1 r.2).map tokenAt

/-- **The tokens of a text are its words** exactly if each of its characters is a letter or a
digit where its low byte is. -/
theorem tokens_are_words (input : Input) :
    (∀ n, (pull (QTokenizer.next T) n (.new input)).1 = (words T input.content).take n) ↔
      ∀ c ∈ input.content, T.isLetterOrNumber (c % 256) = T.isLetterOrNumber c := by
  have hwords : words T input.content = (pieces T.isLetterOrNumber LUCENE_MAX_WORD_LEN 0 [] input.content).map tokenAt := by
    rw [words, ← pieces_eq_runs (by decide)]
  have hinj : Function.Injective tokenAt := by
    rintro ⟨k, s⟩ ⟨k', s'⟩ h
    simp only [tokenAt, Token.set, Token.mk.injEq] at h
    exact Prod.ext h.2.1 h.1
  rw [(QTokenizer.next_delivers T).pull_iff, hwords]
  constructor
  · intro h c hc
    have hp := pieces_determine (by decide) (List.map_injective_iff.2 hinj h) c hc
    rw [← hp, isTokenChar_eq]
  · intro h
    exact congrArg (List.map tokenAt) (pieces_congr fun c hc => (isTokenChar_eq T c).trans (h c hc))

/-- The tables for Latin-1 and the Cyrillic capital and small letters. -/
def cyrillicTables : CharTables where
  isLetterOrNumber c := if c < 256 then isLatin1LetterOrNumber c else decide (0x400 ≤ c ∧ c ≤ 0x45f)
  isLetterOrNumber_latin1 _ hc := if_pos hc
  cl_tcasefold c :=
    if (0x41 ≤ c ∧ c ≤ 0x5a) ∨ (0xc0 ≤ c ∧ c ≤ 0xde ∧ c ≠ 0xd7) ∨ (0x410 ≤ c ∧ c ≤ 0x42f) then c + 0x20
    else if 0x400 ≤ c ∧ c ≤ 0x40f then c + 0x50
    else c

/-- The letter U+0420 is dropped: its low byte is a blank. -/
theorem letter_dropped : ¬∀ n, (pull (QTokenizer.next cyrillicTables) n (.new (.reader (.stringReader [0x420])))).1 =
    (words cyrillicTables [0x420]).take n := by
  intro h
  have hnothing : (pull (QTokenizer.next cyrillicTables) 1 (.new (.reader (.stringReader [0x420])))).1 = [] := by
    decide +kernel
  have hruns : runs cyrillicTables.isLetterOrNumber 0 [0x420] = [(0, [0x420])] := by simp [runs, cyrillicTables]
  have hwords : words cyrillicTables [0x420] = [⟨[0x420], 0, 1, .word, 1⟩] := by
    rw [words, hruns, List.flatMap_singleton, cut_short (by decide) (by decide)]
    rfl
  have h1 := h 1
  rw [hnothing, hwords] at h1
  exact absurd h1 (by simp)

end QDesktopSearch
