import QDesktopSearch.Model.TermScorer
import QDesktopSearch.Proof.SkipReader

/-!
# The documents of a term

* `skipAhead_spec`: the skip list leads past documents before the target only.
* `SegmentTermDocs.skipTo_spec`, `SegmentTermDocs.feeds`: so it makes no difference, and the documents that
  are not deleted are given one after the other.
* `appendPostings_spec`: the postings and their skip list are where they have been written.
-/

namespace QDesktopSearch

namespace SegmentTermDocs

variable {L : SkipLayout} {file tail tail' : List UInt8} {x : SegmentTermDocs} {target : ℤ}

/-- The file has the postings of a term and their skip list. -/
structure Written (L : SkipLayout) (file : List UInt8) (skipPointer maxSkipLevels : ℕ) : Prop where
  fits : L.Fits file
  levels : 0 < maxSkipLevels
  postings : ∃ tail, Holds file L.freqBase L.ps tail
  skips : L.interval ≤ L.ps.length → ∃ tail, file.drop skipPointer = L.skipBytes maxSkipLevels ++ tail

/-- Among the postings of a term, with their skip list. -/
structure On (L : SkipLayout) (file : List UInt8) (x : SegmentTermDocs) : Prop where
  written : Written L file x.skipPointer x.maxSkipLevels
  stands : At file L.freqBase L.ps x
  skipInterval : x.skipInterval = L.interval
  freqBase : x.freqBasePointer = L.freqBase
  proxBase : x.proxBasePointer = L.proxBase
  reader : ∀ r, x.skipListReader = some r → DefaultSkipListReader.Behind L file x.maxSkipLevels x.skipPointer x.count r

theorem On.of_same {y : SegmentTermDocs} (h : On L file x) (hsame : Same x y) (hat : At file L.freqBase L.ps y) :
    On L file y := by
  refine ⟨?_, hat, hsame.skipInterval.trans h.skipInterval, hsame.freqBasePointer.trans h.freqBase,
    hsame.proxBasePointer.trans h.proxBase, fun r hr => ?_⟩
  · rw [hsame.skipPointer, hsame.maxSkipLevels]
    exact h.written
  · rw [hsame.skipPointer, hsame.maxSkipLevels]
    cases h.reader r (hsame.skipListReader.symm.trans hr) with
    | unused stream hfile h => exact .unused stream hfile h
    | used sp levels hlaid hpos hstands hcount =>
      have := hsame.count_le
      exact .used sp levels hlaid hpos hstands (by omega)

theorem doc_le_lastDocOf {ps : List Posting} (ok : PostingsOK ps) {k : ℕ} {p : Posting} (hp : p ∈ ps.take k) :
    p.doc ≤ lastDocOf 0 (ps.take k) := by
  rcases List.eq_nil_or_concat' (ps.take k) with hnil | ⟨qs, q, hq⟩
  · rw [hnil] at hp
    exact absurd hp (by simp)
  · have hpairs := ok.ascending.sublist (List.take_sublist k ps)
    rw [hq, List.pairwise_append] at hpairs
    rw [hq] at hp ⊢
    rw [lastDocOf_concat]
    rcases List.mem_append.1 hp with hp | hp
    · exact (hpairs.2.2 p hp q (by simp)).le
    · rw [List.mem_singleton.1 hp]

/-- Passing postings before the target makes no difference. -/
theorem dropWhile_live {α : Type*} {ps : List Posting} {deletedDocs : ℕ → Bool} {d e : ℕ} (f : Posting → α) (hle : d ≤ e)
    (hbefore : ∀ p ∈ ps.take e, (p.doc : ℤ) < target) :
    (((ps.drop d).filter fun p => !deletedDocs p.doc).map fun p => (p.doc, f p)).dropWhile (fun q => (q.1 : ℤ) < target) =
      (((ps.drop e).filter fun p => !deletedDocs p.doc).map fun p => (p.doc, f p)).dropWhile (fun q => (q.1 : ℤ) < target) := by
  have hsplit : ps.drop d = (ps.take e).drop d ++ ps.drop e := by
    conv_lhs => rw [← List.take_append_drop e ps]
    by_cases hlength : d ≤ (ps.take e).length
    · rw [List.drop_append_of_le_length hlength]
    · have hshort : ps.length < d := by
        rw [List.length_take] at hlength
        omega
      have hnone : ps.drop e = [] := List.drop_eq_nil_of_le (by omega)
      rw [hnone, List.append_nil, List.append_nil]
  rw [hsplit, List.filter_append, List.map_append]
  refine List.dropWhile_append_of_pos fun q hq => ?_
  obtain ⟨p, hp, rfl⟩ := List.mem_map.1 hq
  simpa using hbefore p (List.mem_of_mem_drop (List.mem_of_mem_filter hp))

/-- The reader of the skip list, new or not. -/
def readerOf (x : SegmentTermDocs) : DefaultSkipListReader :=
  x.skipListReader.getD (.init x.freqStream x.maxSkipLevels x.skipInterval x.skipPointer x.freqBasePointer
    x.proxBasePointer x.df)

/-- **The reader is sent to a target**: it stays behind, or it gets ahead to an entry that is before the target. -/
theorem readerOf_skipTo (target : ℤ) (h : On L file x) (hfew : x.df ≥ x.skipInterval) :
    (∀ d : ℕ, (x.readerOf.skipTo target).1 ≤ d →
      DefaultSkipListReader.Behind L file x.maxSkipLevels x.skipPointer d (x.readerOf.skipTo target).2) ∧
    ((x.readerOf.skipTo target).1 > x.count → ∃ c, (x.readerOf.skipTo target).1.toNat = c ∧ c ≤ L.ps.length ∧
      (x.readerOf.skipTo target).2.lastDoc = some (L.mark c).doc ∧
      (x.readerOf.skipTo target).2.lastFreqPointer = (L.mark c).freqPointer ∧
      (x.readerOf.skipTo target).2.lastProxPointer = (L.mark c).proxPointer ∧ ((L.mark c).doc : ℤ) < target) := by
  rw [h.stands.df_eq, h.skipInterval] at hfew
  obtain ⟨tail', hp⟩ := h.written.skips hfew
  have hbehind : DefaultSkipListReader.Behind L file x.maxSkipLevels x.skipPointer x.count x.readerOf := by
    unfold readerOf
    cases hreader : x.skipListReader with
    | none =>
      rw [h.skipInterval, h.freqBase, h.proxBase, h.stands.df_eq]
      exact .unused x.freqStream h.stands.file_eq rfl
    | some r => exact h.reader r hreader
  obtain ⟨hresult, hlanded, hbehind'⟩ := DefaultSkipListReader.skipTo_spec h.written.fits h.written.levels
    hfew hp hbehind
  refine ⟨hbehind', fun hahead => ?_⟩
  generalize x.readerOf.skipTo target = result at hresult hlanded hahead ⊢
  obtain ⟨m, hm, hle, hnew, hdoc, hfreq, hprox, hlt⟩ := hlanded.resolve_left (by rw [← hresult]; omega)
  rw [← hresult] at hnew
  have hle' : m * L.interval - 1 ≤ L.ps.length := by
    rw [SkipLayout.entries, zero_add, pow_one] at hle
    exact (Nat.sub_le _ _).trans ((Nat.mul_le_mul_right _ hle).trans (Nat.div_mul_le_self _ _))
  have hentry : L.entry 0 m = L.mark (m * L.interval - 1) := by rw [SkipLayout.entry, zero_add, pow_one]
  rw [hentry] at hdoc hfreq hprox hlt
  exact ⟨m * L.interval - 1, by omega, hle', hdoc, hfreq, hprox, hlt⟩

/-- **The skip list** leads past documents before the target only. -/
theorem skipAhead_spec (target : ℤ) (h : On L file x) :
    On L file (x.skipAhead target) ∧ (x.skipAhead target).deletedDocs = x.deletedDocs ∧
    x.count ≤ (x.skipAhead target).count ∧
    (left L.ps x).dropWhile (fun q => (q.1 : ℤ) < target) =
      (left L.ps (x.skipAhead target)).dropWhile (fun q => (q.1 : ℤ) < target) := by
  unfold skipAhead
  by_cases hfew : x.df ≥ x.skipInterval
  swap
  · rw [if_neg hfew]
    exact ⟨h, rfl, le_rfl, rfl⟩
  rw [if_pos hfew]
  obtain ⟨hbehind, hahead⟩ := readerOf_skipTo target h hfew
  dsimp only
  rw [show x.skipListReader.getD
    (.init x.freqStream x.maxSkipLevels x.skipInterval x.skipPointer x.freqBasePointer x.proxBasePointer x.df) =
      x.readerOf from rfl]
  generalize x.readerOf.skipTo target = result at hbehind hahead ⊢
  by_cases hgets : result.1 > x.count
  · rw [if_pos hgets]
    obtain ⟨c, hcount, hle, hdoc, hfreq, -, hlt⟩ := hahead hgets
    rw [hcount, hdoc, hfreq]
    refine ⟨⟨h.written, ⟨h.stands.file_eq, h.stands.df_eq, hle, rfl, rfl⟩, h.skipInterval, h.freqBase, h.proxBase, ?_⟩,
      rfl, ?_, ?_⟩
    · rintro _ ⟨⟩
      exact hbehind _ (by dsimp only; omega)
    · dsimp only
      omega
    · refine dropWhile_live Posting.freq (by dsimp only; omega) fun p hp => ?_
      have hle := doc_le_lastDocOf h.written.fits.ok hp
      simp only [SkipLayout.mark] at hlt
      dsimp only at hle
      omega
  · rw [if_neg hgets]
    refine ⟨⟨h.written, ⟨h.stands.file_eq, h.stands.df_eq, h.stands.count_le, h.stands.doc_eq, h.stands.pos_eq⟩, h.skipInterval,
      h.freqBase, h.proxBase, ?_⟩, rfl, le_rfl, rfl⟩
    rintro _ ⟨⟩
    exact hbehind _ (by dsimp only; omega)

/-- **`skipTo`** goes on to the next document from the target on. -/
theorem skipTo_spec (h : On L file x) : SkipsTo file L.freqBase L.ps target (left L.ps x) (x.skipTo target) ∧
    On L file (x.skipTo target).2 ∧ (x.skipTo target).2.deletedDocs = x.deletedDocs ∧ x.count ≤ (x.skipTo target).2.count := by
  obtain ⟨hon, hdeleted, hcount, hsame⟩ := skipAhead_spec target h
  obtain ⟨tail, hholds⟩ := h.written.postings
  unfold skipTo
  dsimp only
  generalize x.skipAhead target = y at hon hdeleted hcount hsame ⊢
  have hlength := left_length_le hon.stands
  obtain ⟨hscan, hsame'⟩ := scanLoop_spec (n := y.df - y.count + 1) hon.stands hholds (by omega)
  refine ⟨⟨hscan.stays, ?_, ?_⟩, hon.of_same hsame' hscan.stays, hsame'.deletedDocs.trans hdeleted,
    hcount.trans hsame'.count_le⟩
  · rw [hsame]
    exact hscan.found
  · rw [hsame]
    exact hscan.exhausted

/-- Every document that has been given has been read. -/
theorem left_length_add (ps : List Posting) {y : SegmentTermDocs} (hdeleted : y.deletedDocs = x.deletedDocs)
    (hcount : x.count ≤ y.count) : (left ps x).length ≤ (left ps y).length + (y.count - x.count) := by
  have hsplit : ps.drop x.count = (ps.drop x.count).take (y.count - x.count) ++ ps.drop y.count := by
    conv_lhs => rw [← List.take_append_drop (y.count - x.count) (ps.drop x.count)]
    rw [List.drop_drop, Nat.add_sub_cancel' hcount]
  rw [left, left, hdeleted, hsplit, liveDocs, liveDocs, List.filter_append, List.map_append, List.length_append,
    List.length_map, Nat.add_comm]
  refine Nat.add_le_add_left ((List.length_filter_le _ _).trans ?_) _
  rw [List.length_take]
  exact Nat.min_le_left _ _

open Feed in
/-- **A segment gives the documents that are not deleted**, with its skip list as without. -/
theorem feeds (h : On L file x) : Feeds True (left L.ps x) x := by
  refine .of_closed (R := fun l x => On L file x ∧ l = left L.ps x) ⟨?_, ?_, ?_⟩ ⟨h, rfl⟩
  · rintro l x ⟨h, rfl⟩
    obtain ⟨tail, hholds⟩ := h.written.postings
    have hnext := next_spec h.stands hholds
    have hon := h.of_same hnext.same hnext.stays
    refine ⟨fun hr => ⟨_, hnext.found hr, ⟨hon, rfl⟩, ?_⟩, fun hr => ⟨(hnext.exhausted hr).1, hon, (hnext.exhausted hr).2.symm⟩⟩
    have hlength := left_length_add L.ps hnext.same.deletedDocs hnext.same.count_le
    rw [hnext.found hr, List.length_cons] at hlength
    have hdf := hon.stands.df_eq
    have hdf' := h.stands.df_eq
    have hle := hon.stands.count_le
    show x.next.2.df - x.next.2.count < x.df - x.count
    omega
  · rintro l x k ⟨h, rfl⟩ hk
    obtain ⟨tail, hholds⟩ := h.written.postings
    obtain ⟨hat, hsame, hsplit, hlength⟩ := read_spec (k := k) h.stands hholds
    have hon := h.of_same hsame hat
    refine ⟨⟨_, hsplit, hon, rfl⟩, ?_, fun hnil => ?_, ?_, fun _ => hlength⟩
    · show (x.read k).1.length ≤ k
      rw [hlength]
      exact Nat.min_le_left _ _
    · have hzero : (x.read k).1.length = 0 := by rw [show (x.read k).1 = [] from hnil]; rfl
      exact List.length_eq_zero_iff.1 (by omega)
    · have hadd := left_length_add L.ps hsame.deletedDocs hsame.count_le
      rw [hsplit, List.length_append] at hadd
      have hdf := hon.stands.df_eq
      have hdf' := h.stands.df_eq
      have hle := hon.stands.count_le
      have hcount := hsame.count_le
      show (x.read k).2.df - (x.read k).2.count + (x.read k).1.length ≤ x.df - x.count
      omega
  · rintro l x t ⟨h, rfl⟩
    obtain ⟨hskips, hon, hdeleted, hcount⟩ := skipTo_spec h
    refine ⟨fun hr => ⟨_, hskips.found hr, ⟨hon, rfl⟩, ?_⟩,
      fun hr => ⟨(hskips.exhausted hr).1, hon, (hskips.exhausted hr).2.symm⟩⟩
    have hlength := left_length_add L.ps hdeleted hcount
    have hfound := (List.dropWhile_suffix (l := left L.ps x) fun d => decide ((d.1 : ℤ) < t)).length_le
    rw [hskips.found hr, List.length_cons] at hfound
    have hdf := hon.stands.df_eq
    have hdf' := h.stands.df_eq
    have hle := hon.stands.count_le
    show (x.skipTo t).2.df - (x.skipTo t).2.count < x.df - x.count
    omega

open Feed in
/-- A term without postings gives nothing. -/
theorem feeds_none {skipInterval : ℕ} (hpos : 0 < skipInterval) (h : x.skipInterval = skipInterval) (hdf : x.df = 0)
    (hcount : x.count = 0) :
    Feeds True [] x := by
  have hnext : ∀ {y : SegmentTermDocs}, y.df = 0 → y.count = 0 → y.next = (false, y) := by
    intro y hdf hcount
    rw [SegmentTermDocs.next, nextLoop, if_pos (hcount.trans hdf.symm)]
  refine .of_closed (R := fun l y => l = [] ∧ y.df = 0 ∧ y.count = 0 ∧ y.skipInterval = skipInterval) ⟨?_, ?_, ?_⟩
    ⟨rfl, hdf, hcount, h⟩
  · rintro l y ⟨rfl, hdf, hcount, hinterval⟩
    rw [show Feed.next y = y.next from rfl, hnext hdf hcount]
    exact ⟨fun h => absurd h (by simp), fun _ => ⟨rfl, rfl, hdf, hcount, hinterval⟩⟩
  · rintro l y k ⟨rfl, hdf, hcount, hinterval⟩ -
    have hread : Feed.read y k = ([], y) := by
      show y.read k = _
      rw [SegmentTermDocs.read, readLoop, if_pos (.inr (by omega))]
    rw [hread]
    exact ⟨⟨[], rfl, rfl, hdf, hcount, hinterval⟩, Nat.zero_le _, fun _ => rfl, Nat.le_refl _, fun _ => (Nat.min_zero k).symm⟩
  · rintro l y t ⟨rfl, hdf, hcount, hinterval⟩
    have hskip : Feed.skipTo y t = (false, y) := by
      have hahead : y.skipAhead t = y := by rw [skipAhead, if_neg (by omega)]
      show y.skipTo t = _
      rw [SegmentTermDocs.skipTo, hahead, scanLoop, hnext hdf hcount]
      rfl
    rw [hskip]
    exact ⟨fun h => absurd h (by simp), fun _ => ⟨rfl, rfl, hdf, hcount, hinterval⟩⟩

end SegmentTermDocs

/-! ## What has been written -/

namespace PostingsFiles

variable {x : PostingsFiles} {docCount : ℕ} {ps : List Posting}

def layout (x : PostingsFiles) (ps : List Posting) : SkipLayout := ⟨ps, x.skipInterval, x.freqOut.length, x.proxOut.length⟩

/-- The postings can be written: their numbers fit. -/
structure Takes (x : PostingsFiles) (docCount : ℕ) (ps : List Posting) : Prop where
  interval : 1 < x.skipInterval
  levels : 0 < x.maxSkipLevels
  ok : PostingsOK ps
  length_le : ps.length ≤ docCount
  freq_lt : (freqBytes 0 ps).length < 2 ^ 31
  prox_lt : (proxBytes ps).length < 2 ^ 31

/-- **The postings and their skip list are written** behind what the files have. -/
theorem appendPostings_spec (h : x.Takes docCount ps) : x.appendPostings docCount ps =
    ({ x with
        freqOut := x.freqOut ++ freqBytes 0 ps ++ (x.layout ps).skipBytes x.maxSkipLevels
        proxOut := x.proxOut ++ proxBytes ps },
      ⟨ps.length, x.freqOut.length, x.proxOut.length, (freqBytes 0 ps).length⟩) := by
  have hwritten := PostingsWriter.foldl_add_spec (L := x.layout ps) (skipLevels x.skipInterval x.maxSkipLevels docCount)
    rfl rfl (by have := h.interval; show 0 < x.skipInterval; omega)
  have hskip := writeSkip_eq (L := x.layout ps) h.interval h.length_le hwritten.number
    fun i hi => (hwritten.levels i (by rwa [← hwritten.number])).buffer
  unfold appendPostings finish PostingsFiles.start
  dsimp only [layout] at hwritten hskip ⊢
  generalize List.foldl PostingsWriter.add _ ps = w at hwritten hskip ⊢
  have hfreq := hwritten.freq
  have hprox := hwritten.prox
  rw [List.take_length] at hfreq hprox
  rw [hskip, hwritten.df, hfreq, hprox, List.length_append, Nat.add_sub_cancel_left]

/-- What a dictionary has of a term: the skip offset only where there is a skip list. -/
structure Tells (skipInterval : ℕ) (ti info : TermInfo) : Prop where
  docFreq : ti.docFreq = info.docFreq
  freqPointer : ti.freqPointer = info.freqPointer
  proxPointer : ti.proxPointer = info.proxPointer
  skipOffset : skipInterval ≤ info.docFreq → ti.skipOffset = info.skipOffset

/-- **`seek`** finds what has been written, whatever is written after it. -/
theorem on_seek {more : List UInt8} {y : SegmentTermDocs} {ti : TermInfo} (h : x.Takes docCount ps)
    (hti : Tells x.skipInterval ti (x.appendPostings docCount ps).2)
    (hfile : y.freqStream.file = (x.appendPostings docCount ps).1.freqOut ++ more)
    (hlength : ((x.appendPostings docCount ps).1.freqOut ++ more).length < 2 ^ 63)
    (hinterval : y.skipInterval = x.skipInterval) (hlevels : y.maxSkipLevels = x.maxSkipLevels) :
    SegmentTermDocs.On (x.layout ps) ((x.appendPostings docCount ps).1.freqOut ++ more) (y.seek (some ti)) := by
  rw [appendPostings_spec h] at hti hfile hlength ⊢
  have hskips : x.skipInterval ≤ ps.length → ti.freqPointer + ti.skipOffset = x.freqOut.length + (freqBytes 0 ps).length :=
    fun hfew => congrArg₂ _ hti.freqPointer (hti.skipOffset hfew)
  refine ⟨⟨⟨h.interval, h.ok, h.freq_lt, h.prox_lt, hlength⟩, ?_, ⟨(x.layout ps).skipBytes x.maxSkipLevels ++ more, h.ok, ?_⟩,
    fun hfew => ⟨more, ?_⟩⟩, ⟨hfile, hti.docFreq, Nat.zero_le _, rfl, hti.freqPointer⟩, hinterval, hti.freqPointer,
      hti.proxPointer,
    fun r hr => absurd hr (by simp [SegmentTermDocs.seek])⟩
  · show 0 < y.maxSkipLevels
    rw [hlevels]
    exact h.levels
  · show (x.freqOut ++ freqBytes 0 ps ++ (x.layout ps).skipBytes x.maxSkipLevels ++ more).drop x.freqOut.length = _
    simp only [List.append_assoc]
    exact List.drop_left
  · show (x.freqOut ++ freqBytes 0 ps ++ _ ++ more).drop (ti.freqPointer + ti.skipOffset) =
        (x.layout ps).skipBytes y.maxSkipLevels ++ more
    rw [hskips hfew, hlevels, ← List.length_append, List.append_assoc (x.freqOut ++ _)]
    exact List.drop_left

open Feed in
/-- **From bytes to documents**: whatever is asked of the postings of a term, in whatever order, they answer as
the list of the documents that are not deleted. -/
theorem appendPostings_answers {more : List UInt8} (h : x.Takes docCount ps)
    (hfile : ((x.appendPostings docCount ps).1.freqOut ++ more).length < 2 ^ 63) (pos : ℕ) (deletedDocs : ℕ → Bool)
    (calls : List Call) :
    Answers True (SegmentTermDocs.liveDocs deletedDocs ps) calls
      (answers ((SegmentTermDocs.new ⟨(x.appendPostings docCount ps).1.freqOut ++ more, pos⟩ deletedDocs x.skipInterval
        x.maxSkipLevels).seek (some (x.appendPostings docCount ps).2)) calls) := by
  refine Feeds.answers ?_
  exact SegmentTermDocs.feeds (on_seek (y := .new ⟨_, pos⟩ deletedDocs x.skipInterval x.maxSkipLevels) h
    ⟨rfl, rfl, rfl, fun _ => rfl⟩ rfl hfile rfl rfl)

open Feed in
theorem appendPostings_answers_three :
    let x : PostingsFiles := ⟨[7], [], 2, 2⟩
    let ps : List Posting := [⟨0, [1]⟩, ⟨2, [0, 3]⟩, ⟨5, [1]⟩]
    Answers True (SegmentTermDocs.liveDocs (· = 2) ps) [.next, .skipTo 1, .next]
      (answers ((SegmentTermDocs.new ⟨(x.appendPostings 6 ps).1.freqOut ++ [7], 0⟩ (· = 2) 2 2).seek
        (some (x.appendPostings 6 ps).2))
        [.next, .skipTo 1, .next]) :=
  appendPostings_answers ⟨by decide, by decide, ⟨by decide, by decide, by decide⟩, by decide, by decide, by decide⟩
    (by decide) 0 _ _

end PostingsFiles

end QDesktopSearch
