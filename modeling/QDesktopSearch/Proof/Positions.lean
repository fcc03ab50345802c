import QDesktopSearch.Model.Positions
import QDesktopSearch.Proof.TermDocs

/-!
# The positions of a term, as they are read

* `nextPosition_spec`: a position is found behind all that has been passed before it was asked for.
* `next_spec`, `skipTo_spec`: what is passed is accounted for.
* `SegmentTermPositions.closed`: so the documents are given with their positions.
-/

namespace QDesktopSearch

open ByteInput

/-! ## Distances -/

/-- The distances of the positions, from one on. -/
def deltasFrom : ℕ → List ℕ → List ℕ
  | _, [] => []
  | last, p :: ps => (p - last) :: deltasFrom p ps

@[simp] theorem deltasFrom_length {last : ℕ} {ps : List ℕ} : (deltasFrom last ps).length = ps.length := by
  induction ps generalizing last with
  | nil => rfl
  | cons p ps ih => rw [deltasFrom, List.length_cons, ih, List.length_cons]

theorem writePositions_eq {last : ℕ} {ps : List ℕ} :
    PostingsWriter.writePositions last ps = (deltasFrom last ps).flatMap writeVInt := by
  induction ps generalizing last with
  | nil => rfl
  | cons p ps ih => rw [PostingsWriter.writePositions, ih, deltasFrom, List.flatMap_cons]

/-- The distances of all positions of some documents. -/
def allDeltas (ps : List Posting) : List ℕ := ps.flatMap fun p => deltasFrom 0 p.positions

theorem proxBytes_eq {ps : List Posting} : proxBytes ps = (allDeltas ps).flatMap writeVInt := by
  rw [proxBytes, allDeltas, List.flatMap_assoc]
  exact congrArg (ps.flatMap ·) (funext fun p => writePositions_eq)

/-- The positions of each document go up, and fit. -/
def PositionsOK (ps : List Posting) : Prop := ∀ p ∈ ps, p.positions.Pairwise (· ≤ ·) ∧ ∀ q ∈ p.positions, q < 2 ^ 31

/-- Any number is read, if it is cut off. -/
theorem reads_readVInt_mod {i : ℕ} : Reads readVInt (writeVInt i) (i % 2 ^ 32) := by
  have hreads := (reads_varInt (i := i % 2 ^ 32)).map (f := (· % 2 ^ 32))
  rwa [Nat.mod_mod] at hreads

/-! ## Skipping -/

namespace SegmentTermPositions

variable {L : SkipLayout} {file proxFile tail bytes : List UInt8} {x y : SegmentTermPositions} {pending : List ℕ} {n levels : ℕ}
  {deletedDocs : ℕ → Bool} {target : ℤ}

/-- What is skipped lies behind. -/
theorem skipPositions_spec {skipped : List ℕ} {s : ByteInput} (h : s.rest = skipped.flatMap writeVInt ++ bytes) :
    (skipPositions skipped.length s).rest = bytes ∧ (skipPositions skipped.length s).file = s.file := by
  induction skipped generalizing s with
  | nil => exact ⟨h, rfl⟩
  | cons d skipped ih =>
    rw [List.flatMap_cons, List.append_assoc] at h
    rw [List.length_cons, skipPositions, reads_readVInt_mod s _ h]
    exact ih (rest_seek_add h)

/-- Where the stream stands when what is to be skipped has not been skipped. -/
def resolved (x : SegmentTermPositions) : ByteInput :=
  match x.lazySkipPointer with
  | some pointer => (x.proxStream.getD x.parent).seek pointer
  | none => x.proxStream.getD x.parent

/-- The stream stands before what is to be skipped, and that before the positions that are to come. -/
structure Prox (ps : List Posting) (tail : List UInt8) (pending : List ℕ) (x : SegmentTermPositions) : Prop where
  proxCount : x.proxCount = pending.length
  place : ∃ skipped : List ℕ, x.lazySkipProxCount = skipped.length ∧ x.resolved.rest = skipped.flatMap writeVInt ++
    ((deltasFrom x.position pending).flatMap writeVInt ++ (proxBytes (ps.drop x.toDocs.count) ++ tail))
  ascending : (x.position :: pending).Pairwise (· ≤ ·) ∨ pending = []
  fits : ∀ q ∈ pending, q < 2 ^ 31

theorem resolved_file : x.resolved.file = (x.proxStream.getD x.parent).file := by
  unfold resolved
  split <;> rfl

/-- **A position** is found behind all that has been passed before it was asked for. -/
theorem nextPosition_spec {ps : List Posting} {p : ℕ} (h : Prox ps tail (p :: pending) x) :
    x.nextPosition.1 = p ∧ Prox ps tail pending x.nextPosition.2 ∧
      (x.nextPosition.2.proxStream.getD x.nextPosition.2.parent).file = (x.proxStream.getD x.parent).file := by
  obtain ⟨skipped, hcount, hrest⟩ := h.place
  have hlazy : x.lazySkip = skipPositions skipped.length x.resolved := by
    unfold lazySkip
    rw [hcount, Int.toNat_natCast]
    rfl
  obtain ⟨hrest', hfile⟩ := skipPositions_spec hrest
  have hpairs := h.ascending.resolve_right (by simp)
  have hle : x.position ≤ p := (List.pairwise_cons.1 hpairs).1 p List.mem_cons_self
  have hlt := h.fits p List.mem_cons_self
  have hsum : x.position + (p - x.position) = p := by omega
  rw [← hlazy] at hrest' hfile
  rw [deltasFrom, List.flatMap_cons, List.append_assoc] at hrest'
  have hread := reads_readVInt (i := p - x.position) (by omega) _ _ hrest'
  unfold nextPosition
  rw [hread]
  dsimp only
  rw [hsum]
  refine ⟨rfl, ⟨?_, ⟨[], rfl, ?_⟩, .inl (List.pairwise_cons.1 hpairs).2, fun q hq => h.fits q (List.mem_cons_of_mem _ hq)⟩,
    hfile.trans resolved_file⟩
  · show x.proxCount - 1 = pending.length
    rw [h.proxCount, List.length_cons]
    omega
  · exact rest_seek_add hrest'

/-! ## The next document -/

/-- What the loop of `next` passes, and where it stops. -/
structure Passes (file : List UInt8) (base : ℕ) (ps : List Posting) (x : SegmentTermPositions) (dels : List Posting)
    (r : Bool × SegmentTermPositions) : Prop where
  stays : SegmentTermDocs.At file base ps r.2.toDocs
  same : SegmentTermDocs.Same x.toDocs r.2.toDocs
  deleted : ∀ p ∈ dels, x.toDocs.deletedDocs p.doc = true
  skips : r.2.lazySkipProxCount = x.lazySkipProxCount + (allDeltas dels).length
  stream : r.2.parent = x.parent ∧ r.2.proxStream = x.proxStream ∧ r.2.lazySkipPointer = x.lazySkipPointer ∧
    r.2.proxCount = x.proxCount ∧ r.2.position = x.position
  stops : (r.1 = false ∧ ps.drop x.toDocs.count = dels) ∨ ∃ p, r.1 = true ∧
    ps.drop x.toDocs.count = dels ++ p :: ps.drop r.2.toDocs.count ∧
    x.toDocs.deletedDocs p.doc = false ∧ r.2.toDocs._doc = p.doc ∧ r.2.toDocs._freq = p.freq

theorem allDeltas_cons {p : Posting} {ps : List Posting} : allDeltas (p :: ps) = deltasFrom 0 p.positions ++ allDeltas ps := rfl

/-- **The loop of `next`** passes the deleted documents. -/
theorem nextLoop_spec {base : ℕ} {ps : List Posting} (h : SegmentTermDocs.At file base ps x.toDocs)
    (hf : SegmentTermDocs.Holds file base ps bytes) (hn : x.toDocs.df - x.toDocs.count < n) :
    ∃ dels, Passes file base ps x dels (nextLoop n x) := by
  induction n generalizing x with
  | zero => omega
  | succ n ih =>
    unfold nextLoop
    have hdf := h.df_eq
    by_cases hend : x.toDocs.count = x.toDocs.df
    · rw [if_pos hend]
      refine ⟨[], h, .refl, fun p hp => absurd hp (by simp), (Int.add_zero _).symm, ⟨rfl, rfl, rfl, rfl, rfl⟩, .inl ⟨rfl, ?_⟩⟩
      rw [hend, hdf, List.drop_length]
    rw [if_neg hend]
    have hle := h.count_le
    have hlt : x.toDocs.count < ps.length := by omega
    obtain ⟨p, hget⟩ : ∃ p, ps[x.toDocs.count]? = some p := ⟨_, List.getElem?_eq_getElem hlt⟩
    obtain ⟨hat, hcount, hdoc, hfreq, hdf', hdeleted⟩ := SegmentTermDocs.readDoc_spec h hf hget
    have hsame := SegmentTermDocs.same_readDoc (x := x.toDocs)
    have hdrop := (SegmentTermDocs.drop_of_get hget).1
    dsimp only
    generalize x.toDocs.readDoc = docs at hat hcount hdoc hfreq hdf' hdeleted hsame ⊢
    rw [hdoc, hdeleted]
    cases hdel : x.toDocs.deletedDocs p.doc with
    | false =>
      rw [if_neg (by simp)]
      refine ⟨[], hat, hsame, fun p hp => absurd hp (by simp), (Int.add_zero _).symm, ⟨rfl, rfl, rfl, rfl, rfl⟩,
        .inr ⟨p, rfl, ?_, hdel, hdoc, hfreq⟩⟩
      dsimp only
      rw [hdrop, hcount]
      rfl
    | true =>
      rw [if_pos rfl]
      -- the deleted document comes before those that the rest of the loop passes
      obtain ⟨dels, hpasses⟩ := ih (x := { x with toDocs := docs, lazySkipProxCount := x.lazySkipProxCount + docs._freq }) hat
        (by dsimp only; omega)
      refine ⟨p :: dels, hpasses.stays, hsame.trans hpasses.same, fun q hq => ?_, ?_, hpasses.stream, ?_⟩
      · rcases List.mem_cons.1 hq with rfl | hq
        · exact hdel
        · rw [← hdeleted]
          exact hpasses.deleted q hq
      · rw [hpasses.skips, allDeltas_cons, List.length_append, deltasFrom_length, hfreq, Posting.freq]
        push_cast
        ring
      · rw [hdrop, ← hcount, ← hdeleted]
        rcases hpasses.stops with ⟨hr, hdels⟩ | ⟨q, hr, hdels, hlive, hq, hq'⟩
        · exact .inl ⟨hr, congrArg _ hdels⟩
        · exact .inr ⟨q, hr, congrArg _ hdels, hlive, hq, hq'⟩

/-- The documents that are not deleted, with their positions. -/
def occurrences (deletedDocs : ℕ → Bool) (ps : List Posting) : List (ℕ × List ℕ) :=
  (ps.filter fun p => !deletedDocs p.doc).map fun p => (p.doc, p.positions)

/-- The documents that are left, with their positions. -/
def left (ps : List Posting) (x : SegmentTermPositions) : List (ℕ × List ℕ) :=
  occurrences x.toDocs.deletedDocs (ps.drop x.toDocs.count)

/-- Deleted documents do not occur. -/
theorem occurrences_passed {deletedDocs : ℕ → Bool} {dels ps : List Posting} (h : ∀ p ∈ dels, deletedDocs p.doc = true) :
    occurrences deletedDocs (dels ++ ps) = occurrences deletedDocs ps := by
  have hnone : dels.filter (fun p => !deletedDocs p.doc) = [] := List.filter_eq_nil_iff.2 fun p hp => by simp [h p hp]
  rw [occurrences, List.filter_append, hnone, List.nil_append, occurrences]

/-- Over the files of a segment, at whatever place. -/
structure Over (file proxFile : List UInt8) (deletedDocs : ℕ → Bool) (skipInterval maxSkipLevels : ℕ)
    (x : SegmentTermPositions) :
    Prop where
  file_eq : x.toDocs.freqStream.file = file
  proxFile_eq : (x.proxStream.getD x.parent).file = proxFile
  deletedDocs_eq : x.toDocs.deletedDocs = deletedDocs
  skipInterval_eq : x.toDocs.skipInterval = skipInterval
  maxSkipLevels_eq : x.toDocs.maxSkipLevels = maxSkipLevels

theorem Over.of_same {skipInterval : ℕ} (h : Over file proxFile deletedDocs skipInterval levels x)
    (hsame : SegmentTermDocs.Same x.toDocs y.toDocs) (hfile : y.toDocs.freqStream.file = file) (hparent : y.parent = x.parent)
    (hstream : y.proxStream = x.proxStream) : Over file proxFile deletedDocs skipInterval levels y := by
  refine ⟨hfile, ?_, hsame.deletedDocs.trans h.deletedDocs_eq, hsame.skipInterval.trans h.skipInterval_eq,
    hsame.maxSkipLevels.trans h.maxSkipLevels_eq⟩
  rw [hparent, hstream]
  exact h.proxFile_eq

/-- Before some documents and positions. Where there is nothing to come, the streams may stand anywhere. -/
structure Before (L : SkipLayout) (file proxFile tail : List UInt8) (deletedDocs : ℕ → Bool) (maxSkipLevels : ℕ)
    (l : List (ℕ × List ℕ))
    (pending : List ℕ) (x : SegmentTermPositions) : Prop where
  on : SegmentTermDocs.On L file x.toDocs
  files : Over file proxFile deletedDocs L.interval maxSkipLevels x
  left_eq : l = left L.ps x
  prox : Prox L.ps tail pending x ∨ (l = [] ∧ pending = [])

/-- **`next`** goes on to the next document that is not deleted, and to its positions. -/
theorem next_spec {l : List (ℕ × List ℕ)} (hok : PositionsOK L.ps)
    (h : Before L file proxFile tail deletedDocs levels l pending x) :
    Occurrences.Moves (Before L file proxFile tail deletedDocs levels) l (Occurrences.left x) x.next := by
  obtain ⟨bytes, hholds⟩ := h.on.written.postings
  obtain ⟨dels, hpasses⟩ := nextLoop_spec (n := x.toDocs.df - x.toDocs.count + 1)
    (x := { x with lazySkipProxCount := x.lazySkipProxCount + x.proxCount }) h.on.stands hholds (Nat.lt_succ_self _)
  have hl := h.left_eq
  rw [left] at hl
  unfold next
  dsimp only at hpasses ⊢
  generalize nextLoop _ _ = r at hpasses ⊢
  have hon := h.on.of_same hpasses.same hpasses.stays
  have hover := h.files.of_same hpasses.same hon.stands.file_eq hpasses.stream.1 hpasses.stream.2.1
  have hdeleted : r.2.toDocs.deletedDocs = x.toDocs.deletedDocs := hpasses.same.deletedDocs
  rcases hpasses.stops with ⟨hr, hdels⟩ | ⟨p, hr, hdels, hlive, hdoc, hfreq⟩
  · rw [hr, if_neg (by simp)]
    refine ⟨fun h => absurd h (by simp), fun _ => ?_⟩
    dsimp only at hdels
    rw [hdels, ← List.append_nil dels, occurrences_passed hpasses.deleted] at hl
    -- the documents ahead of the place where the loop has stopped are among the deleted ones
    have hnone : left L.ps r.2 = [] := by
      have hsuffix : L.ps.drop r.2.toDocs.count <:+ dels := by
        rw [← hdels, ← Nat.add_sub_cancel' hpasses.same.count_le, ← List.drop_drop]
        exact List.drop_suffix _ _
      rw [left, hdeleted, ← List.append_nil (L.ps.drop _)]
      exact occurrences_passed fun p hp => hpasses.deleted p (hsuffix.subset hp)
    exact ⟨hl, hon, hover, hnone.symm, .inr ⟨rfl, rfl⟩⟩
  · rw [hr, if_pos rfl]
    refine ⟨fun _ => ?_, fun h => absurd h (by simp)⟩
    dsimp only at hdels
    have hmem : p ∈ L.ps := List.mem_of_mem_drop (i := x.toDocs.count) (by rw [hdels]; simp)
    have hcons : occurrences x.toDocs.deletedDocs (p :: L.ps.drop r.2.toDocs.count) =
        (p.doc, p.positions) :: left L.ps r.2 := by
      rw [occurrences, List.filter_cons_of_pos (by rw [hlive]; rfl), List.map_cons, left, hdeleted, occurrences]
    rw [hdels, occurrences_passed hpasses.deleted, hcons] at hl
    refine ⟨p.doc, p.positions, left L.ps r.2, hl, hdoc, hfreq,
      ⟨hon, ⟨hover.file_eq, hover.proxFile_eq, hover.deletedDocs_eq, hover.skipInterval_eq, hover.maxSkipLevels_eq⟩,
      rfl, .inl ?_⟩, ?_⟩
    · have hprox := h.prox.resolve_right (by rw [hl]; simp)
      obtain ⟨skipped, hcount, hrest⟩ := hprox.place
      obtain ⟨hparent, hstream, hpointer, hproxCount, -⟩ := hpasses.stream
      have hresolved : resolved { r.2 with proxCount := r.2.toDocs._freq, position := 0 } = x.resolved := by
        unfold resolved
        rw [hstream, hpointer, hparent]
      refine ⟨?_, ⟨skipped ++ (deltasFrom x.position pending ++ allDeltas dels), ?_, ?_⟩, ?_, ?_⟩
      · dsimp only
        rw [hfreq, Posting.freq]
      · dsimp only
        rw [hpasses.skips, hcount, hprox.proxCount, List.length_append, List.length_append, deltasFrom_length]
        push_cast
        ring
      · rw [hresolved, hrest, hdels, List.flatMap_append, List.flatMap_append, proxBytes_eq, proxBytes_eq]
        simp only [allDeltas, List.flatMap_append, List.flatMap_cons, List.append_assoc]
      · refine .inl (List.pairwise_cons.2 ⟨fun _ _ => Nat.zero_le _, (hok p hmem).1⟩)
      · exact (hok p hmem).2
    · have hlength := congrArg List.length hdels
      rw [List.length_append, List.length_cons, List.length_drop, List.length_drop] at hlength
      have hdf := hon.stands.df_eq
      have hdf' := h.on.stands.df_eq
      have hle := hon.stands.count_le
      show r.2.toDocs.df - r.2.toDocs.count < x.toDocs.df - x.toDocs.count
      omega

/-! ## From a target on -/

theorem Over.skipped (h : Over file proxFile deletedDocs L.interval levels x)
    (hon : SegmentTermDocs.On L file (x.toDocs.skipAhead target))
    (hdeleted : (x.toDocs.skipAhead target).deletedDocs = x.toDocs.deletedDocs)
    (hlevels : (x.toDocs.skipAhead target).maxSkipLevels = x.toDocs.maxSkipLevels)
    (hdocs : y.toDocs = x.toDocs.skipAhead target)
    (hparent : y.parent = x.parent) (hstream : y.proxStream = x.proxStream) :
    Over file proxFile deletedDocs L.interval levels y := by
  rw [← hdocs] at hon hdeleted hlevels
  refine ⟨hon.stands.file_eq, ?_, hdeleted.trans h.deletedDocs_eq, hon.skipInterval, hlevels.trans h.maxSkipLevels_eq⟩
  rw [hparent, hstream]
  exact h.proxFile_eq

/-- **The skip list** leads past documents before the target only, and to the positions of the next one. -/
theorem skipAhead_spec {l : List (ℕ × List ℕ)} (target : ℤ) (hat : proxFile.drop L.proxBase = proxBytes L.ps ++ tail)
    (h : Before L file proxFile tail deletedDocs levels l pending x) :
    ∃ l' pending', Before L file proxFile tail deletedDocs levels l' pending' (x.skipAhead target) ∧
      Feed.since target l = Feed.since target l' ∧ Occurrences.left (x.skipAhead target) ≤ Occurrences.left x := by
  obtain ⟨hon, hdeleted, hcount, -⟩ := SegmentTermDocs.skipAhead_spec target h.on
  by_cases hfew : x.toDocs.df ≥ x.toDocs.skipInterval
  swap
  · have hsame : x.skipAhead target = x := by rw [skipAhead, if_neg hfew]
    rw [hsame]
    exact ⟨l, pending, h, rfl, Nat.le_refl _⟩
  obtain ⟨-, hahead⟩ := SegmentTermDocs.readerOf_skipTo target h.on hfew
  have hdocs : x.toDocs.skipAhead target = x.toDocs.skipAhead target := rfl
  conv_rhs at hdocs => rw [SegmentTermDocs.skipAhead, if_pos hfew]
  unfold skipAhead
  rw [if_pos hfew]
  dsimp only at hdocs ⊢
  change x.toDocs.skipAhead target = if (x.toDocs.readerOf.skipTo target).1 > x.toDocs.count then _ else _ at hdocs
  rw [show x.toDocs.skipListReader.getD
    (.init x.toDocs.freqStream x.toDocs.maxSkipLevels x.toDocs.skipInterval x.toDocs.skipPointer
    x.toDocs.freqBasePointer x.toDocs.proxBasePointer x.toDocs.df) = x.toDocs.readerOf from rfl]
  by_cases hgets : (x.toDocs.readerOf.skipTo target).1 > x.toDocs.count
  · rw [if_pos hgets] at hdocs ⊢
    obtain ⟨c, hc, hle, -, -, hprox, hlt⟩ := hahead hgets
    have hdf : (x.toDocs.skipAhead target).df = x.toDocs.df := by rw [hdocs]
    have hcount' : (x.toDocs.skipAhead target).count = c := by
      rw [hdocs]
      exact hc
    have hlevels : (x.toDocs.skipAhead target).maxSkipLevels = x.toDocs.maxSkipLevels := by rw [hdocs]
    refine ⟨_, [], ⟨hon, h.files.skipped hon hdeleted hlevels rfl rfl rfl, rfl, ?_⟩, ?_, ?_⟩
    · by_cases hnone : left L.ps { x with
          toDocs := x.toDocs.skipAhead target, lazySkipPointer := some (x.toDocs.readerOf.skipTo target).2.lastProxPointer,
          lazySkipProxCount := 0, proxCount := 0 } = []
      · exact .inr ⟨hnone, rfl⟩
      have hl : l ≠ [] := by
        rintro rfl
        apply hnone
        have hleft := h.left_eq
        rw [left, occurrences, eq_comm, List.map_eq_nil_iff, List.filter_eq_nil_iff] at hleft
        rw [left, occurrences, List.map_eq_nil_iff, List.filter_eq_nil_iff]
        dsimp only
        rw [hdeleted]
        intro p hp
        rw [← Nat.add_sub_cancel' hcount, ← List.drop_drop] at hp
        exact hleft p (List.mem_of_mem_drop hp)
      have hprox' := h.prox.resolve_right fun hnil => hl hnil.1
      refine .inl ⟨rfl, ⟨[], rfl, ?_⟩, .inr rfl, fun q hq => absurd hq (by simp)⟩
      show ((x.proxStream.getD x.parent).seek _).rest = _
      dsimp only
      have hsplit : proxBytes L.ps = proxBytes (L.ps.take c) ++ proxBytes (L.ps.drop c) := by
        rw [proxBytes, proxBytes, proxBytes, ← List.flatMap_append, List.take_append_drop]
      rw [ByteInput.rest, ByteInput.seek_file, ByteInput.seek_pos, h.files.proxFile_eq, hprox, hcount', SkipLayout.mark,
        ← List.drop_drop, hat, hsplit, List.append_assoc, List.drop_left]
      rfl
    · rw [h.left_eq, left, left, occurrences, occurrences]
      dsimp only
      rw [hdeleted, hcount']
      refine SegmentTermDocs.dropWhile_live Posting.positions (by omega) fun p hp => ?_
      have hle := SegmentTermDocs.doc_le_lastDocOf h.on.written.fits.ok hp
      simp only [SkipLayout.mark] at hlt
      omega
    · show (x.toDocs.skipAhead target).df - (x.toDocs.skipAhead target).count ≤ x.toDocs.df - x.toDocs.count
      omega
  · rw [if_neg hgets] at hdocs ⊢
    have hcount' : (x.toDocs.skipAhead target).count = x.toDocs.count := by rw [hdocs]
    have hdf : (x.toDocs.skipAhead target).df = x.toDocs.df := by rw [hdocs]
    have hlevels : (x.toDocs.skipAhead target).maxSkipLevels = x.toDocs.maxSkipLevels := by rw [hdocs]
    refine ⟨l, pending, ⟨hon, h.files.skipped hon hdeleted hlevels rfl rfl rfl, ?_, h.prox.imp_left fun hprox => ?_⟩, rfl, ?_⟩
    · rw [h.left_eq, left, left, hdeleted, hcount']
    · refine ⟨hprox.proxCount, ?_, hprox.ascending, hprox.fits⟩
      dsimp only
      rw [hcount']
      exact hprox.place
    · show (x.toDocs.skipAhead target).df - (x.toDocs.skipAhead target).count ≤ x.toDocs.df - x.toDocs.count
      omega

/-- **The scan** goes on to the first document from the target on. -/
theorem scanLoop_spec {l : List (ℕ × List ℕ)} (target : ℤ) (hok : PositionsOK L.ps)
    (h : Before L file proxFile tail deletedDocs levels l pending x)
    (hn : Occurrences.left x < n) :
    Occurrences.Moves (Before L file proxFile tail deletedDocs levels) (Feed.since target l) (Occurrences.left x)
      (scanLoop target n x) := by
  induction n generalizing x l pending with
  | zero => omega
  | succ n ih =>
    unfold scanLoop
    have hnext := next_spec hok h
    generalize x.next = r at hnext ⊢
    dsimp only
    cases hr : r.1 with
    | false =>
      rw [if_pos (by simp)]
      obtain ⟨rfl, hr'⟩ := hnext.exhausted hr
      exact ⟨fun h => absurd h (by simp), fun _ => ⟨rfl, hr'⟩⟩
    | true =>
      rw [if_neg (by simp)]
      obtain ⟨d, ps, l', rfl, hd, hf, hs, hleft⟩ := hnext.found hr
      change r.2.toDocs._doc = d at hd
      rw [hd, Feed.since]
      by_cases hlt : target > d
      · rw [if_pos hlt, List.dropWhile_cons_of_pos (by simpa using hlt)]
        have hmoves := ih hs (by omega)
        refine ⟨fun hr' => ?_, hmoves.exhausted⟩
        obtain ⟨d', ps', l'', hl, hd', hf', hs', hleft'⟩ := hmoves.found hr'
        exact ⟨d', ps', l'', hl, hd', hf', hs', hleft'.trans hleft⟩
      · rw [if_neg hlt, List.dropWhile_cons_of_neg (by simpa using hlt)]
        exact ⟨fun _ => ⟨d, ps, l', rfl, hd, hf, hs, hleft⟩, fun h => absurd h (by simp)⟩

open Occurrences in
/-- **A segment gives the documents that are not deleted, with their positions.** -/
theorem closed (hok : PositionsOK L.ps) (hat : proxFile.drop L.proxBase = proxBytes L.ps ++ tail) :
    Closed (Before L file proxFile tail deletedDocs levels) := by
  refine ⟨fun h => next_spec hok h, fun {l pending s t} h => ?_, fun {l p pending s} h => ?_⟩
  · obtain ⟨l', pending', h', hsince, hleft⟩ := skipAhead_spec t hat h
    have hscan := scanLoop_spec t hok h' (Nat.lt_succ_self _)
    rw [hsince]
    refine ⟨fun hr => ?_, hscan.exhausted⟩
    obtain ⟨d, ps, l'', hl, hd, hf, hs, hlt⟩ := hscan.found hr
    exact ⟨d, ps, l'', hl, hd, hf, hs, hlt.trans_le hleft⟩
  · have hprox := h.prox.resolve_right (by simp)
    obtain ⟨hp, hprox', hfile⟩ := nextPosition_spec hprox
    exact ⟨hp, ⟨h.on, ⟨h.files.file_eq, hfile.trans h.files.proxFile_eq, h.files.deletedDocs_eq, h.files.skipInterval_eq,
      h.files.maxSkipLevels_eq⟩, h.left_eq, .inl hprox'⟩, rfl, rfl, rfl⟩

open Occurrences in
/-- A term without postings gives nothing. -/
theorem gives_none {skipInterval : ℕ} (hpos : 0 < skipInterval) (h : x.toDocs.skipInterval = skipInterval)
    (hdf : x.toDocs.df = 0)
    (hcount : x.toDocs.count = 0) : Gives [] [] x := by
  have hnext : ∀ {y : SegmentTermPositions}, y.toDocs.df = 0 → y.toDocs.count = 0 →
      y.next = (false, { y with lazySkipProxCount := y.lazySkipProxCount + y.proxCount }) := by
    intro y hdf hcount
    unfold SegmentTermPositions.next nextLoop
    dsimp only
    rw [if_pos (hcount.trans hdf.symm)]
    rfl
  refine .of_closed (R := fun l pending y => l = [] ∧ pending = [] ∧ y.toDocs.df = 0 ∧ y.toDocs.count = 0 ∧
    y.toDocs.skipInterval = skipInterval) ⟨?_, ?_, ?_⟩ ⟨rfl, rfl, hdf, hcount, h⟩
  · rintro l pending y ⟨rfl, rfl, hdf, hcount, hinterval⟩
    rw [show Occurrences.next y = y.next from rfl, hnext hdf hcount]
    exact ⟨fun h => absurd h (by simp), fun _ => ⟨rfl, rfl, rfl, hdf, hcount, hinterval⟩⟩
  · rintro l pending y t ⟨rfl, rfl, hdf, hcount, hinterval⟩
    have hahead : y.skipAhead t = y := by rw [skipAhead, if_neg (by omega)]
    have hskip : y.skipTo t = (false, { y with lazySkipProxCount := y.lazySkipProxCount + y.proxCount }) := by
      rw [SegmentTermPositions.skipTo, hahead, scanLoop, hnext hdf hcount]
      rfl
    rw [show Occurrences.skipTo y t = y.skipTo t from rfl, hskip]
    exact ⟨fun h => absurd h (by simp), fun _ => ⟨rfl, rfl, rfl, hdf, hcount, hinterval⟩⟩
  · rintro l p pending y ⟨-, hpending, -⟩
    exact absurd hpending (by simp)

end SegmentTermPositions

/-! ## What has been written -/

namespace PostingsFiles

open SegmentTermPositions

variable {x : PostingsFiles} {docCount : ℕ} {ps : List Posting} {more moreProx : List UInt8} {deletedDocs : ℕ → Bool}
  {y : SegmentTermPositions} {ti : TermInfo}

/-- **`seek`** finds the positions that have been written, whatever is written after them. -/
theorem before_seek (h : x.Takes docCount ps) (hti : Tells x.skipInterval ti (x.appendPostings docCount ps).2)
    (hover : Over ((x.appendPostings docCount ps).1.freqOut ++ more)
      ((x.appendPostings docCount ps).1.proxOut ++ moreProx) deletedDocs
      x.skipInterval x.maxSkipLevels y)
    (hlength : ((x.appendPostings docCount ps).1.freqOut ++ more).length < 2 ^ 63) :
    Before (x.layout ps) ((x.appendPostings docCount ps).1.freqOut ++ more)
      ((x.appendPostings docCount ps).1.proxOut ++ moreProx) moreProx
      deletedDocs x.maxSkipLevels (occurrences deletedDocs ps) [] (y.seek (some ti)) := by
  have hon := on_seek h hti hover.file_eq hlength hover.skipInterval_eq hover.maxSkipLevels_eq
  refine ⟨hon, ⟨hover.file_eq, hover.proxFile_eq, hover.deletedDocs_eq, hover.skipInterval_eq, hover.maxSkipLevels_eq⟩, ?_,
    .inl ⟨rfl, ⟨[], rfl, ?_⟩, .inr rfl, fun q hq => absurd hq (by simp)⟩⟩
  · rw [SegmentTermPositions.left]
    show _ = occurrences y.toDocs.deletedDocs ps
    rw [hover.deletedDocs_eq]
  · show ((y.proxStream.getD y.parent).seek ti.proxPointer).rest = proxBytes ps ++ moreProx
    rw [ByteInput.rest, ByteInput.seek_file, ByteInput.seek_pos, hover.proxFile_eq, hti.proxPointer, appendPostings_spec h]
    dsimp only
    rw [List.append_assoc, List.drop_left]

theorem proxOut_layout (h : x.Takes docCount ps) :
    ((x.appendPostings docCount ps).1.proxOut ++ moreProx).drop (x.layout ps).proxBase =
      proxBytes (x.layout ps).ps ++ moreProx := by
  rw [appendPostings_spec h, layout]
  dsimp only
  rw [List.append_assoc, List.drop_left]

end PostingsFiles

end QDesktopSearch
