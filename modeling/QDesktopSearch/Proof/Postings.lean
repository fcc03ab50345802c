import QDesktopSearch.Model.Postings

/-!
# Postings, as they are written and read

* `readDoc_spec`: one posting is read as it was written.
* `next_spec`, `read_spec`, `scanLoop_spec`: the documents that are not deleted, one after the other,
  a buffer of them, and the next one from a target on.
-/

namespace QDesktopSearch

open ByteInput

theorem reads_readVInt {i : ℕ} (hi : i < 2 ^ 32) : Reads readVInt (writeVInt i) i := by
  have hreads := (reads_varInt (i := i % 2 ^ 32)).map (f := (· % 2 ^ 32))
  simp only [Nat.mod_eq_of_lt hi] at hreads
  rwa [writeVInt, Nat.mod_eq_of_lt hi]

theorem reads_readVLong {i : ℕ} (hi : i < 2 ^ 64) : Reads readVLong (writeVLong i) i := by
  have hreads := (reads_varInt (i := i % 2 ^ 64)).map (f := (· % 2 ^ 64))
  simp only [Nat.mod_eq_of_lt hi] at hreads
  rwa [writeVLong, Nat.mod_eq_of_lt hi]

/-! ## Lists of postings -/

/-- Postings as a segment has them: in the order of their documents, with numbers that fit. -/
structure PostingsOK (ps : List Posting) : Prop where
  ascending : ps.Pairwise fun p q => p.doc < q.doc
  doc_lt : ∀ p ∈ ps, p.doc < 2 ^ 31
  freq_lt : ∀ p ∈ ps, p.freq < 2 ^ 31

/-- The last document of some postings, after another one. -/
def lastDocOf (last : ℕ) (ps : List Posting) : ℕ := ps.foldl (fun _ p => p.doc) last

/-- The postings in the file of frequencies, after a document. -/
def freqBytes : ℕ → List Posting → List UInt8
  | _, [] => []
  | last, p :: ps => PostingsWriter.writeDoc last p ++ freqBytes p.doc ps

@[simp] theorem lastDocOf_nil {last : ℕ} : lastDocOf last [] = last := rfl

@[simp] theorem lastDocOf_cons {last : ℕ} {p : Posting} {ps : List Posting} :
    lastDocOf last (p :: ps) = lastDocOf p.doc ps := rfl

@[simp] theorem lastDocOf_concat {last : ℕ} {p : Posting} {ps : List Posting} : lastDocOf last (ps ++ [p]) = p.doc := by
  simp [lastDocOf]

theorem freqBytes_append {last : ℕ} {ps qs : List Posting} :
    freqBytes last (ps ++ qs) = freqBytes last ps ++ freqBytes (lastDocOf last ps) qs := by
  induction ps generalizing last with
  | nil => rfl
  | cons p ps ih => rw [List.cons_append, freqBytes, ih, freqBytes, lastDocOf_cons, List.append_assoc]

theorem freqBytes_singleton {last : ℕ} {p : Posting} : freqBytes last [p] = PostingsWriter.writeDoc last p := by
  rw [freqBytes, freqBytes, List.append_nil]

/-- No document comes before one that is earlier in the list. -/
theorem PostingsOK.lastDocOf_le {ps : List Posting} (h : PostingsOK ps) {k : ℕ} {p : Posting} (hp : p ∈ ps.drop k) :
    lastDocOf 0 (ps.take k) ≤ p.doc := by
  rcases List.eq_nil_or_concat' (ps.take k) with hnil | ⟨qs, q, hq⟩
  · rw [hnil]
    exact Nat.zero_le _
  · rw [hq, lastDocOf_concat]
    have hsplit := h.ascending
    rw [← List.take_append_drop k ps, List.pairwise_append] at hsplit
    exact (hsplit.2.2 q (by rw [hq]; simp) p hp).le

/-! ## One posting -/

theorem reads_posting {last : ℕ} {p : Posting} (hdoc : p.doc < 2 ^ 31) (hfreq : p.freq < 2 ^ 31) :
    Reads SegmentTermDocs.readPosting (PostingsWriter.writeDoc last p) (p.doc - last, p.freq) := by
  have hshift : (p.doc - last) <<< 1 = 2 * (p.doc - last) := by rw [Nat.shiftLeft_eq]; omega
  have hor : 2 * (p.doc - last) ||| 1 = 2 * (p.doc - last) + 1 := by
    have := or_shift (y := p.doc - last) (show 1 < 2 ^ 1 by decide)
    rw [Nat.or_comm, ← hshift, this]
    omega
  unfold PostingsWriter.writeDoc SegmentTermDocs.readPosting
  rw [hshift]
  dsimp only
  by_cases hone : p.freq = 1
  · rw [if_pos hone, hor, hone]
    have hcode : (2 * (p.doc - last) + 1) &&& 1 ≠ 0 := by rw [Nat.and_one_is_mod]; omega
    have hhalf : (2 * (p.doc - last) + 1) >>> 1 = p.doc - last := by rw [Nat.shiftRight_eq_div_pow]; omega
    have hreads := (reads_readVInt (i := 2 * (p.doc - last) + 1) (by omega)).bind
      (k := fun docCode => if docCode &&& 1 ≠ 0 then (pure (docCode >>> 1, 1) : StateM ByteInput (ℕ × ℕ))
        else do
          let freq ← readVInt
          pure (docCode >>> 1, freq))
      (b := (p.doc - last, 1)) (by rw [if_pos hcode, hhalf]; exact .pure)
    rwa [List.append_nil] at hreads
  · rw [if_neg hone]
    have hcode : ¬ (2 * (p.doc - last)) &&& 1 ≠ 0 := by rw [Nat.and_one_is_mod]; omega
    have hhalf : (2 * (p.doc - last)) >>> 1 = p.doc - last := by rw [Nat.shiftRight_eq_div_pow]; omega
    refine (reads_readVInt (i := 2 * (p.doc - last)) (by omega)).bind ?_
    rw [if_neg hcode, hhalf, ← List.append_nil (writeVInt p.freq)]
    exact (reads_readVInt (by omega)).bind .pure

/-! ## The postings of a segment -/

namespace SegmentTermDocs

/-- The file has the postings from `base` on. -/
structure Holds (file : List UInt8) (base : ℕ) (ps : List Posting) (tail : List UInt8) : Prop where
  ok : PostingsOK ps
  bytes : file.drop base = freqBytes 0 ps ++ tail

/-- After `count` postings of a term. -/
structure At (file : List UInt8) (base : ℕ) (ps : List Posting) (x : SegmentTermDocs) : Prop where
  file_eq : x.freqStream.file = file
  df_eq : x.df = ps.length
  count_le : x.count ≤ ps.length
  doc_eq : x._doc = lastDocOf 0 (ps.take x.count)
  pos_eq : x.freqStream.pos = base + (freqBytes 0 (ps.take x.count)).length

variable {file tail : List UInt8} {base : ℕ} {ps : List Posting} {x : SegmentTermDocs} {p : Posting}

/-- What lies ahead. -/
theorem At.rest (h : At file base ps x) (hf : Holds file base ps tail) :
    x.freqStream.rest = freqBytes x._doc (ps.drop x.count) ++ tail := by
  have hbytes := hf.bytes
  rw [← List.take_append_drop x.count ps, freqBytes_append, ← h.doc_eq, List.append_assoc] at hbytes
  rw [ByteInput.rest, h.file_eq, h.pos_eq, ← List.drop_drop, hbytes, List.drop_left]

theorem drop_of_get {k : ℕ} (hget : ps[k]? = some p) :
    ps.drop k = p :: ps.drop (k + 1) ∧ ps.take (k + 1) = ps.take k ++ [p] := by
  obtain ⟨hlt, rfl⟩ := List.getElem?_eq_some_iff.1 hget
  exact ⟨List.drop_eq_getElem_cons hlt, List.take_succ_eq_append_getElem hlt⟩

/-- **One posting is read as it was written.** -/
theorem readDoc_spec (h : At file base ps x) (hf : Holds file base ps tail) (hget : ps[x.count]? = some p) :
    At file base ps x.readDoc ∧ x.readDoc.count = x.count + 1 ∧ x.readDoc._doc = p.doc ∧ x.readDoc._freq = p.freq ∧
      x.readDoc.df = x.df ∧ x.readDoc.deletedDocs = x.deletedDocs := by
  obtain ⟨hdrop, htake⟩ := drop_of_get hget
  have hmem : p ∈ ps.drop x.count := by rw [hdrop]; exact List.mem_cons_self
  have hle : x._doc ≤ p.doc := by rw [h.doc_eq]; exact hf.ok.lastDocOf_le hmem
  have hrest := h.rest hf
  rw [hdrop, freqBytes, List.append_assoc] at hrest
  have hread := reads_posting (hf.ok.doc_lt p (List.mem_of_mem_drop hmem))
    (hf.ok.freq_lt p (List.mem_of_mem_drop hmem)) _ _ hrest
  rw [readDoc, hread]
  dsimp only
  have hdoc : x._doc + (p.doc - x._doc) = p.doc := by omega
  have hlt : x.count < ps.length := (List.getElem?_eq_some_iff.1 hget).1
  refine ⟨⟨h.file_eq, h.df_eq, hlt, ?_, ?_⟩, rfl, hdoc, rfl, rfl, rfl⟩
  · dsimp only
    rw [htake, lastDocOf_concat, hdoc]
  · dsimp only
    rw [htake, freqBytes_append, freqBytes_singleton, ← h.doc_eq, List.length_append, seek_pos, h.pos_eq, Nat.add_assoc]

/-- The documents that are not deleted, with their frequencies. -/
def liveDocs (deletedDocs : ℕ → Bool) (ps : List Posting) : List (ℕ × ℕ) :=
  (ps.filter fun p => !deletedDocs p.doc).map fun p => (p.doc, p.freq)

/-- The documents that are left. -/
def left (ps : List Posting) (x : SegmentTermDocs) : List (ℕ × ℕ) := liveDocs x.deletedDocs (ps.drop x.count)

theorem left_of_get (hget : ps[x.count]? = some p) :
    left ps x = (if x.deletedDocs p.doc then [] else [(p.doc, p.freq)]) ++ liveDocs x.deletedDocs (ps.drop (x.count + 1)) := by
  rw [left, (drop_of_get hget).1, liveDocs, liveDocs, List.filter_cons]
  cases x.deletedDocs p.doc <;> rfl

/-- What a call leaves of the others. -/
structure Same (x y : SegmentTermDocs) : Prop where
  deletedDocs : y.deletedDocs = x.deletedDocs
  skipInterval : y.skipInterval = x.skipInterval
  maxSkipLevels : y.maxSkipLevels = x.maxSkipLevels
  skipListReader : y.skipListReader = x.skipListReader
  freqBasePointer : y.freqBasePointer = x.freqBasePointer
  proxBasePointer : y.proxBasePointer = x.proxBasePointer
  skipPointer : y.skipPointer = x.skipPointer
  count_le : x.count ≤ y.count

theorem Same.refl : Same x x := ⟨rfl, rfl, rfl, rfl, rfl, rfl, rfl, Nat.le_refl _⟩

theorem Same.trans {y z : SegmentTermDocs} (h : Same x y) (h' : Same y z) : Same x z :=
  ⟨h'.deletedDocs.trans h.deletedDocs, h'.skipInterval.trans h.skipInterval, h'.maxSkipLevels.trans h.maxSkipLevels,
    h'.skipListReader.trans h.skipListReader, h'.freqBasePointer.trans h.freqBasePointer,
    h'.proxBasePointer.trans h.proxBasePointer, h'.skipPointer.trans h.skipPointer, h.count_le.trans h'.count_le⟩

theorem same_readDoc : Same x x.readDoc := ⟨rfl, rfl, rfl, rfl, rfl, rfl, rfl, Nat.le_succ _⟩

/-- What `next` does: it goes on to the next document, if there is one. -/
structure Next (file : List UInt8) (base : ℕ) (ps : List Posting) (x : SegmentTermDocs)
    (r : Bool × SegmentTermDocs) : Prop where
  stays : At file base ps r.2
  same : Same x r.2
  found : r.1 = true → left ps x = (r.2._doc, r.2._freq) :: left ps r.2
  exhausted : r.1 = false → left ps x = [] ∧ left ps r.2 = []

/-- **The loop of `next`** passes the deleted documents. -/
theorem nextLoop_spec {n : ℕ} (h : At file base ps x) (hf : Holds file base ps tail) (hn : x.df - x.count < n) :
    Next file base ps x (nextLoop n x) := by
  induction n generalizing x with
  | zero => omega
  | succ n ih =>
    unfold nextLoop
    by_cases hend : x.count = x.df
    · rw [if_pos hend]
      have hnone : left ps x = [] := by
        rw [left, hend, h.df_eq, List.drop_length]
        rfl
      exact ⟨h, .refl, fun h => absurd h (by simp), fun _ => ⟨hnone, hnone⟩⟩
    rw [if_neg hend]
    have hcount' := h.count_le
    have hdf' := h.df_eq
    have hlt : x.count < ps.length := by omega
    obtain ⟨p, hget⟩ : ∃ p, ps[x.count]? = some p := ⟨_, List.getElem?_eq_getElem hlt⟩
    obtain ⟨hat, hcount, hdoc, hfreq, hdf, hdeleted⟩ := readDoc_spec h hf hget
    have hsame := same_readDoc (x := x)
    have hleft := left_of_get hget
    dsimp only
    generalize x.readDoc = y at hat hcount hdoc hfreq hdf hdeleted hsame ⊢
    have hafter : left ps y = liveDocs x.deletedDocs (ps.drop (x.count + 1)) := by rw [left, hdeleted, hcount]
    rw [hdoc, hdeleted]
    cases hdel : x.deletedDocs p.doc with
    | true =>
      rw [if_pos rfl]
      rw [hdel, if_pos rfl, List.nil_append, ← hafter] at hleft
      have hnext := ih hat (by omega)
      exact ⟨hnext.stays, hsame.trans hnext.same, fun hr => hleft.trans (hnext.found hr),
        fun hr => ⟨hleft.trans (hnext.exhausted hr).1, (hnext.exhausted hr).2⟩⟩
    | false =>
      rw [if_neg (by simp)]
      rw [hdel, if_neg (by simp), ← hafter] at hleft
      exact ⟨hat, hsame, fun _ => by rw [hleft, hdoc, hfreq]; rfl, fun h => absurd h (by simp)⟩

theorem next_spec (h : At file base ps x) (hf : Holds file base ps tail) : Next file base ps x x.next :=
  nextLoop_spec h hf (Nat.lt_succ_self _)

/-- **The loop of `read`** fills the buffer with the documents that are not deleted. -/
theorem readLoop_spec {n k : ℕ} (h : At file base ps x) (hf : Holds file base ps tail) (hn : x.df - x.count < n) :
    At file base ps (readLoop n k x).2 ∧ Same x (readLoop n k x).2 ∧
      left ps x = (readLoop n k x).1 ++ left ps (readLoop n k x).2 ∧
      (readLoop n k x).1.length = min k (left ps x).length := by
  induction n generalizing x k with
  | zero => omega
  | succ n ih =>
    unfold readLoop
    by_cases hend : k = 0 ∨ x.count ≥ x.df
    · rw [if_pos hend]
      refine ⟨h, .refl, rfl, ?_⟩
      rcases hend with hzero | hend
      · rw [hzero, Nat.zero_min]
        rfl
      · rw [left, List.drop_eq_nil_of_le (by rw [← h.df_eq]; exact hend)]
        simp [liveDocs]
    rw [if_neg hend]
    have hdf' := h.df_eq
    have hlt : x.count < ps.length := by omega
    obtain ⟨p, hget⟩ : ∃ p, ps[x.count]? = some p := ⟨_, List.getElem?_eq_getElem hlt⟩
    obtain ⟨hat, hcount, hdoc, hfreq, hdf, hdeleted⟩ := readDoc_spec h hf hget
    have hsame := same_readDoc (x := x)
    have hleft := left_of_get hget
    dsimp only
    generalize x.readDoc = y at hat hcount hdoc hfreq hdf hdeleted hsame ⊢
    have hafter : left ps y = liveDocs x.deletedDocs (ps.drop (x.count + 1)) := by rw [left, hdeleted, hcount]
    rw [hdoc, hdeleted]
    cases hdel : x.deletedDocs p.doc with
    | true =>
      rw [if_pos rfl]
      rw [hdel, if_pos rfl, List.nil_append, ← hafter] at hleft
      obtain ⟨hat', hsame', hsplit, hlength⟩ := ih (k := k) hat (by omega)
      rw [hleft]
      exact ⟨hat', hsame.trans hsame', hsplit, hlength⟩
    | false =>
      rw [if_neg (by simp)]
      rw [hdel, if_neg (by simp), ← hafter] at hleft
      obtain ⟨hat', hsame', hsplit, hlength⟩ := ih (k := k - 1) hat (by omega)
      rw [hleft, hfreq]
      refine ⟨hat', hsame.trans hsame', congrArg _ hsplit, ?_⟩
      rw [List.length_cons, hlength, List.length_append, List.length_singleton]
      omega

theorem read_spec {k : ℕ} (h : At file base ps x) (hf : Holds file base ps tail) :
    At file base ps (x.read k).2 ∧ Same x (x.read k).2 ∧ left ps x = (x.read k).1 ++ left ps (x.read k).2 ∧
      (x.read k).1.length = min k (left ps x).length :=
  readLoop_spec h hf (Nat.lt_succ_self _)

/-- What `skipTo` does: it goes on to the next document from the target on, if there is one. -/
structure SkipsTo (file : List UInt8) (base : ℕ) (ps : List Posting) (target : ℤ) (l : List (ℕ × ℕ))
    (r : Bool × SegmentTermDocs) :
    Prop where
  stays : At file base ps r.2
  found : r.1 = true → l.dropWhile (fun d => (d.1 : ℤ) < target) = (r.2._doc, r.2._freq) :: left ps r.2
  exhausted : r.1 = false → l.dropWhile (fun d => (d.1 : ℤ) < target) = [] ∧ left ps r.2 = []

/-- **The scan** goes on to the first document from the target on. -/
theorem scanLoop_spec {n : ℕ} {target : ℤ} (h : At file base ps x) (hf : Holds file base ps tail)
    (hn : (left ps x).length < n) :
    SkipsTo file base ps target (left ps x) (scanLoop target n x) ∧ Same x (scanLoop target n x).2 := by
  induction n generalizing x with
  | zero => omega
  | succ n ih =>
    unfold scanLoop
    have hnext := next_spec h hf
    generalize x.next = r at hnext ⊢
    dsimp only
    cases hr : r.1 with
    | false =>
      rw [if_pos (by simp)]
      obtain ⟨hnone, hnone'⟩ := hnext.exhausted hr
      rw [hnone]
      exact ⟨⟨hnext.stays, fun h => absurd h (by simp), fun _ => ⟨rfl, hnone'⟩⟩, hnext.same⟩
    | true =>
      rw [if_neg (by simp)]
      have hleft := hnext.found hr
      rw [hleft, List.length_cons] at hn
      by_cases hlt : target > r.2._doc
      · rw [if_pos hlt]
        obtain ⟨hskips, hsame⟩ := ih hnext.stays (by omega)
        rw [hleft]
        refine ⟨⟨hskips.stays, fun hr' => ?_, fun hr' => ?_⟩, hnext.same.trans hsame⟩
        · rw [List.dropWhile_cons_of_pos (by simpa using hlt)]
          exact hskips.found hr'
        · rw [List.dropWhile_cons_of_pos (by simpa using hlt)]
          exact hskips.exhausted hr'
      · rw [if_neg hlt, hleft]
        refine ⟨⟨hnext.stays, fun _ => ?_, fun h => absurd h (by simp)⟩, hnext.same⟩
        rw [List.dropWhile_cons_of_neg (by simpa using hlt)]

theorem left_length_le (h : At file base ps x) : (left ps x).length ≤ x.df - x.count := by
  rw [left, liveDocs, List.length_map, h.df_eq, ← List.length_drop]
  exact List.length_filter_le _ _

end SegmentTermDocs

end QDesktopSearch
