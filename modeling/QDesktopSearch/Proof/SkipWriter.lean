import QDesktopSearch.Proof.Postings

/-!
# Skip lists, as they are written

A `SkipLayout` says what the skip list of a term has on each level: an entry for every so many
postings, with the document and the pointers before them, and from the second level on with where
the entry below it ends.

* `bufferSkip_spec`: the writer adds the entries of one posting.
* `add_spec`, `foldl_add_spec`: so the buffers hold the entries of all postings.
* `writeSkip_eq`: the bytes in the file.
-/

namespace QDesktopSearch

open ByteInput

/-- What is known before a posting: the document before it, and the ends of the files. -/
structure SkipMark where
  doc : ℕ
  freqPointer : ℕ
  proxPointer : ℕ
  deriving DecidableEq

/-- The postings of a term, and how they are laid out. -/
structure SkipLayout where
  ps : List Posting
  interval : ℕ
  freqBase : ℕ
  proxBase : ℕ

/-- The postings in the file of positions. -/
def proxBytes (ps : List Posting) : List UInt8 := ps.flatMap fun p => PostingsWriter.writePositions 0 p.positions

namespace SkipLayout

variable (L : SkipLayout)

/-- After so many postings. -/
def mark (d : ℕ) : SkipMark :=
  ⟨lastDocOf 0 (L.ps.take d), L.freqBase + (freqBytes 0 (L.ps.take d)).length, L.proxBase + (proxBytes (L.ps.take d)).length⟩

/-- The entries of a level, from 1 on; 0 stands for the start. -/
def entry (level k : ℕ) : SkipMark := L.mark (k * L.interval ^ (level + 1) - 1)

/-- How many entries a level has. -/
def entries (level : ℕ) : ℕ := L.ps.length / L.interval ^ (level + 1)

def skipData (level k : ℕ) : List UInt8 :=
  writeVInt ((L.entry level k).doc - (L.entry level (k - 1)).doc) ++
    writeVInt ((L.entry level k).freqPointer - (L.entry level (k - 1)).freqPointer) ++
    writeVInt ((L.entry level k).proxPointer - (L.entry level (k - 1)).proxPointer)

/-- The first entries of a level, with what follows each of them. -/
def levelBytes (child : ℕ → List UInt8) (level : ℕ) : ℕ → List UInt8
  | 0 => []
  | k + 1 => levelBytes child level k ++ L.skipData level (k + 1) ++ child (k + 1)

/-- The child pointer of an entry: where the data of the entry below ends. -/
def child : ℕ → ℕ → List UInt8
  | 0, _ => []
  | level + 1, k => writeVLong ((L.levelBytes (child level) level (k * L.interval - 1)).length +
      (L.skipData level (k * L.interval)).length)

/-- The first entries of a level. -/
def buffer (level k : ℕ) : List UInt8 := L.levelBytes (L.child level) level k

/-- Where the data of an entry ends. -/
def dataEnd (level k : ℕ) : ℕ := (L.buffer level (k - 1)).length + (L.skipData level k).length

@[simp] theorem buffer_zero {level : ℕ} : L.buffer level 0 = [] := rfl

theorem buffer_succ {level k : ℕ} :
    L.buffer level (k + 1) = L.buffer level k ++ L.skipData level (k + 1) ++ L.child level (k + 1) := rfl

@[simp] theorem child_zero {k : ℕ} : L.child 0 k = [] := rfl

theorem child_succ {level k : ℕ} : L.child (level + 1) k = writeVLong (L.dataEnd level (k * L.interval)) := rfl

@[simp] theorem entry_zero {level : ℕ} : L.entry level 0 = L.mark 0 := by rw [entry, Nat.zero_mul, Nat.zero_sub]

theorem mark_zero : L.mark 0 = ⟨0, L.freqBase, L.proxBase⟩ := rfl

/-- An entry stands above one of the level below. -/
theorem entry_succ {level k : ℕ} : L.entry (level + 1) k = L.entry level (k * L.interval) := by
  rw [entry, entry, Nat.mul_assoc, ← pow_succ']

end SkipLayout

namespace DefaultSkipListWriter

variable {L : SkipLayout} {w : DefaultSkipListWriter} {level levels d n : ℕ}

/-- The level holds so many entries. -/
structure LevelAt (L : SkipLayout) (w : DefaultSkipListWriter) (level k : ℕ) : Prop where
  buffer : w.skipBuffer level = L.buffer level k
  doc : w.lastSkipDoc level = (L.entry level k).doc
  freqPointer : w.lastSkipFreqPointer level = (L.entry level k).freqPointer
  proxPointer : w.lastSkipProxPointer level = (L.entry level k).proxPointer

/-- The data of an entry have been set. -/
structure Current (L : SkipLayout) (w : DefaultSkipListWriter) (d : ℕ) : Prop where
  doc : w.curDoc = (L.mark d).doc
  freqPointer : w.curFreqPointer = (L.mark d).freqPointer
  proxPointer : w.curProxPointer = (L.mark d).proxPointer

/-- How many levels have an entry before the `d`th posting. -/
theorem lt_numLevels {I : ℕ} (hI : 0 < I) : level < numLevels I levels d ↔ level < levels ∧ I ^ (level + 1) ∣ d := by
  induction levels generalizing level d with
  | zero => simp [numLevels]
  | succ levels ih =>
    unfold numLevels
    by_cases hmod : d % I = 0
    · rw [if_pos hmod]
      obtain ⟨e, rfl⟩ := Nat.dvd_of_mod_eq_zero hmod
      obtain _ | level := level
      · simp
      · rw [Nat.succ_lt_succ_iff, ih, Nat.succ_lt_succ_iff, Nat.mul_div_cancel_left _ hI, pow_succ' I (level + 1),
          Nat.mul_dvd_mul_iff_left hI]
    · rw [if_neg hmod]
      refine iff_of_false (Nat.not_lt_zero _) fun ⟨_, hdvd⟩ => hmod (Nat.mod_eq_zero_of_dvd ?_)
      exact (dvd_pow_self I (Nat.succ_ne_zero level)).trans hdvd

/-- **One level**: the entry is added, with the pointer to the level below. -/
theorem writeLevel_spec {k childPointer : ℕ} (h : LevelAt L w level k) (hcur : Current L w d)
    (hd : (k + 1) * L.interval ^ (level + 1) = d + 1)
    (hchild : level ≠ 0 → childPointer = L.dataEnd (level - 1) ((k + 1) * L.interval)) :
    let v := w.writeSkipData level
    let u := if level ≠ 0 then
        { v with skipBuffer := Function.update v.skipBuffer level (v.skipBuffer level ++ writeVLong childPointer) }
      else v
    (v.skipBuffer level).length = L.dataEnd level (k + 1) ∧ LevelAt L u level (k + 1) ∧ Current L u d ∧
      (∀ other, other ≠ level → ∀ j, LevelAt L w other j → LevelAt L u other j) ∧ u.skipInterval = w.skipInterval ∧
      u.numberOfSkipLevels = w.numberOfSkipLevels := by
  have hentry : L.entry level (k + 1) = L.mark d := by rw [SkipLayout.entry, hd, Nat.add_sub_cancel]
  have hdata : w.skipBuffer level ++ writeVInt (w.curDoc - w.lastSkipDoc level) ++
      writeVInt (w.curFreqPointer - w.lastSkipFreqPointer level) ++ writeVInt (w.curProxPointer - w.lastSkipProxPointer level) =
      L.buffer level k ++ L.skipData level (k + 1) := by
    rw [h.buffer, h.doc, h.freqPointer, h.proxPointer, hcur.doc, hcur.freqPointer, hcur.proxPointer, SkipLayout.skipData,
      Nat.add_sub_cancel, hentry]
    simp only [List.append_assoc]
  have hbuffer : (w.writeSkipData level).skipBuffer level = L.buffer level k ++ L.skipData level (k + 1) := by
    rw [← hdata]
    exact Function.update_self _ _ _
  dsimp only
  rw [hbuffer]
  refine ⟨by rw [List.length_append, SkipLayout.dataEnd, Nat.add_sub_cancel], ?_⟩
  obtain _ | level := level
  · rw [if_neg (by simp)]
    refine ⟨⟨?_, ?_, ?_, ?_⟩, ⟨hcur.doc, hcur.freqPointer, hcur.proxPointer⟩, fun other hne j hother => ?_, rfl, rfl⟩
    · rw [hbuffer, SkipLayout.buffer_succ, SkipLayout.child_zero, List.append_nil]
    · rw [hentry, ← hcur.doc]
      simp [writeSkipData]
    · rw [hentry, ← hcur.freqPointer]
      simp [writeSkipData]
    · rw [hentry, ← hcur.proxPointer]
      simp [writeSkipData]
    · refine ⟨?_, ?_, ?_, ?_⟩
      · rw [← hother.buffer]
        simp [writeSkipData, hne]
      · rw [← hother.doc]
        simp [writeSkipData, hne]
      · rw [← hother.freqPointer]
        simp [writeSkipData, hne]
      · rw [← hother.proxPointer]
        simp [writeSkipData, hne]
  · rw [if_pos (Nat.succ_ne_zero level)]
    refine ⟨⟨?_, ?_, ?_, ?_⟩, ⟨hcur.doc, hcur.freqPointer, hcur.proxPointer⟩, fun other hne j hother => ?_, rfl, rfl⟩
    · rw [SkipLayout.buffer_succ, SkipLayout.child_succ, hchild (Nat.succ_ne_zero level), ← hbuffer]
      simp
    · rw [hentry, ← hcur.doc]
      simp [writeSkipData]
    · rw [hentry, ← hcur.freqPointer]
      simp [writeSkipData]
    · rw [hentry, ← hcur.proxPointer]
      simp [writeSkipData]
    · refine ⟨?_, ?_, ?_, ?_⟩
      · rw [← hother.buffer]
        simp [writeSkipData, hne]
      · rw [← hother.doc]
        simp [writeSkipData, hne]
      · rw [← hother.freqPointer]
        simp [writeSkipData, hne]
      · rw [← hother.proxPointer]
        simp [writeSkipData, hne]

/-- **The second loop of `bufferSkip`**, over the levels from one on. -/
theorem bufferLevels_spec {childPointer : ℕ} {k : ℕ → ℕ} (hcur : Current L w d)
    (hk : ∀ i, level ≤ i → i < level + n → (k i + 1) * L.interval ^ (i + 1) = d + 1)
    (hlevels : ∀ i, level ≤ i → i < level + n → LevelAt L w i (k i)) (hI : 0 < L.interval)
    (hchild : 0 < n → level ≠ 0 → childPointer = L.dataEnd (level - 1) ((k level + 1) * L.interval)) :
    let u := bufferLevels n level childPointer w
    (∀ i, level ≤ i → i < level + n → LevelAt L u i (k i + 1)) ∧
      (∀ i, ¬ (level ≤ i ∧ i < level + n) → ∀ j, LevelAt L w i j → LevelAt L u i j) ∧
      u.skipInterval = w.skipInterval ∧ u.numberOfSkipLevels = w.numberOfSkipLevels := by
  induction n generalizing w level childPointer with
  | zero => exact ⟨fun i hi hlt => by omega, fun i _ j hj => hj, rfl, rfl⟩
  | succ n ih =>
    have hhere := hk level (le_refl _) (by omega)
    obtain ⟨hend, hat, hcur', hothers, hinterval, hnumber⟩ :=
      writeLevel_spec (hlevels level (le_refl _) (by omega)) hcur hhere (hchild (Nat.succ_pos n))
    have hnext : 0 < n → level + 1 ≠ 0 →
        ((w.writeSkipData level).skipBuffer level).length = L.dataEnd (level + 1 - 1) ((k (level + 1) + 1) * L.interval) := by
      intro hn _
      -- the entry above is of the same posting
      have hup := hk (level + 1) (by omega) (by omega)
      have hsame : (k (level + 1) + 1) * L.interval = k level + 1 := by
        have hpow : 0 < L.interval ^ (level + 1) := Nat.pow_pos hI
        refine Nat.eq_of_mul_eq_mul_right hpow ?_
        rw [hhere, Nat.mul_assoc, ← pow_succ', hup]
      rw [hend, hsame, Nat.add_sub_cancel]
    obtain ⟨hups, hrest, hinterval', hnumber'⟩ := ih hcur' (fun i hi hlt => hk i (by omega) (by omega))
      (fun i hi hlt => hothers i (by omega) _ (hlevels i (by omega) (by omega))) hnext
    refine ⟨fun i hi hlt => ?_, fun i hi j hj => ?_, hinterval'.trans hinterval, hnumber'.trans hnumber⟩
    · rcases Nat.eq_or_lt_of_le hi with rfl | hi
      · exact hrest _ (by omega) _ hat
      · exact hups i hi (by omega)
    · exact hrest i (by omega) j (hothers i (by omega) j hj)

/-- **`bufferSkip`** adds the entries before a posting. -/
theorem bufferSkip_spec (hI : 0 < L.interval) (hinterval : w.skipInterval = L.interval) (hcur : Current L w d)
    (hlevels : ∀ i, i < w.numberOfSkipLevels → LevelAt L w i (d / L.interval ^ (i + 1))) :
    let u := w.bufferSkip (d + 1)
    (∀ i, i < u.numberOfSkipLevels → LevelAt L u i ((d + 1) / L.interval ^ (i + 1))) ∧ u.skipInterval = L.interval ∧
      u.numberOfSkipLevels = w.numberOfSkipLevels := by
  have hwith : ∀ i, i < numLevels L.interval w.numberOfSkipLevels (d + 1) → i < w.numberOfSkipLevels ∧
      (d / L.interval ^ (i + 1) + 1) * L.interval ^ (i + 1) = d + 1 := by
    intro i hi
    obtain ⟨hlt, hdvd⟩ := (lt_numLevels hI).1 hi
    refine ⟨hlt, ?_⟩
    rw [← Nat.succ_div_of_dvd hdvd]
    exact Nat.div_mul_cancel hdvd
  obtain ⟨hups, hrest, hinterval', hnumber⟩ := bufferLevels_spec (n := numLevels L.interval w.numberOfSkipLevels (d + 1))
    (k := fun i => d / L.interval ^ (i + 1)) hcur (fun i _ hi => (hwith i (by omega)).2)
    (fun i _ hi => hlevels i (hwith i (by omega)).1) hI (fun _ h => absurd rfl h)
  unfold bufferSkip
  rw [hinterval]
  dsimp only at hups hrest hinterval' hnumber ⊢
  refine ⟨fun i hi => ?_, hinterval'.trans hinterval, hnumber⟩
  rw [hnumber] at hi
  by_cases hdvd : L.interval ^ (i + 1) ∣ d + 1
  · rw [Nat.succ_div_of_dvd hdvd]
    exact hups i (Nat.zero_le _) (by rw [Nat.zero_add]; exact (lt_numLevels hI).2 ⟨hi, hdvd⟩)
  · rw [Nat.succ_div_of_not_dvd hdvd]
    refine hrest i (fun ⟨_, hlt⟩ => hdvd ((lt_numLevels hI).1 (by rwa [Nat.zero_add] at hlt)).2) _ (hlevels i hi)

end DefaultSkipListWriter

/-! ## The postings of a term -/

namespace PostingsWriter

variable {L : SkipLayout} {w : PostingsWriter} {freqOut proxOut : List UInt8} {levels d : ℕ} {p : Posting}

/-- After the first postings. -/
structure At (L : SkipLayout) (freqOut proxOut : List UInt8) (levels : ℕ) (w : PostingsWriter) (d : ℕ) : Prop where
  freq : w.freqOut = freqOut ++ freqBytes 0 (L.ps.take d)
  prox : w.proxOut = proxOut ++ proxBytes (L.ps.take d)
  df : w.df = d
  lastDoc : w.lastDoc = lastDocOf 0 (L.ps.take d)
  interval : w.skipListWriter.skipInterval = L.interval
  number : w.skipListWriter.numberOfSkipLevels = levels
  levels : ∀ i, i < levels → DefaultSkipListWriter.LevelAt L w.skipListWriter i (d / L.interval ^ (i + 1))

theorem at_start (hfreq : freqOut.length = L.freqBase) (hprox : proxOut.length = L.proxBase) :
    At L freqOut proxOut levels (start freqOut proxOut L.interval levels) 0 := by
  refine ⟨(List.append_nil _).symm, (List.append_nil _).symm, rfl, rfl, rfl, rfl, fun i hi => ?_⟩
  rw [Nat.zero_div]
  refine ⟨rfl, ?_, ?_, ?_⟩
  · rw [SkipLayout.entry_zero]
    rfl
  · rw [SkipLayout.entry_zero, SkipLayout.mark_zero]
    exact hfreq
  · rw [SkipLayout.entry_zero, SkipLayout.mark_zero]
    exact hprox

/-- **One posting is written**, with the entries before it. -/
theorem add_spec (hfreq : freqOut.length = L.freqBase) (hprox : proxOut.length = L.proxBase) (hI : 0 < L.interval)
    (h : At L freqOut proxOut levels w d) (hget : L.ps[d]? = some p) : At L freqOut proxOut levels (w.add p) (d + 1) := by
  obtain ⟨-, htake⟩ := SegmentTermDocs.drop_of_get hget
  have hwritten : DefaultSkipListWriter.Current L
      (w.skipListWriter.setSkipData w.lastDoc w.freqOut.length w.proxOut.length) d := by
    refine ⟨h.lastDoc, ?_, ?_⟩
    · show w.freqOut.length = _
      rw [h.freq, List.length_append, hfreq]
      rfl
    · show w.proxOut.length = _
      rw [h.prox, List.length_append, hprox]
      rfl
  have hset : ∀ i, i < w.skipListWriter.numberOfSkipLevels → DefaultSkipListWriter.LevelAt L
      (w.skipListWriter.setSkipData w.lastDoc w.freqOut.length w.proxOut.length) i (d / L.interval ^ (i + 1)) := by
    intro i hi
    have hlevel := h.levels i (by rw [← h.number]; exact hi)
    exact ⟨hlevel.buffer, hlevel.doc, hlevel.freqPointer, hlevel.proxPointer⟩
  obtain ⟨hlevels, hinterval, hnumber⟩ := DefaultSkipListWriter.bufferSkip_spec
    (w := w.skipListWriter.setSkipData w.lastDoc w.freqOut.length w.proxOut.length) hI h.interval hwritten hset
  refine ⟨?_, ?_, ?_, ?_, ?_, ?_, fun i hi => ?_⟩
  · show w.freqOut ++ writeDoc w.lastDoc p = _
    rw [htake, freqBytes_append, freqBytes_singleton, h.freq, h.lastDoc, List.append_assoc]
  · show w.proxOut ++ writePositions 0 p.positions = _
    rw [htake, proxBytes, List.flatMap_append, ← proxBytes, h.prox, List.append_assoc, List.flatMap_singleton]
  · show w.df + 1 = _
    rw [h.df]
  · show p.doc = _
    rw [htake, lastDocOf_concat]
  · unfold add
    dsimp only
    split
    · rw [h.df]
      exact hinterval
    · exact h.interval
  · unfold add
    dsimp only
    split
    · rw [h.df]
      exact hnumber.trans h.number
    · exact h.number
  · unfold add
    dsimp only
    rw [h.df, h.interval]
    by_cases hmod : (d + 1) % L.interval = 0
    · rw [if_pos hmod]
      exact hlevels i (by rw [hnumber]; show i < w.skipListWriter.numberOfSkipLevels; rw [h.number]; exact hi)
    · rw [if_neg hmod]
      -- no level has an entry before this posting
      have hnot : ¬ L.interval ^ (i + 1) ∣ d + 1 := fun hdvd =>
        hmod (Nat.mod_eq_zero_of_dvd ((dvd_pow_self _ (Nat.succ_ne_zero i)).trans hdvd))
      rw [Nat.succ_div_of_not_dvd hnot]
      exact h.levels i hi

/-- **All postings are written.** -/
theorem foldl_add_spec (levels : ℕ) (hfreq : freqOut.length = L.freqBase) (hprox : proxOut.length = L.proxBase)
    (hI : 0 < L.interval) :
    At L freqOut proxOut levels (L.ps.foldl add (start freqOut proxOut L.interval levels)) L.ps.length := by
  -- by induction on how many postings have been written
  have hrun : ∀ d, d ≤ L.ps.length →
      At L freqOut proxOut levels ((L.ps.take d).foldl add (start freqOut proxOut L.interval levels)) d := by
    intro d
    induction d with
    | zero => exact fun _ => at_start hfreq hprox
    | succ d ih =>
      intro hd
      have hget : L.ps[d]? = some L.ps[d] := List.getElem?_eq_getElem hd
      rw [(SegmentTermDocs.drop_of_get hget).2, List.foldl_append]
      exact add_spec hfreq hprox hI (ih (by omega)) hget
  have hall := hrun L.ps.length (le_refl _)
  rwa [List.take_length] at hall

end PostingsWriter

/-! ## The bytes in the file -/

namespace SkipLayout

variable (L : SkipLayout)

/-- The levels above the lowest, from a level down, each behind its length. -/
def upperBytes : ℕ → List UInt8
  | 0 => []
  | level + 1 => writeVLong (L.buffer (level + 1) (L.entries (level + 1))).length ++
      L.buffer (level + 1) (L.entries (level + 1)) ++ upperBytes level

/-- The skip list in the file. -/
def skipBytes (maxSkipLevels : ℕ) : List UInt8 :=
  let levels := skipLevels L.interval maxSkipLevels L.ps.length
  if levels = 0 then [] else L.upperBytes (levels - 1) ++ L.buffer 0 (L.entries 0)

variable {L}

/-- A level of the reader has an entry, and a higher one has none. -/
theorem entries_pos_iff {maxSkipLevels level : ℕ} (hI : 1 < L.interval) (hlevel : level < maxSkipLevels) :
    0 < L.entries level ↔ level < skipLevels L.interval maxSkipLevels L.ps.length := by
  rw [skipLevels, entries, Nat.div_pos_iff, lt_min_iff]
  constructor
  · rintro ⟨-, hle⟩
    have hpos : L.ps.length ≠ 0 := by
      have := Nat.pow_pos (n := level + 1) (by omega : 0 < L.interval)
      omega
    exact ⟨Nat.le_log_of_pow_le hI hle, hlevel⟩
  · rintro ⟨hlt, -⟩
    have hpos : L.ps.length ≠ 0 := by
      intro hzero
      rw [hzero, Nat.log_zero_right] at hlt
      omega
    exact ⟨Nat.pow_pos (by omega), Nat.pow_le_of_le_log hpos hlt⟩

theorem buffer_ne_nil {level k : ℕ} (hk : 0 < k) : L.buffer level k ≠ [] := by
  obtain ⟨k, rfl⟩ := Nat.exists_eq_succ_of_ne_zero hk.ne'
  rw [buffer_succ, skipData, writeVInt]
  simp [varInt_ne_nil]

end SkipLayout

/-- **The bytes of the skip list**: the writer may have more levels, which are empty. -/
theorem writeSkip_eq {L : SkipLayout} {w : DefaultSkipListWriter} {docCount maxSkipLevels : ℕ} (hI : 1 < L.interval)
    (hcount : L.ps.length ≤ docCount) (hnumber : w.numberOfSkipLevels = skipLevels L.interval maxSkipLevels docCount)
    (hlevels : ∀ i, i < w.numberOfSkipLevels → w.skipBuffer i = L.buffer i (L.entries i)) :
    w.writeSkip = L.skipBytes maxSkipLevels := by
  set levels := skipLevels L.interval maxSkipLevels L.ps.length with hlevelsEq
  have hle : levels ≤ w.numberOfSkipLevels := by
    rw [hnumber, hlevelsEq, skipLevels, skipLevels]
    exact min_le_min_right _ (Nat.log_mono_right hcount)
  have hmax : w.numberOfSkipLevels ≤ maxSkipLevels := by
    rw [hnumber, skipLevels]
    exact min_le_right _ _
  -- the levels that the reader has not are empty
  have hempty : ∀ i, levels ≤ i → i < w.numberOfSkipLevels → w.skipBuffer i = [] := by
    intro i hi hlt
    have hzero : L.entries i = 0 := by
      by_contra hne
      have hpos := (SkipLayout.entries_pos_iff hI (lt_of_lt_of_le hlt hmax)).1 (Nat.pos_of_ne_zero hne)
      omega
    rw [hlevels i hlt, hzero, SkipLayout.buffer_zero]
  have hupper : ∀ n, n < w.numberOfSkipLevels →
      DefaultSkipListWriter.upperLevels w.skipBuffer n = L.upperBytes (min n (levels - 1)) := by
    intro n
    induction n with
    | zero => intro _; rw [Nat.zero_min]; rfl
    | succ n ih =>
      intro hn
      rw [DefaultSkipListWriter.upperLevels, ih (by omega)]
      by_cases hlt : n + 1 < levels
      · have hpos := (SkipLayout.entries_pos_iff hI (lt_of_lt_of_le hn hmax)).2 hlt
        rw [hlevels _ hn, if_pos (List.length_pos_iff.2 (SkipLayout.buffer_ne_nil hpos)), min_eq_left (by omega),
          min_eq_left (by omega), SkipLayout.upperBytes]
      · rw [hempty _ (by omega) hn, if_neg (by simp), List.nil_append, min_eq_right (by omega), min_eq_right (by omega)]
  unfold DefaultSkipListWriter.writeSkip SkipLayout.skipBytes
  rw [← hlevelsEq]
  dsimp only
  by_cases hnone : w.numberOfSkipLevels = 0
  · rw [if_pos hnone, if_pos (by omega)]
  rw [if_neg hnone, hupper _ (by omega)]
  by_cases hzero : levels = 0
  · rw [if_pos hzero, hempty 0 (by omega) (by omega), hzero, Nat.zero_sub, Nat.min_zero]
    rfl
  · rw [if_neg hzero, min_eq_right (by omega), hlevels 0 (by omega)]

end QDesktopSearch
