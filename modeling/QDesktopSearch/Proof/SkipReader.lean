import QDesktopSearch.Proof.SkipWriter

/-!
# Skip lists, as they are read

Each level of the reader stands behind some of its entries (`SkipLayout.state`); what was read last
is the data of one entry (`SkipLayout.lastOf`).

* `loadNextSkip_spec`, `seekChild_spec`: what the steps do.
* `loadSkipLevels_spec`: at first every level stands at its start.
* `walkDown_spec`: from any level down, what is read last belongs to where the lowest level stands,
  unless that is behind the postings that have been read.
* `skipTo_spec`: so the reader gives an entry that the target is beyond.
-/

namespace QDesktopSearch

open ByteInput

/-! ## Entries -/

/-- The numbers of a skip list fit into the integers that are written. -/
structure SkipLayout.Fits (L : SkipLayout) (file : List UInt8) : Prop where
  interval : 1 < L.interval
  ok : PostingsOK L.ps
  freq_lt : (freqBytes 0 L.ps).length < 2 ^ 31
  prox_lt : (proxBytes L.ps).length < 2 ^ 31
  file_lt : file.length < 2 ^ 63

namespace SkipLayout

variable {L : SkipLayout} {file : List UInt8} {level k d e : ℕ} {sp : ℕ → ℕ}

theorem lastDocOf_mono (ok : PostingsOK L.ps) (h : d ≤ e) : lastDocOf 0 (L.ps.take d) ≤ lastDocOf 0 (L.ps.take e) := by
  induction e, h using Nat.le_induction with
  | base => exact le_rfl
  | succ e _ ih =>
    by_cases hlt : e < L.ps.length
    · have hget : L.ps[e]? = some L.ps[e] := List.getElem?_eq_getElem hlt
      obtain ⟨hdrop, htake⟩ := SegmentTermDocs.drop_of_get hget
      rw [htake, lastDocOf_concat]
      exact ih.trans (ok.lastDocOf_le (by rw [hdrop]; exact List.mem_cons_self))
    · have hsame : L.ps.take (e + 1) = L.ps.take e := by
        rw [List.take_of_length_le (by omega), List.take_of_length_le (by omega)]
      rwa [hsame]

theorem freqBytes_take_le (h : d ≤ e) : (freqBytes 0 (L.ps.take d)).length ≤ (freqBytes 0 (L.ps.take e)).length := by
  obtain ⟨rest, hrest⟩ := List.take_prefix_take_left (l := L.ps) h
  rw [← hrest, freqBytes_append, List.length_append]
  omega

theorem proxBytes_take_le (h : d ≤ e) : (proxBytes (L.ps.take d)).length ≤ (proxBytes (L.ps.take e)).length := by
  obtain ⟨rest, hrest⟩ := List.take_prefix_take_left (l := L.ps) h
  rw [← hrest, proxBytes, proxBytes, List.flatMap_append, List.length_append]
  omega

/-- The marks go on. -/
theorem mark_mono (ok : PostingsOK L.ps) (h : d ≤ e) : (L.mark d).doc ≤ (L.mark e).doc ∧
    (L.mark d).freqPointer ≤ (L.mark e).freqPointer ∧ (L.mark d).proxPointer ≤ (L.mark e).proxPointer :=
  ⟨lastDocOf_mono ok h, Nat.add_le_add_left (freqBytes_take_le h) _, Nat.add_le_add_left (proxBytes_take_le h) _⟩

theorem entry_mono (ok : PostingsOK L.ps) {j : ℕ} (h : j ≤ k) : (L.entry level j).doc ≤ (L.entry level k).doc ∧
    (L.entry level j).freqPointer ≤ (L.entry level k).freqPointer ∧
      (L.entry level j).proxPointer ≤ (L.entry level k).proxPointer :=
  mark_mono ok (Nat.sub_le_sub_right (Nat.mul_le_mul_right _ h) 1)

theorem mark_doc_lt (ok : PostingsOK L.ps) : (L.mark d).doc < 2 ^ 31 := by
  show lastDocOf 0 (L.ps.take d) < 2 ^ 31
  rcases List.eq_nil_or_concat' (L.ps.take d) with hnil | ⟨qs, q, hq⟩
  · rw [hnil]
    decide
  · rw [hq, lastDocOf_concat]
    refine ok.doc_lt q (List.mem_of_mem_take (i := d) ?_)
    rw [hq]
    simp

/-- The differences that an entry holds. -/
theorem entry_sub_lt (h : L.Fits file) {j : ℕ} : (L.entry level k).doc - (L.entry level j).doc < 2 ^ 32 ∧
    (L.entry level k).freqPointer - (L.entry level j).freqPointer < 2 ^ 32 ∧
    (L.entry level k).proxPointer - (L.entry level j).proxPointer < 2 ^ 32 := by
  have hdoc := mark_doc_lt (d := k * L.interval ^ (level + 1) - 1) h.ok
  have hfreq := freqBytes_take_le (L := L) (Nat.le_max_left (k * L.interval ^ (level + 1) - 1) L.ps.length)
  have hprox := proxBytes_take_le (L := L) (Nat.le_max_left (k * L.interval ^ (level + 1) - 1) L.ps.length)
  rw [List.take_of_length_le (Nat.le_max_right _ L.ps.length)] at hfreq hprox
  have := h.freq_lt
  have := h.prox_lt
  simp only [entry, mark] at hdoc ⊢
  omega

/-! ## The bytes of a level -/

theorem buffer_length_mono (level : ℕ) {j : ℕ} (h : j ≤ k) : (L.buffer level j).length ≤ (L.buffer level k).length := by
  induction k, h using Nat.le_induction with
  | base => exact le_rfl
  | succ k _ ih =>
    rw [buffer_succ, List.length_append, List.length_append]
    omega

/-- Behind the data of an entry is its child pointer. -/
theorem dataEnd_add_child (hk : 0 < k) : L.dataEnd level k + (L.child level k).length = (L.buffer level k).length := by
  obtain ⟨k, rfl⟩ := Nat.exists_eq_succ_of_ne_zero hk.ne'
  rw [dataEnd, buffer_succ, List.length_append, List.length_append, Nat.succ_sub_one]

theorem dataEnd_le (level : ℕ) (hk : 0 < k) : L.dataEnd level k ≤ (L.buffer level k).length := by
  rw [← dataEnd_add_child hk]
  exact Nat.le_add_right _ _

theorem dataEnd_zero (hk : 0 < k) : L.dataEnd 0 k = (L.buffer 0 k).length := by
  rw [← dataEnd_add_child hk, child_zero, List.length_nil, Nat.add_zero]

/-- The entries of a level are under those of the next. -/
theorem entries_succ_mul_le : L.entries (level + 1) * L.interval ≤ L.entries level := by
  rw [entries, entries, pow_succ L.interval (level + 1), ← Nat.div_div_eq_div_mul]
  exact Nat.div_mul_le_self _ _

theorem mul_interval_le (hk : k ≤ L.entries (level + 1)) : k * L.interval ≤ L.entries level :=
  (Nat.mul_le_mul_right _ hk).trans entries_succ_mul_le

/-- The bytes before an entry, and those from it on. -/
theorem buffer_split {j : ℕ} (h : j ≤ k) : ∃ rest, L.buffer level k = L.buffer level j ++ rest := by
  induction k, h using Nat.le_induction with
  | base => exact ⟨[], (List.append_nil _).symm⟩
  | succ k _ ih =>
    obtain ⟨rest, hrest⟩ := ih
    exact ⟨rest ++ L.skipData level (k + 1) ++ L.child level (k + 1), by rw [buffer_succ, hrest]; simp only [List.append_assoc]⟩

/-- Where the levels are in the file, the highest first. -/
structure Laid (L : SkipLayout) (file : List UInt8) (sp : ℕ → ℕ) (levels : ℕ) : Prop where
  region : ∀ level, level < levels → ∃ tail, file.drop (sp level) = L.buffer level (L.entries level) ++ tail
  above : ∀ level, level + 1 < levels → sp (level + 1) + (L.buffer (level + 1) (L.entries (level + 1))).length ≤ sp level

variable {levels : ℕ}

/-- What is ahead behind some entries of a level. -/
theorem Laid.rest (h : Laid L file sp levels) (hlevel : level < levels) (hk : k < L.entries level) :
    ∃ tail, (⟨file, sp level + (L.buffer level k).length⟩ : ByteInput).rest =
      L.skipData level (k + 1) ++ (L.child level (k + 1) ++ tail) := by
  obtain ⟨tail, htail⟩ := h.region level hlevel
  obtain ⟨rest, hrest⟩ := buffer_split (L := L) hk
  rw [hrest, buffer_succ] at htail
  refine ⟨rest ++ tail, ?_⟩
  rw [ByteInput.rest]
  dsimp only
  rw [← List.drop_drop, htail]
  simp only [List.append_assoc]
  rw [List.drop_left]

/-- What is ahead where the data of an entry end. -/
theorem Laid.rest_child (h : Laid L file sp levels) (hlevel : level < levels) (hpos : 0 < k) (hk : k ≤ L.entries level) :
    ∃ tail, (⟨file, sp level + L.dataEnd level k⟩ : ByteInput).rest = L.child level k ++ tail := by
  obtain ⟨k, rfl⟩ := Nat.exists_eq_succ_of_ne_zero hpos.ne'
  obtain ⟨tail, htail⟩ := h.rest hlevel hk
  have hseek := ByteInput.rest_seek_add htail
  refine ⟨tail, ?_⟩
  rw [← hseek, dataEnd, Nat.succ_sub_one, ← Nat.add_assoc]
  rfl

/-- A level lies in the file. -/
theorem Laid.dataEnd_lt (h : Laid L file sp levels) (hfits : L.Fits file) (hlevel : level < levels) (hpos : 0 < k)
    (hk : k ≤ L.entries level) : L.dataEnd level k < 2 ^ 64 := by
  obtain ⟨tail, htail⟩ := h.region level hlevel
  have hlength := congrArg List.length htail
  rw [List.length_drop, List.length_append] at hlength
  have hend := L.dataEnd_le level hpos
  have hmono := L.buffer_length_mono level hk
  have := hfits.file_lt
  omega

end SkipLayout

/-! ## The states of the reader -/

/-- What the reader knows about a level. -/
structure SkipLevel where
  stream : ByteInput
  numSkipped : ℕ
  doc : Option ℕ
  child : ℕ
  freqPointer : ℕ
  proxPointer : ℕ

/-- What it has read last. -/
structure LastSkip where
  doc : Option ℕ
  child : ℕ
  freqPointer : ℕ
  proxPointer : ℕ

namespace SkipLayout

variable (L : SkipLayout) (file : List UInt8) (sp : ℕ → ℕ)

/-- The child pointer that belongs to an entry; at the start there is none. -/
def childOf : ℕ → ℕ → ℕ
  | 0, _ => 0
  | level + 1, k => if k = 0 then 0 else sp level + L.dataEnd level (k * L.interval)

/-- Behind some entries; one more than there are where the level is exhausted. -/
def state (level k : ℕ) : SkipLevel :=
  let j := min k (L.entries level)
  ⟨⟨file, sp level + (L.buffer level j).length⟩, k * L.interval ^ (level + 1),
    if k ≤ L.entries level then some (L.entry level k).doc else none, L.childOf sp level j, (L.entry level j).freqPointer,
    (L.entry level j).proxPointer⟩

def lastOf (level k : ℕ) : LastSkip :=
  ⟨some (L.entry level k).doc, L.childOf sp level k, (L.entry level k).freqPointer, (L.entry level k).proxPointer⟩

end SkipLayout

namespace DefaultSkipListReader

variable {L : SkipLayout} {file : List UInt8} {sp : ℕ → ℕ} {levels i k c : ℕ} {x : DefaultSkipListReader} {target : ℤ}

def level (x : DefaultSkipListReader) (i : ℕ) : SkipLevel :=
  ⟨x.skipStream i, x.numSkipped i, x.skipDoc i, x.childPointer i, x.freqPointer i, x.proxPointer i⟩

def last (x : DefaultSkipListReader) : LastSkip := ⟨x.lastDoc, x.lastChildPointer, x.lastFreqPointer, x.lastProxPointer⟩

/-- What stays the same, once the levels are loaded. -/
structure Loaded (L : SkipLayout) (sp : ℕ → ℕ) (levels : ℕ) (x : DefaultSkipListReader) : Prop where
  docCount : x.docCount = L.ps.length
  interval : ∀ i, x.skipInterval i = L.interval ^ (i + 1)
  pointer : ∀ i, i < levels → x.skipPointer i = sp i
  number : x.numberOfSkipLevels ≤ levels
  haveSkipped : x.haveSkipped = true

/-- The entries that a level has read are less than all. -/
theorem lt_of_beyond (h : x.level i = L.state file sp i k) (hbeyond : beyond target (x.skipDoc i) = true) :
    k ≤ L.entries i ∧ ((L.entry i k).doc : ℤ) < target := by
  have hdoc : x.skipDoc i = _ := congrArg SkipLevel.doc h
  rw [hdoc, SkipLayout.state] at hbeyond
  dsimp only at hbeyond
  by_cases hk : k ≤ L.entries i
  · rw [if_pos hk] at hbeyond
    exact ⟨hk, by simpa [beyond] using hbeyond⟩
  · rw [if_neg hk] at hbeyond
    cases hbeyond

/-- **An entry is read as it was written.** -/
theorem readSkip_spec {n : ℕ} (hlaid : L.Laid file sp levels) (hfits : L.Fits file) (hi : i < levels)
    (hx : Loaded L sp levels x)
    (hk : k < L.entries i) (h : x.level i = { L.state file sp i k with numSkipped := n }) :
    (x.readSkip i).level i = { L.state file sp i (k + 1) with numSkipped := n } ∧ (x.readSkip i).last = x.last ∧
      (∀ j, j ≠ i → (x.readSkip i).level j = x.level j) ∧ Loaded L sp levels (x.readSkip i) := by
  obtain ⟨tail, htail⟩ := hlaid.rest hi hk
  obtain ⟨hdoc, hfreq, hprox⟩ := SkipLayout.entry_sub_lt (k := k + 1) (j := k) hfits
  obtain ⟨mdoc, mfreq, mprox⟩ := SkipLayout.entry_mono (L := L) hfits.ok (Nat.le_add_right k 1)
  set s : ByteInput := ⟨file, sp i + (L.buffer i k).length⟩ with hs
  have hmin : min k (L.entries i) = k := min_eq_left hk.le
  have hmin' : min (k + 1) (L.entries i) = k + 1 := min_eq_left hk
  simp only [SkipLayout.state, hmin, hmin', if_pos hk.le, if_pos (Nat.succ_le_of_lt hk), level, SkipLevel.mk.injEq] at h ⊢
  obtain ⟨hstream, hnum, hskipDoc, hchild, hfreqPointer, hproxPointer⟩ := h
  rw [← hs] at hstream
  rw [SkipLayout.skipData, Nat.add_sub_cancel] at htail
  simp only [List.append_assoc] at htail
  -- the three numbers of the entry
  have h₁ := reads_readVInt hdoc s _ htail
  have r₁ := ByteInput.rest_seek_add htail
  have h₂ := reads_readVInt hfreq _ _ r₁
  have r₂ := ByteInput.rest_seek_add r₁
  have h₃ := reads_readVInt hprox _ _ r₂
  have r₃ := ByteInput.rest_seek_add r₂
  have hend : s.pos + (writeVInt ((L.entry i (k + 1)).doc - (L.entry i k).doc)).length +
      (writeVInt ((L.entry i (k + 1)).freqPointer - (L.entry i k).freqPointer)).length +
      (writeVInt ((L.entry i (k + 1)).proxPointer - (L.entry i k).proxPointer)).length =
      sp i + L.dataEnd i (k + 1) := by
    rw [SkipLayout.dataEnd, SkipLayout.skipData, Nat.add_sub_cancel]
    simp only [List.length_append, hs]
    omega
  simp only [ByteInput.seek_pos, ByteInput.seek_seek, hend] at h₂ h₃ r₃
  have hnext : (x.skipDoc i).map (· + ((L.entry i (k + 1)).doc - (L.entry i k).doc)) = some (L.entry i (k + 1)).doc := by
    rw [hskipDoc, Option.map_some, Nat.add_sub_cancel' mdoc]
  have hnext' : x.freqPointer i + ((L.entry i (k + 1)).freqPointer - (L.entry i k).freqPointer) =
      (L.entry i (k + 1)).freqPointer := by rw [hfreqPointer, Nat.add_sub_cancel' mfreq]
  have hnext'' : x.proxPointer i + ((L.entry i (k + 1)).proxPointer - (L.entry i k).proxPointer) =
      (L.entry i (k + 1)).proxPointer := by rw [hproxPointer, Nat.add_sub_cancel' mprox]
  unfold readSkip
  rw [hstream, h₁]
  dsimp only
  rw [h₂]
  dsimp only
  rw [h₃]
  dsimp only
  rw [hnext, hnext', hnext'']
  obtain _ | i := i
  · rw [if_neg (by simp)]
    refine ⟨⟨?_, hnum, rfl, hchild, rfl, rfl⟩, rfl, fun j hj => ?_,
      ⟨hx.docCount, hx.interval, hx.pointer, hx.number, hx.haveSkipped⟩⟩
    · rw [← SkipLayout.dataEnd_zero (Nat.succ_pos k)]
      rfl
    · simp [hj]
  · have hmul : (k + 1) * L.interval ≤ L.entries i := SkipLayout.mul_interval_le (Nat.succ_le_of_lt hk)
    have hpos : 0 < (k + 1) * L.interval := Nat.mul_pos (Nat.succ_pos k) (by have := hfits.interval; omega)
    have hlt := hlaid.dataEnd_lt hfits (Nat.lt_of_succ_lt hi) hpos hmul
    rw [SkipLayout.child_succ] at r₃
    have h₄ := reads_readVLong hlt _ _ r₃
    rw [if_pos (Nat.succ_ne_zero i), h₄]
    dsimp only
    refine ⟨⟨?_, hnum, Function.update_self _ _ _, ?_, Function.update_self _ _ _, ?_⟩, rfl, fun j hj => ?_,
      ⟨hx.docCount, hx.interval, hx.pointer, hx.number, hx.haveSkipped⟩⟩
    · refine (Function.update_self _ _ _).trans ?_
      rw [← SkipLayout.dataEnd_add_child (Nat.succ_pos k), SkipLayout.child_succ, ← Nat.add_assoc]
      rfl
    · refine (Function.update_self _ _ _).trans ?_
      rw [Nat.add_sub_cancel, hx.pointer i (Nat.lt_of_succ_lt hi), SkipLayout.childOf, if_neg (Nat.succ_ne_zero k),
        Nat.add_comm]
    · exact Function.update_self _ _ _
    · simp [hj]

theorem loadNextSkip_of_gt (h : x.numSkipped i + x.skipInterval i > x.docCount) : x.loadNextSkip i = { x.setLastSkipData i with
    numSkipped := Function.update x.numSkipped i (x.numSkipped i + x.skipInterval i)
    skipDoc := Function.update x.skipDoc i none
    numberOfSkipLevels := if x.numberOfSkipLevels > i then i else x.numberOfSkipLevels } := by
  refine if_pos ?_
  show Function.update x.numSkipped i (x.numSkipped i + x.skipInterval i) i > x.docCount
  rwa [Function.update_self]

theorem loadNextSkip_of_le (h : x.numSkipped i + x.skipInterval i ≤ x.docCount) :
    x.loadNextSkip i = { x.setLastSkipData i with
      numSkipped := Function.update x.numSkipped i (x.numSkipped i + x.skipInterval i) }.readSkip i := by
  refine if_neg ?_
  show ¬ Function.update x.numSkipped i (x.numSkipped i + x.skipInterval i) i > x.docCount
  rwa [Function.update_self, not_lt]

/-- **`loadNextSkip`** goes on by one entry, or to the end of the level. -/
theorem loadNextSkip_spec (hlaid : L.Laid file sp levels) (hfits : L.Fits file) (hi : i < levels) (hx : Loaded L sp levels x)
    (hk : k ≤ L.entries i) (h : x.level i = L.state file sp i k) :
    (x.loadNextSkip i).level i = L.state file sp i (k + 1) ∧ (x.loadNextSkip i).last = L.lastOf sp i k ∧
      (∀ j, j ≠ i → (x.loadNextSkip i).level j = x.level j) ∧ Loaded L sp levels (x.loadNextSkip i) := by
  have hmin : min k (L.entries i) = k := min_eq_left hk
  have hlast : (x.setLastSkipData i).last = L.lastOf sp i k := by
    have hfields := h
    simp only [SkipLayout.state, hmin, if_pos hk, level, SkipLevel.mk.injEq] at hfields
    obtain ⟨-, -, hdoc, hchild, hfreq, hprox⟩ := hfields
    simp only [last, setLastSkipData, SkipLayout.lastOf, hdoc, hchild, hfreq, hprox]
  have hnum : x.numSkipped i = k * L.interval ^ (i + 1) := congrArg SkipLevel.numSkipped h
  have hpow : 0 < L.interval ^ (i + 1) := Nat.pow_pos (by have := hfits.interval; omega)
  have hsum : x.numSkipped i + x.skipInterval i = (k + 1) * L.interval ^ (i + 1) := by
    rw [hnum, hx.interval, Nat.add_mul, Nat.one_mul]
  by_cases hend : (k + 1) * L.interval ^ (i + 1) > L.ps.length
  · rw [loadNextSkip_of_gt (by rwa [hsum, hx.docCount]), hsum]
    have hlastEntry : k = L.entries i := by
      have hlt : L.entries i < k + 1 := by
        rw [SkipLayout.entries, Nat.div_lt_iff_lt_mul hpow]
        exact hend
      omega
    refine ⟨?_, hlast, fun j hj => ?_, ⟨hx.docCount, hx.interval, hx.pointer, ?_, hx.haveSkipped⟩⟩
    · simp only [SkipLayout.state, hmin, level, SkipLevel.mk.injEq] at h ⊢
      have hmin' : min (k + 1) (L.entries i) = k := by rw [hlastEntry]; exact min_eq_right (Nat.le_succ _)
      rw [hmin', if_neg (by omega)]
      exact ⟨h.1, Function.update_self _ _ _, Function.update_self _ _ _, h.2.2.2.1, h.2.2.2.2.1, h.2.2.2.2.2⟩
    · simp [level, setLastSkipData, hj]
    · show (if x.numberOfSkipLevels > i then i else x.numberOfSkipLevels) ≤ levels
      have := hx.number
      split <;> omega
  · rw [loadNextSkip_of_le (by rw [hsum, hx.docCount]; exact not_lt.1 hend), hsum]
    have hlt : k < L.entries i := by
      rw [SkipLayout.entries, ← Nat.succ_le_iff, Nat.le_div_iff_mul_le hpow]
      exact not_lt.1 hend
    obtain ⟨hlevel, hlast', hothers, hloaded⟩ := readSkip_spec (n := (k + 1) * L.interval ^ (i + 1))
      (x := { x.setLastSkipData i with numSkipped := Function.update x.numSkipped i ((k + 1) * L.interval ^ (i + 1)) })
      hlaid hfits hi ⟨hx.docCount, hx.interval, hx.pointer, hx.number, hx.haveSkipped⟩ hlt (by
        simp only [level, SkipLayout.state, SkipLevel.mk.injEq] at h ⊢
        exact ⟨h.1, Function.update_self _ _ _, h.2.2.1, h.2.2.2.1, h.2.2.2.2.1, h.2.2.2.2.2⟩)
    refine ⟨hlevel, hlast'.trans hlast, fun j hj => (hothers j hj).trans ?_, hloaded⟩
    simp [level, setLastSkipData, hj]

/-- **`seekChild`** brings a level to where the level above has been. -/
theorem seekChild_spec (hlaid : L.Laid file sp levels) (hfits : L.Fits file) (hi : i + 1 < levels) (hx : Loaded L sp levels x)
    (hpos : 0 < k) (hk : k ≤ L.entries (i + 1)) (hlast : x.last = L.lastOf sp (i + 1) k)
    (hup : x.numSkipped (i + 1) = (k + 1) * L.interval ^ (i + 1 + 1)) {m : ℕ} (h : x.level i = L.state file sp i m) :
    (x.seekChild i).level i = L.state file sp i (k * L.interval) ∧ (x.seekChild i).last = x.last ∧
      (∀ j, j ≠ i → (x.seekChild i).level j = x.level j) ∧ Loaded L sp levels (x.seekChild i) := by
  have hmul : k * L.interval ≤ L.entries i := SkipLayout.mul_interval_le hk
  have hpos' : 0 < k * L.interval := Nat.mul_pos hpos (by have := hfits.interval; omega)
  simp only [last, SkipLayout.lastOf, LastSkip.mk.injEq, SkipLayout.childOf, if_neg hpos.ne', SkipLayout.entry_succ] at hlast
  obtain ⟨hdoc, hchild, hfreq, hprox⟩ := hlast
  have hnum : x.numSkipped (i + 1) - x.skipInterval (i + 1) = k * L.interval * L.interval ^ (i + 1) := by
    rw [hup, hx.interval, Nat.add_mul, Nat.one_mul, Nat.add_sub_cancel, Nat.mul_assoc, ← pow_succ']
  have hfile : (x.skipStream i).file = file := congrArg (fun s => s.stream.file) h
  have hstream : (x.skipStream i).seek x.lastChildPointer = ⟨file, sp i + L.dataEnd i (k * L.interval)⟩ := by
    rw [ByteInput.seek, hfile, hchild]
  have hbelow : x.childPointer i = L.childOf sp i (min m (L.entries i)) := congrArg SkipLevel.child h
  obtain ⟨tail, htail⟩ := hlaid.rest_child (Nat.lt_of_succ_lt hi) hpos' hmul
  unfold seekChild
  dsimp only
  rw [hnum, hstream, hdoc, hfreq, hprox]
  simp only [SkipLayout.state, min_eq_left hmul, if_pos hmul, level, SkipLevel.mk.injEq]
  obtain _ | i := i
  · rw [if_neg (by simp)]
    refine ⟨⟨?_, rfl, rfl, hbelow, rfl, rfl⟩, ?_, fun j hj => ?_,
      ⟨hx.docCount, hx.interval, hx.pointer, hx.number, hx.haveSkipped⟩⟩
    · rw [← SkipLayout.dataEnd_zero hpos']
      rfl
    · simp only [last, hdoc, hfreq, hprox]
    · simp [hj]
  · have hmul' : k * L.interval * L.interval ≤ L.entries i := SkipLayout.mul_interval_le hmul
    have hpos'' : 0 < k * L.interval * L.interval := Nat.mul_pos hpos' (by have := hfits.interval; omega)
    have hlt := hlaid.dataEnd_lt hfits (by omega : i < levels) hpos'' hmul'
    rw [SkipLayout.child_succ] at htail
    have hread := reads_readVLong hlt _ _ htail
    rw [if_pos (Nat.succ_pos i), hread]
    dsimp only
    refine ⟨⟨?_, Function.update_self _ _ _, Function.update_self _ _ _, ?_, Function.update_self _ _ _,
      Function.update_self _ _ _⟩, ?_, fun j hj => ?_, ⟨hx.docCount, hx.interval, hx.pointer, hx.number, hx.haveSkipped⟩⟩
    · refine (Function.update_self _ _ _).trans ?_
      rw [← SkipLayout.dataEnd_add_child hpos', SkipLayout.child_succ, ← Nat.add_assoc]
      rfl
    · refine (Function.update_self _ _ _).trans ?_
      rw [Nat.add_sub_cancel, hx.pointer i (by omega), SkipLayout.childOf, if_neg hpos'.ne', Nat.add_comm]
    · simp only [last, hdoc, hfreq, hprox]
    · simp [hj]

/-- **The loop on one level** goes on until the target is no longer beyond; if it has read anything,
that is the data of the last entry that the target is beyond. -/
theorem loadSkips_spec {n : ℕ} (hlaid : L.Laid file sp levels) (hfits : L.Fits file) (hi : i < levels)
    (hx : Loaded L sp levels x)
    (h : x.level i = L.state file sp i k) (hn : L.entries i + 1 - k < n) :
    ∃ k', (loadSkips target i n x).level i = L.state file sp i k' ∧
      (∀ j, j ≠ i → (loadSkips target i n x).level j = x.level j) ∧ Loaded L sp levels (loadSkips target i n x) ∧
      (beyond target (x.skipDoc i) = false → loadSkips target i n x = x) ∧
      (beyond target (x.skipDoc i) = true → ∃ m, k' = m + 1 ∧ m ≤ L.entries i ∧
        (loadSkips target i n x).last = L.lastOf sp i m ∧ ((L.entry i m).doc : ℤ) < target) := by
  induction n generalizing x k with
  | zero => omega
  | succ n ih =>
    unfold loadSkips
    cases hbeyond : beyond target (x.skipDoc i) with
    | false =>
      rw [if_neg (by simp)]
      exact ⟨k, h, fun _ _ => rfl, hx, fun _ => rfl, fun h => absurd h (by simp)⟩
    | true =>
      rw [if_pos rfl]
      -- one entry is read, and the target may lie beyond it as well
      obtain ⟨hk, hdoc⟩ := lt_of_beyond h hbeyond
      obtain ⟨hlevel, hlast, hothers, hloaded⟩ := loadNextSkip_spec hlaid hfits hi hx hk h
      obtain ⟨k', hlevel', hothers', hloaded', hstop, hgo⟩ := ih hloaded hlevel (by omega)
      refine ⟨k', hlevel', fun j hj => (hothers' j hj).trans (hothers j hj), hloaded', fun h => absurd h (by simp), fun _ => ?_⟩
      cases hmore : beyond target ((x.loadNextSkip i).skipDoc i) with
      | true => exact hgo hmore
      | false =>
        rw [hstop hmore] at hlevel' ⊢
        have hnum : k' * L.interval ^ (i + 1) = (k + 1) * L.interval ^ (i + 1) :=
          congrArg SkipLevel.numSkipped (hlevel'.symm.trans hlevel)
        exact ⟨k, Nat.eq_of_mul_eq_mul_right (Nat.pow_pos (by have := hfits.interval; omega)) hnum, hk, hlast, hdoc⟩

/-- The result of `skipTo`. -/
def newCount (x : DefaultSkipListReader) : ℤ := (x.numSkipped 0 : ℤ) - x.skipInterval 0 - 1

/-- Every level stands behind some of its entries. -/
structure Stands (L : SkipLayout) (file : List UInt8) (sp : ℕ → ℕ) (levels : ℕ) (x : DefaultSkipListReader) : Prop where
  loaded : Loaded L sp levels x
  level : ∀ i, i < levels → ∃ k, x.level i = L.state file sp i k

/-- Before the walk comes down to a level: there is something to read on it, or what has been read last
lies before the levels below. -/
def Enters (sp : ℕ → ℕ) (c : ℕ) (target : ℤ) (x : DefaultSkipListReader) : ℕ → Prop
  | 0 => beyond target (x.skipDoc 0) = true ∨ x.newCount ≤ c
  | i + 1 => (beyond target (x.skipDoc (i + 1)) = true ∨ x.lastChildPointer ≤ sp i) ∧ x.newCount ≤ c

/-- What has been read last belongs to where the lowest level stands. -/
def Landed (L : SkipLayout) (c : ℕ) (target : ℤ) (x : DefaultSkipListReader) : Prop :=
  x.newCount ≤ c ∨ ∃ m, 0 < m ∧ m ≤ L.entries 0 ∧ x.newCount = (m * L.interval : ℕ) - 1 ∧
    x.lastDoc = some (L.entry 0 m).doc ∧ x.lastFreqPointer = (L.entry 0 m).freqPointer ∧
    x.lastProxPointer = (L.entry 0 m).proxPointer ∧ ((L.entry 0 m).doc : ℤ) < target

theorem newCount_congr {y : DefaultSkipListReader} (hx : Loaded L sp levels x) (hy : Loaded L sp levels y)
    (h : y.level 0 = x.level 0) : y.newCount = x.newCount := by
  have hnum : y.numSkipped 0 = x.numSkipped 0 := congrArg SkipLevel.numSkipped h
  rw [newCount, newCount, hnum, hy.interval, hx.interval]

/-- The child pointer of an entry lies before the levels below the next. -/
theorem childOf_le (hfits : L.Fits file) (hpos : 0 < k) (hk : k ≤ L.entries (i + 1)) :
    L.childOf sp (i + 1) k ≤ sp i + (L.buffer i (L.entries i)).length := by
  have hpos' : 0 < k * L.interval := Nat.mul_pos hpos (by have := hfits.interval; omega)
  have hend := L.dataEnd_le i hpos'
  have hmono := L.buffer_length_mono i (SkipLayout.mul_interval_le hk)
  rw [SkipLayout.childOf, if_neg hpos.ne']
  omega

theorem Stands.fuel (h : Stands L file sp levels x) {m : ℕ} : L.entries i + 1 - m < x.docCount + 2 := by
  have hle : L.entries i ≤ L.ps.length := Nat.div_le_self _ _
  rw [h.loaded.docCount]
  omega

/-- A level is read where the walk comes down to it. -/
theorem Stands.loadSkips (target : ℤ) (hlaid : L.Laid file sp levels) (hfits : L.Fits file) (hi : i < levels)
    (h : Stands L file sp levels x) :
    Stands L file sp levels (loadSkips target i (x.docCount + 2) x) := by
  obtain ⟨k, hk⟩ := h.level i hi
  obtain ⟨k', hlevel, hothers, hloaded, -, -⟩ := loadSkips_spec hlaid hfits hi h.loaded hk h.fuel
  refine ⟨hloaded, fun j hj => ?_⟩
  by_cases hji : j = i
  · rw [hji]
    exact ⟨k', hlevel⟩
  · rw [hothers j hji]
    exact h.level j hj

/-- **From one level down to the next.** -/
theorem descend_spec {c : ℕ} (hlaid : L.Laid file sp levels) (hfits : L.Fits file) (hi : i + 1 < levels)
    (h : Stands L file sp levels x) (he : Enters sp c target x (i + 1)) :
    let y := DefaultSkipListReader.loadSkips target (i + 1) (x.docCount + 2) x
    let z := if y.lastChildPointer > (y.skipStream i).pos then y.seekChild i else y
    Stands L file sp levels z ∧ Enters sp c target z i := by
  obtain ⟨henter, hcount⟩ := he
  have hstands := h.loadSkips target hlaid hfits hi
  obtain ⟨k, hk⟩ := h.level (i + 1) hi
  obtain ⟨k', hlevel, hothers, hloaded, hstop, hgo⟩ := loadSkips_spec hlaid hfits hi h.loaded hk h.fuel
  dsimp only
  generalize DefaultSkipListReader.loadSkips target (i + 1) (x.docCount + 2) x = y at hstands hlevel hothers hloaded hstop hgo ⊢
  have hcount' : y.newCount ≤ c := by
    rwa [newCount_congr h.loaded hloaded (hothers 0 (Nat.succ_ne_zero i).symm)]
  obtain ⟨m, hm⟩ := hstands.level i (Nat.lt_of_succ_lt hi)
  have hpos : (y.skipStream i).pos = sp i + (L.buffer i (min m (L.entries i))).length := congrArg (fun s => s.stream.pos) hm
  -- what has been read last lies before the levels below the next, or the next is sent on to it
  have hstay : y.lastChildPointer ≤ sp i + (L.buffer i (L.entries i)).length → Enters sp c target y i := by
    intro hle
    obtain _ | i := i
    · exact .inr hcount'
    · exact ⟨.inr (hle.trans (hlaid.above i (Nat.lt_of_succ_lt hi))), hcount'⟩
  cases hbeyond : beyond target (x.skipDoc (i + 1)) with
  | false =>
    rw [hstop hbeyond] at hpos hstands hstay ⊢
    have hle := henter.resolve_left (by rw [hbeyond]; simp)
    rw [if_neg (by omega)]
    exact ⟨hstands, hstay (by omega)⟩
  | true =>
    -- the last entry before the target points at one of the level below
    obtain ⟨n, rfl, hn, hlast, hdoc⟩ := hgo hbeyond
    have hchild : y.lastChildPointer = L.childOf sp (i + 1) n := congrArg LastSkip.child hlast
    by_cases hzero : n = 0
    · have hnone : y.lastChildPointer = 0 := by rw [hchild, hzero]; rfl
      rw [if_neg (by omega)]
      exact ⟨hstands, hstay (by omega)⟩
    have hn' : 0 < n := Nat.pos_of_ne_zero hzero
    by_cases hseek : y.lastChildPointer > (y.skipStream i).pos
    · rw [if_pos hseek]
      obtain ⟨hlevel', hlast', hothers', hloaded'⟩ := seekChild_spec hlaid hfits hi hloaded hn' hn hlast
        (congrArg SkipLevel.numSkipped hlevel) hm
      -- the level below stands on the document of that entry, which the target is beyond
      have hthere : beyond target ((y.seekChild i).skipDoc i) = true := by
        have hskip : (y.seekChild i).skipDoc i = _ := congrArg SkipLevel.doc hlevel'
        rw [hskip, SkipLayout.state]
        dsimp only
        rw [if_pos (SkipLayout.mul_interval_le hn), ← SkipLayout.entry_succ]
        simpa [beyond] using hdoc
      refine ⟨⟨hloaded', fun j hj => ?_⟩, ?_⟩
      · by_cases hji : j = i
        · rw [hji]
          exact ⟨_, hlevel'⟩
        · rw [hothers' j hji]
          exact hstands.level j hj
      · obtain _ | i := i
        · exact .inl hthere
        · refine ⟨.inl hthere, ?_⟩
          rwa [newCount_congr hloaded hloaded' (hothers' 0 (Nat.succ_ne_zero i).symm)]
    · rw [if_neg hseek]
      exact ⟨hstands, hstay (hchild ▸ childOf_le hfits hn' hn)⟩

/-- **The walk down**: what has been read last belongs to where the lowest level stands, unless that is
behind the postings that have been read. -/
theorem walkDown_spec {c : ℕ} (hlaid : L.Laid file sp levels) (hfits : L.Fits file) (hi : i < levels)
    (h : Stands L file sp levels x) (he : Enters sp c target x i) :
    Stands L file sp levels (walkDown target i x) ∧ Landed L c target (walkDown target i x) := by
  induction i generalizing x with
  | zero =>
    refine ⟨h.loadSkips target hlaid hfits hi, ?_⟩
    obtain ⟨k, hk⟩ := h.level 0 hi
    obtain ⟨k', hlevel, -, hloaded, hstop, hgo⟩ := loadSkips_spec hlaid hfits hi h.loaded hk h.fuel
    unfold walkDown
    generalize DefaultSkipListReader.loadSkips target 0 (x.docCount + 2) x = y at hlevel hloaded hstop hgo ⊢
    cases hbeyond : beyond target (x.skipDoc 0) with
    | false =>
      rw [hstop hbeyond]
      exact .inl (he.resolve_left (by rw [hbeyond]; simp))
    | true =>
      obtain ⟨m, rfl, hm, hlast, hdoc⟩ := hgo hbeyond
      -- it has gone one entry too far, so that the one before counts
      have hnum : y.numSkipped 0 = (m + 1) * L.interval ^ (0 + 1) := congrArg SkipLevel.numSkipped hlevel
      have hnew : y.newCount = (m * L.interval : ℕ) - 1 := by
        rw [newCount, hnum, hloaded.interval, Nat.zero_add, pow_one, Nat.add_mul, Nat.one_mul]
        omega
      by_cases hzero : m = 0
      · left
        rw [hnew, hzero, Nat.zero_mul]
        omega
      · exact .inr ⟨m, Nat.pos_of_ne_zero hzero, hm, hnew, congrArg LastSkip.doc hlast, congrArg LastSkip.freqPointer hlast,
          congrArg LastSkip.proxPointer hlast, hdoc⟩
  | succ i ih =>
    obtain ⟨hstands, henters⟩ := descend_spec hlaid hfits hi h he
    exact ih (Nat.lt_of_succ_lt hi) hstands henters

/-- **The walk up** ends on a level that has a skip for the target, or on the lowest. -/
theorem walkUp_spec (target : ℤ) {n : ℕ} (h : i = 0 ∨ beyond target (x.skipDoc i) = true) :
    walkUp x target n i ≤ i + n ∧ (walkUp x target n i = 0 ∨ beyond target (x.skipDoc (walkUp x target n i)) = true) := by
  induction n generalizing i with
  | zero => exact ⟨Nat.le_refl _, h⟩
  | succ n ih =>
    unfold walkUp
    split
    · rename_i hup
      obtain ⟨hle, hthere⟩ := ih (.inr hup)
      exact ⟨by omega, hthere⟩
    · exact ⟨Nat.le_add_right _ _, h⟩

/-! ## Loading the levels -/

/-- **The levels are found where they were written**, from a level down. -/
theorem loadLevels_spec {n p : ℕ} {tail : List UInt8} (hfits : L.Fits file) (hx : x.skipStream 0 = ⟨file, p⟩)
    (hp : file.drop p = L.upperBytes n ++ L.buffer 0 (L.entries 0) ++ tail) :
    ∃ sp st sk, loadLevels n x = { x with skipStream := st, skipPointer := sk } ∧ L.Laid file sp (n + 1) ∧ p ≤ sp n ∧
      (∀ i, i ≤ n → st i = ⟨file, sp i⟩) ∧ (∀ i, 0 < i → i ≤ n → sk i = sp i) ∧
      ∀ i, n < i → st i = x.skipStream i ∧ sk i = x.skipPointer i := by
  induction n generalizing x p with
  | zero =>
    refine ⟨fun _ => p, x.skipStream, x.skipPointer, rfl, ⟨fun i hi => ?_, fun i hi => by omega⟩, Nat.le_refl _, fun i hi => ?_,
      fun i hi hi' => by omega, fun _ _ => ⟨rfl, rfl⟩⟩
    · obtain rfl : i = 0 := by omega
      exact ⟨tail, hp⟩
    · obtain rfl : i = 0 := by omega
      exact hx
  | succ n ih =>
    rw [SkipLayout.upperBytes] at hp
    simp only [List.append_assoc] at hp
    -- the length, the level itself, and the levels below it
    set bytes := L.buffer (n + 1) (L.entries (n + 1)) with hbytes
    set rest := L.upperBytes n ++ (L.buffer 0 (L.entries 0) ++ tail) with hrest
    have hlt : bytes.length < 2 ^ 64 := by
      have hlength := congrArg List.length hp
      rw [List.length_drop, List.length_append, List.length_append] at hlength
      have := hfits.file_lt
      omega
    have hread := reads_readVLong hlt ⟨file, p⟩ (bytes ++ rest) hp
    have hlevel := ByteInput.rest_seek_add (s := ⟨file, p⟩) hp
    have hbelow := ByteInput.rest_seek_add hlevel
    set q := p + (writeVLong bytes.length).length with hq
    have hnext : file.drop (q + bytes.length) = L.upperBytes n ++ L.buffer 0 (L.entries 0) ++ tail := by
      rw [List.append_assoc]
      exact hbelow
    unfold loadLevels
    rw [hx, hread]
    dsimp only
    obtain ⟨sp, st, sk, hload, hlaid, hle, hst, hsk, hrest'⟩ := ih (x := { x with
      skipPointer := Function.update x.skipPointer (n + 1) q
      skipStream := Function.update (Function.update x.skipStream (n + 1) ⟨file, q⟩) 0 ⟨file, q + bytes.length⟩ }) rfl hnext
    obtain ⟨hst', hsk'⟩ := hrest' (n + 1) (Nat.lt_succ_self n)
    simp only [Function.update_self, Function.update_of_ne (Nat.succ_ne_zero n)] at hst' hsk'
    -- the levels below do not see the new pointer
    have hsame : ∀ i, i ≤ n → Function.update sp (n + 1) q i = sp i := fun i hi => Function.update_of_ne (by omega) _ _
    refine ⟨Function.update sp (n + 1) q, st, sk, hload, ⟨fun i hi => ?_, fun i hi => ?_⟩, ?_, fun i hi => ?_,
      fun i hpos hi => ?_, fun i hi => ?_⟩
    · by_cases hin : i ≤ n
      · rw [hsame i hin]
        exact hlaid.region i (by omega)
      · obtain rfl : i = n + 1 := by omega
        rw [Function.update_self]
        exact ⟨rest, hlevel⟩
    · rw [hsame i (by omega)]
      by_cases hin : i + 1 ≤ n
      · rw [hsame (i + 1) hin]
        exact hlaid.above i (by omega)
      · obtain rfl : i = n := by omega
        rwa [Function.update_self]
    · rw [Function.update_self]
      omega
    · by_cases hin : i ≤ n
      · rw [hsame i hin]
        exact hst i hin
      · obtain rfl : i = n + 1 := by omega
        rwa [Function.update_self]
    · by_cases hin : i ≤ n
      · rw [hsame i hin]
        exact hsk i hpos hin
      · obtain rfl : i = n + 1 := by omega
        rwa [Function.update_self]
    · obtain ⟨hst'', hsk''⟩ := hrest' i (by omega)
      dsimp only at hst'' hsk''
      rw [Function.update_of_ne (by omega), Function.update_of_ne (by omega)] at hst''
      rw [Function.update_of_ne (by omega)] at hsk''
      exact ⟨hst'', hsk''⟩

/-- A reader of the skip list that has been made and not been used. -/
def fresh (L : SkipLayout) (stream : ByteInput) (maxSkipLevels skipPointer : ℕ) : DefaultSkipListReader :=
  .init stream maxSkipLevels L.interval skipPointer L.freqBase L.proxBase L.ps.length

/-- **The levels are loaded**, and each stands at its start. -/
theorem loadSkipLevels_spec {stream : ByteInput} {maxSkipLevels p : ℕ} {tail : List UInt8} (hfits : L.Fits file)
    (hmax : 0 < maxSkipLevels) (hentries : L.interval ≤ L.ps.length) (hfile : stream.file = file)
    (hp : file.drop p = L.skipBytes maxSkipLevels ++ tail) :
    ∃ sp, L.Laid file sp (skipLevels L.interval maxSkipLevels L.ps.length) ∧
      0 < skipLevels L.interval maxSkipLevels L.ps.length ∧
      Stands L file sp (skipLevels L.interval maxSkipLevels L.ps.length)
        { (fresh L stream maxSkipLevels p).loadSkipLevels with haveSkipped := true } ∧
      ({ (fresh L stream maxSkipLevels p).loadSkipLevels with haveSkipped := true }).newCount ≤ 0 := by
  have hlevels : 0 < skipLevels L.interval maxSkipLevels L.ps.length := by
    rw [← SkipLayout.entries_pos_iff hfits.interval hmax, SkipLayout.entries, zero_add, pow_one]
    exact Nat.div_pos hentries (by have := hfits.interval; omega)
  have hinterval : (fresh L stream maxSkipLevels p).skipInterval 0 = L.interval := pow_one _
  obtain ⟨n, hn⟩ := Nat.exists_eq_succ_of_ne_zero hlevels.ne'
  rw [SkipLayout.skipBytes, if_neg hlevels.ne', hn, Nat.succ_sub_one] at hp
  have hstream : stream.seek p = ⟨file, p⟩ := by rw [ByteInput.seek, hfile]
  obtain ⟨sp, st, sk, hload, hlaid, -, hst, hsk, -⟩ := loadLevels_spec (x := { fresh L stream maxSkipLevels p with
    numberOfSkipLevels := skipLevels L.interval maxSkipLevels L.ps.length
    skipStream := Function.update (fun _ => stream) 0 (stream.seek p) }) hfits (by rw [hstream]; rfl) hp
  have hall : (fresh L stream maxSkipLevels p).loadSkipLevels = { fresh L stream maxSkipLevels p with
      numberOfSkipLevels := skipLevels L.interval maxSkipLevels L.ps.length
      skipStream := st
      skipPointer := Function.update sk 0 (st 0).pos } := by
    rw [← show skipLevels L.interval maxSkipLevels L.ps.length - 1 = n by omega] at hload
    unfold loadSkipLevels
    rw [hinterval]
    exact congrArg (fun x => { x with skipPointer := Function.update x.skipPointer 0 (x.skipStream 0).pos }) hload
  rw [hall]
  refine ⟨sp, hn ▸ hlaid, hlevels, ⟨⟨rfl, fun _ => rfl, fun i hi => ?_, le_rfl, rfl⟩, fun i hi => ⟨0, ?_⟩⟩, ?_⟩
  · by_cases hzero : i = 0
    · rw [hzero, hst 0 (Nat.zero_le _)]
      rfl
    · exact (Function.update_of_ne hzero _ _).trans (hsk i (Nat.pos_of_ne_zero hzero) (by omega))
  · have hchild : L.childOf sp i 0 = 0 := by cases i <;> rfl
    simp only [level, SkipLayout.state, Nat.zero_min, SkipLayout.buffer_zero, Nat.zero_le, if_true, SkipLayout.entry_zero,
      SkipLayout.mark_zero, hchild, hst i (by omega), Nat.zero_mul]
    rfl
  · show ((0 : ℕ) : ℤ) - ((L.interval ^ (0 + 1) : ℕ) : ℤ) - 1 ≤ 0
    omega

/-- The reader has not been used, or it is not ahead of the postings that have been read. -/
inductive Behind (L : SkipLayout) (file : List UInt8) (maxSkipLevels p c : ℕ) (x : DefaultSkipListReader) : Prop
  | unused (stream : ByteInput) (hfile : stream.file = file) (h : x = fresh L stream maxSkipLevels p)
  | used (sp : ℕ → ℕ) (levels : ℕ) (hlaid : L.Laid file sp levels) (hpos : 0 < levels) (h : Stands L file sp levels x)
      (hcount : x.newCount ≤ c)

/-- **The reader is sent to a target**: where it gets ahead, its data are those of the last entry that the
target is beyond. -/
theorem skipTo_spec {maxSkipLevels p : ℕ} {tail : List UInt8} (hfits : L.Fits file) (hmax : 0 < maxSkipLevels)
    (hentries : L.interval ≤ L.ps.length) (hp : file.drop p = L.skipBytes maxSkipLevels ++ tail)
    (h : Behind L file maxSkipLevels p c x) :
    (x.skipTo target).1 = (x.skipTo target).2.newCount ∧ Landed L c target (x.skipTo target).2 ∧
      ∀ d : ℕ, (x.skipTo target).1 ≤ d → Behind L file maxSkipLevels p d (x.skipTo target).2 := by
  obtain ⟨sp, levels, y, hlaid, hpos, hstands, hcount, hy⟩ : ∃ sp levels y, L.Laid file sp levels ∧ 0 < levels ∧
      Stands L file sp levels y ∧ y.newCount ≤ c ∧
      (if x.haveSkipped then x else { x.loadSkipLevels with haveSkipped := true }) = y := by
    cases h with
    | unused stream hfile h =>
      obtain ⟨sp, hlaid, hpos, hstands, hcount⟩ := loadSkipLevels_spec hfits hmax hentries hfile hp
      refine ⟨sp, _, _, hlaid, hpos, hstands, by omega, ?_⟩
      rw [h]
      rfl
    | used sp levels hlaid hpos h hcount => exact ⟨sp, levels, x, hlaid, hpos, h, hcount, if_pos h.loaded.haveSkipped⟩
  unfold skipTo
  rw [hy]
  dsimp only
  obtain ⟨hle, hthere⟩ := walkUp_spec target (x := y) (n := y.numberOfSkipLevels - 1) (.inl rfl)
  -- exhausted levels are not walked up to
  have hlt : walkUp y target (y.numberOfSkipLevels - 1) 0 < levels := by
    have := hstands.loaded.number
    omega
  have henters : Enters sp c target y (walkUp y target (y.numberOfSkipLevels - 1) 0) := by
    generalize walkUp y target (y.numberOfSkipLevels - 1) 0 = i at hthere ⊢
    obtain _ | i := i
    · exact .inr hcount
    · exact ⟨.inl (hthere.resolve_left (Nat.succ_ne_zero i)), hcount⟩
  obtain ⟨hstands', hlanded⟩ := walkDown_spec hlaid hfits hlt hstands henters
  exact ⟨rfl, hlanded, fun d hd => .used sp levels hlaid hpos hstands' hd⟩

end DefaultSkipListReader

end QDesktopSearch
