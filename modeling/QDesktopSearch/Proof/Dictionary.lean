import QDesktopSearch.Model.Dictionary
import QDesktopSearch.Proof.Postings

/-!
# The dictionary, as it is written and read

* `reads_readChar`, `reads_readTerm`: a character, and a term by what it has in common with the last one.
* `next_spec`: an enumeration goes from one term to the next.
-/

namespace QDesktopSearch

open ByteInput

/-! ## Characters and numbers -/

theorem or_low {a b : ℕ} (hb : b < 2 ^ 6) : (2 ^ 6 * a) ||| b = 2 ^ 6 * a + b := (Nat.two_pow_add_eq_or_of_lt hb a).symm

theorem and_six {x : ℕ} : x &&& 0x3F = x % 2 ^ 6 := Nat.and_two_pow_sub_one_eq_mod x 6

/-- The firstBytes of the bytes that begin a character. -/
theorem firstBytes : (∀ b : Fin 0x80, b.val &&& 0x80 = 0 ∧ b.val &&& 0x7F = b.val) ∧
    (∀ b : Fin 0x20, (0xC0 + b.val) &&& 0x80 ≠ 0 ∧ (0xC0 + b.val) &&& 0xE0 ≠ 0xE0 ∧ (0xC0 + b.val) &&& 0x1F = b.val) ∧
    ∀ b : Fin 0x10, (0xE0 + b.val) &&& 0x80 ≠ 0 ∧ (0xE0 + b.val) &&& 0xE0 = 0xE0 ∧ (0xE0 + b.val) &&& 0x0F = b.val := by
  decide

theorem high_or {x : ℕ} (hx : x < 2 ^ 6) : (0xC0 ||| x = 0xC0 + x) ∧ 0x80 ||| x = 0x80 + x :=
  ⟨or_low (a := 3) hx, or_low (a := 2) hx⟩

theorem high_or' {x : ℕ} (hx : x < 2 ^ 4) : 0xE0 ||| x = 0xE0 + x := (Nat.two_pow_add_eq_or_of_lt hx 14).symm

/-- **A character** takes one byte, two or three. -/
theorem reads_readChar {c : QChar} : Reads readChar (writeChar c) c := by
  have hlt : c.toNat < 2 ^ 16 := c.toNat_lt
  have hc : UInt16.ofNat c.toNat = c := UInt16.ofNat_toNat
  unfold writeChar readChar
  dsimp only
  rw [Nat.shiftRight_eq_div_pow, Nat.shiftRight_eq_div_pow, and_six, and_six]
  generalize UInt16.toNat c = x at hlt hc
  split
  · rename_i hone
    obtain ⟨hzero, hvalue⟩ := firstBytes.1 ⟨x, by omega⟩
    refine .cons ?_
    rw [toNat_ofNat (by omega), if_pos hzero, hvalue, hc]
    exact .pure
  · rename_i hone
    have hlow : x % 2 ^ 6 < 2 ^ 6 := Nat.mod_lt _ (by decide)
    have hlast : (UInt8.ofNat (0x80 ||| x % 2 ^ 6)).toNat &&& 0x3F = x % 2 ^ 6 := by
      rw [(high_or hlow).2, toNat_ofNat (by omega), and_six]
      omega
    split
    · rename_i htwo
      have hfirst : x / 2 ^ 6 < 0x20 := by omega
      obtain ⟨hhigh, hmark, hvalue⟩ := firstBytes.2.1 ⟨x / 2 ^ 6, hfirst⟩
      refine .cons ?_
      rw [(high_or (by omega)).1, toNat_ofNat (by omega), if_neg hhigh]
      refine .cons ?_
      rw [if_pos hmark, hvalue, hlast, Nat.shiftLeft_eq, Nat.mul_comm, or_low hlow, Nat.div_add_mod, hc]
      exact .pure
    · rename_i htwo
      have hmiddle : x / 2 ^ 6 % 2 ^ 6 < 2 ^ 6 := Nat.mod_lt _ (by decide)
      have hsecond : (UInt8.ofNat (0x80 ||| x / 2 ^ 6 % 2 ^ 6)).toNat &&& 0x3F = x / 2 ^ 6 % 2 ^ 6 := by
        rw [(high_or hmiddle).2, toNat_ofNat (by omega), and_six]
        omega
      obtain ⟨hhigh, hmark, hvalue⟩ := firstBytes.2.2 ⟨x / 2 ^ 12, by omega⟩
      have hjoin : (x / 2 ^ 12) <<< 12 ||| (x / 2 ^ 6 % 2 ^ 6) <<< 6 ||| x % 2 ^ 6 = x := by
        have hupper : (x / 2 ^ 12) <<< 12 ||| (x / 2 ^ 6 % 2 ^ 6) <<< 6 = 2 ^ 6 * (x / 2 ^ 6) := by
          rw [Nat.shiftLeft_eq, Nat.shiftLeft_eq, Nat.mul_comm, ← Nat.two_pow_add_eq_or_of_lt (by omega)]
          omega
        rw [hupper, or_low hlow, Nat.div_add_mod]
      refine .cons ?_
      rw [high_or' (by omega), toNat_ofNat (by omega), if_neg hhigh]
      refine .cons ?_
      rw [if_neg (not_not.2 hmark)]
      refine .cons ?_
      rw [hvalue, hsecond, hlast, hjoin, hc]
      exact .pure

theorem reads_chars {s : QString} : Reads (many readChar s.length) (writeChars s) s := Reads.many fun _ _ => reads_readChar

theorem signed_of_emod {bits : ℕ} {i : ℤ} (hbits : 0 < bits) (hlow : -2 ^ (bits - 1) ≤ i) (hhigh : i < 2 ^ (bits - 1)) :
    signed bits (i % 2 ^ bits).toNat = i := by
  obtain ⟨b, rfl⟩ : ∃ b, bits = b + 1 := ⟨bits - 1, by omega⟩
  rw [Nat.add_sub_cancel] at hlow hhigh
  have hpow : (2 : ℤ) ^ (b + 1) = 2 * 2 ^ b := by ring
  have hpos : (0 : ℤ) < 2 ^ b := pow_pos (by decide) b
  unfold signed
  rw [Nat.add_sub_cancel]
  have hcast : ((2 ^ b : ℕ) : ℤ) = 2 ^ b := by push_cast; ring
  rcases lt_or_ge i 0 with hneg | hpos'
  · have hmod : i % 2 ^ (b + 1) = i + 2 ^ (b + 1) := by
      rw [← Int.add_emod_right, Int.emod_eq_of_lt] <;> omega
    rw [hmod, if_neg (by omega)]
    omega
  · have hmod : i % 2 ^ (b + 1) = i := Int.emod_eq_of_lt hpos' (by omega)
    rw [hmod, if_pos (by omega)]
    omega

theorem reads_readInt {i : ℤ} (hlow : -2 ^ 31 ≤ i) (hhigh : i < 2 ^ 31) : Reads readInt (writeInt i) i := by
  have hreads := (reads_fixed (n := 4) (i := (i % 2 ^ 32).toNat) (by omega)).map (f := signed 32)
  rwa [signed_of_emod (by decide) hlow hhigh] at hreads

theorem reads_readLong {i : ℤ} (hlow : -2 ^ 63 ≤ i) (hhigh : i < 2 ^ 63) : Reads readLong (writeLong i) i := by
  have hreads := (reads_fixed (n := 8) (i := (i % 2 ^ 64).toNat) (by omega)).map (f := signed 64)
  rwa [signed_of_emod (by decide) hlow hhigh] at hreads

@[simp] theorem writeInt_length {i : ℤ} : (writeInt i).length = 4 := fixed_length

@[simp] theorem writeLong_length {i : ℤ} : (writeLong i).length = 8 := fixed_length

/-! ## Terms -/

namespace TermInfosOutput

theorem commonPrefix_le {s t : QString} : commonPrefix s t ≤ s.length := by
  induction s generalizing t with
  | nil => exact Nat.zero_le _
  | cons c s ih =>
    obtain _ | ⟨d, t⟩ := t
    · exact Nat.zero_le _
    · unfold commonPrefix
      split
      · exact Nat.succ_le_succ ih
      · exact Nat.zero_le _

/-- **What the terms have in common** is the beginning of the last one. -/
theorem take_commonPrefix {s t : QString} : t.take (commonPrefix s t) = s.take (commonPrefix s t) := by
  induction s generalizing t with
  | nil => cases t <;> simp [commonPrefix]
  | cons c s ih =>
    obtain _ | ⟨d, t⟩ := t
    · simp [commonPrefix]
    · unfold commonPrefix
      split
      · rename_i heq
        rw [List.take_succ_cons, List.take_succ_cons, ih, heq]
      · rfl

end TermInfosOutput

namespace FieldInfos

variable {fieldInfos : FieldInfos}

theorem fieldName_fieldNumber {name : QString} (h : name ∈ fieldInfos) :
    fieldInfos.fieldName (fieldInfos.fieldNumber name) = name := by
  obtain ⟨i, hi⟩ := Option.isSome_iff_exists.1 (List.isSome_idxOf?.2 h)
  obtain ⟨hlt, hget, -⟩ := List.idxOf?_eq_some_iff.1 hi
  rw [fieldNumber, hi]
  dsimp only
  rw [fieldName, if_neg (by omega), Int.toNat_natCast, List.getD_eq_getElem _ _ hlt, hget]

theorem fieldNumber_lt (fieldInfos : FieldInfos) (name : QString) :
    -1 ≤ fieldInfos.fieldNumber name ∧ fieldInfos.fieldNumber name < fieldInfos.length := by
  unfold fieldNumber
  split
  · rename_i i hi
    obtain ⟨hlt, -⟩ := List.idxOf?_eq_some_iff.1 hi
    omega
  · omega

end FieldInfos

/-! ## The files -/

/-- Infos that differ at most in a skip offset that is of no use. -/
structure TermInfo.Same (a b : TermInfo) : Prop where
  docFreq : a.docFreq = b.docFreq
  freqPointer : a.freqPointer = b.freqPointer
  proxPointer : a.proxPointer = b.proxPointer
  skipOffset : TermInfosOutput.defaultSkipInterval ≤ b.docFreq → a.skipOffset = b.skipOffset

namespace IndexTerm

/-- What stands before the first term. -/
def start : IndexTerm := ⟨⟨[], []⟩, ⟨0, 0, 0, 0⟩, 0⟩

/-- The number of the field, as the writer has it. -/
def number (fieldInfos : FieldInfos) (t : Term) : ℤ := if t = start.term then -1 else fieldInfos.fieldNumber t.field

/-- A term in a file, after another one. -/
def bytes (fieldInfos : FieldInfos) (isIndex : Bool) (last e : IndexTerm) : List UInt8 :=
  TermInfosOutput.writeTerm last.term.text (number fieldInfos e.term) e.term.text ++
    TermInfosOutput.writeTermInfo TermInfosOutput.defaultSkipInterval last.info e.info ++
      if isIndex then writeVLong (e.pointer - last.pointer) else []

/-- The terms in a file, after another one. -/
def chain (fieldInfos : FieldInfos) (isIndex : Bool) : IndexTerm → List IndexTerm → List UInt8
  | _, [] => []
  | last, e :: es => bytes fieldInfos isIndex last e ++ chain fieldInfos isIndex e es

/-- The parts of a term are as the writer takes them. -/
structure Writable (fieldInfos : FieldInfos) (e : IndexTerm) : Prop where
  field : e.term = start.term ∨ e.term.field ∈ fieldInfos
  text : ∀ c ∈ e.term.text, c ≠ 0
  text_lt : e.term.text.length < 2 ^ 31
  docFreq_lt : e.info.docFreq < 2 ^ 31
  freqPointer_lt : e.info.freqPointer < 2 ^ 63
  proxPointer_lt : e.info.proxPointer < 2 ^ 63
  skipOffset_lt : e.info.skipOffset < 2 ^ 31
  pointer_lt : e.pointer < 2 ^ 63

/-- The pointers go up. -/
structure Before (a b : IndexTerm) : Prop where
  freqPointer : a.info.freqPointer ≤ b.info.freqPointer
  proxPointer : a.info.proxPointer ≤ b.info.proxPointer
  pointer : a.pointer ≤ b.pointer

variable {fieldInfos : FieldInfos} {last e : IndexTerm} {isIndex : Bool}

theorem fieldName_number (h : e.term = start.term ∨ e.term.field ∈ fieldInfos) :
    fieldInfos.fieldName (number fieldInfos e.term) = e.term.field := by
  unfold number
  split
  · rename_i hstart
    rw [hstart]
    rfl
  · rename_i hstart
    exact FieldInfos.fieldName_fieldNumber (h.resolve_left hstart)

theorem number_lt (h : fieldInfos.length < 2 ^ 31) {t : Term} :
    -2 ^ 31 ≤ number fieldInfos t ∧ number fieldInfos t < 2 ^ 31 := by
  have hnumber := FieldInfos.fieldNumber_lt fieldInfos t.field
  unfold number
  split <;> omega

/-- **A term** is read as it was written, where the buffer holds the last one. -/
theorem reads_readTerm (hfields : fieldInfos.length < 2 ^ 31) (h : Writable fieldInfos e) (lastTermText : QString) :
    Reads (SegmentTermEnum.readTerm fieldInfos lastTermText)
      (TermInfosOutput.writeTerm lastTermText (number fieldInfos e.term) e.term.text) (e.term, e.term.text) := by
  have hle : TermInfosOutput.commonPrefix e.term.text lastTermText ≤ e.term.text.length := TermInfosOutput.commonPrefix_le
  have htake : lastTermText.take (TermInfosOutput.commonPrefix e.term.text lastTermText) = _ :=
    TermInfosOutput.take_commonPrefix
  have hlt := h.text_lt
  obtain ⟨hlow, hhigh⟩ := number_lt hfields (t := e.term)
  have hwhole : e.term.text.takeWhile (· ≠ 0) = e.term.text :=
    List.takeWhile_eq_self_iff.2 fun c hc => by simpa using h.text c hc
  unfold SegmentTermEnum.readTerm TermInfosOutput.writeTerm
  dsimp only
  generalize TermInfosOutput.commonPrefix e.term.text lastTermText = start at hle htake ⊢
  have hchars := reads_chars (s := e.term.text.drop start)
  rw [List.length_drop] at hchars
  rw [List.append_assoc, List.append_assoc]
  refine (reads_readVInt (by omega)).bind
    ((reads_readVInt (by omega)).bind (hchars.bind ((reads_readVInt (by omega)).bind_pure ?_)))
  rw [signed_of_emod (by decide) hlow hhigh, fieldName_number h.field, htake, List.take_append_drop, hwhole]

/-- Terms that can be read. -/
structure Readable (fieldInfos : FieldInfos) (es : List IndexTerm) : Prop where
  fields_lt : fieldInfos.length < 2 ^ 31
  fits : ∀ e ∈ es, Writable fieldInfos e
  before : (start :: es).Pairwise Before

end IndexTerm

/-! ## Enumerations -/

namespace SegmentTermEnum

open IndexTerm

variable {fieldInfos : FieldInfos} {isIndex : Bool} {es rest : List IndexTerm} {file : List UInt8} {k : ℕ}
    {last cur e : IndexTerm}
  {x : SegmentTermEnum}

/-- **An info** is read as it was written, where the one of the last term is known. -/
theorem reads_readTermInfo (hformat : x.format = -3) (hskip : x.skipInterval = TermInfosOutput.defaultSkipInterval)
    (hsame : x.termInfo.Same last.info) (h : Writable fieldInfos e) (hbefore : Before last e) :
    ∃ ti : TermInfo, ti.Same e.info ∧
      Reads x.readTermInfo (TermInfosOutput.writeTermInfo TermInfosOutput.defaultSkipInterval last.info e.info) ti := by
  have hfreq := h.freqPointer_lt
  have hprox := h.proxPointer_lt
  have hdoc := h.docFreq_lt
  have hfreqPointer : x.termInfo.freqPointer + (e.info.freqPointer - last.info.freqPointer) = e.info.freqPointer := by
    rw [hsame.freqPointer]
    have := hbefore.freqPointer
    omega
  have hproxPointer : x.termInfo.proxPointer + (e.info.proxPointer - last.info.proxPointer) = e.info.proxPointer := by
    rw [hsame.proxPointer]
    have := hbefore.proxPointer
    omega
  unfold readTermInfo TermInfosOutput.writeTermInfo
  rw [hformat, hskip]
  simp only [List.append_assoc]
  by_cases hmany : e.info.docFreq ≥ TermInfosOutput.defaultSkipInterval
  · rw [if_pos hmany]
    refine ⟨e.info, ⟨rfl, rfl, rfl, fun _ => rfl⟩, (reads_readVInt (by omega)).bind ((reads_readVLong (by omega)).bind
      ((reads_readVLong (by omega)).bind ?_))⟩
    rw [if_pos (by simpa using hmany), hfreqPointer, hproxPointer]
    have hoffset := h.skipOffset_lt
    exact (reads_readVInt (by omega)).bind_pure rfl
  · rw [if_neg hmany, List.append_nil]
    refine ⟨⟨e.info.docFreq, e.info.freqPointer, e.info.proxPointer, x.termInfo.skipOffset⟩,
      ⟨rfl, rfl, rfl, fun h => absurd h hmany⟩,
      (reads_readVInt (by omega)).bind ((reads_readVLong (by omega)).bind ((reads_readVLong (by omega)).bind_pure ?_))⟩
    rw [if_neg (by simpa using hmany), hfreqPointer, hproxPointer]

/-- What an enumeration has and keeps. -/
structure Of (fieldInfos : FieldInfos) (isIndex : Bool) (es : List IndexTerm) (file : List UInt8)
    (x : SegmentTermEnum) : Prop where
  fieldInfos : x.fieldInfos = fieldInfos
  isIndex : x.isIndex = isIndex
  format : x.format = -3
  size : x.size = es.length
  skipInterval : x.skipInterval = TermInfosOutput.defaultSkipInterval
  maxSkipLevels : x.maxSkipLevels = 10
  file : x.input.file = file

/-- The enumeration stands on a term, of which there are `k` up to it: before the first one it stands on an empty term. -/
structure At (fieldInfos : FieldInfos) (isIndex : Bool) (es : List IndexTerm) (k : ℕ) (cur : IndexTerm) (rest : List IndexTerm)
    (x : SegmentTermEnum) : Prop where
  split : (start :: es).drop k = cur :: rest
  position : x.position = k - 1
  term : x._term = some cur.term
  buffer : x.buffer = cur.term.text
  info : x.termInfo.Same cur.info
  pointer : isIndex = true → x.indexPointer = cur.pointer
  ahead : x.input.rest = chain fieldInfos isIndex cur rest
  prev : ∀ p, x.prev = some p → ∃ q ∈ (start :: es).take k, (start :: es)[k - 1]? = some q ∧ p = q.term

theorem At.length_eq (h : At fieldInfos isIndex es k cur rest x) : k + rest.length = es.length := by
  have hlength := congrArg List.length h.split
  rw [List.length_drop, List.length_cons, List.length_cons] at hlength
  omega

theorem At.getElem?_eq (h : At fieldInfos isIndex es k cur rest x) : (start :: es)[k]? = some cur := by
  have hget : ((start :: es).drop k)[0]? = some cur := by rw [h.split]; rfl
  rwa [List.getElem?_drop, Nat.add_zero] at hget

/-- **The next term.** -/
theorem next_spec (hes : Readable fieldInfos es) (hx : Of fieldInfos isIndex es file x)
    (h : At fieldInfos isIndex es k cur (e :: rest) x) :
    x.next.1 = true ∧ Of fieldInfos isIndex es file x.next.2 ∧ At fieldInfos isIndex es (k + 1) e rest x.next.2 := by
  have hlength := h.length_eq
  rw [List.length_cons] at hlength
  have hsplit : (start :: es).drop (k + 1) = e :: rest := by
    rw [← List.drop_drop, h.split]
    rfl
  have hmem : e ∈ es := by
    rw [List.drop_succ_cons] at hsplit
    exact List.mem_of_mem_drop (hsplit ▸ List.mem_cons_self)
  have hbefore : Before cur e := by
    have hpairs := hes.before.sublist (List.drop_sublist k _)
    rw [h.split, List.pairwise_cons] at hpairs
    exact hpairs.1 e List.mem_cons_self
  have hfits := hes.fits e hmem
  have hahead := h.ahead
  rw [chain, bytes, List.append_assoc, List.append_assoc] at hahead
  have hterm := reads_readTerm hes.fields_lt hfits cur.term.text _ _ hahead
  obtain ⟨ti, hsame, hinfo⟩ := reads_readTermInfo hx.format hx.skipInterval h.info hfits hbefore
  have hahead₁ := rest_seek_add hahead
  have hinfo' := hinfo _ _ hahead₁
  have hahead₂ := rest_seek_add hahead₁
  have hprev : ∀ p, x._term = some p → ∃ q ∈ (start :: es).take (k + 1), (start :: es)[k + 1 - 1]? = some q ∧ p = q.term := by
    intro p hp
    rw [h.term, Option.some_inj] at hp
    refine ⟨cur, List.mem_of_getElem? (i := k) ?_, h.getElem?_eq, hp.symm⟩
    rw [List.getElem?_take_of_lt (Nat.lt_succ_self k)]
    exact h.getElem?_eq
  have hposition : x.position + 1 = ((k + 1 : ℕ) : ℤ) - 1 := by rw [h.position]; omega
  unfold next
  dsimp only
  rw [if_neg (by rw [h.position, hx.size]; omega), hx.fieldInfos, h.buffer, hterm]
  dsimp only
  rw [hinfo']
  dsimp only
  cases isIndex with
  | false =>
    rw [hx.isIndex, if_neg (by decide)]
    rw [if_neg (by decide), List.nil_append] at hahead₂
    exact ⟨rfl, ⟨rfl, rfl, hx.format, hx.size, hx.skipInterval, hx.maxSkipLevels, hx.file⟩,
      ⟨hsplit, hposition, rfl, rfl, hsame, fun h => absurd h (by decide), hahead₂, hprev⟩⟩
  | true =>
    rw [if_pos rfl] at hahead₂
    have hpointer := reads_readVLong (i := e.pointer - cur.pointer) (by have := hfits.pointer_lt; omega) _ _ hahead₂
    rw [hx.isIndex, if_pos rfl, hpointer]
    refine ⟨rfl, ⟨rfl, rfl, hx.format, hx.size, hx.skipInterval, hx.maxSkipLevels, hx.file⟩,
      ⟨hsplit, hposition, rfl, rfl, hsame, fun _ => ?_, rest_seek_add hahead₂, hprev⟩⟩
    have := hbefore.pointer
    show x.indexPointer + (e.pointer - cur.pointer) = e.pointer
    rw [h.pointer rfl]
    omega

/-- Behind the last term there is none. -/
theorem next_end (hx : Of fieldInfos isIndex es file x) (h : At fieldInfos isIndex es k cur [] x) :
    x.next.1 = false ∧ Of fieldInfos isIndex es file x.next.2 ∧ x.next.2._term = none := by
  have hlength := h.length_eq
  rw [List.length_nil] at hlength
  unfold next
  dsimp only
  rw [if_pos (by rw [h.position, hx.size]; omega)]
  exact ⟨rfl, ⟨hx.fieldInfos, hx.isIndex, hx.format, hx.size, hx.skipInterval, hx.maxSkipLevels, hx.file⟩, rfl⟩

end SegmentTermEnum

end QDesktopSearch
