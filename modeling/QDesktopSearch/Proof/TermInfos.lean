import QDesktopSearch.Proof.Dictionary
import QDesktopSearch.Proof.StringIndex

/-!
# Looking up a term

* `scanTo_spec`: an enumeration goes on to the first term that is not before the one that is looked for.
* `getIndexOffset_spec`: the search in the index leads to a term that is not behind it.
* `get_spec`: what is found does not depend on what has been looked up before.
-/

namespace QDesktopSearch

open ByteInput IndexTerm

variable {fieldInfos : FieldInfos} {isIndex : Bool} {es rest : List IndexTerm} {file : List UInt8} {k n : ℕ}
    {cur e : IndexTerm} {t : Term}

/-! ## Scanning -/

/-- The terms are in their order. -/
def Ascending (es : List IndexTerm) : Prop := (start :: es).Pairwise fun a b => a.term < b.term

/-- The terms from one on, if an enumeration has it. -/
def from_ (t : Term) (es : List IndexTerm) : List IndexTerm := (start :: es).dropWhile fun e => e.term < t

theorem dropWhile_behind {l : List IndexTerm} (hbehind : ∀ q ∈ l.take k, q.term < t)
    (hahead : ∀ q ∈ (l.drop k).head?, t ≤ q.term) :
    l.dropWhile (fun e => e.term < t) = l.drop k := by
  conv_lhs => rw [← List.take_append_drop k l]
  rw [List.dropWhile_append_of_pos fun q hq => by simpa using hbehind q hq]
  cases hdrop : l.drop k with
  | nil => rfl
  | cons q l' =>
    rw [List.dropWhile_cons_of_neg]
    simpa using hahead q (by rw [hdrop]; rfl)

/-- A term is where the terms from it on begin, or nowhere. -/
theorem find?_eq (hes : Ascending es) :
    (start :: es).find? (fun e => e.term = t) = (from_ t es).head?.filter fun e => e.term = t := by
  have hbehind : ((start :: es).takeWhile fun e => e.term < t).find? (fun e => e.term = t) = none := by
    refine List.find?_eq_none.2 fun q hq => ?_
    have hlt : q.term < t := by simpa using List.mem_takeWhile_imp hq
    simpa using hlt.ne
  rw [Ascending, ← List.takeWhile_append_dropWhile (p := fun e : IndexTerm => decide (e.term < t)) (l := start :: es)] at hes
  conv_lhs => rw [← List.takeWhile_append_dropWhile (p := fun e : IndexTerm => decide (e.term < t)) (l := start :: es)]
  rw [List.find?_append, hbehind, Option.none_or, ← from_]
  have hahead := (List.pairwise_append.1 hes).2.1
  have hle := List.head?_dropWhile_not (p := fun e : IndexTerm => decide (e.term < t)) (l := start :: es)
  rw [← from_] at hahead hle
  cases hfrom : from_ t es with
  | nil => rfl
  | cons cur rest =>
    rw [hfrom, List.pairwise_cons] at hahead
    rw [hfrom] at hle
    have hcur : t ≤ cur.term := by simpa using hle
    rw [List.head?_cons, Option.filter_some]
    by_cases heq : cur.term = t
    · rw [List.find?_cons_of_pos (by simpa using heq), if_pos (by simpa using heq)]
    · rw [List.find?_cons_of_neg (by simpa using heq), if_neg (by simpa using heq), List.find?_eq_none]
      intro q hq
      simpa using (hcur.trans_lt (hahead.1 q hq)).ne'

namespace SegmentTermEnum

variable {x : SegmentTermEnum}

/-- Where an enumeration has been led: to the first of some terms, if there is one. -/
structure Lands (fieldInfos : FieldInfos) (isIndex : Bool) (es : List IndexTerm) (file : List UInt8) (ahead : List IndexTerm)
    (x : SegmentTermEnum) : Prop where
  of : Of fieldInfos isIndex es file x
  stands : match ahead with
    | [] => x._term = none
    | cur :: rest => ∃ k, At fieldInfos isIndex es k cur rest x

/-- What is behind the enumeration comes before a term. -/
def Behind (es : List IndexTerm) (k : ℕ) (t : Term) : Prop := ∀ q ∈ (start :: es).take k, q.term < t

/-- **Scanning** leads to the first term that is not before the one that is looked for. -/
theorem scanLoop_spec (hes : Readable fieldInfos es) (hx : Of fieldInfos isIndex es file x)
    (h : At fieldInfos isIndex es k cur rest x) (hbehind : Behind es k t) (hn : rest.length < n) :
    Lands fieldInfos isIndex es file (from_ t es) (scanLoop t n x) := by
  induction n generalizing k cur rest x with
  | zero => omega
  | succ n ih =>
    unfold scanLoop
    rw [h.term, Option.any_some]
    by_cases hlt : cur.term < t
    · rw [if_pos (decide_eq_true hlt)]
      have hbehind' : Behind es (k + 1) t := by
        intro q hq
        rw [List.take_add_one, h.getElem?_eq, List.mem_append] at hq
        rcases hq with hq | hq
        · exact hbehind q hq
        · rw [List.mem_singleton.1 hq]
          exact hlt
      cases rest with
      | nil =>
        obtain ⟨hr, hof, hnone⟩ := next_end hx h
        dsimp only
        rw [hr, if_neg (by decide)]
        have hall : (start :: es).drop (k + 1) = [] := by rw [← List.drop_drop, h.split]; rfl
        refine ⟨hof, ?_⟩
        rw [from_, dropWhile_behind hbehind' (by rw [hall]; simp), hall]
        exact hnone
      | cons e rest =>
        obtain ⟨hr, hof, hat⟩ := next_spec hes hx h
        dsimp only
        rw [hr, if_pos rfl]
        exact ih hof hat hbehind' (by rw [List.length_cons] at hn; omega)
    · rw [if_neg (by simpa using hlt)]
      refine ⟨hx, ?_⟩
      rw [from_, dropWhile_behind hbehind (by rw [h.split]; simpa using hlt), h.split]
      exact ⟨k, h⟩

theorem scanTo_spec (hes : Readable fieldInfos es) (hx : Of fieldInfos isIndex es file x)
    (h : At fieldInfos isIndex es k cur rest x) (hbehind : Behind es k t) :
    Lands fieldInfos isIndex es file (from_ t es) (x.scanTo t) := by
  refine scanLoop_spec hes hx h hbehind ?_
  have hlength := h.length_eq
  rw [hx.size, h.position]
  omega

/-- What stands behind a term comes before what is not before the term. -/
theorem At.behind_of_le (hes : Ascending es) (h : At fieldInfos isIndex es k cur rest x) (hle : cur.term ≤ t) :
    Behind es k t := by
  intro q hq
  rw [Ascending, ← List.take_append_drop k (start :: es), List.pairwise_append, h.split] at hes
  exact (hes.2.2 q hq cur List.mem_cons_self).trans_le hle

/-- The same, of the term before. -/
theorem At.behind_of_prev (hes : Ascending es) (h : At fieldInfos isIndex es k cur rest x) {p : Term} (hp : x.prev = some p)
    (hlt : p < t) : Behind es k t := by
  obtain ⟨q, hq, hget, rfl⟩ := h.prev p hp
  intro r hr
  obtain ⟨i, hi⟩ := List.mem_iff_getElem?.1 hr
  have hik : i < k := by
    by_contra hge
    rw [List.getElem?_take_eq_none (by omega)] at hi
    cases hi
  rw [List.getElem?_take_of_lt hik] at hi
  rcases Nat.lt_or_ge i (k - 1) with hbefore | hge
  · obtain ⟨hlti, hi'⟩ := List.getElem?_eq_some_iff.1 hi
    obtain ⟨hltk, hk'⟩ := List.getElem?_eq_some_iff.1 hget
    have horder := List.pairwise_iff_getElem.1 hes i (k - 1) hlti hltk hbefore
    rw [hi', hk'] at horder
    exact horder.trans hlt
  · rw [show i = k - 1 by omega, hget, Option.some_inj] at hi
    rw [← hi]
    exact hlt

/-- What a lookup gives of where it has been led. -/
theorem Lands.found (hes : Ascending es) (h : Lands fieldInfos isIndex es file (from_ t es) x) :
    Option.Rel TermInfo.Same (if x._term = some t then some x.termInfo else none)
      (((start :: es).find? fun e => e.term = t).map (·.info)) := by
  have hstands := h.stands
  rw [find?_eq hes]
  cases hfrom : from_ t es with
  | nil =>
    rw [hfrom] at hstands
    rw [show x._term = none from hstands, if_neg (by simp)]
    exact .none
  | cons cur rest =>
    rw [hfrom] at hstands
    obtain ⟨k, hat⟩ := hstands
    rw [hat.term, List.head?_cons, Option.filter_some]
    by_cases heq : cur.term = t
    · rw [if_pos (congrArg some heq), if_pos (decide_eq_true heq)]
      exact .some hat.info
    · rw [if_neg fun h => heq (Option.some_injective _ h), if_neg (by simpa using heq)]
      exact .none

/-- A term with its info, as it is read. -/
def Entry (a : Term × TermInfo) (e : IndexTerm) : Prop := a.1 = e.term ∧ a.2.Same e.info

theorem entriesLoop_none (h : x._term = none) : entriesLoop n x = [] := by
  cases n with
  | zero => rfl
  | succ n => rw [entriesLoop, h]

/-- **All terms** from where the enumeration stands. -/
theorem entriesLoop_spec (hes : Readable fieldInfos es) (hx : Of fieldInfos isIndex es file x)
    (h : At fieldInfos isIndex es k cur rest x) (hn : rest.length < n) :
    List.Forall₂ Entry (entriesLoop n x) (cur :: rest) := by
  induction n generalizing k cur rest x with
  | zero => omega
  | succ n ih =>
    unfold entriesLoop
    rw [h.term]
    refine .cons ⟨rfl, h.info⟩ ?_
    cases rest with
    | nil =>
      obtain ⟨-, -, hnone⟩ := next_end hx h
      rw [entriesLoop_none hnone]
      exact .nil
    | cons e rest =>
      obtain ⟨-, hof, hat⟩ := next_spec hes hx h
      exact ih hof hat (by rw [List.length_cons] at hn; omega)

theorem At.entries (hes : Readable fieldInfos es) (hx : Of fieldInfos isIndex es file x)
    (h : At fieldInfos isIndex es k cur rest x) :
    List.Forall₂ Entry x.entries (cur :: rest) := by
  refine entriesLoop_spec hes hx h ?_
  have hlength := h.length_eq
  rw [hx.size, h.position]
  omega

theorem Lands.entries {ahead : List IndexTerm} (hes : Readable fieldInfos es) (h : Lands fieldInfos isIndex es file ahead x) :
    List.Forall₂ Entry x.entries ahead := by
  have hstands := h.stands
  cases ahead with
  | nil =>
    rw [SegmentTermEnum.entries, entriesLoop_none hstands]
    exact .nil
  | cons cur rest =>
    obtain ⟨k, hat⟩ := hstands
    exact hat.entries hes h.of

end SegmentTermEnum

/-! ## The index -/

/-- A term of the index, as it is read. -/
structure IndexTerm.Like (a b : IndexTerm) : Prop where
  term : a.term = b.term
  info : a.info.Same b.info
  pointer : a.pointer = b.pointer

/-- The bytes before the first term. -/
def header (size interval : ℕ) : List UInt8 :=
  writeInt TermInfosOutput.format ++ writeLong size ++ writeInt interval ++
    writeInt TermInfosOutput.defaultSkipInterval ++ writeInt 10

@[simp] theorem header_length {size interval : ℕ} : (header size interval).length = 24 := by simp [header]

/-- Where so many terms end in the file. -/
def endOf (fieldInfos : FieldInfos) (es : List IndexTerm) (k : ℕ) : ℕ := 24 + (chain fieldInfos false start (es.take k)).length

def indexEntry (fieldInfos : FieldInfos) (es : List IndexTerm) (k : ℕ) : IndexTerm :=
  { (start :: es).getD k start with pointer := endOf fieldInfos es k }

/-- The terms of the index: before every so many terms, the one before them. -/
def indexed (fieldInfos : FieldInfos) (interval : ℕ) (es : List IndexTerm) : List IndexTerm :=
  (List.range ((es.length + interval - 1) / interval)).map fun j => indexEntry fieldInfos es (j * interval)

theorem getElem?_indexed {interval j : ℕ} (hinterval : 0 < interval) (h : (indexed fieldInfos interval es)[j]? = some e) :
    j * interval < es.length ∧ e = indexEntry fieldInfos es (j * interval) := by
  obtain ⟨hlt, heq⟩ := List.getElem?_eq_some_iff.1 h
  rw [indexed, List.length_map, List.length_range, Nat.lt_iff_add_one_le, Nat.le_div_iff_mul_le hinterval, Nat.add_mul] at hlt
  refine ⟨by omega, ?_⟩
  rw [← heq]
  simp [indexed]

theorem indexed_ne_nil {interval : ℕ} (hinterval : 0 < interval) (hne : es ≠ []) : indexed fieldInfos interval es ≠ [] := by
  have hlength := List.length_pos_iff.2 hne
  rw [indexed, Ne, List.map_eq_nil_iff, List.range_eq_nil]
  have := (Nat.le_div_iff_mul_le hinterval).2 (show 1 * interval ≤ es.length + interval - 1 by omega)
  omega

/-- The terms up to one, and those behind it. -/
theorem chain_split {last : IndexTerm} (h : (last :: es).drop k = cur :: rest) :
    chain fieldInfos isIndex last es = chain fieldInfos isIndex last (es.take k) ++ chain fieldInfos isIndex cur rest := by
  induction k generalizing es last with
  | zero =>
    obtain ⟨rfl, rfl⟩ := List.cons.inj h
    rfl
  | succ k ih =>
    obtain _ | ⟨e, es⟩ := es
    · simp at h
    · rw [chain, List.take_succ_cons, chain, List.append_assoc, ih (by simpa using h)]

namespace TermInfosReader

/-- The loop over the index reads all of it. -/
theorem readIndex_spec {x : SegmentTermEnum} (hes : Readable fieldInfos es) (hx : SegmentTermEnum.Of fieldInfos true es file x)
    (h : SegmentTermEnum.At fieldInfos true es k cur rest x) (hn : rest.length < n) :
    List.Forall₂ Like (readIndex n x) rest := by
  induction n generalizing k cur rest x with
  | zero => omega
  | succ n ih =>
    unfold readIndex
    dsimp only
    cases rest with
    | nil =>
      obtain ⟨hr, -, -⟩ := SegmentTermEnum.next_end hx h
      rw [hr]
      exact .nil
    | cons e rest =>
      obtain ⟨hr, hof, hat⟩ := SegmentTermEnum.next_spec hes hx h
      rw [hr, hat.term]
      exact .cons ⟨rfl, hat.info, hat.pointer rfl⟩ (ih hof hat (by rw [List.length_cons] at hn; omega))

/-- What the search in the index knows: what stands before `lo` is not behind the term, what stands behind `hi` is. -/
structure Between (l : List IndexTerm) (t : Term) (lo hi : ℤ) : Prop where
  lo_nonneg : 0 ≤ lo
  lo_le : lo ≤ hi + 1
  hi_lt : hi < l.length
  below : lo = 0 ∨ 0 < lo ∧ ∃ e, l[(lo - 1).toNat]? = some e ∧ e.term ≤ t
  above : hi + 1 = l.length ∨ ∃ e, l[(hi + 1).toNat]? = some e ∧ t < e.term

/-- The result is a term that is not behind the one that is looked for. -/
def Points (l : List IndexTerm) (t : Term) (i : ℤ) : Prop := ∃ (j : ℕ) (e : IndexTerm), i = j ∧ l[j]? = some e ∧ e.term ≤ t

theorem Between.points {l : List IndexTerm} {lo hi : ℤ} (h : Between l t lo hi) (hlt : hi < lo) (hne : l ≠ [])
    (hfirst : ∀ e, l[0]? = some e → e.term ≤ t) : Points l t hi := by
  obtain rfl : lo = hi + 1 := by have := h.lo_le; omega
  rcases h.below with hzero | ⟨hpos, e, he, hle⟩
  · rcases h.above with hlength | ⟨e, he, hlt⟩
    · exact absurd (List.length_eq_zero_iff.1 (by omega)) hne
    · rw [hzero] at he
      exact absurd (hfirst e he) (not_le_of_gt hlt)
  · rw [Int.add_sub_cancel] at he
    exact ⟨hi.toNat, e, by omega, he, hle⟩

theorem getIndexOffsetLoop_spec {l : List IndexTerm} {lo hi : ℤ} (h : Between l t lo hi) (hn : hi + 1 - lo ≤ n) (hne : l ≠ [])
    (hfirst : ∀ e, l[0]? = some e → e.term ≤ t) : Points l t (getIndexOffsetLoop l t n lo hi) := by
  induction n generalizing lo hi with
  | zero => exact h.points (by omega) hne hfirst
  | succ n ih =>
    unfold getIndexOffsetLoop
    by_cases hge : hi ≥ lo
    · rw [if_pos hge]
      dsimp only
      have hlo := h.lo_nonneg
      have hhi := h.hi_lt
      obtain ⟨hmlo, hmhi⟩ : lo ≤ (lo + hi) / 2 ∧ (lo + hi) / 2 ≤ hi := by omega
      generalize (lo + hi) / 2 = mid at hmlo hmhi ⊢
      have hlt : mid.toNat < l.length := by omega
      have hget := List.getElem?_eq_getElem hlt
      rw [hget]
      dsimp only
      by_cases hless : t < l[mid.toNat].term
      -- the term lies before the middle, which becomes the upper bound
      · rw [if_pos hless]
        refine ih ⟨hlo, by omega, by omega, h.below, .inr ⟨l[mid.toNat], ?_, hless⟩⟩ (by push_cast at hn; omega)
        rw [Int.sub_add_cancel]
        exact hget
      · rw [if_neg hless]
        by_cases hmore : t > l[mid.toNat].term
        · rw [if_pos hmore]
          refine ih ⟨by omega, by omega, hhi, .inr ⟨by omega, l[mid.toNat], ?_, hmore.le⟩, h.above⟩ (by push_cast at hn; omega)
          rw [Int.add_sub_cancel]
          exact hget
        · rw [if_neg hmore]
          exact ⟨mid.toNat, _, by omega, hget, le_of_not_gt hless⟩
    · rw [if_neg hge]
      exact h.points (by omega) hne hfirst

/-- **The search in the index** leads to a term that is not behind the one that is looked for. -/
theorem getIndexOffset_spec {l : List IndexTerm} (hne : l ≠ []) (hfirst : ∀ e, l[0]? = some e → e.term ≤ t) :
    Points l t (getIndexOffset l t) :=
  getIndexOffsetLoop_spec ⟨le_rfl, by omega, by omega, .inl rfl, .inl (by omega)⟩ (by omega) hne hfirst

end TermInfosReader

/-! ## The files of a dictionary -/

/-- A dictionary that can be written and read. -/
structure DictionaryOK (fieldInfos : FieldInfos) (interval : ℕ) (es : List IndexTerm) : Prop where
  readable : Readable fieldInfos es
  ascending : Ascending es
  interval_pos : 0 < interval
  interval_lt : interval < 2 ^ 31
  length_lt : es.length < 2 ^ 31
  end_lt : endOf fieldInfos es es.length < 2 ^ 63

def tisFile (fieldInfos : FieldInfos) (interval : ℕ) (es : List IndexTerm) : List UInt8 :=
  header es.length interval ++ chain fieldInfos false start es

def tiiFile (fieldInfos : FieldInfos) (interval : ℕ) (es : List IndexTerm) : List UInt8 :=
  header (indexed fieldInfos interval es).length interval ++ chain fieldInfos true start (indexed fieldInfos interval es)

namespace TermInfosReader

variable {x : TermInfosReader} {interval : ℕ}

/-- An enumeration stands somewhere, or behind the last term. -/
def Somewhere (fieldInfos : FieldInfos) (es : List IndexTerm) (x : SegmentTermEnum) : Prop :=
  x._term = none ∨ ∃ k cur rest, SegmentTermEnum.At fieldInfos false es k cur rest x

/-- What a reader has and keeps. -/
structure Ready (fieldInfos : FieldInfos) (interval : ℕ) (es : List IndexTerm) (x : TermInfosReader) : Prop where
  size : x._size = es.length
  totalIndexInterval : x.totalIndexInterval = interval
  orig : SegmentTermEnum.Of fieldInfos false es (tisFile fieldInfos interval es) x.origEnum ∧
    SegmentTermEnum.At fieldInfos false es 0 start es x.origEnum
  index : List.Forall₂ Like x.ensureIndexIsRead (indexed fieldInfos interval es)
  enum : SegmentTermEnum.Of fieldInfos false es (tisFile fieldInfos interval es) x.getEnum ∧ Somewhere fieldInfos es x.getEnum
  empty : es = [] → SegmentTermEnum.At fieldInfos false es 0 start [] x.getEnum

/-- What a lookup is to give: the empty term counts where there are others. -/
def lookup (es : List IndexTerm) (t : Term) : Option TermInfo :=
  if es = [] then none else ((start :: es).find? fun e => e.term = t).map (·.info)

theorem start_le : start.term ≤ t := by
  refine Term.nil_le.2 ?_
  exact not_lt.1 (List.not_lt_nil _)

/-- **A seek** leads to the term of the index. -/
theorem seekEnum_spec (hes : DictionaryOK fieldInfos interval es) (h : Ready fieldInfos interval es x) {i : ℕ} {e : IndexTerm}
    (he : x.ensureIndexIsRead[i]? = some e) : SegmentTermEnum.Of fieldInfos false es (tisFile fieldInfos interval es)
      (x.seekEnum x.ensureIndexIsRead i) ∧ ∃ rest cur, cur.term = e.term ∧
        SegmentTermEnum.At fieldInfos false es (i * interval) cur rest (x.seekEnum x.ensureIndexIsRead i) := by
  obtain ⟨hlt, hget⟩ := List.getElem?_eq_some_iff.1 he
  have hlt' : i < (indexed fieldInfos interval es).length := by rw [← h.index.length_eq]; exact hlt
  have hlike : e.Like (indexed fieldInfos interval es)[i] := by
    have := h.index.get hlt hlt'
    simpa [hget] using this
  obtain ⟨hbound, hentry⟩ := getElem?_indexed hes.interval_pos (List.getElem?_eq_getElem hlt')
  rw [hentry] at hlike
  have hk : i * interval < (start :: es).length := by rw [List.length_cons]; omega
  -- the term of the index stands before the terms behind it, in the list as in the file
  have hsplit := List.drop_eq_getElem_cons hk
  have hcur : (start :: es).getD (i * interval) start = (start :: es)[i * interval] := List.getD_eq_getElem _ _ hk
  obtain ⟨hof, -⟩ := h.enum
  unfold seekEnum
  rw [Int.toNat_natCast, he, h.totalIndexInterval]
  dsimp only
  have hfile : (tisFile fieldInfos interval es).drop (endOf fieldInfos es (i * interval)) =
      chain fieldInfos false (start :: es)[i * interval] ((start :: es).drop (i * interval + 1)) := by
    have hheader : (header es.length interval).length = 24 := header_length
    rw [tisFile, endOf, chain_split hsplit, ← hheader, ← List.length_append, ← List.append_assoc, List.drop_left]
  refine ⟨⟨hof.fieldInfos, hof.isIndex, hof.format, hof.size, hof.skipInterval, hof.maxSkipLevels, hof.file⟩, _, _, ?_,
    hsplit, ?_, ?_, ?_, ?_,
    fun hfalse => absurd hfalse (by decide), ?_, fun p hp => absurd hp (by simp [SegmentTermEnum.seek])⟩
  · rw [hlike.term, ← hcur]
    rfl
  · show (i : ℤ) * interval - 1 = _
    push_cast
    rfl
  · rw [← hcur]
    exact congrArg some hlike.term
  · rw [← hcur]
    exact congrArg Term.text hlike.term
  · rw [← hcur]
    exact hlike.info
  · show (x.getEnum.input.seek e.pointer).rest = _
    rw [ByteInput.rest, seek_file, hof.file, seek_pos, hlike.pointer]
    exact hfile

/-- The enumeration goes on only where it has not passed the term. -/
theorem behind_of_goesOn (hes : DictionaryOK fieldInfos interval es) (h : Ready fieldInfos interval es x) {l : List IndexTerm}
    (hgoes : x.goesOn l t = true) : ∃ k cur rest, SegmentTermEnum.At fieldInfos false es k cur rest x.getEnum ∧
      SegmentTermEnum.Behind es k t := by
  unfold goesOn at hgoes
  dsimp only at hgoes
  obtain ⟨-, hnone | ⟨k, cur, rest, hat⟩⟩ := h.enum
  · rw [hnone] at hgoes
    cases hgoes
  · rw [hat.term] at hgoes
    refine ⟨k, cur, rest, hat, ?_⟩
    rcases Bool.or_eq_true_iff.1 (Bool.and_eq_true_iff.1 hgoes).1 with hprev | hcur
    · obtain ⟨p, hp, hlt⟩ := (Option.any_eq_true _ _).1 hprev
      exact hat.behind_of_prev hes.ascending hp (of_decide_eq_true hlt)
    · exact hat.behind_of_le hes.ascending (of_decide_eq_true hcur)

/-- **A lookup** leads the enumeration to the first term that is not before the one that is looked for. -/
theorem get_lands (hes : DictionaryOK fieldInfos interval es) (h : Ready fieldInfos interval es x) (hne : es ≠ []) :
    SegmentTermEnum.Lands fieldInfos false es (tisFile fieldInfos interval es) (from_ t es) (x.get t).2.getEnum ∧
      (x.get t).1 = (if (x.get t).2.getEnum._term = some t then some (x.get t).2.getEnum.termInfo else none) ∧
      Ready fieldInfos interval es (x.get t).2 := by
  have hsize : x._size ≠ 0 := by
    rw [h.size]
    have := List.length_pos_iff.2 hne
    omega
  have hlands : SegmentTermEnum.Lands fieldInfos false es (tisFile fieldInfos interval es) (from_ t es)
      ((if x.goesOn x.ensureIndexIsRead t then x.getEnum
        else x.seekEnum x.ensureIndexIsRead (getIndexOffset x.ensureIndexIsRead t)).scanTo t) := by
    -- it goes on from where it stands, or starts at a term of the index
    by_cases hgoes : x.goesOn x.ensureIndexIsRead t = true
    · rw [if_pos hgoes]
      obtain ⟨k, cur, rest, hat, hbehind⟩ := behind_of_goesOn hes h hgoes
      exact SegmentTermEnum.scanTo_spec hes.readable h.enum.1 hat hbehind
    · rw [if_neg hgoes]
      have hindex : x.ensureIndexIsRead ≠ [] := by
        intro hnil
        have hlength := h.index.length_eq
        rw [hnil] at hlength
        exact indexed_ne_nil hes.interval_pos hne (List.length_eq_zero_iff.1 hlength.symm)
      -- the first term of the index is the empty one
      have hfirst : ∀ e, x.ensureIndexIsRead[0]? = some e → e.term ≤ t := by
        intro e he
        obtain ⟨-, rest, cur, hcur, hat⟩ := seekEnum_spec hes h he
        have hstart := hat.getElem?_eq
        rw [Nat.zero_mul, List.getElem?_cons_zero, Option.some_inj] at hstart
        rw [← hcur, ← hstart]
        exact start_le
      obtain ⟨j, e, hoffset, he, hle⟩ := getIndexOffset_spec hindex hfirst
      obtain ⟨hof, rest, cur, hcur, hat⟩ := seekEnum_spec hes h he
      rw [hoffset]
      exact SegmentTermEnum.scanTo_spec hes.readable hof hat (hat.behind_of_le hes.ascending (hcur ▸ hle))
  unfold get
  rw [if_neg hsize]
  refine ⟨hlands, rfl, h.size, h.totalIndexInterval, h.orig, h.index, ⟨hlands.of, ?_⟩, fun hnil => absurd hnil hne⟩
  have hstands := hlands.stands
  cases hfrom : from_ t es with
  | nil =>
    rw [hfrom] at hstands
    exact .inl hstands
  | cons cur rest =>
    rw [hfrom] at hstands
    obtain ⟨k, hat⟩ := hstands
    exact .inr ⟨k, cur, rest, hat⟩

/-- **What is found** does not depend on what has been looked up before. -/
theorem get_spec (hes : DictionaryOK fieldInfos interval es) (h : Ready fieldInfos interval es x) (t : Term) :
    Option.Rel TermInfo.Same (x.get t).1 (lookup es t) ∧ Ready fieldInfos interval es (x.get t).2 := by
  by_cases hne : es = []
  · have hsize : x._size = 0 := by rw [h.size, hne]; rfl
    rw [get, if_pos hsize, lookup, if_pos hne]
    exact ⟨.none, h⟩
  · obtain ⟨hlands, hfound, hready⟩ := get_lands (t := t) hes h hne
    rw [hfound, lookup, if_neg hne]
    exact ⟨hlands.found hes.ascending, hready⟩

/-- What an enumeration is to give. Where there are no terms, it stands on the empty one. -/
def listed (es : List IndexTerm) : Option Term → List IndexTerm
  | none => es
  | some t => if es = [] then [start] else from_ t es

/-- **An enumeration** has all terms from one on. -/
theorem terms_some (hes : DictionaryOK fieldInfos interval es) (h : Ready fieldInfos interval es x) (t : Term) :
    List.Forall₂ SegmentTermEnum.Entry (x.terms (some t)).1.entries (listed es (some t)) ∧
      Ready fieldInfos interval es (x.terms (some t)).2 := by
  obtain ⟨-, hready⟩ := get_spec hes h t
  refine ⟨?_, hready.size, hready.totalIndexInterval, hready.orig, hready.index, hready.enum, hready.empty⟩
  rw [listed]
  by_cases hne : es = []
  · have hsize : x._size = 0 := by rw [h.size, hne]; rfl
    have hget : (x.get t).2 = x := by rw [get, if_pos hsize]
    rw [if_pos hne]
    show List.Forall₂ _ (x.get t).2.getEnum.entries _
    rw [hget]
    exact (h.empty hne).entries hes.readable h.enum.1
  · rw [if_neg hne]
    exact (get_lands hes h hne).1.entries hes.readable

/-- **An enumeration of all terms**, wherever others stand. -/
theorem terms_none (hes : DictionaryOK fieldInfos interval es) (h : Ready fieldInfos interval es x) :
    List.Forall₂ SegmentTermEnum.Entry (x.terms none).1.next.2.entries (listed es none) := by
  obtain ⟨hof, hat⟩ := h.orig
  show List.Forall₂ _ x.origEnum.next.2.entries es
  cases es with
  | nil =>
    obtain ⟨-, -, hnone⟩ := SegmentTermEnum.next_end hof hat
    rw [SegmentTermEnum.entries, SegmentTermEnum.entriesLoop_none hnone]
    exact .nil
  | cons e es =>
    obtain ⟨-, hof', hat'⟩ := SegmentTermEnum.next_spec hes.readable hof hat
    exact hat'.entries hes.readable hof'

end TermInfosReader

end QDesktopSearch
