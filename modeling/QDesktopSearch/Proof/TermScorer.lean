import Mathlib.Data.List.Nodup
import QDesktopSearch.Model.TermScorer

/-!
# The documents of a term in all segments, and their scores

* `MultiTermDocs.feeds`: the documents of the segments, one segment after the other.
* `TermScorer.visits`: the scorer visits them, each with its score, in spite of its buffer.
-/

namespace QDesktopSearch

open Feed

/-! ## Several segments -/

/-- The documents of a segment have their numbers from `base` on. -/
def shift (base : ℕ) (l : List (ℕ × ℕ)) : List (ℕ × ℕ) := l.map fun d => (base + d.1, d.2)

/-- The documents of several segments. -/
def joined (starts : List ℕ) (ls : List (List (ℕ × ℕ))) : List (ℕ × ℕ) := (List.zipWith shift starts ls).flatten

theorem joined_cons {start : ℕ} {starts : List ℕ} {l : List (ℕ × ℕ)} {ls : List (List (ℕ × ℕ))} :
    joined (start :: starts) (l :: ls) = shift start l ++ joined starts ls := rfl

namespace MultiTermDocs

variable {δ : Type*} [Feed δ ℕ] {x : MultiTermDocs δ} {l : List (ℕ × ℕ)} {n : ℕ}

/-- What is left of the current segment, and of the segments after it. -/
structure On (cur : List (ℕ × ℕ)) (rest : List (List (ℕ × ℕ))) (x : MultiTermDocs δ) : Prop where
  starts : x.starts.length = x.readerTermDocs.length
  current : x.current.elim (cur = []) (Feeds False cur)
  rest : List.Forall₂ (Feeds False) rest (x.readerTermDocs.drop x.pointer)

/-- The documents that are left. -/
def At (l : List (ℕ × ℕ)) (x : MultiTermDocs δ) : Prop :=
  ∃ cur rest, On cur rest x ∧ l = shift x.base cur ++ joined (x.starts.drop x.pointer) rest

theorem left_eq : left x = x.current.elim 0 left + ((x.readerTermDocs.drop x.pointer).map left).sum := rfl

theorem left_nextSegment (hlt : x.pointer < x.readerTermDocs.length) : left x.nextSegment ≤ left x := by
  rw [left_eq, left_eq, List.drop_eq_getElem_cons hlt]
  simp only [nextSegment, List.getElem?_eq_getElem hlt, Option.elim_some, List.map_cons, List.sum_cons]
  omega

/-- The next segment. -/
theorem On.nextSegment {cur : List (ℕ × ℕ)} {rest : List (List (ℕ × ℕ))} (h : On cur rest x)
    (hlt : x.pointer < x.readerTermDocs.length) : At (joined (x.starts.drop x.pointer) rest) x.nextSegment := by
  have hget : x.readerTermDocs[x.pointer]? = some x.readerTermDocs[x.pointer] := List.getElem?_eq_getElem hlt
  have hlt' : x.pointer < x.starts.length := by rw [h.starts]; exact hlt
  have hbase : x.starts.getD x.pointer 0 = x.starts[x.pointer] := List.getD_eq_getElem _ _ hlt'
  have hrest := h.rest
  rw [List.drop_eq_getElem_cons hlt] at hrest
  obtain _ | @⟨cur', _, rest', _, hcur', hrest'⟩ := hrest
  refine ⟨cur', rest', ⟨h.starts, ?_, hrest'⟩, ?_⟩
  · simpa only [MultiTermDocs.nextSegment, hget, Option.elim_some] using hcur'
  · rw [List.drop_eq_getElem_cons hlt']
    simp only [MultiTermDocs.nextSegment, hbase]
    rfl

/-- After the last segment there is nothing. -/
theorem On.last {cur : List (ℕ × ℕ)} {rest : List (List (ℕ × ℕ))} (h : On cur rest x)
    (hlt : ¬ x.pointer < x.readerTermDocs.length) : joined (x.starts.drop x.pointer) rest = [] := by
  have hrest := h.rest
  rw [List.drop_eq_nil_of_le (not_lt.1 hlt)] at hrest
  cases hrest
  rw [joined, List.zipWith_nil_right]
  rfl

/-- **The loop of `next` and `skipTo`**, for a call that picks what the calls on the segments select. -/
theorem moveLoop_spec (sel : ℕ → List (ℕ × ℕ) → List (ℕ × ℕ)) (pick : List (ℕ × ℕ) → List (ℕ × ℕ))
    {move : ℕ → δ → Bool × δ}
    (hmove : ∀ base c cur, Feeds False cur c → Moves (Feeds False) (sel base cur) (left c) (move base c)) (hnil : pick [] = [])
    (hpick : ∀ base cur rest, pick (shift base cur ++ rest) =
      if sel base cur = [] then pick rest else shift base (sel base cur) ++ rest)
    (h : At l x) (hn : x.readerTermDocs.length - x.pointer < n) : Moves At (pick l) (left x) (moveLoop move n x) := by
  induction n generalizing l x with
  | zero => omega
  | succ n ih =>
    obtain ⟨cur, rest, hon, rfl⟩ := h
    -- the current segment has nothing for the call
    have hgo : ∀ o : Option δ, o.elim True (Feeds False []) →
        Moves At (pick (joined (x.starts.drop x.pointer) rest)) (left x)
          (if x.pointer < x.readerTermDocs.length then moveLoop move n x.nextSegment
              else (false, { x with current := o })) := by
      intro o ho
      by_cases hlt : x.pointer < x.readerTermDocs.length
      · rw [if_pos hlt]
        have hnext : x.nextSegment.readerTermDocs.length - x.nextSegment.pointer < n := by
          show x.readerTermDocs.length - (x.pointer + 1) < n
          omega
        exact (ih (hon.nextSegment hlt) hnext).mono (fun _ _ h => h) (left_nextSegment hlt)
      · rw [if_neg hlt]
        have hlast := hon.last hlt
        refine ⟨fun h => absurd h (by simp), fun _ => ⟨by rw [hlast, hnil], [], rest, ⟨hon.starts, ?_, hon.rest⟩, hlast.symm⟩⟩
        cases o with
        | none => rfl
        | some c => exact ho
    unfold moveLoop
    have hcur := hon.current
    cases hc : x.current with
    | none =>
      rw [hc] at hcur
      rw [show cur = [] from hcur]
      have hsame : x = { x with current := none } := by rw [← hc]
      dsimp only
      rw [if_neg (by simp)]
      have hnone := hgo none trivial
      rwa [← hsame] at hnone
    | some c =>
      rw [hc] at hcur
      have hm := hmove x.base c cur hcur
      dsimp only
      rw [hpick]
      cases hr : (move x.base c).1 with
      | true =>
        obtain ⟨l', hl, hl', hlt⟩ := hm.found hr
        rw [Prod.map_fst, id, hr, if_pos rfl, hl, if_neg (by simp)]
        refine ⟨fun _ => ⟨shift x.base l' ++ joined (x.starts.drop x.pointer) rest, rfl,
          ⟨l', rest, ⟨hon.starts, hl', hon.rest⟩, rfl⟩, ?_⟩, fun h => absurd h (by simp)⟩
        rw [left_eq, left_eq, hc]
        exact Nat.add_lt_add_right hlt _
      | false =>
        obtain ⟨hl, hl'⟩ := hm.exhausted hr
        rw [Prod.map_fst, id, hr, if_pos hl, if_neg Bool.false_ne_true]
        exact hgo (some (move x.base c).2) hl'

theorem since_shift {base : ℕ} {t : ℤ} {cur rest : List (ℕ × ℕ)} : since t (shift base cur ++ rest) =
    if since (t - base) cur = [] then since t rest else shift base (since (t - base) cur) ++ rest := by
  induction cur with
  | nil => rfl
  | cons d cur ih =>
    unfold since shift at ih ⊢
    rw [List.map_cons, List.cons_append]
    by_cases hlt : (d.1 : ℤ) < t - base
    · have hlt' : ((base + d.1 : ℕ) : ℤ) < t := by omega
      rw [List.dropWhile_cons_of_pos (by simpa using hlt'), List.dropWhile_cons_of_pos (by simpa using hlt)]
      exact ih
    · have hlt' : ¬ ((base + d.1 : ℕ) : ℤ) < t := by omega
      rw [List.dropWhile_cons_of_neg (by simpa using hlt'), List.dropWhile_cons_of_neg (by simpa using hlt)]
      rfl

/-- **The loop of `read`** goes on to a segment that has something. -/
theorem readLoop_spec {k : ℕ} (hk : 0 < k) (h : At l x)
    (hn : 2 * (x.readerTermDocs.length - x.pointer) + x.current.elim 0 (fun _ => 1) < n) :
    Fills False At l k (left x) (readLoop k n x) := by
  induction n generalizing l x with
  | zero => omega
  | succ n ih =>
    obtain ⟨cur, rest, hon, rfl⟩ := h
    have hcur := hon.current
    unfold readLoop
    cases hc : x.current with
    | none =>
      rw [hc] at hcur hn
      rw [show cur = [] from hcur]
      dsimp only
      by_cases hlt : x.pointer < x.readerTermDocs.length
      · rw [if_pos hlt]
        have hget : x.nextSegment.current = some x.readerTermDocs[x.pointer] := List.getElem?_eq_getElem hlt
        have hfuel : 2 * (x.nextSegment.readerTermDocs.length - x.nextSegment.pointer) +
            x.nextSegment.current.elim 0 (fun _ => 1) < n := by
          rw [hget]
          show 2 * (x.readerTermDocs.length - (x.pointer + 1)) + 1 < n
          simp only [Option.elim_none] at hn
          omega
        obtain ⟨hsplit, hlength, hgoes, hleft, -⟩ := ih (hon.nextSegment hlt) hfuel
        exact ⟨hsplit, hlength, hgoes, hleft.trans (left_nextSegment hlt), False.elim⟩
      · rw [if_neg hlt]
        have hlast := hon.last hlt
        refine ⟨⟨_, rfl, [], rest, ⟨hon.starts, ?_, hon.rest⟩, rfl⟩, Nat.zero_le _, fun _ => hlast, le_rfl, False.elim⟩
        rw [hc]
        rfl
    | some c =>
      rw [hc] at hcur hn
      have hread := Feeds.read (l := cur) (s := c) hcur hk
      dsimp only
      generalize Feed.read c k = r at hread ⊢
      obtain ⟨⟨l', hl, hl'⟩, hlength, hgoes, hleft, -⟩ := hread
      by_cases hzero : r.1.length = 0
      · rw [if_pos hzero]
        have hnil := List.length_eq_zero_iff.1 hzero
        have hempty := hgoes hnil
        obtain ⟨hsplit, hlength', hgoes', hleft', -⟩ := ih (x := { x with current := none })
          ⟨[], rest, ⟨hon.starts, rfl, hon.rest⟩, rfl⟩ (by simp only [Option.elim_none, Option.elim_some] at hn ⊢; omega)
        rw [hempty]
        refine ⟨hsplit, hlength', hgoes', hleft'.trans ?_, False.elim⟩
        rw [left_eq, left_eq, hc]
        exact Nat.add_le_add_right (Nat.zero_le _) _
      · rw [if_neg hzero]
        refine ⟨⟨shift x.base l' ++ joined (x.starts.drop x.pointer) rest, ?_, l', rest, ⟨hon.starts, hl', hon.rest⟩, rfl⟩, ?_,
          fun hnil => ?_, ?_, False.elim⟩
        · rw [hl, shift, shift, List.map_append, List.append_assoc]
          simp only [Nat.add_comm]
        · rw [List.length_map]
          exact hlength
        · rw [List.map_eq_nil_iff] at hnil
          exact absurd (List.length_eq_zero_iff.2 hnil) hzero
        · rw [left_eq, left_eq, hc, List.length_map]
          simp only [Option.elim_some]
          omega

/-- **All segments give their documents**, one segment after the other. -/
theorem feeds {ls : List (List (ℕ × ℕ))} {readerTermDocs : List δ} {starts : List ℕ}
    (h : List.Forall₂ (Feeds False) ls readerTermDocs)
    (hstarts : starts.length = readerTermDocs.length) : Feeds False (joined starts ls) (seek readerTermDocs starts) := by
  refine .of_closed (R := At) ⟨fun {l x} hx => ?_, fun {l x k} hx hk => ?_, fun {l x t} hx => ?_⟩
    ⟨[], ls, ⟨hstarts, rfl, h⟩, rfl⟩
  · refine moveLoop_spec (fun _ l => l) id (fun _ _ _ h => h.next) rfl (fun base cur rest => ?_) hx (Nat.lt_succ_self _)
    dsimp only [id]
    split
    · rename_i hnil
      rw [hnil]
      rfl
    · rfl
  · refine readLoop_spec hk hx ?_
    cases x.current with
    | none => exact Nat.lt_add_of_pos_right (by decide)
    | some _ => exact Nat.lt_succ_self _
  · exact moveLoop_spec (fun base => since (t - base)) (since t) (fun _ _ _ h => h.skipTo) rfl (fun _ _ _ => since_shift) hx
      (Nat.lt_succ_self _)

end MultiTermDocs

/-! ## Scores -/

namespace TermScorer

variable {δ ρ : Type*} [Feed δ ℕ] [FloatT ρ] {similarity : Similarity ρ} {norms : ℕ → UInt8} {weightValue : ρ}
    {l : List (ℕ × ℕ)}
  {s : TermScorer δ ρ} {c t : ℤ} {d : ℕ × ℕ}

/-- The score of a document in which the term has a frequency. -/
def scoreOf (similarity : Similarity ρ) (norms : ℕ → UInt8) (weightValue : ρ) (d : ℕ × ℕ) : ρ :=
  similarity.tf d.2 * weightValue * similarity.decodeNorm (norms d.1)

/-- The documents of a term with their scores. -/
def scored (similarity : Similarity ρ) (norms : ℕ → UInt8) (weightValue : ρ) (l : List (ℕ × ℕ)) (e : ℤ) : Option (Set ρ) :=
  (l.find? fun d => decide ((d.1 : ℤ) = e)).map fun d => {scoreOf similarity norms weightValue d}

/-- What does not change. -/
def Has (f : Similarity ρ) (norms : ℕ → UInt8) (weightValue : ρ) (s : TermScorer δ ρ) : Prop :=
  s.similarity = f ∧ s.norms = norms ∧ s.weightValue = weightValue ∧
    s.scoreCache = (List.range scoreCacheSize).map fun i => f.tf i * weightValue

/-- The scorer stands on `c`; what lies ahead is in the buffer and below. -/
structure At (l : List (ℕ × ℕ)) (s : TermScorer δ ρ) (c : ℤ) : Prop where
  splits : ∃ before rest, l = before ++ (s.docs.drop (s.pointer + 1) ++ rest) ∧ Feeds False rest s.termDocs ∧
    (∀ d ∈ before, (d.1 : ℤ) ≤ c) ∧ ∀ d ∈ s.docs.drop (s.pointer + 1) ++ rest, c < (d.1 : ℤ)
  stands : ∀ d ∈ l, (d.1 : ℤ) = c → s._doc = c ∧ s.docs[s.pointer]? = some d

theorem scored_isSome {e : ℤ} : (scored similarity norms weightValue l e).isSome = true ↔ ∃ d ∈ l, (d.1 : ℤ) = e := by
  simp [scored, List.find?_isSome]

/-- A document is scored by itself. -/
theorem scored_eq (hl : l.Pairwise fun d e => d.1 < e.1) (hd : d ∈ l) :
    scored similarity norms weightValue l d.1 = some {scoreOf similarity norms weightValue d} := by
  have hsome : (l.find? fun e => decide ((e.1 : ℤ) = d.1)).isSome = true := List.find?_isSome.2 ⟨d, hd, by simp⟩
  obtain ⟨e, he⟩ := Option.isSome_iff_exists.1 hsome
  have hfound := List.find?_some he
  have hnodup : (l.map Prod.fst).Nodup := List.pairwise_map.2 (hl.imp Nat.ne_of_lt)
  -- no document is in the list twice
  have hsame : e = d := List.inj_on_of_nodup_map hnodup (List.mem_of_find?_eq_some he) hd (by simpa using hfound)
  rw [scored, he, hsame]
  rfl

omit [Feed δ ℕ] in
/-- **The score**, from the cache or not. -/
theorem score_spec (hs : Has similarity norms weightValue s) (hdoc : s._doc = d.1) (hget : s.docs[s.pointer]? = some d) :
    s.score = scoreOf similarity norms weightValue d := by
  obtain ⟨rfl, rfl, rfl, hcache⟩ := hs
  have hfreq : (s.docs.getD s.pointer (0, 0)).2 = d.2 := by rw [List.getD_eq_getElem?_getD, hget]; rfl
  unfold score scoreOf
  rw [hfreq, hdoc, Int.toNat_natCast, hcache]
  dsimp only
  split
  · rename_i hlt
    rw [List.getD_eq_getElem?_getD, List.getElem?_map, List.getElem?_range hlt]
    rfl
  · rfl

/-- A document has been found. -/
theorem lands_found {before after rest : List (ℕ × ℕ)} (hl : l.Pairwise fun d e => d.1 < e.1)
    (hsplit : l = before ++ d :: after)
    (hbefore : ∀ e ∈ before, (e.1 : ℤ) < t) (ht : t ≤ d.1) (hdoc : s._doc = d.1) (hget : s.docs[s.pointer]? = some d)
    (hafter : after = s.docs.drop (s.pointer + 1) ++ rest) (hrest : Feeds False rest s.termDocs) :
    Cursor.First (scored similarity norms weightValue l) t d.1 ∧ At l s d.1 := by
  have hmem : d ∈ l := by rw [hsplit]; simp
  have hpairs := hl
  rw [hsplit, List.pairwise_append, List.pairwise_cons] at hpairs
  refine ⟨⟨⟨ht, scored_isSome.2 ⟨d, hmem, rfl⟩⟩, ?_⟩, ⟨before ++ [d], rest, ?_, hrest, fun e he => ?_, fun e he => ?_⟩,
    fun e he heq => ?_⟩
  · rintro e ⟨hte, hsome⟩
    obtain ⟨a, ha, rfl⟩ := scored_isSome.1 hsome
    rw [hsplit, List.mem_append, List.mem_cons] at ha
    rcases ha with ha | rfl | ha
    · have := hbefore a ha
      omega
    · exact le_rfl
    · have := hpairs.2.1.1 a ha
      omega
  · rw [hsplit, hafter, List.append_assoc, List.singleton_append]
  · rcases List.mem_append.1 he with he | he
    · have := hbefore e he
      omega
    · rw [List.mem_singleton.1 he]
  · have := hpairs.2.1.1 e (by rw [hafter]; exact he)
    omega
  · have hnodup : (l.map Prod.fst).Nodup := List.pairwise_map.2 (hl.imp Nat.ne_of_lt)
    have hsame : e = d := List.inj_on_of_nodup_map hnodup he hmem (by simpa using heq)
    rw [hsame]
    exact ⟨hdoc, hget⟩

/-- **The scan in the buffer.** -/
theorem scanCache_spec (docs : List (ℕ × ℕ)) {n p : ℕ} (hn : docs.length - p < n) :
    docs.drop (scanCache docs t n p) = since t (docs.drop p) ∧ p ≤ scanCache docs t n p := by
  induction n generalizing p with
  | zero => omega
  | succ n ih =>
    unfold scanCache
    cases hget : docs[p]? with
    | none =>
      rw [List.drop_eq_nil_of_le (List.getElem?_eq_none_iff.1 hget)]
      exact ⟨rfl, le_rfl⟩
    | some d =>
      obtain ⟨hlt, rfl⟩ := List.getElem?_eq_some_iff.1 hget
      rw [List.drop_eq_getElem_cons hlt]
      dsimp only
      by_cases hge : (docs[p].1 : ℤ) ≥ t
      · rw [if_pos hge, since, List.dropWhile_cons_of_neg (by simpa using hge), List.drop_eq_getElem_cons hlt]
        exact ⟨rfl, le_rfl⟩
      · rw [if_neg hge, since, List.dropWhile_cons_of_pos (by simpa using hge)]
        obtain ⟨hdrop, hle⟩ := ih (p := p + 1) (by omega)
        exact ⟨hdrop, by omega⟩

/-- There is no document from `t` on. -/
theorem scored_none (h : ∀ d ∈ l, (d.1 : ℤ) < t) {e : ℤ} (he : t ≤ e) : scored similarity norms weightValue l e = none := by
  rw [← Option.not_isSome_iff_eq_none, scored_isSome]
  rintro ⟨d, hd, rfl⟩
  have := h d hd
  omega

/-- What the scorer keeps from call to call. -/
def Kept (f : Similarity ρ) (norms : ℕ → UInt8) (weightValue : ρ) (l : List (ℕ × ℕ)) (s : TermScorer δ ρ) (c : ℤ) : Prop :=
  Has f norms weightValue s ∧ At l s c

/-- **`next`**, which fills the buffer where it is needed. -/
theorem next_spec (hl : l.Pairwise fun d e => d.1 < e.1) (h : Kept similarity norms weightValue l s c) :
    Cursor.Lands (scored similarity norms weightValue l) (Kept similarity norms weightValue l) (c + 1)
      (Cursor.left s) s.next := by
  obtain ⟨hs, hat⟩ := h
  obtain ⟨before, rest, hsplit, hrest, hle, hgt⟩ := hat.splits
  have hbefore : ∀ e ∈ before, (e.1 : ℤ) < c + 1 := fun e he => by
    have := hle e he
    omega
  unfold next
  dsimp only
  cases hget : s.docs[s.pointer + 1]? with
  | some d =>
    obtain ⟨hlt, rfl⟩ := List.getElem?_eq_some_iff.1 hget
    rw [List.drop_eq_getElem_cons hlt] at hsplit hgt
    have hahead := hgt _ List.mem_cons_self
    obtain ⟨hfirst, hat'⟩ := lands_found
      (s := { s with pointer := s.pointer + 1, _doc := s.docs[s.pointer + 1].1 }) hl hsplit hbefore hahead rfl hget rfl hrest
    refine ⟨fun _ => ⟨hfirst, ?_, hs, hat'⟩, fun h => absurd h (by simp)⟩
    show s.docs.length - (s.pointer + 1 + 1) + left s.termDocs < s.docs.length - (s.pointer + 1) + left s.termDocs
    omega
  | none =>
    rw [List.drop_eq_nil_of_le (List.getElem?_eq_none_iff.1 hget), List.nil_append] at hsplit
    have hread := hrest.read (k := 32) (by decide)
    dsimp only
    generalize Feed.read s.termDocs 32 = r at hread ⊢
    obtain ⟨⟨rest', hrest', hfeeds⟩, -, hgoes, hleft⟩ := hread
    cases hr : r.1 with
    | nil =>
      rw [hgoes hr, List.append_nil] at hsplit
      exact .of_none fun e he => scored_none (hsplit ▸ hbefore) he
    | cons d ds =>
      rw [hr, List.length_cons] at hleft
      have hahead := hgt d (by rw [hrest', hr]; simp)
      rw [hrest', hr] at hsplit
      obtain ⟨hfirst, hat'⟩ := lands_found
        (s := { s with termDocs := r.2, docs := d :: ds, pointer := 0, _doc := d.1 }) hl hsplit hbefore hahead rfl
          rfl rfl hfeeds
      refine ⟨fun _ => ⟨hfirst, ?_, hs, hat'⟩, fun h => absurd h (by simp)⟩
      show (d :: ds).length - (0 + 1) + left r.2 < s.docs.length - (s.pointer + 1) + left s.termDocs
      rw [List.length_cons]
      omega

/-- **`skipTo`**, which looks in the buffer first. -/
theorem skipTo_spec (hl : l.Pairwise fun d e => d.1 < e.1) (h : Kept similarity norms weightValue l s c) (ht : c < t) :
    Cursor.Lands (scored similarity norms weightValue l) (Kept similarity norms weightValue l) t (Cursor.left s)
      (s.skipTo t) := by
  obtain ⟨hs, hat⟩ := h
  obtain ⟨before, rest, hsplit, hrest, hle, hgt⟩ := hat.splits
  have hbefore : ∀ e ∈ before, (e.1 : ℤ) < t := fun e he => lt_of_le_of_lt (hle e he) ht
  obtain ⟨hdrop, hpointer⟩ := scanCache_spec s.docs (t := t) (n := s.docs.length + 1) (p := s.pointer + 1) (by omega)
  -- what of the buffer is passed lies before the target
  obtain ⟨passed, hpassed, hlt⟩ := since_split t (s.docs.drop (s.pointer + 1))
  rw [← hdrop] at hpassed
  unfold skipTo
  dsimp only
  generalize scanCache s.docs t (s.docs.length + 1) (s.pointer + 1) = q at hdrop hpointer hpassed ⊢
  rw [hpassed, List.append_assoc, ← List.append_assoc] at hsplit
  have hbefore' : ∀ e ∈ before ++ passed, (e.1 : ℤ) < t := fun e he => (List.mem_append.1 he).elim (hbefore e) (hlt e)
  cases hget : s.docs[q]? with
  | some d =>
    obtain ⟨hq, rfl⟩ := List.getElem?_eq_some_iff.1 hget
    rw [List.drop_eq_getElem_cons hq] at hsplit hdrop
    obtain ⟨hfirst, hat'⟩ := lands_found
      (s := { s with pointer := q, _doc := s.docs[q].1 }) hl hsplit hbefore' (le_of_since hdrop.symm) rfl hget rfl hrest
    refine ⟨fun _ => ⟨hfirst, ?_, hs, hat'⟩, fun h => absurd h (by simp)⟩
    show s.docs.length - (q + 1) + left s.termDocs < s.docs.length - (s.pointer + 1) + left s.termDocs
    omega
  | none =>
    rw [List.drop_eq_nil_of_le (List.getElem?_eq_none_iff.1 hget), List.nil_append] at hsplit
    have hskip := hrest.skipTo (t := t)
    -- and so does what is passed behind the buffer
    obtain ⟨passed', hpassed', hlt'⟩ := since_split t rest
    rw [hpassed', ← List.append_assoc] at hsplit
    have hbefore'' : ∀ e ∈ before ++ passed ++ passed', (e.1 : ℤ) < t :=
      fun e he => (List.mem_append.1 he).elim (hbefore' e) (hlt' e)
    dsimp only
    generalize Feed.skipTo s.termDocs t = r at hskip ⊢
    cases hr : r.1 with
    | true =>
      obtain ⟨rest', htop, hfeeds, hleft⟩ := hskip.found hr
      rw [if_pos rfl]
      rw [htop] at hsplit
      obtain ⟨hfirst, hat'⟩ := lands_found
        (s := { s with termDocs := r.2, docs := [top r.2], pointer := 0, _doc := (top r.2).1 }) hl hsplit hbefore''
          (le_of_since htop)
        rfl rfl rfl hfeeds
      refine ⟨fun _ => ⟨hfirst, ?_, hs, hat'⟩, fun h => absurd h (by simp)⟩
      show 1 - (0 + 1) + left r.2 < s.docs.length - (s.pointer + 1) + left s.termDocs
      omega
    | false =>
      obtain ⟨hnil, -⟩ := hskip.exhausted hr
      rw [if_neg (by simp)]
      rw [hnil, List.append_nil] at hsplit
      exact .of_none fun e he => scored_none (hsplit ▸ hbefore'') he

/-- **The scorer of a term** visits its documents, with their scores. -/
theorem visits {termDocs : δ} (hl : l.Pairwise fun d e => d.1 < e.1) (h : Feeds False l termDocs) :
    Cursor.Visits (scored similarity norms weightValue l) (new similarity termDocs norms weightValue) (-1) := by
  refine .of_closed (R := Kept similarity norms weightValue l) ⟨?_, ?_, next_spec hl, skipTo_spec hl⟩ ⟨⟨rfl, rfl, rfl, rfl⟩,
    ⟨[], l, rfl, h, fun d hd => absurd hd (by simp), fun d _ => by omega⟩, fun d hd heq => ?_⟩
  · rintro s c ⟨-, h⟩ hc
    obtain ⟨d, hd, hdc⟩ := scored_isSome.1 hc
    exact (h.stands d hd hdc).1
  · rintro s c V ⟨hs, h⟩ hv
    obtain ⟨d, hd, rfl⟩ := scored_isSome.1 (Option.isSome_iff_exists.2 ⟨V, hv⟩)
    obtain ⟨hdoc, hget⟩ := h.stands d hd rfl
    rw [scored_eq hl hd, Option.some_inj] at hv
    rw [← hv]
    exact ⟨score_spec hs hdoc hget, ⟨hs, h⟩, le_rfl⟩
  · omega

end TermScorer

end QDesktopSearch
