import QDesktopSearch.Proof.BooleanScorer
import QDesktopSearch.Proof.Rewrite

/-!
# What a query finds

* `ConstantScorer.visits`, `MatchAllScorer.visits`: scorers of sets of documents.
* `BoostedQuery.meaning`: the documents of a query, with their scores, by its clauses.
* `weight_eq`: the numbers in the weight of a query.
* `has_meaning`: the documents alone.
* `scorer_visits`: the scorer of the weight visits what the query means, however deep it is nested.
-/

namespace QDesktopSearch

open Cursor

/-! ## Sets of documents -/

variable {ρ : Type*}

/-- The documents of a set below a bound, all with one score. -/
def flagged (bound : ℕ) (bits : ℕ → Bool) (v : ρ) (e : ℤ) : Option (Set ρ) :=
  if 0 ≤ e ∧ e < bound ∧ bits e.toNat = true then some {v} else none

theorem flagged_isSome {bound : ℕ} {bits : ℕ → Bool} {v : ρ} {e : ℤ} :
    (flagged bound bits v e).isSome = true ↔ 0 ≤ e ∧ e < bound ∧ bits e.toNat = true := by
  unfold flagged
  split <;> simp_all

theorem flagged_eq_none {bound : ℕ} {bits : ℕ → Bool} {v : ρ} {e : ℤ} (h : ¬ (0 ≤ e ∧ e < bound ∧ bits e.toNat = true)) :
    flagged bound bits v e = none := if_neg h

theorem mem_of_flagged {bound : ℕ} {bits : ℕ → Bool} {v : ρ} {e : ℤ} {V : Set ρ} (h : flagged bound bits v e = some V) :
    v ∈ V := by
  unfold flagged at h
  split at h
  · exact Option.some_inj.1 h ▸ Set.mem_singleton v
  · cases h

namespace BitSet

variable {b : BitSet} {n i : ℕ}

/-- **The loop of `nextSetBit`** finds the first bit that is set. -/
theorem nextSetBitLoop_spec (hi : i < b._size) (hn : b._size - i ≤ n) :
    (∃ j, b.nextSetBitLoop n i = (j : ℕ) ∧ i ≤ j ∧ j < b._size ∧ b.bits j = true ∧ ∀ k, i ≤ k → k < j → b.bits k = false) ∨
      (b.nextSetBitLoop n i = -1 ∧ ∀ k, i ≤ k → k < b._size → b.bits k = false) := by
  induction n generalizing i with
  | zero => omega
  | succ n ih =>
    unfold nextSetBitLoop
    cases hbit : b.bits i with
    | true =>
      rw [if_pos rfl]
      exact .inl ⟨i, rfl, le_rfl, hi, hbit, fun k _ _ => by omega⟩
    | false =>
      rw [if_neg (by simp)]
      have hstep : ∀ {j}, (∀ k, i + 1 ≤ k → k < j → b.bits k = false) → ∀ k, i ≤ k → k < j → b.bits k = false := by
        intro j h k hk hkj
        rcases Nat.eq_or_lt_of_le hk with rfl | hlt
        · exact hbit
        · exact h k hlt hkj
      by_cases hlast : i + 1 = b._size
      · rw [if_pos hlast]
        exact .inr ⟨rfl, hstep fun k _ _ => by omega⟩
      · rw [if_neg hlast]
        rcases ih (i := i + 1) (by omega) (by omega) with ⟨j, heq, hle, hlt, hset, hbefore⟩ | ⟨heq, hnone⟩
        · exact .inl ⟨j, heq, by omega, hlt, hset, hstep hbefore⟩
        · exact .inr ⟨heq, hstep hnone⟩

/-- **`nextSetBit`** lands on the first document of the set. -/
theorem nextSetBit_spec {t : ℤ} {v : ρ} (ht : 0 ≤ t) :
    (0 ≤ b.nextSetBit t ∧ First (flagged b._size b.bits v) t (b.nextSetBit t)) ∨
      (b.nextSetBit t = -1 ∧ ∀ e, t ≤ e → flagged b._size b.bits v e = none) := by
  unfold nextSetBit
  by_cases hge : t ≥ b._size
  · rw [if_pos hge]
    exact .inr ⟨rfl, fun e he => flagged_eq_none (by omega)⟩
  · rw [if_neg hge]
    rcases nextSetBitLoop_spec (b := b) (i := t.toNat) (n := b._size) (by omega) (by omega) with
      ⟨j, heq, hle, hlt, hset, hbefore⟩ | ⟨heq, hnone⟩
    · refine .inl ⟨by omega, ⟨⟨by omega, flagged_isSome.2 ⟨by omega, by omega, by rwa [heq, Int.toNat_natCast]⟩⟩, ?_⟩⟩
      rintro e ⟨hte, hsome⟩
      obtain ⟨-, -, hbit⟩ := flagged_isSome.1 hsome
      by_contra hlt'
      rw [hbefore e.toNat (by omega) (by omega)] at hbit
      exact absurd hbit (by simp)
    · refine .inr ⟨heq, fun e he => flagged_eq_none ?_⟩
      rintro ⟨-, hlt, hbit⟩
      rw [hnone e.toNat (by omega) (by omega)] at hbit
      exact absurd hbit (by simp)

end BitSet

namespace ConstantScorer

variable {s : ConstantScorer ρ} {bits : BitSet} {v : ρ} {c t : ℤ}

/-- The scorer stands on a document. -/
def At (bits : BitSet) (v : ρ) (s : ConstantScorer ρ) (c : ℤ) : Prop := s.bits = bits ∧ s.theScore = v ∧ s._doc = c ∧ -1 ≤ c

theorem skipTo_spec (h : At bits v s c) (ht : c < t) :
    Lands (flagged bits._size bits.bits v) (At bits v) t (left s) (s.skipTo t) := by
  obtain ⟨rfl, rfl, rfl, hc⟩ := h
  have hnext := BitSet.nextSetBit_spec (b := s.bits) (v := s.theScore) (t := t) (by omega)
  refine ⟨fun hr => ?_, fun hr => ?_⟩
  · have hpos : 0 ≤ s.bits.nextSetBit t := of_decide_eq_true hr
    obtain ⟨-, hfirst⟩ := hnext.resolve_right fun h => by omega
    refine ⟨hfirst, ?_, rfl, rfl, rfl, by show -1 ≤ s.bits.nextSetBit t; omega⟩
    have hlt := (flagged_isSome.1 hfirst.isSome).2.1
    have hle := hfirst.le
    show (s.bits._size - (s.bits.nextSetBit t + 1)).toNat < (s.bits._size - (s._doc + 1)).toNat
    omega
  · have hneg : ¬ 0 ≤ s.bits.nextSetBit t := of_decide_eq_false hr
    exact (hnext.resolve_left fun h => hneg h.1).2

/-- **The documents of a filter**, all with the score of the query. -/
theorem visits : Visits (flagged bits._size bits.bits v) (new bits v) (-1) := by
  refine .of_closed (R := At bits v) ⟨?_, ?_, ?_, skipTo_spec⟩ ⟨rfl, rfl, rfl, le_rfl⟩
  · rintro s c ⟨-, -, hdoc, -⟩ -
    exact hdoc
  · rintro s c V h hV
    have hscore : (Cursor.value s).1 = v := h.2.1
    exact ⟨by rw [hscore]; exact mem_of_flagged hV, h, le_rfl⟩
  · rintro s c h
    have hnext := skipTo_spec h (lt_add_one c)
    rwa [← h.2.2.1] at hnext ⊢

end ConstantScorer

namespace MatchAllScorer

variable {s : MatchAllScorer ρ} {n : ℕ} {isDeleted : ℕ → Bool} {maxDoc : ℕ} {v : ρ}

/-- The scorer stands on a document. -/
def At (isDeleted : ℕ → Bool) (maxDoc : ℕ) (v : ρ) (s : MatchAllScorer ρ) (c : ℤ) : Prop :=
  s.isDeleted = isDeleted ∧ s.maxId = maxDoc - 1 ∧ s._score = v ∧ s.id = c ∧ -1 ≤ c

/-- **The loop of `next`** passes the deleted documents. -/
theorem nextLoop_spec {c : ℤ} (h : At isDeleted maxDoc v s c) (hn : (s.maxId - s.id).toNat < n) :
    Lands (flagged maxDoc (fun e => !isDeleted e) v) (At isDeleted maxDoc v) (c + 1) (left s) (nextLoop n s) := by
  induction n generalizing s c with
  | zero => omega
  | succ n ih =>
    obtain ⟨rfl, hmax, rfl, rfl, hc⟩ := h
    unfold nextLoop
    by_cases hlt : s.id < s.maxId
    · rw [if_pos hlt]
      dsimp only
      cases hd : s.isDeleted (s.id + 1).toNat with
      | true =>
        rw [if_pos rfl]
        have hnone : flagged maxDoc (fun e => !s.isDeleted e) s._score (s.id + 1) = none :=
          flagged_eq_none fun h => by
            rw [hd] at h
            exact absurd h.2.2 (by simp)
        have hstep := ih (s := { s with id := s.id + 1 }) (c := s.id + 1) ⟨rfl, hmax, rfl, rfl, by omega⟩ (by dsimp only; omega)
        refine ⟨fun hr => ?_, fun hr e he => ?_⟩
        · obtain ⟨hfirst, hleft, hat⟩ := hstep.found hr
          refine ⟨hfirst.of_none (by omega) fun e he he' => ?_, lt_of_lt_of_le hleft ?_, hat⟩
          · rw [show e = s.id + 1 by omega]
            exact hnone
          · show (s.maxId - (s.id + 1)).toNat ≤ (s.maxId - s.id).toNat
            omega
        · by_cases heq : e = s.id + 1
          · rw [heq]
            exact hnone
          · exact hstep.exhausted hr e (by omega)
      | false =>
        rw [if_neg (by simp)]
        refine ⟨fun _ => ⟨⟨⟨le_rfl, ?_⟩, fun e he => he.1⟩, ?_, rfl, hmax, rfl, rfl, ?_⟩, fun h => absurd h (by simp)⟩
        · show (flagged maxDoc (fun e => !s.isDeleted e) s._score (s.id + 1)).isSome = true
          exact flagged_isSome.2 ⟨by omega, by omega, by rw [hd]; rfl⟩
        · show (s.maxId - (s.id + 1)).toNat < (s.maxId - s.id).toNat
          omega
        · show -1 ≤ s.id + 1
          omega
    · rw [if_neg hlt]
      exact .of_none fun e he => flagged_eq_none (by omega)

/-- **All documents** that are not deleted. -/
theorem visits : Visits (flagged maxDoc (fun e => !isDeleted e) v) (new isDeleted maxDoc v) (-1) := by
  refine .of_closed (R := At isDeleted maxDoc v) ⟨?_, ?_, ?_, ?_⟩ ⟨rfl, rfl, rfl, rfl, le_rfl⟩
  · rintro s c ⟨-, -, -, hid, -⟩ -
    exact hid
  · rintro s c V h hV
    have hscore : (Cursor.value s).1 = v := h.2.2.1
    exact ⟨by rw [hscore]; exact mem_of_flagged hV, h, le_rfl⟩
  · rintro s c h
    exact nextLoop_spec h (Nat.lt_succ_self _)
  · rintro s c t ⟨hdel, hmax, hscore, hid, hc⟩ ht
    have hlands := nextLoop_spec (s := { s with id := t - 1 }) (c := t - 1) (n := ((s.maxId - (t - 1)).toNat + 1))
      (v := v) ⟨hdel, hmax, hscore, rfl, by omega⟩ (Nat.lt_succ_self _)
    rw [Int.sub_add_cancel] at hlands
    refine hlands.mono (fun _ _ h => h) ?_
    show (s.maxId - (t - 1)).toNat ≤ (s.maxId - s.id).toNat
    omega

end MatchAllScorer

/-! ## What a query means -/

namespace BoostedQuery

variable {κ ρ : Type} [FloatT ρ]

/-- What of some clauses has an occurrence. -/
def occurring {α : Type*} (occur : Occur) (cs : List (Option α × Occur)) : List α :=
  cs.filterMap fun c => if c.2 = occur then c.1 else none

/-- Of a required clause there is no scorer. -/
def lacking {α : Type*} (cs : List (Option α × Occur)) : Bool := cs.any fun c => c.1.isNone && c.2.isRequired

/-- Clauses that have a scorer, put together. -/
def combined (cs : List (Option (ℤ → Option (Set ρ)) × Occur)) : Option (ℤ → Option (Set ρ)) :=
  if lacking cs then none
  else some (boolean (occurring .MUST cs) (occurring .SHOULD cs) (occurring .MUST_NOT cs)
    ((occurring .MUST cs).length + (occurring .SHOULD cs).length))

variable (idf : κ → Option ρ) (found : κ → ρ → Option (ℤ → Option (Set ρ)))

/-- The weight of a leaf, before it is normalized. -/
def leafWeight (query : κ) (boost : ρ) : ρ := (idf query).elim boost (· * boost)

/-- The value of the weight of a leaf. -/
def leafValue (norm : ρ) (query : κ) (boost : ρ) : ρ :=
  (idf query).elim (leafWeight idf query boost * norm) (leafWeight idf query boost * norm * ·)

mutual

/-- The documents of a query, with their scores; there may be no scorer. `found` are those of a leaf
that has a weight. -/
def meaning (norm : ρ) : BoostedQuery κ ρ → Option (ℤ → Option (Set ρ))
  | .leaf query boost => found query (leafValue idf norm query boost)
  | .BooleanQuery clauses boost => combined (meanings (norm * boost) clauses)

def meanings (norm : ρ) : List (BoostedQuery κ ρ × Occur) → List (Option (ℤ → Option (Set ρ)) × Occur)
  | [] => []
  | (query, occur) :: clauses => (meaning norm query, occur) :: meanings norm clauses

end

mutual

/-- The sum of the squares of the weights. -/
def squares : BoostedQuery κ ρ → ρ
  | .leaf query boost => leafWeight idf query boost * leafWeight idf query boost
  | .BooleanQuery clauses boost => squaresOf clauses 0 * (boost * boost)

def squaresOf : List (BoostedQuery κ ρ × Occur) → (sum : ρ) → ρ
  | [], sum => sum
  | (query, occur) :: clauses, sum => squaresOf clauses (if occur.isProhibited then sum else sum + squares query)

end

mutual

/-- The weight that has been normalized. -/
def weighted (norm : ρ) : BoostedQuery κ ρ → Weight κ ρ
  | .leaf query boost => .leaf ⟨query, idf query, boost, leafWeight idf query boost * norm, leafValue idf norm query boost⟩
  | .BooleanQuery clauses boost => .BooleanWeight boost (weightedAll (norm * boost) clauses)

def weightedAll (norm : ρ) : List (BoostedQuery κ ρ × Occur) → List (Weight κ ρ × Occur)
  | [] => []
  | (query, occur) :: clauses => (weighted norm query, occur) :: weightedAll norm clauses

end

mutual

/-- How deep the `BooleanQuery`s are nested. -/
def depth : BoostedQuery κ ρ → ℕ
  | .leaf _ _ => 0
  | .BooleanQuery clauses _ => depthOf clauses + 1

def depthOf : List (BoostedQuery κ ρ × Occur) → ℕ
  | [] => 0
  | (query, _) :: clauses => max (depth query) (depthOf clauses)

end

variable {idf found}

theorem meanings_eq {norm : ρ} {clauses : List (BoostedQuery κ ρ × Occur)} :
    meanings idf found norm clauses = clauses.map fun c => (meaning idf found norm c.1, c.2) := by
  induction clauses with
  | nil => rfl
  | cons c clauses ih => rw [meanings, ih]; rfl

theorem weightedAll_eq {norm : ρ} {clauses : List (BoostedQuery κ ρ × Occur)} :
    weightedAll idf norm clauses = clauses.map fun c => (weighted idf norm c.1, c.2) := by
  induction clauses with
  | nil => rfl
  | cons c clauses ih => rw [weightedAll, ih]; rfl

omit [FloatT ρ] in
theorem depth_le_depthOf {clauses : List (BoostedQuery κ ρ × Occur)} {c : BoostedQuery κ ρ × Occur} (hc : c ∈ clauses) :
    depth c.1 ≤ depthOf clauses := by
  induction clauses with
  | nil => cases hc
  | cons d clauses ih =>
    rcases List.mem_cons.1 hc with rfl | hc
    · exact le_max_left _ _
    · exact (ih hc).trans (le_max_right _ _)

/-- **The numbers in the weight of a query.** -/
theorem createWeight_spec (q : BoostedQuery κ ρ) : (q._createWeight idf).sumOfSquaredWeights.1 = squares idf q ∧
    ∀ norm, (q._createWeight idf).sumOfSquaredWeights.2.normalize norm = weighted idf norm q := by
  induction q using byClauses with
  | leaf query boost => exact ⟨rfl, fun _ => rfl⟩
  | boolean clauses boost ih =>
    have hclauses : ∀ sum, (Weight.sumOfWeights (_createWeights idf clauses) sum).1 = squaresOf idf clauses sum ∧
        ∀ norm, Weight.normalizeAll (Weight.sumOfWeights (_createWeights idf clauses) sum).2 norm =
            weightedAll idf norm clauses := by
      induction clauses with
      | nil => exact fun sum => ⟨rfl, fun _ => rfl⟩
      | cons c clauses ihs =>
        intro sum
        obtain ⟨hsquare, hweight⟩ := ih c List.mem_cons_self
        obtain ⟨hsum, hweights⟩ := ihs (fun d hd => ih d (List.mem_cons_of_mem _ hd))
          (if c.2.isProhibited then sum else sum + squares idf c.1)
        refine ⟨?_, fun norm => ?_⟩
        · rw [_createWeights, Weight.sumOfWeights, squaresOf, hsquare, hsum]
        · rw [_createWeights, Weight.sumOfWeights, Weight.normalizeAll, weightedAll, hsquare, hweights, hweight]
    refine ⟨?_, fun norm => ?_⟩
    · rw [_createWeight, Weight.sumOfSquaredWeights, squares, (hclauses 0).1]
    · rw [_createWeight, Weight.sumOfSquaredWeights, Weight.normalize, weighted, (hclauses 0).2]

/-- **The weight of a query.** -/
theorem weight_eq [DecidableEq ρ] {L : LeafQueries κ ρ} {queryNorm : ρ → ρ} {q : BoostedQuery κ ρ} :
    q.weight L idf queryNorm =
      weighted idf (queryNorm (squares idf (IndexSearcher.rewrite L q))) (IndexSearcher.rewrite L q) := by
  rw [weight, (createWeight_spec (IndexSearcher.rewrite L q)).2, (createWeight_spec (IndexSearcher.rewrite L q)).1]

theorem depth_weighted {norm : ρ} (q : BoostedQuery κ ρ) : (weighted idf norm q).depth = depth q := by
  induction q using byClauses generalizing norm with
  | leaf query boost => rfl
  | boolean clauses boost ih =>
    rw [weighted, Weight.depth, depth]
    refine congrArg (· + 1) ?_
    induction clauses with
    | nil => rfl
    | cons c clauses ihs =>
      rw [weightedAll, Weight.depthOf, depthOf, ih c List.mem_cons_self, ihs fun d hd => ih d (List.mem_cons_of_mem _ hd)]

/-! ## The scorer of a query -/

section AddScorers

variable {τ : Type}

omit [FloatT ρ] in
/-- **The loop of `BooleanWeight::scorer`** sorts the scorers by their clauses. -/
theorem addScorers_spec {cs : List (Option τ × Occur)} {b : BooleanScorer2 τ ρ} : Weight.addScorers cs b =
    if lacking cs then none
    else some { b with
      requiredScorers := b.requiredScorers ++ occurring .MUST cs
      optionalScorers := b.optionalScorers ++ occurring .SHOULD cs
      prohibitedScorers := b.prohibitedScorers ++ occurring .MUST_NOT cs
      maxCoord := b.maxCoord + ((occurring .MUST cs).length + (occurring .SHOULD cs).length) } := by
  induction cs generalizing b with
  | nil => simp [Weight.addScorers, lacking, occurring]
  | cons c cs ih =>
    obtain ⟨_ | s, occur⟩ := c
    · unfold Weight.addScorers
      cases occur with
      | MUST => rfl
      | SHOULD =>
        rw [if_neg (by decide), ih]
        rfl
      | MUST_NOT =>
        rw [if_neg (by decide), ih]
        rfl
    · unfold Weight.addScorers
      rw [ih]
      have hlacking : lacking ((some s, occur) :: cs) = lacking cs := rfl
      rw [hlacking]
      cases occur <;> simp [occurring, BooleanScorer2.add, Occur.isRequired, Occur.isProhibited, Nat.add_assoc, Nat.add_comm,
        Nat.add_left_comm]

theorem occurring_map {α β : Type*} {f : α → β} {occur : Occur} {cs : List (Option α × Occur)} :
    occurring occur (cs.map fun c => (c.1.map f, c.2)) = (occurring occur cs).map f := by
  induction cs with
  | nil => rfl
  | cons c cs ih =>
    obtain ⟨_ | a, o⟩ := c
    · simpa [occurring] using ih
    · by_cases ho : o = occur
      · simpa [occurring, ho] using ih
      · simpa [occurring, ho] using ih

theorem lacking_map {α β : Type*} {f : α → β} {cs : List (Option α × Occur)} :
    lacking (cs.map fun c => (c.1.map f, c.2)) = lacking cs := by
  rw [lacking, List.any_map, lacking]
  congr 1
  funext c
  rw [Function.comp_apply, Option.isNone_map]

theorem mem_occurring {α : Type*} {occur : Occur} {cs : List (Option α × Occur)} {a : α} :
    a ∈ occurring occur cs ↔ (some a, occur) ∈ cs := by
  rw [occurring, List.mem_filterMap]
  constructor
  · rintro ⟨⟨c, o⟩, hc, hca⟩
    dsimp only at hca
    split at hca
    · rename_i ho
      rwa [← hca, ← ho]
    · cases hca
  · exact fun h => ⟨_, h, if_pos rfl⟩

end AddScorers

/-! ## The documents of a query -/

omit [FloatT ρ] in
theorem isMatch_iff {req opt excl : List (ℤ → Option (Set ρ))} {d : ℤ} : isMatch req opt excl d = true ↔
    (∀ f ∈ req, (f d).isSome = true) ∧ (∀ f ∈ excl, f d = none) ∧ ∃ f ∈ req ++ opt, (f d).isSome = true := by
  rw [isMatch, Bool.and_eq_true, Bool.and_eq_true, List.all_eq_true, Bool.not_eq_true', List.any_eq_false, Bool.not_eq_true',
    matching, ← Bool.not_eq_true, List.isEmpty_iff, filterMap_eq_nil_iff, Bool.not_eq_false, List.any_eq_true, and_assoc]
  simp only [Option.not_isSome_iff_eq_none]

theorem selects_iff {bs : List (Bool × Occur)} : selects bs = true ↔
    (∀ b ∈ bs, b.2 = .MUST → b.1 = true) ∧ (∀ b ∈ bs, b.2 = .MUST_NOT → b.1 = false) ∧
      ∃ b ∈ bs, b.2 ≠ .MUST_NOT ∧ b.1 = true := by
  simp only [selects, Bool.and_eq_true, List.all_eq_true, Bool.or_eq_true, Bool.not_eq_true', List.any_eq_false,
    List.any_eq_true, Occur.isRequired, Occur.isProhibited, decide_eq_true_eq, decide_eq_false_iff_not, not_and,
    Bool.not_eq_true, ← imp_iff_not_or,
    and_assoc]

/-- Whether a scorer, if there is one, has a document. -/
def has (f : Option (ℤ → Option (Set ρ))) (d : ℤ) : Bool := (f.elim none (· d)).isSome

/-- **The documents of clauses**, put together: a clause without a scorer has none. -/
theorem has_combined {cs : List (Option (ℤ → Option (Set ρ)) × Occur)} {d : ℤ} :
    has (combined cs) d = selects (cs.map fun c => (has c.1 d, c.2)) := by
  rw [Bool.eq_iff_iff, selects_iff]
  simp only [List.forall_mem_map]
  simp only [List.mem_map, exists_exists_and_eq_and]
  unfold combined
  cases hlacking : lacking cs with
  | true =>
    rw [lacking, List.any_eq_true] at hlacking
    obtain ⟨⟨f, occur⟩, hc, hlacks⟩ := hlacking
    rw [Bool.and_eq_true, Option.isNone_iff_eq_none, Occur.isRequired, decide_eq_true_eq] at hlacks
    obtain ⟨rfl, rfl⟩ : f = none ∧ occur = .MUST := hlacks
    exact iff_of_false (by simp [has]) fun h => absurd (h.1 _ hc rfl) (by simp [has])
  | false =>
    have hsome : ∀ c ∈ cs, c.2 = .MUST → c.1.isSome = true := by
      rw [lacking, List.any_eq_false] at hlacking
      intro c hc hmust
      have hlacks := hlacking c hc
      simpa [Occur.isRequired, hmust, Option.isSome_iff_ne_none] using hlacks
    rw [if_neg (by simp), has, Option.elim_some, boolean_isSome, isMatch_iff]
    simp only [List.mem_append, mem_occurring]
    refine and_congr ⟨?_, ?_⟩ (and_congr ⟨?_, ?_⟩ ⟨?_, ?_⟩)
    · intro h c hc hmust
      obtain ⟨f, hf⟩ := Option.isSome_iff_exists.1 (hsome c hc hmust)
      rw [hf]
      exact h f (by rwa [← hf, ← hmust])
    · exact fun h f hf => h _ hf rfl
    · rintro h ⟨_ | f, occur⟩ hc (rfl : occur = .MUST_NOT)
      · rfl
      · exact Option.isSome_eq_false_iff.2 (Option.isNone_iff_eq_none.2 (h f hc))
    · exact fun h f hf => Option.isNone_iff_eq_none.1 (Option.isSome_eq_false_iff.1 (h _ hf rfl))
    · rintro ⟨f, hf | hf, hd⟩
      · exact ⟨_, hf, nofun, hd⟩
      · exact ⟨_, hf, nofun, hd⟩
    · rintro ⟨⟨_ | f, occur⟩, hc, hne, hd⟩
      · exact absurd hd (by simp [has])
      · cases occur with
        | MUST => exact ⟨f, .inl hc, hd⟩
        | SHOULD => exact ⟨f, .inr hc, hd⟩
        | MUST_NOT => exact absurd rfl hne

/-- **What a query means has the documents that it finds.** -/
theorem has_meaning {docs : κ → ℤ → Bool} {d : ℤ} {p : κ → Bool}
    (hfound : ∀ query value, p query = true → has (found query value) d = docs query d) {norm : ρ} (q : BoostedQuery κ ρ)
    (hq : q.leavesAll p = true) : has (meaning idf found norm q) d = finds docs d q := by
  induction q using byClauses generalizing norm with
  | leaf query boost => exact hfound query _ hq
  | boolean clauses boost ih =>
    rw [leavesAll, clausesAll_eq, List.all_eq_true] at hq
    rw [meaning, has_combined, finds, findsAll_eq, meanings_eq, List.map_map]
    exact congrArg selects (List.map_congr_left fun c hc => congrArg (·, c.2) (ih c hc (hq c hc)))

/-! ## The scorer that visits them -/

/-- A scorer, if there is one, visits what it should. -/
inductive Scores {τ : Type} [Cursor τ ρ] : Option τ → Option (ℤ → Option (Set ρ)) → Prop
  | lacks : Scores none none
  | scores (s : τ) (f : ℤ → Option (Set ρ)) (hs : Visits f s (-1)) (hf : f (-1) = none) : Scores (some s) (some f)

variable {σ : Type} [Inhabited σ] [Cursor σ ρ] {leafScorer : κ → ρ → Option σ}

/-- Scorers of clauses, put together. -/
theorem Scores.combined {τ : Type} [Inhabited τ] [Cursor τ ρ] {ss : List (Option τ × Occur)}
    {fs : List (Option (ℤ → Option (Set ρ)) × Occur)}
    (h : List.Forall₂ (fun s f => Scores s.1 f.1 ∧ s.2 = f.2) ss fs) :
    Scores (Weight.addScorers ss .new : Option (BooleanScorer2 τ ρ)) (BoostedQuery.combined fs) := by
  obtain ⟨es, rfl, rfl, hes⟩ : ∃ es : List (Option (τ × (ℤ → Option (Set ρ))) × Occur), ss =
      es.map (fun e => (e.1.map Prod.fst, e.2)) ∧ fs = es.map (fun e => (e.1.map Prod.snd, e.2)) ∧
      ∀ e ∈ es, ∀ x, e.1 = some x → Visits x.2 x.1 (-1) ∧ x.2 (-1) = none := by
    induction h with
    | nil => exact ⟨[], rfl, rfl, fun _ h => absurd h (by simp)⟩
    | @cons s f ss fs hhead _ ih =>
      obtain ⟨es, rfl, rfl, hes⟩ := ih
      obtain ⟨s, o⟩ := s
      obtain ⟨f, o'⟩ := f
      obtain ⟨hscores, rfl : o = o'⟩ := hhead
      cases hscores with
      | lacks =>
        refine ⟨(none, o) :: es, rfl, rfl, fun e he x hx => ?_⟩
        rcases List.mem_cons.1 he with rfl | he
        · cases hx
        · exact hes e he x hx
      | scores s f hs hf =>
        refine ⟨(some (s, f), o) :: es, rfl, rfl, fun e he x hx => ?_⟩
        rcases List.mem_cons.1 he with rfl | he
        · obtain rfl := Option.some_injective _ hx
          exact ⟨hs, hf⟩
        · exact hes e he x hx
  rw [addScorers_spec, BoostedQuery.combined, lacking_map, lacking_map, occurring_map, occurring_map, occurring_map,
    occurring_map, occurring_map, occurring_map]
  split
  · exact .lacks
  · have hfresh : ∀ occur, Fresh (occurring occur es) := by
      intro occur x hx
      exact hes _ (mem_occurring.1 hx) x rfl
    refine .scores _ _ ?_ ?_
    · have hvisits := BooleanScorer2.visits (k := (occurring .MUST es).length + (occurring .SHOULD es).length) (hfresh .MUST)
        (hfresh .SHOULD) (hfresh .MUST_NOT)
      have hcoord : (BooleanScorer2.new : BooleanScorer2 τ ρ).maxCoord = 0 := rfl
      simp only [List.length_map, hcoord, Nat.zero_add]
      exact hvisits
    · refine boolean_eq_none fun f hf => ?_
      rw [← List.map_append] at hf
      obtain ⟨x, hx, rfl⟩ := List.mem_map.1 hf
      exact (List.mem_append.1 hx).elim (fun h => (hfresh _ x h).2) fun h => (hfresh _ x h).2

/-- **The scorer of a query visits what the query means**, however deep it is nested. -/
theorem scorer_visits {p : κ → Bool} (hleaf : ∀ query value, p query = true →
      Scores (leafScorer query value) (found query value))
    {norm : ρ} {n : ℕ} (q : BoostedQuery κ ρ) (hq : q.leavesAll p = true) (hn : depth q ≤ n) :
    Scores (Weight.scorer leafScorer n (weighted idf norm q)) (meaning idf found norm q) := by
  induction q using byClauses generalizing norm n with
  | leaf query boost =>
    clear hn
    induction n with
    | zero => exact hleaf query _ hq
    | succ n ih =>
      rw [weighted, meaning] at ih ⊢
      rw [Weight.scorer]
      generalize Weight.scorer leafScorer n _ = s at ih ⊢
      generalize found query _ = f at ih ⊢
      cases ih with
      | lacks => exact .lacks
      | scores s f hs hf => exact .scores _ _ hs.inl hf
  | boolean clauses boost ih =>
    obtain _ | n := n
    · exact absurd hn (Nat.not_succ_le_zero _)
    rw [depth, Nat.succ_le_succ_iff] at hn
    rw [leavesAll, clausesAll_eq, List.all_eq_true] at hq
    rw [weighted, weightedAll_eq, Weight.scorer, meaning, meanings_eq, List.map_map]
    have hclauses : Scores (Weight.addScorers
        (clauses.map fun c => (Weight.scorer leafScorer n (weighted idf (norm * boost) c.1), c.2))
        .new : Option (BooleanScorer2 (QueryScorer σ ρ n) ρ))
        (combined (clauses.map fun c => (meaning idf found (norm * boost) c.1, c.2))) := by
      refine Scores.combined ?_
      -- clause by clause
      rw [List.forall₂_map_left_iff, List.forall₂_map_right_iff, List.forall₂_same]
      exact fun c hc => ⟨ih c hc (hq c hc) ((depth_le_depthOf hc).trans hn), rfl⟩
    generalize (combined _ : Option (ℤ → Option (Set ρ))) = f at hclauses ⊢
    have hmap : (fun w : Weight κ ρ × Occur => (Weight.scorer leafScorer n w.1, w.2)) ∘ (fun c : BoostedQuery κ ρ × Occur =>
        (weighted idf (norm * boost) c.1, c.2)) =
        fun c : BoostedQuery κ ρ × Occur => (Weight.scorer leafScorer n (weighted idf (norm * boost) c.1), c.2) := rfl
    rw [hmap]
    generalize Weight.addScorers _ _ = s at hclauses ⊢
    cases hclauses with
    | lacks => exact .lacks
    | scores s f hs hf => exact .scores _ _ hs.inr hf

end BoostedQuery

end QDesktopSearch
