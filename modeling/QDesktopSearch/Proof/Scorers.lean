import QDesktopSearch.Proof.Weight

/-!
# Runs of the scorers

What the answers to any calls on a scorer are: of several scorers of which all or some are to match,
and of a query.
-/

namespace QDesktopSearch

open Cursor

variable {σ ρ : Type} [Cursor σ ρ] {es os : Entries σ ρ}

/-! ## `ConjunctionScorer` and `DisjunctionSumScorer` -/

theorem flagged_start (n : ℕ) (bits : ℕ → Bool) (v : ρ) : flagged n bits v (-1) = none :=
  flagged_eq_none fun h => absurd h.1 (by decide)

theorem fresh_constant {b : BitSet} {v : ρ} : Fresh [(ConstantScorer.new b v, flagged b._size b.bits v)] := by
  intro e he
  obtain rfl := List.mem_singleton.1 he
  exact ⟨ConstantScorer.visits, flagged_start b._size b.bits v⟩

theorem Fresh.append (hes : Fresh es) (hos : Fresh os) : Fresh (es ++ os) := by
  intro e he
  exact (List.mem_append.1 he).elim (hes e) (hos e)

variable [FloatT ρ]

/-- **All scorers match**: they are sorted by where they stand, and each is sent to where the last one stands. -/
theorem conjunctionScorer_answers (hne : es ≠ []) (h : Fresh es) (calls : List Call) :
    Answers (conjunction (es.map Prod.snd)) (-1) calls (answers (ConjunctionScorer.new (es.map Prod.fst)) calls) := by
  have hclosed := ConjunctionScorer.at_closed (σ := σ) (mt List.map_eq_nil_iff.1 hne) (h.conjunction_eq hne)
  exact (Visits.of_closed hclosed (ConjunctionScorer.at_new h.on)).answers

theorem conjunctionScorer_answers_constant :
    let es : Entries (ConstantScorer ℚ) ℚ := [(ConstantScorer.new ⟨4, fun i => i ≠ 1⟩ 2, flagged 4 (fun i => i ≠ 1) 2)] ++
      [(ConstantScorer.new ⟨4, fun i => 0 < i⟩ 3, flagged 4 (fun i => 0 < i) 3)]
    Answers (conjunction (es.map Prod.snd)) (-1) [.next, .value, .skipTo 3, .value, .next]
      (answers (ConjunctionScorer.new (es.map Prod.fst)) [.next, .value, .skipTo 3, .value, .next]) :=
  conjunctionScorer_answers (by simp) (fresh_constant.append fresh_constant) _

/-- **So many scorers match**: those that stand on the document are on top of a queue. The constructor throws unless
one at least is to match, of two at least. -/
theorem disjunctionSumScorer_answers [Inhabited σ] (m : ℕ) (h : Fresh es) (calls : List Call) :
    let scorer : Except String (DisjunctionSumScorer σ ρ) := DisjunctionSumScorer.new (es.map Prod.fst) m
    (scorer.isOk = true ↔ 0 < m ∧ 1 < es.length) ∧
      ∀ d, scorer = .ok d → Answers (disjunction m (es.map Prod.snd)) (-1) calls (answers d calls) := by
  unfold DisjunctionSumScorer.new
  rw [List.length_map]
  by_cases hm : m = 0
  · rw [if_pos hm]
    exact ⟨iff_of_false Bool.false_ne_true (by omega), fun d hd => absurd hd (by simp)⟩
  by_cases hlength : es.length ≤ 1
  · rw [if_neg hm, if_pos hlength]
    exact ⟨iff_of_false Bool.false_ne_true (by omega), fun d hd => absurd hd (by simp)⟩
  rw [if_neg hm, if_neg hlength]
  refine ⟨iff_of_true rfl ⟨Nat.pos_of_ne_zero hm, Nat.not_le.1 hlength⟩, ?_⟩
  rintro d ⟨⟩
  have hpos := Nat.pos_of_ne_zero hm
  have hnone : (es.map Prod.snd).filterMap (· (-1)) = [] := by
    rw [List.filterMap_map, List.filterMap_eq_nil_iff]
    exact fun e he => (h e he).2
  have hstart : disjunction m (es.map Prod.snd) (-1) = none := by
    rw [disjunction, hnone, List.length_nil, if_neg (Nat.not_le.2 hpos)]
  exact (Visits.of_closed (DisjunctionSumScorer.at_closed hpos) (DisjunctionSumScorer.at_new h.on hstart)).answers

theorem disjunctionSumScorer_answers_constant :
    let es : Entries (ConstantScorer ℚ) ℚ := [(ConstantScorer.new ⟨4, fun i => i ≠ 1⟩ 2, flagged 4 (fun i => i ≠ 1) 2)] ++
      [(ConstantScorer.new ⟨4, fun i => 0 < i⟩ 3, flagged 4 (fun i => 0 < i) 3)]
    let scorer : Except String (DisjunctionSumScorer (ConstantScorer ℚ) ℚ) := DisjunctionSumScorer.new (es.map Prod.fst) 1
    (scorer.isOk = true ↔ 0 < 1 ∧ 1 < es.length) ∧
      ∀ d, scorer = .ok d → Answers (disjunction 1 (es.map Prod.snd)) (-1) [.next, .value, .skipTo 3, .value, .next]
        (answers d [.next, .value, .skipTo 3, .value, .next]) :=
  disjunctionSumScorer_answers 1 (fresh_constant.append fresh_constant) _

/-! ## Queries -/

/-- **The scorer of a query**, from `Query::weight` on. The query is rewritten until nothing is left to rewrite, and finds
the same documents; there is a scorer where what comes of it means something, and it answers as that means. -/
theorem queryScorer_answers [Inhabited σ] [DecidableEq ρ] {κ : Type} {L : LeafQueries κ ρ} {docs : κ → ℤ → Bool}
    {leafScorer : κ → ρ → Option σ} {found : κ → ρ → Option (ℤ → Option (Set ρ))}
    (hrewrite : ∀ query boost d, L.isPrimitive query = false → (L.rewrite query boost).finds docs d = docs query d)
    (hleaf : ∀ query value, L.isPrimitive query = true → BoostedQuery.Scores (leafScorer query value) (found query value))
    (hfound : ∀ query value d, L.isPrimitive query = true → BoostedQuery.has (found query value) d = docs query d)
    (idf : κ → Option ρ) (queryNorm : ρ → ρ) (q : BoostedQuery κ ρ) {n : ℕ} (hn : (q.weight L idf queryNorm).depth ≤ n)
    (calls : List Call) :
    let rewritten := IndexSearcher.rewrite L q
    let meant := rewritten.meaning idf found (queryNorm (rewritten.squares idf))
    rewritten.rewrite L = none ∧ (∀ d, BoostedQuery.has meant d = q.finds docs d) ∧
      Option.Rel (fun s f => Answers f (-1) calls (answers s calls))
          (Weight.scorer leafScorer n (q.weight L idf queryNorm)) meant := by
  intro rewritten meant
  have hprimitive : rewritten.leavesAll L.isPrimitive = true := IndexSearcher.primitive_rewrite
  refine ⟨IndexSearcher.rewrite_rewrite, fun d => ?_, ?_⟩
  · have hdocs : rewritten.finds docs d = q.finds docs d :=
      IndexSearcher.finds_rewrite fun query boost => hrewrite query boost d
    exact (BoostedQuery.has_meaning (fun query value => hfound query value d) rewritten hprimitive).trans hdocs
  · rw [BoostedQuery.weight_eq] at hn ⊢
    rw [BoostedQuery.depth_weighted] at hn
    have hscores : BoostedQuery.Scores
        (Weight.scorer leafScorer n (rewritten.weighted idf (queryNorm (rewritten.squares idf)))) meant :=
      BoostedQuery.scorer_visits hleaf rewritten hprimitive hn
    generalize Weight.scorer leafScorer n _ = s at hscores ⊢
    generalize meant = f at hscores ⊢
    cases hscores with
    | lacks => exact .none
    | scores s f hs _ => exact .some hs.answers

/-- Sets of documents, and a query that becomes two of them; a copy loses the boost. -/
def sampleQueries : LeafQueries (Option BitSet) ℚ where
  isPrimitive := Option.isSome
  rewrite _ boost := .BooleanQuery
    [(.leaf (some ⟨4, fun i => i ≠ 1⟩) 1, .SHOULD), (.leaf (some ⟨2, fun _ => true⟩) 1, .SHOULD)] boost
  cloneBoost _ _ := 1
  rewritten _ _ _ := rfl

/-- The documents of a set, or of both. -/
def sampleDocs (query : Option BitSet) (d : ℤ) : Bool :=
  match query with
  | some b => (flagged b._size b.bits (0 : ℚ) d).isSome
  | none => (flagged 4 (fun i => i ≠ 1) (0 : ℚ) d).isSome || (flagged 2 (fun _ => true) (0 : ℚ) d).isSome

theorem queryScorer_answers_constant :
    let q : BoostedQuery (Option BitSet) ℚ :=
      .BooleanQuery [(.leaf none 2, .MUST), (.BooleanQuery [(.leaf (some ⟨4, fun i => 2 < i⟩) 3, .SHOULD)] 2, .MUST_NOT)] 1
    let rewritten := IndexSearcher.rewrite sampleQueries q
    let found := fun (b : Option BitSet) (v : ℚ) => b.map fun b => flagged b._size b.bits v
    let meant := rewritten.meaning (fun _ => none) found (1 / rewritten.squares fun _ => none)
    rewritten.rewrite sampleQueries = none ∧ (∀ d, BoostedQuery.has meant d = q.finds sampleDocs d) ∧
      Option.Rel (fun s f => Answers f (-1) [.next, .value, .next] (answers s [.next, .value, .next]))
        (Weight.scorer (fun b v => b.map fun b => ConstantScorer.new b v) 2
            (q.weight sampleQueries (fun _ => none) fun s => 1 / s)) meant := by
  refine queryScorer_answers ?_ ?_ ?_ _ (fun s => 1 / s) _ (by decide) _
  · rintro (_ | b) boost d h
    · have hboth : ∀ x y, BoostedQuery.selects [(x, .SHOULD), (y, .SHOULD)] = (x || y) := by decide
      exact hboth _ _
    · cases h
  · rintro (_ | b) value h
    · cases h
    · exact .scores _ _ ConstantScorer.visits (flagged_start _ _ _)
  · rintro (_ | b) value d h
    · cases h
    · rw [BoostedQuery.has, Option.map_some, Option.elim_some, sampleDocs, Bool.eq_iff_iff, flagged_isSome, flagged_isSome]

end QDesktopSearch
