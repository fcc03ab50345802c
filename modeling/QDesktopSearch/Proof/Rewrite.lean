import Mathlib.Algebra.Order.BigOperators.Group.List
import QDesktopSearch.Model.Weight

/-!
# Rewriting queries

* `rewrite_boolean`: what `rewrite` makes of a `BooleanQuery`.
* `rewriteLoop_spec`: `IndexSearcher::rewrite` goes on until a query is returned as it is.
* `finds_rewrite`: it finds the same documents.
-/

namespace QDesktopSearch

namespace BoostedQuery

variable {κ ρ : Type}

/-- Induction over a query, with its clauses. -/
theorem byClauses {p : BoostedQuery κ ρ → Prop} (leaf : ∀ query boost, p (.leaf query boost))
    (boolean : ∀ clauses boost, (∀ c ∈ clauses, p c.1) → p (.BooleanQuery clauses boost)) (q : BoostedQuery κ ρ) : p q :=
  @BoostedQuery.rec κ ρ p (fun clauses => ∀ c ∈ clauses, p c.1) (fun c => p c.1) leaf boolean
    (fun _ hc => absurd hc (by simp)) (fun _ _ hc hcs d hd => (List.mem_cons.1 hd).elim (fun h => h ▸ hc) (hcs d))
    (fun _ _ h => h) q

/-! ## What a query finds -/

/-- All required clauses hold and no prohibited one, and one at least holds. -/
def selects (bs : List (Bool × Occur)) : Bool :=
  (bs.all fun b => !b.2.isRequired || b.1) && !(bs.any fun b => b.2.isProhibited && b.1) &&
    bs.any fun b => !b.2.isProhibited && b.1

variable (docs : κ → ℤ → Bool) (d : ℤ)

mutual

/-- The documents that a query means, by those of its leaves. -/
def finds : BoostedQuery κ ρ → Bool
  | .leaf query _ => docs query d
  | .BooleanQuery clauses _ => selects (findsAll clauses)

def findsAll : List (BoostedQuery κ ρ × Occur) → List (Bool × Occur)
  | [] => []
  | (query, occur) :: clauses => (finds query, occur) :: findsAll clauses

end

variable {docs d} {p : κ → Bool} {b : ρ} {q q' : BoostedQuery κ ρ} {clauses : List (BoostedQuery κ ρ × Occur)}

theorem findsAll_eq : findsAll docs d clauses = clauses.map fun c => (finds docs d c.1, c.2) := by
  induction clauses with
  | nil => rfl
  | cons c clauses ih => rw [findsAll, ih]; rfl

theorem clausesAll_eq : clausesAll p clauses = clauses.all fun c => leavesAll p c.1 := by
  induction clauses with
  | nil => rfl
  | cons c clauses ih => rw [clausesAll, ih]; rfl

theorem booleansOf_eq : booleansOf clauses = (clauses.map fun c => booleans c.1).sum := by
  induction clauses with
  | nil => rfl
  | cons c clauses ih => rw [booleansOf, ih]; rfl

theorem selects_single {b : Bool} {occur : Occur} (h : occur.isProhibited = false) : selects [(b, occur)] = b := by
  cases occur <;> cases b <;> first | rfl | exact absurd h (by decide)

@[simp] theorem leavesAll_setBoost : (q.setBoost b).leavesAll p = q.leavesAll p := by cases q <;> rfl

@[simp] theorem booleans_setBoost : (q.setBoost b).booleans = q.booleans := by cases q <;> rfl

@[simp] theorem finds_setBoost : finds docs d (q.setBoost b) = finds docs d q := by cases q <;> rfl

theorem setBoost_getBoost : q.setBoost q.getBoost = q := by cases q <;> rfl

variable [FloatT ρ] [DecidableEq ρ] {L : LeafQueries κ ρ} {boost : ρ}

omit [FloatT ρ] [DecidableEq ρ] in
theorem cloneAll_eq : cloneAll L clauses = clauses.map fun c => (clone L c.1, c.2) := by
  induction clauses with
  | nil => rfl
  | cons c clauses ih => rw [cloneAll, ih]; rfl

theorem rewriteAll_eq : rewriteAll L clauses = clauses.map fun c => rewrite L c.1 := by
  induction clauses with
  | nil => rfl
  | cons c clauses ih => rw [rewriteAll, ih]; rfl

/-! ## A copy -/

section Copies

omit [FloatT ρ] [DecidableEq ρ]

theorem leavesAll_clone (q : BoostedQuery κ ρ) : (clone L q).leavesAll p = q.leavesAll p := by
  induction q using byClauses with
  | leaf query boost => rfl
  | boolean clauses boost ih =>
    rw [clone, leavesAll, leavesAll, cloneAll_eq, clausesAll_eq, clausesAll_eq, List.all_map, Bool.eq_iff_iff, List.all_eq_true,
      List.all_eq_true]
    exact forall₂_congr fun c hc => by rw [Function.comp_apply, ih c hc]

theorem booleans_clone (q : BoostedQuery κ ρ) : (clone L q).booleans = q.booleans := by
  induction q using byClauses with
  | leaf query boost => rfl
  | boolean clauses boost ih =>
    rw [clone, booleans, booleans, cloneAll_eq, booleansOf_eq, booleansOf_eq, List.map_map]
    exact congrArg (fun l => l.sum + 1) (List.map_congr_left fun c hc => ih c hc)

theorem finds_clone (q : BoostedQuery κ ρ) : finds docs d (clone L q) = finds docs d q := by
  induction q using byClauses with
  | leaf query boost => rfl
  | boolean clauses boost ih =>
    rw [clone, finds, finds, cloneAll_eq, findsAll_eq, findsAll_eq, List.map_map]
    exact congrArg selects (List.map_congr_left fun c hc => congrArg (·, c.2) (ih c hc))

end Copies

/-! ## One round -/

/-- What stands in the place of a clause when another has been rewritten. -/
def renewed (L : LeafQueries κ ρ) (q : BoostedQuery κ ρ) : BoostedQuery κ ρ := (rewrite L q).getD (clone L q)

theorem replaced_spec (L : LeafQueries κ ρ) (clauses : List (BoostedQuery κ ρ × Occur)) (boost : ρ) :
    (replaced L clauses boost (rewriteAll L clauses) = none ∧ ∀ c ∈ clauses, rewrite L c.1 = none) ∨
    ((∃ c ∈ clauses, (rewrite L c.1).isSome = true) ∧
      replaced L clauses boost (rewriteAll L clauses) =
          some (.BooleanQuery (clauses.map fun c => (renewed L c.1, c.2)) boost)) := by
  have hall : (rewriteAll L clauses).all Option.isNone = true ↔ ∀ c ∈ clauses, rewrite L c.1 = none := by
    rw [rewriteAll_eq, List.all_map, List.all_eq_true]
    exact forall₂_congr fun c _ => Option.isNone_iff_eq_none
  unfold replaced
  by_cases hnone : ∀ c ∈ clauses, rewrite L c.1 = none
  · exact .inl ⟨if_pos (hall.2 hnone), hnone⟩
  · refine .inr ⟨?_, ?_⟩
    · by_contra hsome
      exact hnone fun c hc => Option.not_isSome_iff_eq_none.1 fun h => hsome ⟨c, hc, h⟩
    · rw [if_neg (mt hall.1 hnone), rewriteAll_eq, List.zipWith_map_right, List.zipWith_self]
      rfl

/-- **What `rewrite` makes of a `BooleanQuery`**: a single clause that is not prohibited takes its place; or the clauses
are renewed, if one of them is rewritten. -/
theorem rewrite_boolean (clauses : List (BoostedQuery κ ρ × Occur)) (boost : ρ) :
    (∃ c occur b, clauses = [(c, occur)] ∧ occur.isProhibited = false ∧
      rewrite L (.BooleanQuery clauses boost) = some ((renewed L c).setBoost b)) ∨
    (rewrite L (.BooleanQuery clauses boost) = none ∧ ∀ c ∈ clauses, rewrite L c.1 = none) ∨
    ((∃ c ∈ clauses, (rewrite L c.1).isSome = true) ∧
      rewrite L (.BooleanQuery clauses boost) = some (.BooleanQuery (clauses.map fun c => (renewed L c.1, c.2)) boost)) := by
  have hreplaced := replaced_spec L clauses boost
  rw [rewrite]
  unfold rewriteBoolean
  match clauses with
  | [] => exact .inr hreplaced
  | [(c, occur)] =>
    dsimp only [rewriteAll]
    cases hoccur : occur.isProhibited with
    | true => exact .inr hreplaced
    | false =>
      left
      by_cases hboost : boost = 1
      · refine ⟨c, occur, (renewed L c).getBoost, rfl, hoccur, ?_⟩
        rw [if_neg (by simp), if_neg (not_not.2 hboost), setBoost_getBoost]
        rfl
      · refine ⟨c, occur, boost * (renewed L c).getBoost, rfl, hoccur, ?_⟩
        rw [if_neg (by simp), if_pos hboost]
        rfl
  | _ :: _ :: _ => exact .inr hreplaced

/-- After a round all leaves are primitive, whether it changes something or not. -/
theorem primitive_rewrite (q : BoostedQuery κ ρ) : (∀ q' ∈ rewrite L q, q'.leavesAll L.isPrimitive = true) ∧
    (rewrite L q = none → q.leavesAll L.isPrimitive = true) := by
  induction q using byClauses with
  | leaf query boost =>
    rw [rewrite]
    cases hprimitive : L.isPrimitive query with
    | true => exact ⟨fun q' hq' => absurd hq' (by simp), fun _ => hprimitive⟩
    | false =>
      rw [if_neg (by simp)]
      refine ⟨fun q' hq' => ?_, fun h => absurd h (by simp)⟩
      obtain rfl := Option.some_inj.1 hq'
      exact L.rewritten query boost hprimitive
  | boolean clauses boost ih =>
    have hrenewed : ∀ c ∈ clauses, (renewed L c.1).leavesAll L.isPrimitive = true := by
      intro c hc
      unfold renewed
      cases hr : rewrite L c.1 with
      | none => exact (leavesAll_clone c.1).trans ((ih c hc).2 hr)
      | some q' => exact (ih c hc).1 q' hr
    rcases rewrite_boolean (L := L) clauses boost with ⟨c, occur, b, rfl, -, h⟩ | ⟨h, hnone⟩ | ⟨-, h⟩
    · rw [h]
      refine ⟨fun q' hq' => ?_, fun h => absurd h (by simp)⟩
      obtain rfl := Option.some_inj.1 hq'
      rw [leavesAll_setBoost]
      exact hrenewed (c, occur) List.mem_cons_self
    · rw [h]
      refine ⟨fun q' hq' => absurd hq' (by simp), fun _ => ?_⟩
      rw [leavesAll, clausesAll_eq, List.all_eq_true]
      exact fun c hc => (ih c hc).2 (hnone c hc)
    · rw [h]
      refine ⟨fun q' hq' => ?_, fun h => absurd h (by simp)⟩
      obtain rfl := Option.some_inj.1 hq'
      rw [leavesAll, clausesAll_eq, List.all_map, List.all_eq_true]
      exact hrenewed

/-- Where all leaves are primitive, a round that changes something leaves fewer `BooleanQuery`s. -/
theorem booleans_rewrite (q : BoostedQuery κ ρ) (h : q.leavesAll L.isPrimitive = true) :
    ∀ q' ∈ rewrite L q, q'.booleans < q.booleans := by
  induction q using byClauses with
  | leaf query boost =>
    have hprimitive : L.isPrimitive query = true := h
    rw [rewrite, if_pos hprimitive]
    exact fun q' hq' => absurd hq' (by simp)
  | boolean clauses boost ih =>
    rw [leavesAll, clausesAll_eq, List.all_eq_true] at h
    have hrenewed : ∀ c ∈ clauses, (renewed L c.1).booleans ≤ c.1.booleans ∧
        ((rewrite L c.1).isSome = true → (renewed L c.1).booleans < c.1.booleans) := by
      intro c hc
      unfold renewed
      cases hr : rewrite L c.1 with
      | none => exact ⟨(booleans_clone c.1).le, fun h => absurd h (by simp)⟩
      | some q' =>
        have hlt := ih c hc (h c hc) q' hr
        exact ⟨hlt.le, fun _ => hlt⟩
    intro q' hq'
    rcases rewrite_boolean (L := L) clauses boost with ⟨c, occur, b, rfl, -, h⟩ | ⟨h, -⟩ | ⟨⟨c, hc, hsome⟩, h⟩
    · rw [h] at hq'
      obtain rfl := Option.some_inj.1 hq'
      have hle := (hrenewed (c, occur) List.mem_cons_self).1
      rw [booleans_setBoost, booleans, booleansOf_eq, List.map_singleton, List.sum_singleton]
      exact Nat.lt_succ_of_le hle
    · rw [h] at hq'
      exact absurd hq' (by simp)
    · rw [h] at hq'
      obtain rfl := Option.some_inj.1 hq'
      rw [booleans, booleans, booleansOf_eq, booleansOf_eq, List.map_map, Nat.succ_lt_succ_iff]
      exact List.sum_lt_sum _ _ (fun c hc => (hrenewed c hc).1) ⟨c, hc, (hrenewed c hc).2 hsome⟩

/-- **A round finds the same documents**, if the other classes of queries do. -/
theorem finds_renewed (hL : ∀ query boost, L.isPrimitive query = false → finds docs d (L.rewrite query boost) = docs query d)
    (q : BoostedQuery κ ρ) : finds docs d (renewed L q) = finds docs d q := by
  induction q using byClauses with
  | leaf query boost =>
    unfold renewed
    rw [rewrite]
    cases hprimitive : L.isPrimitive query with
    | true => rfl
    | false =>
      rw [if_neg (by simp)]
      exact hL query boost hprimitive
  | boolean clauses boost ih =>
    rw [renewed]
    rcases rewrite_boolean (L := L) clauses boost with ⟨c, occur, b, rfl, hoccur, h⟩ | ⟨h, -⟩ | ⟨-, h⟩
    · rw [h, Option.getD_some, finds_setBoost, ih (c, occur) List.mem_cons_self, finds, findsAll, findsAll,
        selects_single hoccur]
    · rw [h, Option.getD_none]
      exact finds_clone _
    · rw [h, Option.getD_some, finds, finds, findsAll_eq, findsAll_eq, List.map_map]
      exact congrArg selects (List.map_congr_left fun c hc => congrArg (·, c.2) (ih c hc))

end BoostedQuery

namespace IndexSearcher

open BoostedQuery

variable {κ ρ : Type} [FloatT ρ] [DecidableEq ρ] {L : LeafQueries κ ρ} {docs : κ → ℤ → Bool} {d : ℤ}
    {q : BoostedQuery κ ρ} {n : ℕ}

/-- **The loop of `rewrite`** ends at a query that is returned as it is. -/
theorem rewriteLoop_spec (h : q.leavesAll L.isPrimitive = true) (hn : q.booleans ≤ n) :
    (rewriteLoop L n q).rewrite L = none := by
  induction n generalizing q with
  | zero =>
    cases q with
    | leaf query boost => exact if_pos h
    | BooleanQuery clauses boost => exact absurd hn (Nat.not_succ_le_zero _)
  | succ n ih =>
    unfold rewriteLoop
    cases hr : q.rewrite L with
    | none => exact hr
    | some q' =>
      have hlt := booleans_rewrite q h q' hr
      exact ih ((BoostedQuery.primitive_rewrite q).1 q' hr) (by omega)

/-- **`IndexSearcher::rewrite`** rewrites until there is nothing to rewrite. -/
theorem rewrite_rewrite : (rewrite L q).rewrite L = none := by
  rw [rewrite, rewriteLoop]
  cases hr : q.rewrite L with
  | none => exact hr
  | some q' => exact rewriteLoop_spec ((BoostedQuery.primitive_rewrite q).1 q' hr) le_rfl

/-- Its leaves are primitive then. -/
theorem primitive_rewrite : (rewrite L q).leavesAll L.isPrimitive = true := (BoostedQuery.primitive_rewrite _).2 rewrite_rewrite

theorem finds_rewriteLoop (hL : ∀ query boost, L.isPrimitive query = false →
      finds docs d (L.rewrite query boost) = docs query d) :
    finds docs d (rewriteLoop L n q) = finds docs d q := by
  induction n generalizing q with
  | zero => rfl
  | succ n ih =>
    unfold rewriteLoop
    have hround := finds_renewed hL q
    unfold renewed at hround
    cases hr : q.rewrite L with
    | none => rfl
    | some q' =>
      rw [hr] at hround
      exact ih.trans hround

/-- **The query that has been rewritten finds the same documents.** -/
theorem finds_rewrite (hL : ∀ query boost, L.isPrimitive query = false → finds docs d (L.rewrite query boost) = docs query d) :
    finds docs d (rewrite L q) = finds docs d q := finds_rewriteLoop hL

end IndexSearcher

end QDesktopSearch
