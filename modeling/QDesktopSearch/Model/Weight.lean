import QDesktopSearch.Model.BooleanScorer
import QDesktopSearch.Model.QueryParser
import QDesktopSearch.Model.TermScorer

/-!
# Weights and their scorers

A query is a tree of `BooleanQuery`s, and its leaves are queries of other classes. `Query::weight` has it
rewritten first, until nothing changes any more. A weight is the tree that comes of this, with numbers,
and a scorer is a tree again: of scorers of leaves and `BooleanScorer2`s, not deeper than the weight.
-/

namespace QDesktopSearch

/-! ## `ConstantScorer` and `MatchAllScorer` -/

structure BitSet where
  _size : ℕ
  bits : ℕ → Bool
  deriving Inhabited

namespace BitSet

def nextSetBitLoop (b : BitSet) : ℕ → ℕ → ℤ
  | 0, _ => -1
  | n + 1, fromIndex =>
    if b.bits fromIndex then fromIndex
    -- no index beyond the size is looked at
    else if fromIndex + 1 = b._size then -1
    else nextSetBitLoop b n (fromIndex + 1)

/-- `nextSetBit`, from an index that is not negative. -/
def nextSetBit (b : BitSet) (fromIndex : ℤ) : ℤ :=
  if fromIndex ≥ b._size then -1 else nextSetBitLoop b b._size fromIndex.toNat

end BitSet

structure ConstantScorer (ρ : Type*) where
  bits : BitSet
  theScore : ρ
  _doc : ℤ
  deriving Inhabited

namespace ConstantScorer

variable {ρ : Type*}

def new (bits : BitSet) (value : ρ) : ConstantScorer ρ := ⟨bits, value, -1⟩

def skipTo (s : ConstantScorer ρ) (target : ℤ) : Bool × ConstantScorer ρ :=
  let _doc := s.bits.nextSetBit target
  (_doc ≥ 0, { s with _doc })

def next (s : ConstantScorer ρ) : Bool × ConstantScorer ρ := s.skipTo (s._doc + 1)

instance : Cursor (ConstantScorer ρ) ρ where
  doc := _doc
  next := next
  skipTo := skipTo
  value s := (s.theScore, s)
  left s := (s.bits._size - (s._doc + 1)).toNat

end ConstantScorer

structure MatchAllScorer (ρ : Type*) where
  isDeleted : ℕ → Bool
  id : ℤ
  maxId : ℤ
  _score : ρ

namespace MatchAllScorer

variable {ρ : Type*}

def new (isDeleted : ℕ → Bool) (maxDoc : ℕ) (value : ρ) : MatchAllScorer ρ := ⟨isDeleted, -1, maxDoc - 1, value⟩

def nextLoop : ℕ → MatchAllScorer ρ → Bool × MatchAllScorer ρ
  | 0, s => (false, s)
  | n + 1, s =>
    if s.id < s.maxId then
      let s := { s with id := s.id + 1 }
      if s.isDeleted s.id.toNat then nextLoop n s else (true, s)
    else (false, s)

def next (s : MatchAllScorer ρ) : Bool × MatchAllScorer ρ := nextLoop ((s.maxId - s.id).toNat + 1) s

def skipTo (s : MatchAllScorer ρ) (target : ℤ) : Bool × MatchAllScorer ρ := next { s with id := target - 1 }

instance : Cursor (MatchAllScorer ρ) ρ where
  doc := id
  next := next
  skipTo := skipTo
  value s := (s._score, s)
  left s := (s.maxId - s.id).toNat

end MatchAllScorer

/-! ## Scorers of queries -/

/-- A scorer whose `BooleanScorer2`s are nested at most so deep. -/
def QueryScorer (σ ρ : Type) : ℕ → Type
  | 0 => σ
  | n + 1 => QueryScorer σ ρ n ⊕ BooleanScorer2 (QueryScorer σ ρ n) ρ

namespace QueryScorer

variable {σ ρ : Type} [Inhabited σ]

instance inhabited : (n : ℕ) → Inhabited (QueryScorer σ ρ n)
  | 0 => inferInstanceAs (Inhabited σ)
  | n + 1 => ⟨.inl (inhabited n).default⟩

instance cursor [Cursor σ ρ] [FloatT ρ] : (n : ℕ) → Cursor (QueryScorer σ ρ n) ρ
  | 0 => inferInstanceAs (Cursor σ ρ)
  | n + 1 =>
    have := cursor n
    inferInstanceAs (Cursor (QueryScorer σ ρ n ⊕ BooleanScorer2 (QueryScorer σ ρ n) ρ) ρ)

end QueryScorer

namespace Occur

def isRequired (occur : Occur) : Bool := occur = .MUST

def isProhibited (occur : Occur) : Bool := occur = .MUST_NOT

end Occur

/-! ## Queries, and how they are rewritten -/

/-- A query whose leaves are `κ`, with the boost of each query. -/
inductive BoostedQuery (κ ρ : Type) where
  | leaf (query : κ) (boost : ρ)
  | BooleanQuery (clauses : List (BoostedQuery κ ρ × Occur)) (boost : ρ)

namespace BoostedQuery

variable {κ ρ : Type}

mutual

/-- The leaves all have a property. -/
def leavesAll (p : κ → Bool) : BoostedQuery κ ρ → Bool
  | .leaf query _ => p query
  | .BooleanQuery clauses _ => clausesAll p clauses

def clausesAll (p : κ → Bool) : List (BoostedQuery κ ρ × Occur) → Bool
  | [] => true
  | (query, _) :: clauses => leavesAll p query && clausesAll p clauses

end

mutual

/-- The number of `BooleanQuery`s. -/
def booleans : BoostedQuery κ ρ → ℕ
  | .leaf _ _ => 0
  | .BooleanQuery clauses _ => booleansOf clauses + 1

def booleansOf : List (BoostedQuery κ ρ × Occur) → ℕ
  | [] => 0
  | (query, _) :: clauses => booleans query + booleansOf clauses

end

def getBoost : BoostedQuery κ ρ → ρ
  | .leaf _ boost => boost
  | .BooleanQuery _ boost => boost

def setBoost (b : ρ) : BoostedQuery κ ρ → BoostedQuery κ ρ
  | .leaf query _ => .leaf query b
  | .BooleanQuery clauses _ => .BooleanQuery clauses b

end BoostedQuery

/-- What the other classes of queries do: `rewrite` gives the query itself where it is primitive, and else a query
whose leaves are. The copy constructor of a class may lose the boost (that of `ConstantScoreQuery` does). -/
structure LeafQueries (κ ρ : Type) where
  isPrimitive : κ → Bool
  rewrite : κ → ρ → BoostedQuery κ ρ
  cloneBoost : κ → ρ → ρ
  rewritten : ∀ query boost, isPrimitive query = false → (rewrite query boost).leavesAll isPrimitive = true

namespace BoostedQuery

variable {κ ρ : Type} [FloatT ρ] [DecidableEq ρ] (L : LeafQueries κ ρ)

mutual

def clone : BoostedQuery κ ρ → BoostedQuery κ ρ
  | .leaf query boost => .leaf query (L.cloneBoost query boost)
  | .BooleanQuery clauses boost => .BooleanQuery (cloneAll clauses) boost

/-- The copies of the clauses. -/
def cloneAll : List (BoostedQuery κ ρ × Occur) → List (BoostedQuery κ ρ × Occur)
  | [] => []
  | (query, occur) :: clauses => (clone query, occur) :: cloneAll clauses

end

/-- The loop of `BooleanQuery::rewrite`: the query is cloned when a clause has been rewritten. -/
def replaced (clauses : List (BoostedQuery κ ρ × Occur)) (boost : ρ) (rewritten : List (Option (BoostedQuery κ ρ))) :
    Option (BoostedQuery κ ρ) :=
  if rewritten.all Option.isNone then none
  else some (.BooleanQuery (List.zipWith (fun c r => (r.getD (clone L c.1), c.2)) clauses rewritten) boost)

/-- `BooleanQuery::rewrite`, with what `rewrite` gives for the clauses. -/
def rewriteBoolean (clauses : List (BoostedQuery κ ρ × Occur)) (boost : ρ) (rewritten : List (Option (BoostedQuery κ ρ))) :
    Option (BoostedQuery κ ρ) :=
  match clauses, rewritten with
  | [(c, occur)], [r] =>
    if occur.isProhibited then replaced L clauses boost rewritten
    else
      let query := r.getD (clone L c)
      some (if boost ≠ 1 then query.setBoost (boost * query.getBoost) else query)
  | _, _ => replaced L clauses boost rewritten

mutual

/-- `Query::rewrite`; none where the query itself is returned. -/
def rewrite : BoostedQuery κ ρ → Option (BoostedQuery κ ρ)
  | .leaf query boost => if L.isPrimitive query then none else some (L.rewrite query boost)
  | .BooleanQuery clauses boost => rewriteBoolean L clauses boost (rewriteAll clauses)

def rewriteAll : List (BoostedQuery κ ρ × Occur) → List (Option (BoostedQuery κ ρ))
  | [] => []
  | (query, _) :: clauses => rewrite query :: rewriteAll clauses

end

end BoostedQuery

namespace IndexSearcher

variable {κ ρ : Type} [FloatT ρ] [DecidableEq ρ] (L : LeafQueries κ ρ)

/-- The loop of `rewrite`. -/
def rewriteLoop : ℕ → BoostedQuery κ ρ → BoostedQuery κ ρ
  | 0, query => query
  | n + 1, query =>
    match query.rewrite L with
    | none => query
    | some rewrittenQuery => rewriteLoop n rewrittenQuery

/-- `IndexSearcher::rewrite`. The first round leaves primitive leaves, and each round after it fewer `BooleanQuery`s. -/
def rewrite (original : BoostedQuery κ ρ) : BoostedQuery κ ρ :=
  rewriteLoop L ((original.rewrite L).elim 0 BoostedQuery.booleans + 1) original

end IndexSearcher

/-! ## Weights -/

/-- The weight of a leaf. `TermWeight` and `PhraseWeight` have an `idf`; of `ConstantWeight` and
`MatchAllDocsWeight`, which have none, the value is the weight of the query. -/
structure LeafWeight (κ ρ : Type) where
  query : κ
  idf : Option ρ
  boost : ρ
  queryWeight : ρ
  value : ρ

namespace LeafWeight

variable {κ ρ : Type} [FloatT ρ]

def sumOfSquaredWeights (w : LeafWeight κ ρ) : ρ × LeafWeight κ ρ :=
  let queryWeight := w.idf.elim w.boost (· * w.boost)
  (queryWeight * queryWeight, { w with queryWeight })

def normalize (w : LeafWeight κ ρ) (queryNorm : ρ) : LeafWeight κ ρ :=
  let queryWeight := w.queryWeight * queryNorm
  { w with queryWeight, value := w.idf.elim queryWeight (queryWeight * ·) }

end LeafWeight

inductive Weight (κ ρ : Type) where
  | leaf (w : LeafWeight κ ρ)
  | BooleanWeight (boost : ρ) (weights : List (Weight κ ρ × Occur))

section

variable {κ ρ : Type} [FloatT ρ] (idf : κ → Option ρ)

mutual

/-- `Query::_createWeight`. -/
def BoostedQuery._createWeight : BoostedQuery κ ρ → Weight κ ρ
  | .leaf query boost => .leaf ⟨query, idf query, boost, 0, 0⟩
  | .BooleanQuery clauses boost => .BooleanWeight boost (BoostedQuery._createWeights clauses)

/-- The constructor of `BooleanWeight`. -/
def BoostedQuery._createWeights : List (BoostedQuery κ ρ × Occur) → List (Weight κ ρ × Occur)
  | [] => []
  | (query, occur) :: clauses => (BoostedQuery._createWeight query, occur) :: BoostedQuery._createWeights clauses

end

end

namespace Weight

variable {κ ρ : Type} [FloatT ρ]

mutual

def sumOfSquaredWeights : Weight κ ρ → ρ × Weight κ ρ
  | .leaf w => w.sumOfSquaredWeights.map id .leaf
  | .BooleanWeight boost weights =>
    let r := sumOfWeights weights 0
    (r.1 * (boost * boost), .BooleanWeight boost r.2)

/-- The loop of `sumOfSquaredWeights`: the sum is of the clauses that are not prohibited. -/
def sumOfWeights : List (Weight κ ρ × Occur) → (sum : ρ) → ρ × List (Weight κ ρ × Occur)
  | [], sum => (sum, [])
  | (w, occur) :: weights, sum =>
    let s := sumOfSquaredWeights w
    let r := sumOfWeights weights (if occur.isProhibited then sum else sum + s.1)
    (r.1, (s.2, occur) :: r.2)

end

mutual

def normalize : Weight κ ρ → (norm : ρ) → Weight κ ρ
  | .leaf w, norm => .leaf (w.normalize norm)
  | .BooleanWeight boost weights, norm => .BooleanWeight boost (normalizeAll weights (norm * boost))

/-- The loop of `normalize`. -/
def normalizeAll : List (Weight κ ρ × Occur) → (norm : ρ) → List (Weight κ ρ × Occur)
  | [], _ => []
  | (w, occur) :: weights, norm => (normalize w norm, occur) :: normalizeAll weights norm

end

mutual

/-- How deep the `BooleanWeight`s are nested. -/
def depth : Weight κ ρ → ℕ
  | .leaf _ => 0
  | .BooleanWeight _ weights => depthOf weights + 1

def depthOf : List (Weight κ ρ × Occur) → ℕ
  | [] => 0
  | (w, _) :: weights => max (depth w) (depthOf weights)

end

variable {σ : Type} (leafScorer : κ → ρ → Option σ)

/-- The loop of `BooleanWeight::scorer`, over what the weights give. -/
def addScorers {τ : Type} : List (Option τ × Occur) → BooleanScorer2 τ ρ → Option (BooleanScorer2 τ ρ)
  | [], result => some result
  | (some subScorer, occur) :: scorers, result => addScorers scorers (result.add subScorer occur.isRequired occur.isProhibited)
  | (none, occur) :: scorers, result => if occur.isRequired then none else addScorers scorers result

/-- `scorer`, of a weight that is nested at most so deep. -/
def scorer : (n : ℕ) → Weight κ ρ → Option (QueryScorer σ ρ n)
  | 0, .leaf w => leafScorer w.query w.value
  | n + 1, .leaf w => (scorer n (.leaf w)).map .inl
  | 0, .BooleanWeight _ _ => none
  | n + 1, .BooleanWeight _ weights => (addScorers (weights.map fun w => (scorer n w.1, w.2)) .new).map .inr

end Weight

/-- `Query::weight`. -/
def BoostedQuery.weight {κ ρ : Type} [FloatT ρ] [DecidableEq ρ] (L : LeafQueries κ ρ) (idf : κ → Option ρ) (queryNorm : ρ → ρ)
    (query : BoostedQuery κ ρ) : Weight κ ρ :=
  let query := IndexSearcher.rewrite L query
  let r := (query._createWeight idf).sumOfSquaredWeights
  r.2.normalize (queryNorm r.1)

end QDesktopSearch
