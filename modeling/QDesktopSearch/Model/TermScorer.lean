import Mathlib.Algebra.Field.Rat
import QDesktopSearch.Lib.Cursor
import QDesktopSearch.Lib.Feed
import QDesktopSearch.Model.Postings

/-!
# Terms that are searched for

`TermDocs` is a `Feed` of documents, with the frequency of the term in each. Scores are of a type with the
operations of `float_t`, of which nothing is assumed: how they round is left open.
-/

namespace QDesktopSearch

/-- A segment has, for a term, a `TermDocs` of its own. -/
instance : Feed SegmentTermDocs ℕ where
  top x := (x._doc, x._freq)
  next := SegmentTermDocs.next
  read := SegmentTermDocs.read
  skipTo := SegmentTermDocs.skipTo
  left x := x.df - x.count

/-! ## `MultiTermDocs` -/

/-- The segments of an index; `readerTermDocs` has for each what `termDocs` sends to the term. -/
structure MultiTermDocs (δ : Type*) where
  readerTermDocs : List δ
  starts : List ℕ
  base : ℕ
  pointer : ℕ
  current : Option δ

namespace MultiTermDocs

variable {δ : Type*} [Feed δ ℕ]

/-- The constructor and `seek`. -/
def seek (readerTermDocs : List δ) (starts : List ℕ) : MultiTermDocs δ := ⟨readerTermDocs, starts, 0, 0, none⟩

def doc (x : MultiTermDocs δ) : ℕ := x.base + x.current.elim 0 fun current => (Feed.top current).1

def freq (x : MultiTermDocs δ) : ℕ := x.current.elim 0 fun current => (Feed.top current).2

/-- On to the next segment. -/
def nextSegment (x : MultiTermDocs δ) : MultiTermDocs δ :=
  { x with base := x.starts.getD x.pointer 0, current := x.readerTermDocs[x.pointer]?, pointer := x.pointer + 1 }

/-- The loop of `next` and of `skipTo`, which differ in how they move the current segment. -/
def moveLoop (move : (base : ℕ) → δ → Bool × δ) : ℕ → MultiTermDocs δ → Bool × MultiTermDocs δ
  | 0, x => (false, x)
  | n + 1, x =>
    let r : Bool × MultiTermDocs δ :=
      match x.current with
      | none => (false, x)
      | some current => (move x.base current).map id fun current => { x with current := some current }
    if r.1 then (true, r.2)
    else if r.2.pointer < r.2.readerTermDocs.length then moveLoop move n r.2.nextSegment
    else (false, r.2)

def next (x : MultiTermDocs δ) : Bool × MultiTermDocs δ :=
  moveLoop (fun _ => Feed.next) (x.readerTermDocs.length - x.pointer + 1) x

def skipTo (x : MultiTermDocs δ) (target : ℤ) : Bool × MultiTermDocs δ :=
  moveLoop (fun base => (Feed.skipTo · (target - base))) (x.readerTermDocs.length - x.pointer + 1) x

/-- The loop of `read`. -/
def readLoop (length : ℕ) : ℕ → MultiTermDocs δ → List (ℕ × ℕ) × MultiTermDocs δ
  | 0, x => ([], x)
  | n + 1, x =>
    match x.current with
    | none => if x.pointer < x.readerTermDocs.length then readLoop length n x.nextSegment else ([], x)
    | some current =>
      let r := Feed.read current length
      -- the segment is exhausted; the next is taken in the next round
      if r.1.length = 0 then readLoop length n { x with current := none }
      else (r.1.map fun d => (d.1 + x.base, d.2), { x with current := some r.2 })

def read (x : MultiTermDocs δ) (length : ℕ) : List (ℕ × ℕ) × MultiTermDocs δ :=
  readLoop length (2 * (x.readerTermDocs.length - x.pointer) + 2) x

instance : Feed (MultiTermDocs δ) ℕ where
  top x := (x.doc, x.freq)
  next := next
  read := read
  skipTo := skipTo
  left x := x.current.elim 0 Feed.left + ((x.readerTermDocs.drop x.pointer).map Feed.left).sum

end MultiTermDocs

/-! ## Scores -/

/-- The operations of `float_t`. -/
class FloatT (ρ : Type*) extends Zero ρ, One ρ, Neg ρ, Add ρ, Mul ρ, Div ρ, NatCast ρ

instance : FloatT ℚ where

/-- `DefaultSimilarity::coord`. -/
def coord {ρ : Type*} [FloatT ρ] (overlap maxOverlap : ℕ) : ρ := if maxOverlap = 0 then 0 else overlap / maxOverlap

/-- What else of a `Similarity` the scorers use. -/
structure Similarity (ρ : Type*) where
  tf : ℕ → ρ
  decodeNorm : UInt8 → ρ

/-! ## `TermScorer` -/

/-- `docs` has what is valid of the two buffers, up to `pointerMax`. -/
structure TermScorer (δ ρ : Type*) where
  similarity : Similarity ρ
  termDocs : δ
  norms : ℕ → UInt8
  weightValue : ρ
  _doc : ℤ
  docs : List (ℕ × ℕ)
  pointer : ℕ
  scoreCache : List ρ

namespace TermScorer

/-- `LUCENE_SCORE_CACHE_SIZE`. -/
def scoreCacheSize : ℕ := 32

variable {δ ρ : Type*} [Feed δ ℕ] [FloatT ρ]

def new (similarity : Similarity ρ) (termDocs : δ) (norms : ℕ → UInt8) (weightValue : ρ) : TermScorer δ ρ :=
  ⟨similarity, termDocs, norms, weightValue, 0, [], 0, (List.range scoreCacheSize).map fun i => similarity.tf i * weightValue⟩

def next (s : TermScorer δ ρ) : Bool × TermScorer δ ρ :=
  let s := { s with pointer := s.pointer + 1 }
  match s.docs[s.pointer]? with
  | some d => (true, { s with _doc := d.1 })
  | none =>
    -- the buffer is exhausted
    let r := Feed.read s.termDocs 32
    match r.1 with
    | [] => (false, { s with termDocs := r.2, docs := [], _doc := noMoreDocs })
    | d :: ds => (true, { s with termDocs := r.2, docs := d :: ds, pointer := 0, _doc := d.1 })

/-- The scan in the buffer. -/
def scanCache (docs : List (ℕ × ℕ)) (target : ℤ) : ℕ → (pointer : ℕ) → ℕ
  | 0, pointer => pointer
  | n + 1, pointer =>
    match docs[pointer]? with
    | none => pointer
    | some d => if (d.1 : ℤ) ≥ target then pointer else scanCache docs target n (pointer + 1)

def skipTo (s : TermScorer δ ρ) (target : ℤ) : Bool × TermScorer δ ρ :=
  let s := { s with pointer := scanCache s.docs target (s.docs.length + 1) (s.pointer + 1) }
  match s.docs[s.pointer]? with
  | some d => (true, { s with _doc := d.1 })
  | none =>
    -- the target is behind the buffer, of which one document is left
    let r := Feed.skipTo s.termDocs target
    if r.1 then
      let d := Feed.top r.2
      (true, { s with termDocs := r.2, docs := [d], pointer := 0, _doc := d.1 })
    else (false, { s with termDocs := r.2, _doc := noMoreDocs })

def score (s : TermScorer δ ρ) : ρ :=
  let f := (s.docs.getD s.pointer (0, 0)).2
  let raw := if f < scoreCacheSize then s.scoreCache.getD f 0 else s.similarity.tf f * s.weightValue
  raw * s.similarity.decodeNorm (s.norms s._doc.toNat)

instance : Cursor (TermScorer δ ρ) ρ where
  doc := _doc
  next := next
  skipTo := skipTo
  value s := (s.score, s)
  left s := s.docs.length - (s.pointer + 1) + Feed.left s.termDocs

end TermScorer

end QDesktopSearch
