import Mathlib.Data.List.Sort
import QDesktopSearch.Lib.Cursor
import QDesktopSearch.Lib.Heap
import QDesktopSearch.Model.TermScorer

/-!
# The scorers of a `BooleanQuery`

`Scorer` is a `Cursor`, with a score at each document; `σ` is the type of the scorers below. A loop
has as much fuel as the scorers below it have calls left. `minNrShouldMatch`, which nothing in the
program sets, is 0. A counting scorer gives, with its score, what it adds to the `Coordinator`. Scores are
added up in the order of the source, as `float_t` depends on it.
-/

namespace QDesktopSearch

variable {σ τ ρ : Type*}

/-- The calls that are left of several scorers. -/
def leftOf [Cursor σ ρ] (scorers : List σ) : ℕ := (scorers.map Cursor.left).sum

/-- The scores of several scorers, one after the other. -/
def scores [Cursor σ ρ] (scorers : List σ) : List ρ × List σ := (scorers.map Cursor.value).unzip

/-! ## `ConjunctionScorer` -/

/-- There is at least one scorer. -/
structure ConjunctionScorer (σ : Type*) where
  scorers : List σ
  firstTime : Bool
  more : Bool
  lastDoc : ℤ

namespace ConjunctionScorer

variable [Cursor σ ρ]

def new (scorers : List σ) : ConjunctionScorer σ := ⟨scorers, true, false, -1⟩

/-- The loop of `doNext`. -/
def doNextLoop : ℕ → List σ → (first : ℕ) → (lastDoc : ℤ) → Bool × List σ × ℤ
  | 0, scorers, _, lastDoc => (false, scorers, lastDoc)
  | n + 1, scorers, first, lastDoc =>
    match scorers[first]? with
    | none => (false, scorers, lastDoc)
    | some firstScorer =>
      if Cursor.doc firstScorer < lastDoc then
        let r := Cursor.skipTo firstScorer lastDoc
        if r.1 then
          doNextLoop n (scorers.set first r.2) (if first = scorers.length - 1 then 0 else first + 1) (Cursor.doc r.2)
        else (false, scorers.set first r.2, lastDoc)
      else (true, scorers, lastDoc)

def doNext (c : ConjunctionScorer σ) : Bool × ConjunctionScorer σ :=
  if c.more then
    match c.scorers.getLast? with
    | none => (false, { c with more := false })
    | some lastScorer =>
      let r := doNextLoop (leftOf c.scorers + 1) c.scorers 0 (Cursor.doc lastScorer)
      (r.1, { c with scorers := r.2.1, more := r.1, lastDoc := r.2.2 })
  else (false, c)

/-- The loop of `init` over the scorers. -/
def initLoop (target : ℤ) : List σ → Bool × List σ
  | [] => (true, [])
  | scorer :: scorers =>
    let r := if target = 0 then Cursor.next scorer else Cursor.skipTo scorer target
    if r.1 then
      let q := initLoop target scorers
      (q.1, r.2 :: q.2)
    else (false, r.2 :: scorers)

/-- Two elements change places. -/
def swap {α : Type*} (i j : ℕ) (l : List α) : List α :=
  match l[i]?, l[j]? with
  | some a, some b => (l.set i b).set j a
  | _, _ => l

/-- The loop at the end of `init`: all but the last are reversed, or nearly so. -/
def reverseOthers {α : Type*} (l : List α) : List α :=
  let last := l.length - 1 - 1
  (List.range (last / 2)).foldl (fun l i => swap i (last - i) l) l

def init (c : ConjunctionScorer σ) (target : ℤ) : Bool × ConjunctionScorer σ :=
  let c := { c with firstTime := false }
  let r := initLoop target c.scorers
  if r.1 then
    -- the last scorer is then on the greatest document
    let scorers := r.2.insertionSort fun x y => Cursor.doc x ≤ Cursor.doc y
    let q := doNext { c with scorers := scorers, more := true }
    (q.1, { q.2 with scorers := reverseOthers q.2.scorers })
  else (false, { c with scorers := r.2, more := false })

/-- The call on the last scorer with which `next` and `skipTo` begin. -/
def moveLast (move : σ → Bool × σ) (c : ConjunctionScorer σ) : ConjunctionScorer σ :=
  if c.more then
    match c.scorers.getLast? with
    | none => c
    | some lastScorer =>
      let r := move lastScorer
      { c with scorers := c.scorers.dropLast ++ [r.2], more := r.1 }
  else c

/-- `next`; the result of the `init` that it calls is checked once more by `doNext`. -/
def next (c : ConjunctionScorer σ) : Bool × ConjunctionScorer σ :=
  if c.firstTime then doNext (c.init 0).2 else doNext (c.moveLast Cursor.next)

def skipTo (c : ConjunctionScorer σ) (target : ℤ) : Bool × ConjunctionScorer σ :=
  if c.firstTime then c.init target else doNext (c.moveLast (Cursor.skipTo · target))

def score [FloatT ρ] (c : ConjunctionScorer σ) : ρ × ConjunctionScorer σ :=
  let r := scores c.scorers
  (r.1.foldl (· + ·) 0 * coord c.scorers.length c.scorers.length, { c with scorers := r.2 })

instance [FloatT ρ] : Cursor (ConjunctionScorer σ) ρ where
  doc := lastDoc
  next := next
  skipTo := skipTo
  value := score
  left c := leftOf c.scorers

end ConjunctionScorer

/-! ## `DisjunctionSumScorer` -/

/-- A scorer in the queue, with its document. -/
structure HeapedScorerDoc (σ : Type*) where
  _scorer : σ
  _doc : ℤ
  deriving Inhabited

namespace ScorerDocQueue

variable [Cursor σ ρ] [Inhabited σ]

def lessThan (x y : HeapedScorerDoc σ) : Bool := x._doc < y._doc

def insert (maxSize : ℕ) (q : Heap (HeapedScorerDoc σ)) (scorer : σ) : Bool × Heap (HeapedScorerDoc σ) :=
  Heap.insert lessThan maxSize q ⟨scorer, Cursor.doc scorer⟩

def topDoc (q : Heap (HeapedScorerDoc σ)) : ℤ := (q.heap 1)._doc

/-- `topScore`, with what it leaves of the scorer. -/
def topScore (q : Heap (HeapedScorerDoc σ)) : ρ × Heap (HeapedScorerDoc σ) :=
  let r := Cursor.value (q.heap 1)._scorer
  (r.1, { q with heap := Function.update q.heap 1 ⟨r.2, (q.heap 1)._doc⟩ })

/-- `checkAdjustElsePop`, where the scorer at the top has been moved. -/
def checkAdjustElsePop (q : Heap (HeapedScorerDoc σ)) (r : Bool × σ) : Bool × Heap (HeapedScorerDoc σ) :=
  if r.1 then (true, q.replaceTop lessThan ⟨r.2, Cursor.doc r.2⟩) else (false, (q.pop lessThan).2)

def topNextAndAdjustElsePop (q : Heap (HeapedScorerDoc σ)) : Bool × Heap (HeapedScorerDoc σ) :=
  checkAdjustElsePop q (Cursor.next (q.heap 1)._scorer)

def topSkipToAndAdjustElsePop (q : Heap (HeapedScorerDoc σ)) (target : ℤ) : Bool × Heap (HeapedScorerDoc σ) :=
  checkAdjustElsePop q (Cursor.skipTo (q.heap 1)._scorer target)

/-- The calls that are left, with one for every scorer. -/
def left (q : Heap (HeapedScorerDoc σ)) : ℕ := (q.contents.map fun x => Cursor.left x._scorer + 1).sum

end ScorerDocQueue

/-- The queue is null until the first call; its size is `queueSize`. -/
structure DisjunctionSumScorer (σ ρ : Type*) where
  subScorers : List σ
  minimumNrMatchers : ℕ
  scorerDocQueue : Option (Heap (HeapedScorerDoc σ))
  currentDoc : ℤ
  currentScore : ρ
  _nrMatchers : ℕ

namespace DisjunctionSumScorer

open ScorerDocQueue

variable [Cursor σ ρ] [Inhabited σ] [FloatT ρ]

/-- What the constructor makes behind its checks. -/
def construct (subScorers : List σ) (minimumNrMatchers : ℕ) : DisjunctionSumScorer σ ρ :=
  ⟨subScorers, minimumNrMatchers, none, -1, -1, 0⟩

/-- The constructor; the error is the text of the exception. -/
def new (subScorers : List σ) (minimumNrMatchers : ℕ) : Except String (DisjunctionSumScorer σ ρ) :=
  if minimumNrMatchers = 0 then .error "Minimum nr of matchers must be positive"
  else if subScorers.length ≤ 1 then .error "There must be at least 2 subScorers"
  else .ok (construct subScorers minimumNrMatchers)

def initScorerDocQueue (subScorers : List σ) : Heap (HeapedScorerDoc σ) :=
  subScorers.foldl (fun q scorer =>
    let r := Cursor.next scorer
    if r.1 then (insert subScorers.length q r.2).2 else q) ⟨0, fun _ => default⟩

/-- The inner loop of `advanceAfterCurrent`: the scorers on the document go on. -/
def advanceLoop : ℕ → Heap (HeapedScorerDoc σ) → (currentDoc : ℤ) → ρ → ℕ → Heap (HeapedScorerDoc σ) × ρ × ℕ
  | 0, q, _, currentScore, _nrMatchers => (q, currentScore, _nrMatchers)
  | n + 1, q, currentDoc, currentScore, _nrMatchers =>
    let q := (topNextAndAdjustElsePop q).2
    if q.size = 0 then (q, currentScore, _nrMatchers)
    -- every scorer that matches has been counted
    else if topDoc q ≠ currentDoc then (q, currentScore, _nrMatchers)
    else
      let r := topScore q
      advanceLoop n r.2 currentDoc (currentScore + r.1) (_nrMatchers + 1)

/-- The outer loop of `advanceAfterCurrent`. -/
def advanceAfterCurrent : ℕ → DisjunctionSumScorer σ ρ → Heap (HeapedScorerDoc σ) → Bool × DisjunctionSumScorer σ ρ
  | 0, d, q => (false, { d with scorerDocQueue := some q })
  | n + 1, d, q =>
    let currentDoc := topDoc q
    let r := topScore q
    let a := advanceLoop (left r.2) r.2 currentDoc r.1 1
    let d := { d with scorerDocQueue := some a.1, currentDoc, currentScore := a.2.1, _nrMatchers := a.2.2 }
    if a.2.2 ≥ d.minimumNrMatchers then (true, d)
    else if a.1.size < d.minimumNrMatchers then (false, d)
    else advanceAfterCurrent n d a.1

/-- The queue, which is made on the first call. -/
def queue (d : DisjunctionSumScorer σ ρ) : Heap (HeapedScorerDoc σ) :=
  d.scorerDocQueue.getD (initScorerDocQueue d.subScorers)

def next (d : DisjunctionSumScorer σ ρ) : Bool × DisjunctionSumScorer σ ρ :=
  if d.queue.size ≥ d.minimumNrMatchers then advanceAfterCurrent (left d.queue) d d.queue
  else (false, { d with scorerDocQueue := some d.queue })

/-- The loop of `skipTo`. -/
def skipLoop (target : ℤ) : ℕ → DisjunctionSumScorer σ ρ → Heap (HeapedScorerDoc σ) → Bool × DisjunctionSumScorer σ ρ
  | 0, d, q => (false, { d with scorerDocQueue := some q })
  | n + 1, d, q =>
    if topDoc q ≥ target then advanceAfterCurrent (left q) d q
    else
      let r := topSkipToAndAdjustElsePop q target
      -- a scorer that is exhausted may leave too few
      if !r.1 && r.2.size < d.minimumNrMatchers then (false, { d with scorerDocQueue := some r.2 })
      else skipLoop target n d r.2

def skipTo (d : DisjunctionSumScorer σ ρ) (target : ℤ) : Bool × DisjunctionSumScorer σ ρ :=
  if d.queue.size < d.minimumNrMatchers then (false, { d with scorerDocQueue := some d.queue })
  else if target ≤ d.currentDoc then (true, { d with scorerDocQueue := some d.queue })
  else skipLoop target (left d.queue) d d.queue

instance : Cursor (DisjunctionSumScorer σ ρ) ρ where
  doc := currentDoc
  next := next
  skipTo := skipTo
  value d := (d.currentScore, d)
  left d := match d.scorerDocQueue with
    | none => (d.subScorers.map fun s => Cursor.left s + 1).sum
    | some q => ScorerDocQueue.left q

end DisjunctionSumScorer

/-! ## The scorers of `BooleanScorer2` -/

/-- A scorer that adds to `nrMatchers` of the `Coordinator` when it gives a score. -/
structure MatchCountingScorer (σ : Type*) (nrMatchers : σ → ℕ) where
  scorer : σ
  lastScoredDoc : ℤ

namespace MatchCountingScorer

variable [Cursor σ ρ] {nrMatchers : σ → ℕ}

def score (m : MatchCountingScorer σ nrMatchers) : (ρ × ℕ) × MatchCountingScorer σ nrMatchers :=
  let d := Cursor.doc m.scorer
  let r := Cursor.value m.scorer
  -- a document is not counted before the last one
  if d ≥ m.lastScoredDoc then ((r.1, nrMatchers m.scorer), ⟨r.2, d⟩) else ((r.1, 0), { m with scorer := r.2 })

instance : Cursor (MatchCountingScorer σ nrMatchers) (ρ × ℕ) where
  doc m := Cursor.doc m.scorer
  next m := (Cursor.next m.scorer).map id ({ m with scorer := · })
  skipTo m target := (Cursor.skipTo m.scorer target).map id ({ m with scorer := · })
  value := score
  left m := Cursor.left m.scorer

end MatchCountingScorer

abbrev SingleMatchScorer (σ : Type*) := MatchCountingScorer σ fun _ => 1

abbrev BSConjunctionScorer (σ : Type*) := MatchCountingScorer (ConjunctionScorer σ) (·.scorers.length)

abbrev BSDisjunctionSumScorer (σ ρ : Type*) := MatchCountingScorer (DisjunctionSumScorer σ ρ) (·._nrMatchers)

/-- `NonMatchingScorer`, which is never asked for a document or a score. -/
structure NonMatchingScorer (ρ : Type*) where

instance [FloatT ρ] : Cursor (NonMatchingScorer ρ) (ρ × ℕ) where
  doc _ := -1
  next s := (false, s)
  skipTo s _ := (false, s)
  value s := ((0, 0), s)
  left _ := 0

/-- The optional scorer is null once it is exhausted. -/
structure ReqOptSumScorer (σ τ : Type*) where
  reqScorer : σ
  optScorer : Option τ
  firstTimeOptScorer : Bool

namespace ReqOptSumScorer

variable [Cursor σ ρ] [Cursor τ ρ] [Add ρ]

/-- The score at `curDoc`, with that of the optional scorer where it stands there. -/
def withOptional (curDoc : ℤ) (reqScore : ρ) (reqScorer : σ) (optScorer : τ) : ρ × ReqOptSumScorer σ τ :=
  if Cursor.doc optScorer = curDoc then
    let r := Cursor.value optScorer
    (reqScore + r.1, ⟨reqScorer, some r.2, false⟩)
  else (reqScore, ⟨reqScorer, some optScorer, false⟩)

def score (s : ReqOptSumScorer σ τ) : ρ × ReqOptSumScorer σ τ :=
  let curDoc := Cursor.doc s.reqScorer
  let r := Cursor.value s.reqScorer
  match s.optScorer with
  | none => (r.1, ⟨r.2, none, false⟩)
  | some optScorer =>
    if s.firstTimeOptScorer || decide (Cursor.doc optScorer < curDoc) then
      let q := Cursor.skipTo optScorer curDoc
      -- an optional scorer that is exhausted is not asked again
      if q.1 then withOptional curDoc r.1 r.2 q.2 else (r.1, ⟨r.2, none, false⟩)
    else withOptional curDoc r.1 r.2 optScorer

instance : Cursor (ReqOptSumScorer σ τ) ρ where
  doc s := Cursor.doc s.reqScorer
  next s := (Cursor.next s.reqScorer).map id ({ s with reqScorer := · })
  skipTo s target := (Cursor.skipTo s.reqScorer target).map id ({ s with reqScorer := · })
  value := score
  left s := Cursor.left s.reqScorer

end ReqOptSumScorer

/-- Each scorer is null once it is exhausted. -/
structure ReqExclScorer (σ τ : Type*) where
  reqScorer : Option σ
  exclScorer : Option τ
  firstTime : Bool

namespace ReqExclScorer

variable {ρ' : Type*} [Cursor σ ρ] [Cursor τ ρ'] [Zero ρ]

/-- `toNonExcluded`, from the documents on which the scorers stand. -/
def toNonExcluded : ℕ → σ → τ → Bool × ReqExclScorer σ τ
  | 0, req, excl => (false, ⟨some req, some excl, false⟩)
  | n + 1, req, excl =>
    let reqDoc := Cursor.doc req
    let advance (excl : τ) : Bool × ReqExclScorer σ τ :=
      let r := Cursor.next req
      if r.1 then toNonExcluded n r.2 excl else (false, ⟨none, some excl, false⟩)
    if reqDoc < Cursor.doc excl then (true, ⟨some req, some excl, false⟩)
    else if reqDoc > Cursor.doc excl then
      let q := Cursor.skipTo excl reqDoc
      if !q.1 then (true, ⟨some req, none, false⟩)
      else if Cursor.doc q.2 > reqDoc then (true, ⟨some req, some q.2, false⟩)
      else advance q.2
    else advance excl

/-- The first call moves the prohibited scorer as well. -/
def initExcl (move : τ → Bool × τ) (s : ReqExclScorer σ τ) : Option τ :=
  match s.exclScorer with
  | none => none
  | some excl =>
    if s.firstTime then
      let r := move excl
      if r.1 then some r.2 else none
    else some excl

def next (s : ReqExclScorer σ τ) : Bool × ReqExclScorer σ τ :=
  let exclScorer := initExcl Cursor.next s
  match s.reqScorer with
  | none => (false, ⟨none, exclScorer, false⟩)
  | some req =>
    let r := Cursor.next req
    if !r.1 then (false, ⟨none, exclScorer, false⟩)
    else
      match exclScorer with
      | none => (true, ⟨some r.2, none, false⟩)
      | some excl => toNonExcluded (Cursor.left r.2 + 1) r.2 excl

def skipTo (s : ReqExclScorer σ τ) (target : ℤ) : Bool × ReqExclScorer σ τ :=
  let exclScorer := initExcl (Cursor.skipTo · target) s
  match s.reqScorer with
  | none => (false, ⟨none, exclScorer, false⟩)
  | some req =>
    let r := Cursor.skipTo req target
    match exclScorer with
    | none => (r.1, ⟨some r.2, none, false⟩)
    | some excl => if !r.1 then (false, ⟨none, some excl, false⟩) else toNonExcluded (Cursor.left r.2 + 1) r.2 excl

instance : Cursor (ReqExclScorer σ τ) ρ where
  doc s := s.reqScorer.elim (-1) Cursor.doc
  next := next
  skipTo := skipTo
  value s :=
    match s.reqScorer with
    | none => (0, s)
    | some req => (Cursor.value req).map id ({ s with reqScorer := some · })
  left s := s.reqScorer.elim 0 Cursor.left

end ReqExclScorer

/-! ## `BooleanScorer2` -/

/-- What `makeCountingSumScorer` makes of required or optional scorers. -/
abbrev MatchingScorer (σ ρ : Type*) := SingleMatchScorer σ ⊕ (BSConjunctionScorer σ ⊕ BSDisjunctionSumScorer σ ρ)

abbrev ProhibitedScorer (σ ρ : Type*) := σ ⊕ DisjunctionSumScorer σ ρ

abbrev RequiredScorer (σ ρ : Type*) := MatchingScorer σ ρ ⊕ ReqExclScorer (MatchingScorer σ ρ) (ProhibitedScorer σ ρ)

abbrev CountingSumScorer (σ ρ : Type*) :=
  NonMatchingScorer ρ ⊕ (RequiredScorer σ ρ ⊕ ReqOptSumScorer (RequiredScorer σ ρ) (MatchingScorer σ ρ))

/-- The counting scorer is null until the first call. -/
structure BooleanScorer2 (σ ρ : Type*) where
  requiredScorers : List σ
  optionalScorers : List σ
  prohibitedScorers : List σ
  maxCoord : ℕ
  countingSumScorer : Option (CountingSumScorer σ ρ)

namespace BooleanScorer2

def new : BooleanScorer2 σ ρ := ⟨[], [], [], 0, none⟩

def add (b : BooleanScorer2 σ ρ) (scorer : σ) (required prohibited : Bool) : BooleanScorer2 σ ρ :=
  let b := if prohibited then b else { b with maxCoord := b.maxCoord + 1 }
  if required then { b with requiredScorers := b.requiredScorers ++ [scorer] }
  else if prohibited then { b with prohibitedScorers := b.prohibitedScorers ++ [scorer] }
  else { b with optionalScorers := b.optionalScorers ++ [scorer] }

variable [Cursor σ ρ] [Inhabited σ] [FloatT ρ]

def singleMatchScorer (scorer : σ) : MatchingScorer σ ρ := .inl ⟨scorer, -1⟩

def countingConjunctionSumScorer (scorers : List σ) : MatchingScorer σ ρ := .inr (.inl ⟨.new scorers, -1⟩)

def countingDisjunctionSumScorer (scorers : List σ) (minNrShouldMatch : ℕ) : MatchingScorer σ ρ :=
  .inr (.inr ⟨.construct scorers minNrShouldMatch, -1⟩)

def addProhibitedScorers (prohibitedScorers : List σ) (requiredCountingSumScorer : MatchingScorer σ ρ) : RequiredScorer σ ρ :=
  match prohibitedScorers with
  | [] => .inl requiredCountingSumScorer
  | [scorer] => .inr ⟨some requiredCountingSumScorer, some (.inl scorer), true⟩
  | scorers => .inr ⟨some requiredCountingSumScorer, some (.inr (.construct scorers 1)), true⟩

/-- The scorer of the optional scorers, one of which is to match. -/
def optionalScorer : List σ → MatchingScorer σ ρ
  | [scorer] => singleMatchScorer scorer
  | scorers => countingDisjunctionSumScorer scorers 1

def makeCountingSumScorerNoReq (b : BooleanScorer2 σ ρ) : CountingSumScorer σ ρ :=
  match b.optionalScorers with
  | [] => .inl ⟨⟩
  | scorers => .inr (.inl (addProhibitedScorers b.prohibitedScorers (optionalScorer scorers)))

def makeCountingSumScorerSomeReq (b : BooleanScorer2 σ ρ) : CountingSumScorer σ ρ :=
  match b.optionalScorers with
  | [] => .inr (.inl (addProhibitedScorers b.prohibitedScorers (countingConjunctionSumScorer b.requiredScorers)))
  | scorers =>
    let requiredCountingSumScorer := match b.requiredScorers with
      | [scorer] => singleMatchScorer scorer
      | requiredScorers => countingConjunctionSumScorer requiredScorers
    .inr (.inr ⟨addProhibitedScorers b.prohibitedScorers requiredCountingSumScorer, some (optionalScorer scorers), true⟩)

def makeCountingSumScorer (b : BooleanScorer2 σ ρ) : CountingSumScorer σ ρ :=
  match b.requiredScorers with
  | [] => b.makeCountingSumScorerNoReq
  | _ => b.makeCountingSumScorerSomeReq

/-- The counting scorer, which is made on the first call. -/
def counting (b : BooleanScorer2 σ ρ) : CountingSumScorer σ ρ := b.countingSumScorer.getD b.makeCountingSumScorer

/-- The score, times the part of the scorers that match. -/
def score (b : BooleanScorer2 σ ρ) : ρ × BooleanScorer2 σ ρ :=
  let r := Cursor.value b.counting
  (r.1.1 * coord r.1.2 b.maxCoord, { b with countingSumScorer := some r.2 })

instance : Cursor (BooleanScorer2 σ ρ) ρ where
  doc b := Cursor.doc b.counting
  next b := (Cursor.next b.counting).map id ({ b with countingSumScorer := some · })
  skipTo b target := (Cursor.skipTo b.counting target).map id ({ b with countingSumScorer := some · })
  value := score
  left b := Cursor.left b.counting

end BooleanScorer2

end QDesktopSearch
