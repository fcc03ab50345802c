import QDesktopSearch.Lib.Feed

/-!
# Feeds with the positions of each number

A feed gives numbers in ascending order, each with a list, of which it gives one element after the
other until it is moved on; it may be moved on at any time.

* `Gives.of_closed`: the rule to show that a feed gives what it should.
* `Gives.answers`: what it answers to any calls.
* `Closed.all`: what a loop gets that takes everything.
-/

namespace QDesktopSearch

/-- The calls on a feed with positions. -/
class Occurrences (σ : Type*) where
  doc : σ → ℕ
  freq : σ → ℕ
  next : σ → Bool × σ
  skipTo : σ → ℤ → Bool × σ
  nextPosition : σ → ℕ × σ
  /-- A bound on the calls that move the feed on: the fuel of loops. -/
  left : σ → ℕ

namespace Occurrences

variable {σ : Type*} [Occurrences σ] {R : List (ℕ × List ℕ) → List ℕ → σ → Prop} {l : List (ℕ × List ℕ)}
    {pending : List ℕ} {s : σ}
  {n m : ℕ} {t : ℤ}

/-- Where a call has led: to the first of some numbers, of which all positions are to come. -/
structure Moves (R : List (ℕ × List ℕ) → List ℕ → σ → Prop) (l : List (ℕ × List ℕ)) (n : ℕ) (r : Bool × σ) : Prop where
  found : r.1 = true → ∃ d ps l', l = (d, ps) :: l' ∧ doc r.2 = d ∧ freq r.2 = ps.length ∧ R l' ps r.2 ∧ left r.2 < n
  exhausted : r.1 = false → l = [] ∧ R [] [] r.2

/-- What feeds, the numbers ahead of them and the positions that are to come have in common, and keep. -/
structure Closed (R : List (ℕ × List ℕ) → List ℕ → σ → Prop) : Prop where
  next : ∀ {l pending s}, R l pending s → Moves R l (left s) (next s)
  skipTo : ∀ {l pending s t}, R l pending s → Moves R (Feed.since t l) (left s) (skipTo s t)
  nextPosition : ∀ {l p pending s}, R l (p :: pending) s → (nextPosition s).1 = p ∧ R l pending (nextPosition s).2 ∧
    left (nextPosition s).2 = left s ∧ doc (nextPosition s).2 = doc s ∧ freq (nextPosition s).2 = freq s

/-- **The feed gives what a list has**, after some positions. -/
def Gives (l : List (ℕ × List ℕ)) (pending : List ℕ) (s : σ) : Prop := ∃ R, Closed R ∧ R l pending s

theorem Moves.mono {R' : List (ℕ × List ℕ) → List ℕ → σ → Prop} {r : Bool × σ} (h : Moves R l n r)
    (hR : ∀ l ps s, R l ps s → R' l ps s) : Moves R' l n r where
  found hr := by
    obtain ⟨d, ps, l', hl, hd, hf, hs, hleft⟩ := h.found hr
    exact ⟨d, ps, l', hl, hd, hf, hR _ _ _ hs, hleft⟩
  exhausted hr := ⟨(h.exhausted hr).1, hR _ _ _ (h.exhausted hr).2⟩

/-- **The rule for feeds with positions.** -/
theorem Gives.of_closed (hR : Closed R) (h : R l pending s) : Gives l pending s := ⟨R, hR, h⟩

theorem Gives.next (h : Gives l pending s) : Moves Gives l (left s) (next s) := by
  obtain ⟨R, hR, hs⟩ := h
  exact (hR.next hs).mono fun l ps s hs => ⟨R, hR, hs⟩

theorem Gives.skipTo (h : Gives l pending s) : Moves Gives (Feed.since t l) (left s) (skipTo s t) := by
  obtain ⟨R, hR, hs⟩ := h
  exact (hR.skipTo hs).mono fun l ps s hs => ⟨R, hR, hs⟩

theorem Gives.nextPosition {p : ℕ} (h : Gives l (p :: pending) s) :
    (nextPosition s).1 = p ∧ Gives l pending (nextPosition s).2 ∧
    left (nextPosition s).2 = left s ∧ doc (nextPosition s).2 = doc s ∧ freq (nextPosition s).2 = freq s := by
  obtain ⟨R, hR, hs⟩ := h
  obtain ⟨hp, hs', hleft, hdoc, hfreq⟩ := hR.nextPosition hs
  exact ⟨hp, ⟨R, hR, hs'⟩, hleft, hdoc, hfreq⟩

/-! ## Runs -/

inductive Call where
  | next
  | skipTo (t : ℤ)
  | nextPosition

inductive Answer where
  | moved (a : Option (ℕ × ℕ))
  | position (p : ℕ)

/-- Where a call has led: a number, and how many positions it has. -/
def moved (r : Bool × σ) : Answer := .moved (if r.1 then some (doc r.2, freq r.2) else none)

def ask (s : σ) : Call → Answer × σ
  | .next => (moved (next s), (next s).2)
  | .skipTo t => (moved (skipTo s t), (skipTo s t).2)
  | .nextPosition => (.position (nextPosition s).1, (nextPosition s).2)

/-- The answers to calls, one after the other. -/
def answers (s : σ) : List Call → List Answer
  | [] => []
  | call :: calls => (ask s call).1 :: answers (ask s call).2 calls

/-- The first number of a list, with how many positions it has. -/
def first (l : List (ℕ × List ℕ)) : Answer := .moved (l.head?.map fun d => (d.1, d.2.length))

/-- What a list would answer. What follows a call for a position is left open where there is none. -/
inductive Answers : List (ℕ × List ℕ) → List ℕ → List Call → List Answer → Prop
  | nil (l : List (ℕ × List ℕ)) (pending : List ℕ) : Answers l pending [] []
  | next (l : List (ℕ × List ℕ)) (pending : List ℕ) (calls : List Call) (as : List Answer)
    (h : Answers l.tail ((l.head?.map Prod.snd).getD []) calls as) : Answers l pending (.next :: calls) (first l :: as)
  | skipTo (l : List (ℕ × List ℕ)) (pending : List ℕ) (t : ℤ) (calls : List Call) (as : List Answer)
    (h : Answers (Feed.since t l).tail (((Feed.since t l).head?.map Prod.snd).getD []) calls as) :
    Answers l pending (.skipTo t :: calls) (first (Feed.since t l) :: as)
  | position (l : List (ℕ × List ℕ)) (p : ℕ) (pending : List ℕ) (calls : List Call) (as : List Answer)
    (h : Answers l pending calls as) :
    Answers l (p :: pending) (.nextPosition :: calls) (.position p :: as)
  | noPosition (l : List (ℕ × List ℕ)) (calls : List Call) (as : List Answer) : Answers l [] (.nextPosition :: calls) as

theorem Moves.moved_eq {r : Bool × σ} (h : Moves Gives l n r) :
    moved r = first l ∧ Gives l.tail ((l.head?.map Prod.snd).getD []) r.2 := by
  cases hr : r.1 with
  | true =>
    obtain ⟨d, ps, l', rfl, hd, hf, hs, -⟩ := h.found hr
    refine ⟨?_, hs⟩
    rw [moved, hr, if_pos rfl, hd, hf]
    rfl
  | false =>
    obtain ⟨rfl, hs⟩ := h.exhausted hr
    refine ⟨?_, hs⟩
    rw [moved, hr, if_neg (by simp)]
    rfl

/-- **A feed with positions answers as the list would**, whatever the calls are. -/
theorem Gives.answers {calls : List Call} (h : Gives l pending s) : Answers l pending calls (answers s calls) := by
  induction calls generalizing l pending s with
  | nil => exact .nil l pending
  | cons call calls ih =>
    cases call with
    | next =>
      obtain ⟨heq, hs⟩ := h.next.moved_eq
      rw [Occurrences.answers, ask, heq]
      exact .next _ _ _ _ (ih hs)
    | skipTo t =>
      obtain ⟨heq, hs⟩ := (h.skipTo (t := t)).moved_eq
      rw [Occurrences.answers, ask, heq]
      exact .skipTo _ _ _ _ _ (ih hs)
    | nextPosition =>
      obtain _ | ⟨p, pending⟩ := pending
      · exact .noPosition _ _ _
      · obtain ⟨heq, hs, -⟩ := h.nextPosition
        rw [Occurrences.answers, ask, heq]
        exact .position _ _ _ _ _ (ih hs)

/-! ## Taking everything -/

/-- So many positions. -/
def positions : ℕ → σ → List ℕ × σ
  | 0, s => ([], s)
  | n + 1, s =>
    let (p, s) := nextPosition s
    let (ps, s) := positions n s
    (p :: ps, s)

/-- All numbers, with their positions. -/
def all : ℕ → σ → List (ℕ × List ℕ) × σ
  | 0, s => ([], s)
  | n + 1, s =>
    let r := Occurrences.next s
    if r.1 then
      let (ps, s) := positions (freq r.2) r.2
      let (l, s) := all n s
      ((doc r.2, ps) :: l, s)
    else ([], r.2)

theorem Closed.positions (hR : Closed R) (h : R l pending s) :
    (positions pending.length s).1 = pending ∧ R l [] (positions pending.length s).2 ∧
      left (positions pending.length s).2 = left s := by
  induction pending generalizing s with
  | nil => exact ⟨rfl, h, rfl⟩
  | cons p pending ih =>
    obtain ⟨hp, hs, hleft, -, -⟩ := hR.nextPosition h
    obtain ⟨hps, hs', hleft'⟩ := ih hs
    rw [List.length_cons, Occurrences.positions]
    exact ⟨congrArg₂ _ hp hps, hs', hleft'.trans hleft⟩

/-- **A loop** gets everything. -/
theorem Closed.all (hR : Closed R) (h : R l pending s) (hn : left s < n) : (all n s).1 = l ∧ R [] [] (all n s).2 := by
  induction n generalizing l pending s with
  | zero => omega
  | succ n ih =>
    have hnext := hR.next h
    rw [Occurrences.all]
    generalize Occurrences.next s = r at hnext ⊢
    dsimp only
    cases hr : r.1 with
    | true =>
      rw [if_pos rfl]
      obtain ⟨d, ps, l', rfl, hd, hf, hs, hlt⟩ := hnext.found hr
      obtain ⟨hps, hs', hleft⟩ := hR.positions hs
      rw [hf, hd]
      obtain ⟨hl, hend⟩ := ih hs' (by omega)
      refine ⟨?_, hend⟩
      rw [hps, hl]
    | false =>
      rw [if_neg (by simp)]
      obtain ⟨rfl, hend⟩ := hnext.exhausted hr
      exact ⟨rfl, hend⟩

end Occurrences

end QDesktopSearch
