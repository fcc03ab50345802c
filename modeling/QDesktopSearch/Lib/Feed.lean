import Mathlib.Algebra.Order.Ring.Int
import Mathlib.Data.List.Basic
import Mathlib.Data.List.TakeWhile
import Mathlib.Tactic.Common

/-!
# Feeds

A feed gives the elements of a list, numbers with a value each: one after the other (`next`), several at
a time (`read`), or from a target on (`skipTo`). `Feeds full l s`: the feed `s` has still to give `l`;
where it is `full`, `read` gives as many elements as there are.

* `Feeds.of_closed`: the rule to show what a feed gives, by what its states have in common.
* `Feeds.answers`: over any calls, it answers as the list would.
-/

namespace QDesktopSearch

/-- The calls on a feed. -/
class Feed (σ : Type*) (α : outParam (Type*)) where
  /-- Where it stands. -/
  top : σ → ℕ × α
  next : σ → Bool × σ
  /-- At most so many elements. -/
  read : σ → ℕ → List (ℕ × α) × σ
  skipTo : σ → ℤ → Bool × σ
  /-- A bound on the elements that are left. -/
  left : σ → ℕ

namespace Feed

variable {σ α : Type*} [Feed σ α] {R R' : List (ℕ × α) → σ → Prop} {l : List (ℕ × α)} {s : σ} {k n m : ℕ} {t : ℤ}
  {full : Prop}

/-- The elements from a target on. -/
def since (t : ℤ) (l : List (ℕ × α)) : List (ℕ × α) := l.dropWhile fun a => decide ((a.1 : ℤ) < t)

omit [Feed σ α] in
theorem since_split (t : ℤ) (l : List (ℕ × α)) : ∃ before, l = before ++ since t l ∧ ∀ a ∈ before, (a.1 : ℤ) < t :=
  ⟨l.takeWhile fun a => decide ((a.1 : ℤ) < t), List.takeWhile_append_dropWhile.symm, fun _ ha => by
    simpa using List.mem_takeWhile_imp ha⟩

omit [Feed σ α] in
theorem le_of_since {a : ℕ × α} {l' : List (ℕ × α)} (h : since t l = a :: l') : t ≤ a.1 := by
  unfold since at h
  have hhead := List.head_dropWhile_not (fun a : ℕ × α => decide ((a.1 : ℤ) < t)) (l := l) (by rw [h]; simp)
  simp only [h, List.head_cons, decide_eq_false_iff_not, not_lt] at hhead
  exact hhead

/-- Where a call has led: to the first element, if there is one. -/
structure Moves (R : List (ℕ × α) → σ → Prop) (l : List (ℕ × α)) (n : ℕ) (r : Bool × σ) : Prop where
  found : r.1 = true → ∃ l', l = top r.2 :: l' ∧ R l' r.2 ∧ left r.2 < n
  exhausted : r.1 = false → l = [] ∧ R [] r.2

/-- What a call has read: the first elements, and at least one if there is one. -/
structure Fills (full : Prop) (R : List (ℕ × α) → σ → Prop) (l : List (ℕ × α)) (k n : ℕ) (r : List (ℕ × α) × σ) : Prop where
  split : ∃ l', l = r.1 ++ l' ∧ R l' r.2
  length_le : r.1.length ≤ k
  goes : r.1 = [] → l = []
  left_le : left r.2 + r.1.length ≤ n
  length_eq : full → r.1.length = min k l.length

/-- What feeds and lists have in common, and keep. -/
structure Closed (full : Prop) (R : List (ℕ × α) → σ → Prop) : Prop where
  next : ∀ {l s}, R l s → Moves R l (left s) (next s)
  read : ∀ {l s k}, R l s → 0 < k → Fills full R l k (left s) (read s k)
  skipTo : ∀ {l s t}, R l s → Moves R (since t l) (left s) (skipTo s t)

/-- **The feed has still to give `l`.** -/
def Feeds (full : Prop) (l : List (ℕ × α)) (s : σ) : Prop := ∃ R, Closed full R ∧ R l s

theorem Moves.mono {r : Bool × σ} (h : Moves R l n r) (hR : ∀ l s, R l s → R' l s) (hn : n ≤ m) : Moves R' l m r := by
  refine ⟨fun hr => ?_, fun hr => ?_⟩
  · obtain ⟨l', hl, hs, hlt⟩ := h.found hr
    exact ⟨l', hl, hR _ _ hs, by omega⟩
  · obtain ⟨hl, hs⟩ := h.exhausted hr
    exact ⟨hl, hR _ _ hs⟩

/-- **The rule for feeds.** -/
theorem Feeds.of_closed (hR : Closed full R) (h : R l s) : Feeds full l s := ⟨R, hR, h⟩

/-- A full feed is one. -/
theorem Feeds.of_full (h : Feeds full l s) : Feeds False l s := by
  obtain ⟨R, hR, hs⟩ := h
  refine ⟨R, ⟨hR.next, fun hs hk => ?_, hR.skipTo⟩, hs⟩
  obtain ⟨hsplit, hlength, hgoes, hleft, -⟩ := hR.read hs hk
  exact ⟨hsplit, hlength, hgoes, hleft, fun hfalse => hfalse.elim⟩

theorem Feeds.next (h : Feeds full l s) : Moves (Feeds full) l (left s) (next s) := by
  obtain ⟨R, hR, hs⟩ := h
  exact (hR.next hs).mono (fun l s hs => ⟨R, hR, hs⟩) le_rfl

theorem Feeds.read (h : Feeds full l s) (hk : 0 < k) : Fills full (Feeds full) l k (left s) (read s k) := by
  obtain ⟨R, hR, hs⟩ := h
  obtain ⟨⟨l', hl, hs'⟩, hlength, hgoes, hleft, hfull⟩ := hR.read hs hk
  exact ⟨⟨l', hl, R, hR, hs'⟩, hlength, hgoes, hleft, hfull⟩

theorem Feeds.skipTo (h : Feeds full l s) : Moves (Feeds full) (since t l) (left s) (skipTo s t) := by
  obtain ⟨R, hR, hs⟩ := h
  exact (hR.skipTo hs).mono (fun l s hs => ⟨R, hR, hs⟩) le_rfl

/-! ## Runs -/

inductive Call where
  | next
  | read (k : ℕ) (h : 0 < k)
  | skipTo (t : ℤ)

inductive Answer (α : Type*) where
  | moved (a : Option (ℕ × α))
  | filled (l : List (ℕ × α))

/-- Where a call has led. -/
def moved (r : Bool × σ) : Answer α := .moved (if r.1 then some (top r.2) else none)

def ask (s : σ) : Call → Answer α × σ
  | .next => (moved (next s), (next s).2)
  | .read k _ => (.filled (read s k).1, (read s k).2)
  | .skipTo t => (moved (skipTo s t), (skipTo s t).2)

/-- The answers to calls, one after the other. -/
def answers (s : σ) : List Call → List (Answer α)
  | [] => []
  | call :: calls => (ask s call).1 :: answers (ask s call).2 calls

/-- What a list would answer; how much is read at a time is left open, but for a feed that is full. -/
inductive Answers (full : Prop) : List (ℕ × α) → List Call → List (Answer α) → Prop
  | nil (l : List (ℕ × α)) : Answers full l [] []
  | next (l : List (ℕ × α)) (calls : List Call) (as : List (Answer α)) (h : Answers full l.tail calls as) :
    Answers full l (.next :: calls) (.moved l.head? :: as)
  | read (l l' : List (ℕ × α)) (k : ℕ) (hk : 0 < k) (calls : List Call) (as : List (Answer α)) (hlength : l'.length ≤ k)
    (hgoes : l' = [] → l = []) (hfull : full → l'.length = min k (l' ++ l).length) (h : Answers full l calls as) :
    Answers full (l' ++ l) (.read k hk :: calls) (.filled l' :: as)
  | skipTo (l : List (ℕ × α)) (t : ℤ) (calls : List Call) (as : List (Answer α))
    (h : Answers full (since t l).tail calls as) : Answers full l (.skipTo t :: calls) (.moved (since t l).head? :: as)

theorem Moves.moved_eq {r : Bool × σ} (h : Moves (Feeds full) l n r) :
    (moved r : Answer α) = .moved l.head? ∧ Feeds full l.tail r.2 := by
  cases hr : r.1 with
  | true =>
    obtain ⟨l', rfl, hs, -⟩ := h.found hr
    exact ⟨by rw [moved, hr]; rfl, hs⟩
  | false =>
    obtain ⟨rfl, hs⟩ := h.exhausted hr
    exact ⟨by rw [moved, hr]; rfl, hs⟩

/-- **A feed answers as the list would**, whatever the calls are. -/
theorem Feeds.answers {calls : List Call} (h : Feeds full l s) : Answers full l calls (answers s calls) := by
  induction calls generalizing l s with
  | nil => exact .nil l
  | cons call calls ih =>
    cases call with
    | next =>
      obtain ⟨heq, hs⟩ := h.next.moved_eq
      rw [Feed.answers, ask, heq]
      exact .next _ _ _ (ih hs)
    | read k hk =>
      obtain ⟨⟨l', rfl, hs⟩, hlength, hgoes, -, hfull⟩ := h.read hk
      refine .read _ _ _ _ _ _ hlength (fun hnil => ?_) hfull (ih hs)
      exact (List.append_eq_nil_iff.1 (hgoes hnil)).2
    | skipTo t =>
      obtain ⟨heq, hs⟩ := (h.skipTo (t := t)).moved_eq
      rw [Feed.answers, ask, heq]
      exact .skipTo _ _ _ _ (ih hs)

end Feed

end QDesktopSearch
