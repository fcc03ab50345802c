import Mathlib.Algebra.Order.Ring.Int
import Mathlib.Data.List.Basic
import Mathlib.Order.Bounds.Defs
import Mathlib.Tactic.Common

/-!
# Cursors

A cursor visits numbers in ascending order, with a value at each: one after the other (`next`), or
past those below a target (`skipTo`). A function `f` says what there is to visit (`Visits f`): the
numbers at which it has something, which is the set of the values that may be given there.

* `Visits.next`, `Visits.skipTo`, `Visits.value`: what the calls do.
* `Visits.of_closed`: the rule to show that a cursor visits what it should, by what its states have
  in common.
* `Visits.congr`: only what lies ahead matters.
* `Lands.map`, `Visits.embed`: a cursor around another one.
* `Visits.answers`: what the answers to any calls are.
-/

namespace QDesktopSearch

/-- The calls on a cursor. -/
class Cursor (σ : Type*) (ρ : outParam (Type*)) where
  doc : σ → ℤ
  next : σ → Bool × σ
  skipTo : σ → ℤ → Bool × σ
  /-- The value at the number on which the cursor stands. -/
  value : σ → ρ × σ
  /-- A bound on the calls that move the cursor on: the fuel of loops. -/
  left : σ → ℕ

namespace Cursor

variable {σ τ ρ : Type*} [Cursor σ ρ] [Cursor τ ρ] {f g : ℤ → Option (Set ρ)} {R : σ → ℤ → Prop} {s : σ} {c t : ℤ} {n : ℕ}
  {r : Bool × σ} {V : Set ρ}

/-- The first number from `t` on that has a value. -/
def First (f : ℤ → Option (Set ρ)) (t e : ℤ) : Prop := IsLeast {e | t ≤ e ∧ (f e).isSome = true} e

/-- Where a call has led: to the first number from `t` on, if there is one. -/
structure Lands (f : ℤ → Option (Set ρ)) (R : σ → ℤ → Prop) (t : ℤ) (n : ℕ) (r : Bool × σ) : Prop where
  found : r.1 = true → First f t (doc r.2) ∧ left r.2 < n ∧ R r.2 (doc r.2)
  exhausted : r.1 = false → ∀ e, t ≤ e → f e = none

/-- What cursors and the numbers on which they stand have in common, and keep: a cursor that has not
been moved yet stands on a number without a value. -/
structure Closed (f : ℤ → Option (Set ρ)) (R : σ → ℤ → Prop) : Prop where
  doc : ∀ {s c}, R s c → (f c).isSome = true → doc s = c
  value : ∀ {s c V}, R s c → f c = some V → (value s).1 ∈ V ∧ R (value s).2 c ∧ left (value s).2 ≤ left s
  next : ∀ {s c}, R s c → Lands f R (c + 1) (left s) (next s)
  skipTo : ∀ {s c t}, R s c → c < t → Lands f R t (left s) (skipTo s t)

/-- **The cursor stands on `c`, and visits what `f` has after it.** -/
def Visits (f : ℤ → Option (Set ρ)) (s : σ) (c : ℤ) : Prop := ∃ R, Closed f R ∧ R s c

theorem Lands.mono {R' : σ → ℤ → Prop} {m : ℕ} (h : Lands f R t n r) (hR : ∀ s c, R s c → R' s c) (hn : n ≤ m) :
    Lands f R' t m r where
  found hr := ⟨(h.found hr).1, lt_of_lt_of_le (h.found hr).2.1 hn, hR _ _ (h.found hr).2.2⟩
  exhausted := h.exhausted

/-- Nothing has been found, and there is nothing. -/
theorem Lands.of_none (h : ∀ e, t ≤ e → f e = none) : Lands f R t n (false, s) where
  found hr := absurd hr (by simp)
  exhausted _ := h

/-- **The rule for cursors.** -/
theorem Visits.of_closed (hR : Closed f R) (h : R s c) : Visits f s c := ⟨R, hR, h⟩

theorem Visits.closed : Closed f (Visits f : σ → ℤ → Prop) where
  doc h hc := by
    obtain ⟨R, hR, hs⟩ := h
    exact hR.doc hs hc
  value h hv := by
    obtain ⟨R, hR, hs⟩ := h
    obtain ⟨hvalue, hs', hleft⟩ := hR.value hs hv
    exact ⟨hvalue, ⟨R, hR, hs'⟩, hleft⟩
  next h := by
    obtain ⟨R, hR, hs⟩ := h
    exact (hR.next hs).mono (fun s c hs => ⟨R, hR, hs⟩) le_rfl
  skipTo h ht := by
    obtain ⟨R, hR, hs⟩ := h
    exact (hR.skipTo hs ht).mono (fun s c hs => ⟨R, hR, hs⟩) le_rfl

theorem Visits.doc_eq (h : Visits f s c) (hc : (f c).isSome = true) : doc s = c := closed.doc h hc

theorem Visits.value (h : Visits f s c) (hv : f c = some V) :
    (value s).1 ∈ V ∧ Visits f (value s).2 c ∧ left (value s).2 ≤ left s := closed.value h hv

theorem Visits.next (h : Visits f s c) : Lands f (Visits f) (c + 1) (left s) (next s) := closed.next h

theorem Visits.skipTo (h : Visits f s c) (ht : c < t) : Lands f (Visits f) t (left s) (skipTo s t) := closed.skipTo h ht

/-! ## The first number -/

theorem First.le (h : First f t c) : t ≤ c := h.1.1

theorem First.isSome (h : First f t c) : (f c).isSome = true := h.1.2

theorem First.le_of (h : First f t c) {e : ℤ} (he : t ≤ e) (hf : (f e).isSome = true) : c ≤ e := h.2 ⟨he, hf⟩

/-- What lies before the first number has no value. -/
theorem First.none_before (h : First f t c) {e : ℤ} (he : t ≤ e) (hlt : e < c) : f e = none := by
  by_contra hne
  exact absurd (h.le_of he (Option.isSome_iff_ne_none.2 hne)) (by omega)

theorem First.of_none {t' : ℤ} (h : First f t c) (ht : t' ≤ t) (hnone : ∀ e, t' ≤ e → e < t → f e = none) :
    First f t' c := by
  refine ⟨⟨by have := h.le; omega, h.isSome⟩, fun e he => ?_⟩
  by_cases hlt : e < t
  · have hf := he.2
    rw [hnone e he.1 hlt] at hf
    exact absurd hf (by simp)
  · exact h.le_of (by omega) he.2

theorem first_congr (h : ∀ e, t ≤ e → f e = g e) : First f t c ↔ First g t c := by
  have hset : {e | t ≤ e ∧ (f e).isSome = true} = {e | t ≤ e ∧ (g e).isSome = true} := by
    ext e
    refine and_congr_right fun he => ?_
    rw [h e he]
  rw [First, First, hset]

/-- Values of another kind at the same numbers. -/
theorem First.map {ρ' : Type*} (h : First f t c) (F : ℤ → Set ρ → Set ρ') : First (fun d => (f d).map (F d)) t c := by
  simpa [First] using h

/-- A cursor around another one, with values of its own at the same numbers. -/
theorem Lands.map {σ' ρ' : Type*} [Cursor σ' ρ'] {R' : σ' → ℤ → Prop} {r' : Bool × σ'} {F : ℤ → Set ρ → Set ρ'}
    (h : Lands f R t n r) (hr : r'.1 = r.1) (hdoc : doc r'.2 = doc r.2) (hleft : left r'.2 = left r.2)
    (hR : ∀ c, t ≤ c → R r.2 c → R' r'.2 c) : Lands (fun d => (f d).map (F d)) R' t n r' where
  found h' := by
    obtain ⟨hfirst, hlt, hs⟩ := h.found (hr ▸ h')
    rw [hdoc, hleft]
    exact ⟨hfirst.map F, hlt, hR _ hfirst.le hs⟩
  exhausted h' e he := by
    rw [h.exhausted (hr ▸ h') e he]
    rfl

/-! ## What lies ahead -/

/-- **Only what lies ahead matters**, and the value at the number on which the cursor stands. -/
theorem Visits.congr (h : Visits f s c) (hfg : ∀ e, c ≤ e → f e = g e) : Visits g s c := by
  refine .of_closed (R := fun s c => Visits f s c ∧ ∀ e, c ≤ e → f e = g e) ⟨?_, ?_, ?_, ?_⟩ ⟨h, hfg⟩
  · rintro s c ⟨h, hfg⟩ hc
    rw [← hfg c le_rfl] at hc
    exact h.doc_eq hc
  · rintro s c V ⟨h, hfg⟩ hv
    rw [← hfg c le_rfl] at hv
    obtain ⟨hvalue, hs, hleft⟩ := h.value hv
    exact ⟨hvalue, ⟨hs, hfg⟩, hleft⟩
  · rintro s c ⟨h, hfg⟩
    have hahead : ∀ e, c + 1 ≤ e → f e = g e := fun e he => hfg e (by omega)
    refine ⟨fun hr => ?_, fun hr e he => ?_⟩
    · obtain ⟨hfirst, hleft, hs⟩ := h.next.found hr
      exact ⟨(first_congr hahead).1 hfirst, hleft, hs, fun e he => hahead e (le_trans hfirst.le he)⟩
    · rw [← hahead e he]
      exact h.next.exhausted hr e he
  · rintro s c t ⟨h, hfg⟩ ht
    have hahead : ∀ e, t ≤ e → f e = g e := fun e he => hfg e (by omega)
    refine ⟨fun hr => ?_, fun hr e he => ?_⟩
    · obtain ⟨hfirst, hleft, hs⟩ := (h.skipTo ht).found hr
      exact ⟨(first_congr hahead).1 hfirst, hleft, hs, fun e he => hahead e (le_trans hfirst.le he)⟩
    · rw [← hahead e he]
      exact (h.skipTo ht).exhausted hr e he

/-! ## Runs -/

inductive Call where
  | next
  | skipTo (t : ℤ)
  | value

inductive Answer (ρ : Type*) where
  | moved (e : Option ℤ)
  | value (v : ρ)

/-- Where a call has led. -/
def moved (r : Bool × σ) : Answer ρ := .moved (if r.1 then some (doc r.2) else none)

def ask (s : σ) : Call → Answer ρ × σ
  | .next => (moved (next s), (next s).2)
  | .skipTo t => (moved (skipTo s t), (skipTo s t).2)
  | .value => (.value (value s).1, (value s).2)

/-- The answers to calls, one after the other. -/
def answers (s : σ) : List Call → List (Answer ρ)
  | [] => []
  | call :: calls => (ask s call).1 :: answers (ask s call).2 calls

/-- What a function would answer from a number on. What follows a call that may not be made is left open: one after
the last number, one for the value of a number that has none, or one to skip to a number that is not ahead. -/
inductive Answers (f : ℤ → Option (Set ρ)) : ℤ → List Call → List (Answer ρ) → Prop
  | nil (c : ℤ) : Answers f c [] []
  | next (c e : ℤ) (calls : List Call) (as : List (Answer ρ)) (hfirst : First f (c + 1) e) (h : Answers f e calls as) :
    Answers f c (.next :: calls) (.moved (some e) :: as)
  | atEnd (c : ℤ) (calls : List Call) (as : List (Answer ρ)) (hnone : ∀ e, c < e → f e = none) :
    Answers f c (.next :: calls) (.moved none :: as)
  | skipTo (c t e : ℤ) (calls : List Call) (as : List (Answer ρ)) (ht : c < t) (hfirst : First f t e)
    (h : Answers f e calls as) :
    Answers f c (.skipTo t :: calls) (.moved (some e) :: as)
  | skipToEnd (c t : ℤ) (calls : List Call) (as : List (Answer ρ)) (ht : c < t) (hnone : ∀ e, t ≤ e → f e = none) :
    Answers f c (.skipTo t :: calls) (.moved none :: as)
  | behind (c t : ℤ) (calls : List Call) (as : List (Answer ρ)) (ht : t ≤ c) : Answers f c (.skipTo t :: calls) as
  | value (c : ℤ) (V : Set ρ) (v : ρ) (calls : List Call) (as : List (Answer ρ)) (hv : f c = some V) (hmem : v ∈ V)
      (h : Answers f c calls as) : Answers f c (.value :: calls) (.value v :: as)
  | valueless (c : ℤ) (calls : List Call) (as : List (Answer ρ)) (hv : f c = none) : Answers f c (.value :: calls) as

/-- **A cursor answers as its function would**, whatever the calls are. -/
theorem Visits.answers {calls : List Call} (h : Visits f s c) : Answers f c calls (answers s calls) := by
  induction calls generalizing s c with
  | nil => exact .nil c
  | cons call calls ih =>
    cases call with
    | next =>
      rw [Cursor.answers, ask, moved]
      cases hr : (Cursor.next s).1 with
      | true =>
        obtain ⟨hfirst, -, hs⟩ := h.next.found hr
        exact .next _ _ _ _ hfirst (ih hs)
      | false => exact .atEnd _ _ _ fun e he => h.next.exhausted hr e he
    | skipTo t =>
      rcases lt_or_ge c t with ht | ht
      · rw [Cursor.answers, ask, moved]
        cases hr : (Cursor.skipTo s t).1 with
        | true =>
          obtain ⟨hfirst, -, hs⟩ := (h.skipTo ht).found hr
          exact .skipTo _ _ _ _ _ ht hfirst (ih hs)
        | false => exact .skipToEnd _ _ _ _ ht ((h.skipTo ht).exhausted hr)
      · exact .behind _ _ _ _ ht
    | value =>
      cases hv : f c with
      | some V =>
        obtain ⟨hvalue, hs, -⟩ := h.value hv
        exact .value _ _ _ _ _ hv hvalue (ih hs)
      | none => exact .valueless _ _ _ hv

/-! ## Either of two -/

instance : Cursor (σ ⊕ τ) ρ where
  doc := Sum.elim doc doc
  next := Sum.elim (fun s => (next s).map id .inl) (fun s => (next s).map id .inr)
  skipTo s t := Sum.elim (fun s => (skipTo s t).map id .inl) (fun s => (skipTo s t).map id .inr) s
  value := Sum.elim (fun s => (value s).map id .inl) (fun s => (value s).map id .inr)
  left := Sum.elim left left

/-- A cursor that is another one under a name. -/
theorem Visits.embed {σ' : Type*} [Cursor σ' ρ] {g : σ → σ'} (hdoc : ∀ s, doc (g s) = doc s)
    (hnext : ∀ s, Cursor.next (g s) = (Cursor.next s).map id g)
    (hskipTo : ∀ s t, Cursor.skipTo (g s) t = (Cursor.skipTo s t).map id g)
    (hvalue : ∀ s, Cursor.value (g s) = (Cursor.value s).map id g) (hleft : ∀ s, left (g s) = left s) (h : Visits f s c) :
    Visits f (g s) c := by
  have hlands : ∀ {t n r}, Lands f (Visits f) t n r →
      Lands f (fun x c => ∃ s : σ, x = g s ∧ Visits f s c) t n (r.map id g) := by
    intro t n r hr
    refine ⟨fun h' => ?_, hr.exhausted⟩
    obtain ⟨hfirst, hlt, hs⟩ := hr.found h'
    rw [Prod.map_snd, hdoc, hleft]
    exact ⟨hfirst, hlt, _, rfl, hs⟩
  refine .of_closed (R := fun x c => ∃ s : σ, x = g s ∧ Visits f s c) ⟨?_, ?_, ?_, ?_⟩ ⟨s, rfl, h⟩
  · rintro _ c ⟨s, rfl, h⟩ hc
    rw [hdoc]
    exact h.doc_eq hc
  · rintro _ c V ⟨s, rfl, h⟩ hv
    obtain ⟨hv, hs, hle⟩ := h.value hv
    rw [hvalue, Prod.map_fst, Prod.map_snd, hleft, hleft]
    exact ⟨hv, ⟨_, rfl, hs⟩, hle⟩
  · rintro _ c ⟨s, rfl, h⟩
    rw [hnext, hleft]
    exact hlands h.next
  · rintro _ c t ⟨s, rfl, h⟩ ht
    rw [hskipTo, hleft]
    exact hlands (h.skipTo ht)

theorem Visits.inl (h : Visits f s c) : Visits f (.inl s : σ ⊕ τ) c :=
  h.embed (fun _ => rfl) (fun _ => rfl) (fun _ _ => rfl) (fun _ => rfl) fun _ => rfl

theorem Visits.inr {s : τ} (h : Visits f s c) : Visits f (.inr s : σ ⊕ τ) c :=
  h.embed (fun _ => rfl) (fun _ => rfl) (fun _ _ => rfl) (fun _ => rfl) fun _ => rfl

end Cursor

end QDesktopSearch
