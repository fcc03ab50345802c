import QDesktopSearch.Proof.Disjunction

/-!
# Boolean queries

`BooleanScorer2` visits the documents that all required scorers visit and no prohibited one, and one
scorer at least; the score is the sum of the scores of the required scorers, to which that of the others
is added, times the part of the scorers that match (`boolean`).

* `MatchCountingScorer.visits`: the scorers are counted once at each document.
* `ReqExclScorer.visits`, `ReqOptSumScorer.visits`: prohibited and optional scorers.
* `BooleanScorer2.visits`: whatever the numbers of the scorers are.
-/

namespace QDesktopSearch

open Cursor

variable {σ τ ρ ρ' : Type*} {c t : ℤ}

/-! ## Scorers that are counted -/

section Counting

variable [Cursor σ ρ] {nrMatchers : σ → ℕ} {f : ℤ → Option (Set ρ)} {k : ℤ → ℕ} {R : σ → ℤ → Prop} {s : σ}

/-- **A score goes with the number of its scorers.** -/
theorem MatchCountingScorer.visits (hR : Closed f R) (hk : ∀ {s c}, R s c → (f c).isSome = true → nrMatchers s = k c)
    (hs : R s (-1)) :
    Visits (fun d => (f d).map ((·, k d) '' ·)) (⟨s, -1⟩ : MatchCountingScorer σ nrMatchers) (-1) := by
  refine .of_closed (R := fun m c => R m.scorer c ∧ m.lastScoredDoc ≤ c) ⟨?_, ?_, ?_, ?_⟩ ⟨hs, le_rfl⟩
  · rintro m c ⟨hs, -⟩ hc
    exact hR.doc hs (by simpa using hc)
  · rintro m c V ⟨hs, hlast⟩ hv
    obtain ⟨W, hw, rfl⟩ := Option.map_eq_some_iff.1 hv
    have hsome : (f c).isSome = true := by rw [hw]; rfl
    obtain ⟨hvalue, hs', hleft⟩ := hR.value hs hw
    have hscore : Cursor.value m =
        (((Cursor.value m.scorer).1, k c), (⟨(Cursor.value m.scorer).2, c⟩ : MatchCountingScorer σ nrMatchers)) := by
      show MatchCountingScorer.score m = _
      unfold MatchCountingScorer.score
      rw [hR.doc hs hsome, if_pos hlast, hk hs hsome]
    rw [hscore]
    exact ⟨⟨_, hvalue, rfl⟩, ⟨hs', le_rfl⟩, hleft⟩
  · rintro m c ⟨hs, hlast⟩
    exact (hR.next hs).map rfl rfl rfl fun d hd hs' => ⟨hs', hlast.trans (by omega)⟩
  · rintro m c t ⟨hs, hlast⟩ ht
    exact (hR.skipTo hs ht).map rfl rfl rfl fun d hd hs' => ⟨hs', hlast.trans (by omega)⟩

end Counting

theorem NonMatchingScorer.visits [FloatT ρ] : Visits (fun _ => none) (⟨⟩ : NonMatchingScorer ρ) c :=
  .of_closed (R := fun _ _ => True) ⟨fun _ h => absurd h (by simp), fun _ h => absurd h (by simp),
    fun _ => .of_none fun _ _ => rfl, fun _ _ => .of_none fun _ _ => rfl⟩ trivial

variable [Cursor σ ρ] {f : ℤ → Option (Set ρ)}

/-! ## Prohibited documents -/

namespace ReqExclScorer

variable [Cursor τ ρ'] [Zero ρ] {g : ℤ → Option (Set ρ')} {req : σ} {excl : τ} {s : ReqExclScorer σ τ} {n N : ℕ}

/-- What `f` has, where `g` has nothing. -/
def exclude (f : ℤ → Option (Set ρ)) (g : ℤ → Option (Set ρ')) (d : ℤ) : Option (Set ρ) := if (g d).isSome then none else f d

omit [Cursor σ ρ] [Cursor τ ρ'] [Zero ρ] in
theorem exclude_of_none {d : ℤ} (h : g d = none) : exclude f g d = f d := by
  rw [exclude, h]
  rfl

omit [Cursor σ ρ] [Cursor τ ρ'] [Zero ρ] in
theorem exclude_of_isSome {d : ℤ} (h : (g d).isSome = true) : exclude f g d = none := if_pos h

omit [Cursor σ ρ] [Cursor τ ρ'] [Zero ρ] in
theorem exclude_none {d : ℤ} (h : f d = none) : exclude f g d = none := by
  rw [exclude, h, ite_self]

/-- The prohibited scorer from `t` on: it stands on its first document from some point on that is not
later, or there is none. -/
def ExclReady (g : ℤ → Option (Set ρ')) (t : ℤ) : Option τ → Prop
  | none => ∀ e, t ≤ e → g e = none
  | some excl => (∃ t', t' ≤ t ∧ First g t' (Cursor.doc excl)) ∧ Visits g excl (Cursor.doc excl)

theorem ExclReady.mono {o : Option τ} {t' : ℤ} (h : ExclReady g t o) (ht : t ≤ t') : ExclReady g t' o := by
  cases o with
  | none => exact fun e he => h e (by omega)
  | some excl =>
    obtain ⟨⟨t₀, ht₀, hfirst⟩, hs⟩ := h
    exact ⟨⟨t₀, by omega, hfirst⟩, hs⟩

/-- Before the first call both scorers are fresh; after it the prohibited one is ahead. -/
def At (f : ℤ → Option (Set ρ)) (g : ℤ → Option (Set ρ')) (s : ReqExclScorer σ τ) (c : ℤ) : Prop :=
  (∃ req, s.reqScorer = some req ∧ Visits f req c) ∧
    ((s.firstTime = true ∧ c = -1 ∧ ∃ excl, s.exclScorer = some excl ∧ Visits g excl (-1)) ∨
      (s.firstTime = false ∧ ExclReady g (c + 1) s.exclScorer))

theorem found (hreq : Visits f req (Cursor.doc req)) (hsome : (f (Cursor.doc req)).isSome = true)
    (hnone : g (Cursor.doc req) = none) {o : Option τ} (ho : ExclReady g (Cursor.doc req + 1) o)
    (hbefore : ∀ e, t ≤ e → e < Cursor.doc req → exclude f g e = none) (ht : t ≤ Cursor.doc req) (hN : Cursor.left req < N) :
    Lands (exclude f g) (At f g) t N (true, (⟨some req, o, false⟩ : ReqExclScorer σ τ)) := by
  refine ⟨fun _ => ⟨⟨⟨ht, ?_⟩, fun e he => ?_⟩, hN, ⟨req, rfl, hreq⟩, Or.inr ⟨rfl, ho⟩⟩, fun h => absurd h (by simp)⟩
  · show (exclude f g (Cursor.doc req)).isSome = true
    rw [exclude_of_none hnone, hsome]
  · by_contra hlt
    have hsome' := he.2
    rw [hbefore e he.1 (not_le.1 hlt)] at hsome'
    cases hsome'

/-- **`toNonExcluded`** goes on to the first document that is not prohibited. -/
theorem toNonExcluded_spec (hreq : Visits f req (Cursor.doc req)) (hsome : (f (Cursor.doc req)).isSome = true)
    (hexcl : ExclReady g (Cursor.doc req) (some excl)) (hbefore : ∀ e, t ≤ e → e < Cursor.doc req → exclude f g e = none)
    (ht : t ≤ Cursor.doc req) (hn : Cursor.left req < n) (hN : Cursor.left req < N) :
    Lands (exclude f g) (At f g) t N (toNonExcluded n req excl) := by
  induction n generalizing req excl with
  | zero => omega
  | succ n ih =>
    -- the document is prohibited
    have hadvance : ∀ excl : τ, ExclReady g (Cursor.doc req) (some excl) → (g (Cursor.doc req)).isSome = true →
        Lands (exclude f g) (At f g) t N (if (Cursor.next req).1 then toNonExcluded n (Cursor.next req).2 excl
          else (false, ⟨none, some excl, false⟩)) := by
      intro excl hexcl hg
      have hbefore' : ∀ e, t ≤ e → e < Cursor.doc req + 1 → exclude f g e = none := by
        intro e he hlt
        rcases (Int.lt_add_one_iff.1 hlt).eq_or_lt with rfl | hlt
        · exact exclude_of_isSome hg
        · exact hbefore e he hlt
      cases hr : (Cursor.next req).1 with
      | true =>
        rw [if_pos rfl]
        obtain ⟨hfirst, hleft, hreq'⟩ := hreq.next.found hr
        have hle := hfirst.le
        refine ih hreq' hfirst.isSome (hexcl.mono (by omega)) (fun e he hlt => ?_) (by omega) (by omega) (by omega)
        by_cases hbelow : e < Cursor.doc req + 1
        · exact hbefore' e he hbelow
        · exact exclude_none (hfirst.none_before (not_lt.1 hbelow) hlt)
      | false =>
        rw [if_neg (by simp)]
        refine .of_none fun e he => ?_
        by_cases hbelow : e < Cursor.doc req + 1
        · exact hbefore' e he hbelow
        · exact exclude_none (hreq.next.exhausted hr e (not_lt.1 hbelow))
    unfold toNonExcluded
    dsimp only
    obtain ⟨⟨t', ht', hfirst⟩, hs⟩ := hexcl
    by_cases hlt : Cursor.doc req < Cursor.doc excl
    · rw [if_pos hlt]
      exact found hreq hsome (hfirst.none_before ht' hlt) ⟨⟨t', by omega, hfirst⟩, hs⟩ hbefore ht hN
    rw [if_neg hlt]
    by_cases hgt : Cursor.doc req > Cursor.doc excl
    · rw [if_pos hgt]
      have hskip := hs.skipTo hgt
      cases hq : (Cursor.skipTo excl (Cursor.doc req)).1 with
      | false =>
        rw [if_pos (by simp)]
        have hnone := hskip.exhausted hq
        exact found hreq hsome (hnone _ le_rfl) (fun e he => hnone e (by omega)) hbefore ht hN
      | true =>
        rw [if_neg (by simp)]
        obtain ⟨hfirst', -, hs'⟩ := hskip.found hq
        by_cases hpast : Cursor.doc (Cursor.skipTo excl (Cursor.doc req)).2 > Cursor.doc req
        · rw [if_pos hpast]
          exact found hreq hsome (hfirst'.none_before le_rfl hpast) ⟨⟨_, by omega, hfirst'⟩, hs'⟩ hbefore ht hN
        · rw [if_neg hpast]
          have heq : Cursor.doc (Cursor.skipTo excl (Cursor.doc req)).2 = Cursor.doc req :=
            le_antisymm (not_lt.1 hpast) hfirst'.le
          exact hadvance _ ⟨⟨_, le_rfl, hfirst'⟩, hs'⟩ (by rw [← heq]; exact hfirst'.isSome)
    · rw [if_neg hgt]
      have heq : Cursor.doc req = Cursor.doc excl := le_antisymm (not_lt.1 hgt) (not_lt.1 hlt)
      exact hadvance excl ⟨⟨t', ht', hfirst⟩, hs⟩ (by rw [heq]; exact hfirst.isSome)

omit [Zero ρ] in
/-- The first call brings the prohibited scorer to where the required one goes. -/
theorem initExcl_ready (move : τ → Bool × τ) (h : At f g s c) (ht : c < t)
    (hmove : ∀ excl, Visits g excl c → Lands g (Visits g) t (Cursor.left excl) (move excl)) :
    ExclReady g t (initExcl move s) := by
  unfold initExcl
  obtain ⟨-, ⟨hfirst, rfl, excl, hexcl, hs⟩ | ⟨hfirst, hexcl⟩⟩ := h
  · rw [hexcl]
    dsimp only
    rw [if_pos hfirst]
    have hlands := hmove excl hs
    cases hr : (move excl).1 with
    | true =>
      obtain ⟨hf, -, hs'⟩ := hlands.found hr
      rw [if_pos rfl]
      exact ⟨⟨t, le_rfl, hf⟩, hs'⟩
    | false =>
      rw [if_neg (by simp)]
      exact hlands.exhausted hr
  · cases ho : s.exclScorer with
    | none =>
      rw [ho] at hexcl
      exact hexcl.mono (by omega)
    | some excl =>
      rw [ho] at hexcl
      dsimp only
      rw [hfirst, if_neg (by simp)]
      exact hexcl.mono (by omega)

/-- The required scorer has been moved, and the prohibited one is ready. -/
theorem moved_spec {r : Bool × σ} {o : Option τ} (h : Lands f (Visits f) t N r) (hr : r.1 = true) (ho : ExclReady g t o) :
    Lands (exclude f g) (At f g) t N (o.elim (true, (⟨some r.2, none, false⟩ : ReqExclScorer σ τ))
      (toNonExcluded (Cursor.left r.2 + 1) r.2)) := by
  obtain ⟨hfirst, hleft, hs⟩ := h.found hr
  have hle := hfirst.le
  have hbefore : ∀ e, t ≤ e → e < Cursor.doc r.2 → exclude f g e = none :=
    fun e he hlt => exclude_none (hfirst.none_before he hlt)
  cases o with
  | none => exact found hs hfirst.isSome (ho _ hle) (ho.mono (by omega)) hbefore hle hleft
  | some excl => exact toNonExcluded_spec hs hfirst.isSome (ho.mono hle) hbefore hle (by omega) hleft

theorem left_eq (h : s.reqScorer = some req) : Cursor.left s = Cursor.left req := by
  show s.reqScorer.elim 0 Cursor.left = _
  rw [h]
  rfl

theorem at_closed : Closed (exclude f g) (At f g : ReqExclScorer σ τ → ℤ → Prop) where
  doc := by
    rintro s c ⟨⟨req, hreq, hs⟩, -⟩ hc
    show s.reqScorer.elim (-1) Cursor.doc = c
    rw [hreq]
    refine hs.doc_eq (Option.isSome_iff_ne_none.2 fun hnone => ?_)
    rw [exclude_none hnone] at hc
    cases hc
  value := by
    rintro s c V ⟨⟨req, hreq, hs⟩, hexcl⟩ hv
    have hf : f c = some V := by
      unfold exclude at hv
      split at hv
      · cases hv
      · exact hv
    obtain ⟨hvalue, hs', hleft⟩ := hs.value hf
    have hscore : Cursor.value s = ((Cursor.value req).1, { s with reqScorer := some (Cursor.value req).2 }) := by
      obtain ⟨_, _, _⟩ := s
      subst hreq
      rfl
    rw [hscore, left_eq hreq]
    exact ⟨hvalue, ⟨⟨_, rfl, hs'⟩, hexcl⟩, hleft⟩
  next := by
    intro s c h
    have hexcl := initExcl_ready Cursor.next h (Int.lt_succ c) fun excl hs => hs.next
    obtain ⟨⟨req, hreq, hs⟩, -⟩ := h
    show Lands _ _ _ _ (ReqExclScorer.next s)
    unfold ReqExclScorer.next
    rw [hreq, left_eq hreq]
    dsimp only
    generalize initExcl Cursor.next s = o at hexcl
    cases hr : (Cursor.next req).1 with
    | false =>
      rw [if_pos (by simp)]
      exact .of_none fun e he => exclude_none (hs.next.exhausted hr e he)
    | true =>
      rw [if_neg (by simp)]
      have hmoved := moved_spec hs.next hr hexcl
      cases o with
      | none => exact hmoved
      | some excl => exact hmoved
  skipTo := by
    intro s c t h ht
    have hexcl := initExcl_ready (Cursor.skipTo · t) h ht fun excl hs => hs.skipTo ht
    obtain ⟨⟨req, hreq, hs⟩, -⟩ := h
    show Lands _ _ _ _ (ReqExclScorer.skipTo s t)
    unfold ReqExclScorer.skipTo
    rw [hreq, left_eq hreq]
    dsimp only
    generalize initExcl (Cursor.skipTo · t) s = o at hexcl
    have hskip := hs.skipTo ht
    cases hr : (Cursor.skipTo req t).1 with
    | false =>
      have hnone : ∀ e, t ≤ e → exclude f g e = none := fun e he => exclude_none (hskip.exhausted hr e he)
      cases o with
      | none => exact .of_none hnone
      | some excl =>
        dsimp only
        rw [if_pos (by simp)]
        exact .of_none hnone
    | true =>
      have hmoved := moved_spec hskip hr hexcl
      cases o with
      | none => exact hmoved
      | some excl =>
        dsimp only
        rw [if_neg (by simp)]
        exact hmoved

/-- **What is required and not prohibited.** -/
theorem visits (hreq : Visits f req (-1)) (hexcl : Visits g excl (-1)) :
    Visits (exclude f g) (⟨some req, some excl, true⟩ : ReqExclScorer σ τ) (-1) :=
  .of_closed at_closed ⟨⟨req, rfl, hreq⟩, Or.inl ⟨rfl, rfl, excl, rfl, hexcl⟩⟩

end ReqExclScorer

/-! ## Optional documents -/

namespace ReqOptSumScorer

variable [Cursor τ ρ] [Add ρ] {g : ℤ → Option (Set ρ)} {req : σ} {opt : τ} {s : ReqOptSumScorer σ τ}

/-- What `f` has, with what `g` has there. -/
def withOpt (f g : ℤ → Option (Set ρ)) (d : ℤ) : Option (Set ρ) := (f d).map fun V => (g d).elim V (Set.image2 (· + ·) V)

/-- Where the optional scorer is when the required one stands on `c`: fresh, gone, or on its first document
from some point on that is not later. -/
def OptReady (g : ℤ → Option (Set ρ)) (c : ℤ) (s : ReqOptSumScorer σ τ) : Prop :=
  match s.optScorer with
  | none => ∀ e, c ≤ e → g e = none
  | some opt => (s.firstTimeOptScorer = true ∧ Visits g opt (-1)) ∨
      (s.firstTimeOptScorer = false ∧ (∃ t', t' ≤ c ∧ First g t' (Cursor.doc opt)) ∧ Visits g opt (Cursor.doc opt))

omit [Cursor σ ρ] [Add ρ] in
theorem OptReady.mono {c' : ℤ} {req' : σ} (h : OptReady g c s) (hc : c ≤ c') : OptReady g c' { s with reqScorer := req' } := by
  unfold OptReady at h ⊢
  dsimp only
  cases ho : s.optScorer with
  | none =>
    rw [ho] at h
    exact fun e he => h e (by omega)
  | some opt =>
    rw [ho] at h
    exact h.imp_right fun ⟨hfirst, ⟨t', ht', hf⟩, hs⟩ => ⟨hfirst, ⟨t', by omega, hf⟩, hs⟩

omit [Cursor σ ρ] in
/-- The optional scorer is at `c` or past it. -/
theorem withOptional_spec {v : ρ} {V : Set ρ} (hv : v ∈ V) (hfirst : ∃ t', t' ≤ c ∧ First g t' (Cursor.doc opt))
    (hc : c ≤ Cursor.doc opt) (hs : Visits g opt (Cursor.doc opt)) :
    (withOptional c v req opt).1 ∈ (g c).elim V (Set.image2 (· + ·) V) ∧ (withOptional c v req opt).2.reqScorer = req ∧
      OptReady g c (withOptional c v req opt).2 := by
  obtain ⟨t', ht', hf⟩ := hfirst
  unfold withOptional
  by_cases heq : Cursor.doc opt = c
  · rw [if_pos heq]
    rw [heq] at hs hf
    obtain ⟨W, hw⟩ := Option.isSome_iff_exists.1 hf.isSome
    obtain ⟨hvalue, hs', -⟩ := hs.value hw
    have hdoc := hs'.doc_eq hf.isSome
    dsimp only
    refine ⟨by rw [hw]; exact ⟨v, hv, _, hvalue, rfl⟩, rfl, Or.inr ⟨rfl, ⟨t', ht', ?_⟩, ?_⟩⟩
    · rw [hdoc]; exact hf
    · rw [hdoc]; exact hs'
  · rw [if_neg heq]
    refine ⟨?_, rfl, Or.inr ⟨rfl, ⟨t', ht', hf⟩, hs⟩⟩
    rw [hf.none_before ht' (lt_of_le_of_ne hc (Ne.symm heq))]
    exact hv

/-- **The score** is that of both scorers, where both are. -/
theorem score_spec {V : Set ρ} (hc : 0 ≤ c) (hreq : Visits f s.reqScorer c) (hv : f c = some V) (hopt : OptReady g c s) :
    s.score.1 ∈ (g c).elim V (Set.image2 (· + ·) V) ∧ s.score.2.reqScorer = (Cursor.value s.reqScorer).2 ∧
      OptReady g c s.score.2 := by
  obtain ⟨hvalue, hreq', -⟩ := hreq.value hv
  have hdoc : Cursor.doc s.reqScorer = c := hreq.doc_eq (by rw [hv]; rfl)
  unfold score
  rw [hdoc]
  dsimp only
  unfold OptReady at hopt
  cases ho : s.optScorer with
  | none =>
    rw [ho] at hopt
    have hnone : ∀ e, c ≤ e → g e = none := hopt
    refine ⟨?_, rfl, hnone⟩
    rw [hnone c le_rfl]
    exact hvalue
  | some opt =>
    rw [ho] at hopt
    dsimp only at hopt ⊢
    -- the optional scorer is brought to `c`
    have hskipped (hlands : Lands g (Visits g) c (Cursor.left opt) (Cursor.skipTo opt c)) :
        let q := Cursor.skipTo opt c
        let r : ρ × ReqOptSumScorer σ τ :=
          if q.1 then withOptional c (Cursor.value s.reqScorer).1 (Cursor.value s.reqScorer).2 q.2
          else ((Cursor.value s.reqScorer).1, ⟨(Cursor.value s.reqScorer).2, none, false⟩)
        r.1 ∈ (g c).elim V (Set.image2 (· + ·) V) ∧ r.2.reqScorer = (Cursor.value s.reqScorer).2 ∧ OptReady g c r.2 := by
      dsimp only
      cases hr : (Cursor.skipTo opt c).1 with
      | true =>
        rw [if_pos rfl]
        obtain ⟨hfirst, -, hs⟩ := hlands.found hr
        exact withOptional_spec hvalue ⟨c, le_rfl, hfirst⟩ hfirst.le hs
      | false =>
        rw [if_neg (by simp)]
        have hnone := hlands.exhausted hr
        refine ⟨?_, rfl, hnone⟩
        rw [hnone c le_rfl]
        exact hvalue
    rcases hopt with ⟨hfirst, hs⟩ | ⟨hfirst, ht', hs⟩
    · rw [hfirst, if_pos (by simp)]
      exact hskipped (hs.skipTo (by omega))
    · rw [hfirst]
      by_cases hlt : Cursor.doc opt < c
      · rw [if_pos (by simpa using hlt)]
        exact hskipped (hs.skipTo hlt)
      · rw [if_neg (by simpa using hlt)]
        exact withOptional_spec hvalue ht' (not_lt.1 hlt) hs

/-- **What is required, with what is optional.** -/
theorem visits (hneg : f (-1) = none) (hreq : Visits f req (-1)) (hopt : Visits g opt (-1)) :
    Visits (withOpt f g) (⟨req, some opt, true⟩ : ReqOptSumScorer σ τ) (-1) := by
  refine .of_closed (R := fun s c => -1 ≤ c ∧ Visits f s.reqScorer c ∧ OptReady g c s) ⟨?_, ?_, ?_, ?_⟩
    ⟨le_rfl, hreq, Or.inl ⟨rfl, hopt⟩⟩
  · rintro s c ⟨-, hs, -⟩ hc
    exact hs.doc_eq (by simpa [withOpt] using hc)
  · rintro s c V ⟨hc, hs, hopt⟩ hv
    obtain ⟨W, hw, rfl⟩ := Option.map_eq_some_iff.1 hv
    have hpos : 0 ≤ c := by
      rcases hc.eq_or_lt with rfl | hlt
      · rw [hneg] at hw
        cases hw
      · omega
    obtain ⟨hscore, hreq', hopt'⟩ := score_spec hpos hs hw hopt
    obtain ⟨-, hs', hleft⟩ := hs.value hw
    refine ⟨hscore, ⟨hc, ?_, hopt'⟩, ?_⟩
    · show Visits f s.score.2.reqScorer c
      rw [hreq']
      exact hs'
    · show Cursor.left s.score.2.reqScorer ≤ Cursor.left s.reqScorer
      rw [hreq']
      exact hleft
  · rintro s c ⟨hc, hs, hopt⟩
    exact hs.next.map rfl rfl rfl fun d hd hs' => ⟨by omega, hs', hopt.mono (by omega)⟩
  · rintro s c t ⟨hc, hs, hopt⟩ ht
    exact (hs.skipTo ht).map rfl rfl rfl fun d hd hs' => ⟨by omega, hs', hopt.mono (by omega)⟩

end ReqOptSumScorer

/-! ## Clauses -/

section Clauses

variable [FloatT ρ] {req opt excl : List (ℤ → Option (Set ρ))} {es : Entries σ ρ} {d : ℤ} {k : ℕ}

/-- What the scorers that match have. -/
def matching (req opt : List (ℤ → Option (Set ρ))) (d : ℤ) : List (Set ρ) := (req ++ opt).filterMap (· d)

/-- All required scorers match, and no prohibited one, and one at least does. -/
def isMatch (req opt excl : List (ℤ → Option (Set ρ))) (d : ℤ) : Bool :=
  (req.all fun f => (f d).isSome) && !(excl.any fun f => (f d).isSome) && !(matching req opt d).isEmpty

/-- The scores of the required scorers. One alone, where there are optional ones, is not put into a conjunction. -/
def required (req opt : List (ℤ → Option (Set ρ))) (d : ℤ) : Option (Set ρ) :=
  match req, opt with
  | [f], _ :: _ => f d
  | req, _ => conjunction req d

/-- The scores of the scorers that match: the sum of the optional ones is added to that of the required ones. -/
def matchScores (req opt : List (ℤ → Option (Set ρ))) (d : ℤ) : Set ρ :=
  match req, opt.filterMap (· d) with
  | [], Vs => sums Vs
  | req, [] => (required req opt d).getD ∅
  | req, Vs => Set.image2 (· + ·) ((required req opt d).getD ∅) (sums Vs)

/-- The scores, with the number of the scorers that match. -/
def counted (req opt excl : List (ℤ → Option (Set ρ))) (d : ℤ) : Option (Set (ρ × ℕ)) :=
  if isMatch req opt excl d then some ((·, (matching req opt d).length) '' matchScores req opt d) else none

/-- **What a `BooleanQuery` says.** -/
def boolean (req opt excl : List (ℤ → Option (Set ρ))) (maxCoord : ℕ) (d : ℤ) : Option (Set ρ) :=
  if isMatch req opt excl d then some ((· * coord (matching req opt d).length maxCoord) '' matchScores req opt d) else none

theorem boolean_eq : boolean req opt excl k d = (counted req opt excl d).map ((fun x => x.1 * coord x.2 k) '' ·) := by
  unfold boolean counted
  split
  · rw [Option.map_some, Set.image_image]
  · rfl

theorem boolean_isSome : (boolean req opt excl k d).isSome = isMatch req opt excl d := by
  unfold boolean
  cases isMatch req opt excl d <;> rfl

theorem boolean_eq_none (h : ∀ f ∈ req ++ opt, f d = none) : boolean req opt excl k d = none := by
  have hnone : matching req opt d = [] := List.filterMap_eq_nil_iff.2 h
  rw [boolean, isMatch, hnone]
  simp

omit [FloatT ρ] in
theorem filterMap_eq_nil_iff {fs : List (ℤ → Option (Set ρ))} :
    fs.filterMap (· d) = [] ↔ (fs.any fun f => (f d).isSome) = false := by
  simp [List.filterMap_eq_nil_iff]

theorem disjunction_one {fs : List (ℤ → Option (Set ρ))} :
    disjunction 1 fs d = if fs.any fun f => (f d).isSome then some (sums (fs.filterMap (· d))) else none := by
  unfold disjunction
  refine if_congr ?_ rfl rfl
  rw [Nat.one_le_iff_ne_zero, Ne, List.length_eq_zero_iff, filterMap_eq_nil_iff, Bool.not_eq_false]

theorem disjunction_single : disjunction 1 [f] d = f d := by
  rw [disjunction_one]
  cases hf : f d with
  | none => simp [hf]
  | some V => simp [hf, sums_singleton]

theorem required_nil : required req [] d = conjunction req d := by
  match req with
  | [] => rfl
  | [_] => rfl
  | _ :: _ :: _ => rfl

/-- The required scorers have a score where all match. -/
theorem required_isSome : (required req opt d).isSome = req.all fun f => (f d).isSome := by
  have hconj : (conjunction req d).isSome = req.all fun f => (f d).isSome := by
    rw [Bool.eq_iff_iff, conjunction_isSome, List.all_eq_true]
  match req, opt with
  | [], _ => exact hconj
  | [f], [] => exact hconj
  | [f], _ :: _ => exact (Bool.and_true _).symm
  | _ :: _ :: _, _ => exact hconj

/-- No scorer has anything before the first document. -/
def Fresh (es : Entries σ ρ) : Prop := ∀ e ∈ es, Visits e.2 e.1 (-1) ∧ e.2 (-1) = none

omit [FloatT ρ] in
theorem Fresh.on (h : Fresh es) : es.On (-1) := fun e he => (h e he).1

omit [FloatT ρ] in
theorem Fresh.any_false (h : Fresh es) : ((es.map Prod.snd).any fun f => (f (-1)).isSome) = false := by
  rw [List.any_map, List.any_eq_false]
  intro e he
  simp [(h e he).2]

theorem Fresh.disjunction_eq (h : Fresh es) : disjunction 1 (es.map Prod.snd) (-1) = none := by
  rw [disjunction_one, h.any_false]
  rfl

theorem Fresh.conjunction_eq (h : Fresh es) (hne : es ≠ []) : conjunction (es.map Prod.snd) (-1) = none := by
  obtain ⟨e, es, rfl⟩ := List.exists_cons_of_ne_nil hne
  exact conjunction_eq_none List.mem_cons_self (h e List.mem_cons_self).2

theorem Fresh.required_eq (h : Fresh es) (hne : es ≠ []) : required (es.map Prod.snd) opt (-1) = none := by
  obtain ⟨e, es, rfl⟩ := List.exists_cons_of_ne_nil hne
  rw [← Option.isNone_iff_eq_none, ← Option.not_isSome, required_isSome, List.map_cons, List.all_cons,
    (h e List.mem_cons_self).2]
  rfl

namespace BooleanScorer2

variable [Inhabited σ]

theorem singleMatchScorer_visits {s : σ} (h : Visits f s (-1)) :
    Visits (fun d => (f d).map ((·, (1 : ℕ)) '' ·)) (singleMatchScorer s : MatchingScorer σ ρ) (-1) :=
  (MatchCountingScorer.visits (k := fun _ => 1) Visits.closed (fun _ _ => rfl) h).inl

theorem countingConjunctionSumScorer_visits (h : Fresh es) (hne : es ≠ []) :
    Visits (fun d => (conjunction (es.map Prod.snd) d).map ((·, es.length) '' ·))
      (countingConjunctionSumScorer (es.map Prod.fst) : MatchingScorer σ ρ) (-1) := by
  have hclosed := ConjunctionScorer.at_closed (σ := σ) (mt List.map_eq_nil_iff.1 hne) (h.conjunction_eq hne)
  refine Visits.inr (Visits.inl
    (MatchCountingScorer.visits (k := fun _ => es.length) hclosed ?_ (ConjunctionScorer.at_new h.on)))
  intro c d hc _
  rw [hc.length, List.length_map]

theorem countingDisjunctionSumScorer_visits (h : Fresh es) :
    Visits (fun d => (disjunction 1 (es.map Prod.snd) d).map ((·, ((es.map Prod.snd).filterMap (· d)).length) '' ·))
      (countingDisjunctionSumScorer (es.map Prod.fst) 1 : MatchingScorer σ ρ) (-1) := by
  refine Visits.inr (Visits.inr (MatchCountingScorer.visits (DisjunctionSumScorer.at_closed (by decide)) ?_
    (DisjunctionSumScorer.at_new h.on h.disjunction_eq)))
  intro c d hc hd
  rw [(hc.score (disjunction_isSome.1 hd)).2, scoresAt, Multiset.filterMap_coe, Multiset.coe_card]

/-- **The optional scorers**, one of which is to match. -/
theorem optionalScorer_visits (h : Fresh es) :
    Visits (fun d => (disjunction 1 (es.map Prod.snd) d).map ((·, ((es.map Prod.snd).filterMap (· d)).length) '' ·))
      (optionalScorer (es.map Prod.fst) : MatchingScorer σ ρ) (-1) := by
  match es, h with
  | [], h => exact countingDisjunctionSumScorer_visits h
  | [e], h =>
    refine (singleMatchScorer_visits (h e List.mem_cons_self).1).congr fun d _ => ?_
    rw [List.map_singleton, disjunction_single]
    cases hd : e.2 d <;> simp [hd]
  | e :: e' :: es, h => exact countingDisjunctionSumScorer_visits h

/-- The required scorer of `makeCountingSumScorerSomeReq`, where there are optional ones. -/
theorem requiredScorer_visits (g : ℤ → Option (Set ρ)) (opt : List (ℤ → Option (Set ρ))) (h : Fresh es) (hne : es ≠ []) :
    Visits (fun d => (required (es.map Prod.snd) (g :: opt) d).map ((·, es.length) '' ·))
      (match es.map Prod.fst with
        | [scorer] => singleMatchScorer scorer
        | requiredScorers => countingConjunctionSumScorer requiredScorers : MatchingScorer σ ρ) (-1) := by
  match es, h with
  | [], h => exact absurd rfl hne
  | [e], h => exact singleMatchScorer_visits (h e List.mem_cons_self).1
  | e :: e' :: es, h => exact countingConjunctionSumScorer_visits h (by simp)

/-- **The prohibited scorers** take out what they match. -/
theorem addProhibitedScorers_visits {g : ℤ → Option (Set (ρ × ℕ))} {s : MatchingScorer σ ρ} (hs : Visits g s (-1))
    (h : Fresh es) :
    Visits (ReqExclScorer.exclude g (disjunction 1 (es.map Prod.snd))) (addProhibitedScorers (es.map Prod.fst) s) (-1) := by
  match es, h with
  | [], h => exact (Visits.inl hs).congr fun d _ => (ReqExclScorer.exclude_of_none rfl).symm
  | [e], h =>
    refine (Visits.inr (ReqExclScorer.visits hs (Visits.inl (h e List.mem_cons_self).1))).congr fun d _ => ?_
    rw [List.map_singleton, ReqExclScorer.exclude, ReqExclScorer.exclude, disjunction_single]
  | e :: e' :: es, h =>
    have hexcl := Visits.of_closed (DisjunctionSumScorer.at_closed (by decide))
        (DisjunctionSumScorer.at_new h.on h.disjunction_eq)
    exact Visits.inr (ReqExclScorer.visits hs (Visits.inr hexcl))

/-! ## Putting the scorers together -/

/-- What the counting scorer has, without the prohibited documents. -/
def uncounted (req opt : List (ℤ → Option (Set ρ))) (d : ℤ) : Option (Set (ρ × ℕ)) :=
  if req.all (fun f => (f d).isSome) && !(matching req opt d).isEmpty then
    some ((·, (matching req opt d).length) '' matchScores req opt d) else none

theorem exclude_uncounted : ReqExclScorer.exclude (uncounted req opt) (disjunction 1 excl) d = counted req opt excl d := by
  unfold ReqExclScorer.exclude uncounted counted isMatch
  rw [disjunction_one]
  cases excl.any fun f => (f d).isSome <;> cases req.all fun f => (f d).isSome <;> simp

omit [FloatT ρ] in
theorem conjunction_length (h : (req.all fun f => (f d).isSome) = true) : (req.filterMap (· d)).length = req.length := by
  rw [List.length_filterMap_eq_countP, List.countP_eq_length]
  exact List.all_eq_true.1 h

theorem uncounted_noReq :
    uncounted [] opt d = (disjunction 1 opt d).map ((·, (opt.filterMap (· d)).length) '' ·) := by
  unfold uncounted matching
  rw [disjunction_one, List.nil_append]
  cases hany : opt.any fun f => (f d).isSome with
  | false => rw [filterMap_eq_nil_iff.2 hany]; rfl
  | true =>
    have hne : opt.filterMap (· d) ≠ [] := by
      rw [Ne, filterMap_eq_nil_iff, hany]
      decide
    rw [List.isEmpty_eq_false_iff.2 hne]
    rfl

/-- The optional scorers add their sum, if any matches. -/
theorem uncounted_req (hne : req ≠ []) : uncounted req opt d = (required req opt d).map fun V =>
    (·, req.length + (opt.filterMap (· d)).length) '' (disjunction 1 opt d).elim V (Set.image2 (· + ·) V) := by
  have hsome : (required req opt d).isSome = req.all fun f => (f d).isSome := required_isSome
  unfold uncounted
  cases hall : req.all fun f => (f d).isSome with
  | false =>
    rw [hall, Option.isSome_eq_false_iff, Option.isNone_iff_eq_none] at hsome
    rw [hsome]
    rfl
  | true =>
    rw [hall] at hsome
    obtain ⟨V, hV⟩ := Option.isSome_iff_exists.1 hsome
    obtain ⟨f, req, rfl⟩ := List.exists_cons_of_ne_nil hne
    have hlength : (matching (f :: req) opt d).length = (f :: req).length + (opt.filterMap (· d)).length := by
      rw [matching, List.filterMap_append, List.length_append, conjunction_length hall]
    have hne' : matching (f :: req) opt d ≠ [] := by
      rw [← List.length_pos_iff, hlength, List.length_cons]
      omega
    have hscores : matchScores (f :: req) opt d = (disjunction 1 opt d).elim V (Set.image2 (· + ·) V) := by
      unfold matchScores
      rw [disjunction_one]
      cases hVs : opt.filterMap (· d) with
      | nil =>
        rw [filterMap_eq_nil_iff.1 hVs]
        dsimp only
        rw [hV]
        rfl
      | cons W Vs =>
        have hany : (opt.any fun f => (f d).isSome) = true := by
          rw [← Bool.not_eq_false, ← filterMap_eq_nil_iff, hVs]
          exact List.cons_ne_nil W Vs
        rw [hany]
        dsimp only
        rw [hV]
        rfl
    rw [List.isEmpty_eq_false_iff.2 hne', if_pos (by decide), hV, Option.map_some, hlength, hscores]

/-- The numbers of both add up with the scores. -/
theorem image2_counted {V W : Set ρ} {m n : ℕ} :
    Set.image2 (· + ·) ((·, m) '' V) ((·, n) '' W) = (·, m + n) '' Set.image2 (· + ·) V W := by
  rw [Set.image2_image_left, Set.image2_image_right, Set.image_image2]
  rfl

theorem withOpt_counted (hne : req ≠ []) :
    ReqOptSumScorer.withOpt (ReqExclScorer.exclude (fun d => (required req opt d).map ((·, req.length) '' ·))
      (disjunction 1 excl))
      (fun d => (disjunction 1 opt d).map ((·, (opt.filterMap (· d)).length) '' ·)) d = counted req opt excl d := by
  rw [← exclude_uncounted]
  unfold ReqOptSumScorer.withOpt ReqExclScorer.exclude
  rw [uncounted_req hne]
  by_cases hexcl : (disjunction 1 excl d).isSome = true
  · rw [if_pos hexcl, if_pos hexcl]
    rfl
  · rw [if_neg hexcl, if_neg hexcl, Option.map_map]
    refine Option.map_congr fun V _ => ?_
    dsimp only [Function.comp_apply]
    rw [disjunction_one]
    cases hany : opt.any fun f => (f d).isSome with
    | false => simp [filterMap_eq_nil_iff.2 hany]
    | true => exact image2_counted

/-- **The counting scorer**, whatever the numbers of the scorers are. -/
theorem makeCountingSumScorer_visits {es os xs : Entries σ ρ} (hreq : Fresh es) (hopt : Fresh os) (hexcl : Fresh xs) :
    Visits (counted (es.map Prod.snd) (os.map Prod.snd) (xs.map Prod.snd))
      (makeCountingSumScorer ⟨es.map Prod.fst, os.map Prod.fst, xs.map Prod.fst, k, none⟩ : CountingSumScorer σ ρ) (-1) := by
  match es, os, hreq, hopt with
  | [], [], _, _ =>
    refine (Visits.inl NonMatchingScorer.visits).congr fun d _ => ?_
    rw [← exclude_uncounted, ReqExclScorer.exclude_none]
    rfl
  | [], o :: os, _, hopt =>
    refine (Visits.inr (Visits.inl (addProhibitedScorers_visits (optionalScorer_visits hopt) hexcl))).congr fun d _ => ?_
    rw [← exclude_uncounted, ReqExclScorer.exclude, ReqExclScorer.exclude, List.map_nil, uncounted_noReq]
  | e :: es, [], hreq, _ =>
    refine (Visits.inr (Visits.inl (addProhibitedScorers_visits
      (countingConjunctionSumScorer_visits hreq (by simp)) hexcl))).congr fun d _ => ?_
    rw [← exclude_uncounted, ReqExclScorer.exclude, ReqExclScorer.exclude, uncounted_req (by simp), List.length_map,
      List.map_nil, required_nil]
    rfl
  | e :: es, o :: os, hreq, hopt =>
    have hrequired := addProhibitedScorers_visits (requiredScorer_visits o.2 (os.map Prod.snd) hreq (by simp)) hexcl
    refine (Visits.inr (Visits.inr (ReqOptSumScorer.visits ?_ hrequired (optionalScorer_visits hopt)))).congr fun d _ => ?_
    · rw [ReqExclScorer.exclude_none]
      rw [hreq.required_eq (by simp)]
      rfl
    · rw [← withOpt_counted (by simp), List.length_map]
      rfl

/-- **`BooleanScorer2` visits what the query says**, with its score. -/
theorem visits {es os xs : Entries σ ρ} (hreq : Fresh es) (hopt : Fresh os) (hexcl : Fresh xs) :
    Visits (boolean (es.map Prod.snd) (os.map Prod.snd) (xs.map Prod.snd) k)
      (⟨es.map Prod.fst, os.map Prod.fst, xs.map Prod.fst, k, none⟩ : BooleanScorer2 σ ρ) (-1) := by
  set F := counted (es.map Prod.snd) (os.map Prod.snd) (xs.map Prod.snd) with hF
  have hvisits : Visits (fun d => (F d).map ((fun x => x.1 * coord x.2 k) '' ·))
      (⟨es.map Prod.fst, os.map Prod.fst, xs.map Prod.fst, k, none⟩ : BooleanScorer2 σ ρ) (-1) := by
    refine .of_closed (R := fun b c => Visits F b.counting c ∧ b.maxCoord = k) ⟨?_, ?_, ?_, ?_⟩
      ⟨makeCountingSumScorer_visits hreq hopt hexcl, rfl⟩
    · rintro b c ⟨hb, -⟩ hc
      exact hb.doc_eq (by simpa using hc)
    · rintro b c V ⟨hb, hk⟩ hv
      obtain ⟨W, hw, rfl⟩ := Option.map_eq_some_iff.1 hv
      obtain ⟨hvalue, hb', hleft⟩ := hb.value hw
      refine ⟨?_, ⟨hb', hk⟩, hleft⟩
      rw [← hk]
      exact ⟨_, hvalue, rfl⟩
    · rintro b c ⟨hb, hk⟩
      exact hb.next.map rfl rfl rfl fun d _ hb' => ⟨hb', hk⟩
    · rintro b c t ⟨hb, hk⟩ ht
      exact (hb.skipTo ht).map rfl rfl rfl fun d _ hb' => ⟨hb', hk⟩
  exact hvisits.congr fun d _ => boolean_eq.symm

end BooleanScorer2

end Clauses

end QDesktopSearch
