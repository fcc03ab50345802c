import Mathlib.Order.Basic

/-!
# Programs with a state that may throw

Two judgements on programs of `StateT σ (Except ε)`, with a rule for each way they are put
together. `Meets` is a triple: what holds where a run returns, and what where it throws.
`Simulates` relates two programs: where the first returns, so does the second, unless the first
has come to a state from which it is not going to end well (`X`).
-/

namespace QDesktopSearch

namespace Program

universe u v

variable {σ σ' α α' β β' : Type u} {ε : Type v}

/-- A run of a sequence is a run of each part. -/
theorem run_bind_ok {p : StateT σ (Except ε) α} {f : α → StateT σ (Except ε) β} {s u : σ} {b : β} :
    (p >>= f) s = .ok (b, u) ↔ ∃ a t, p s = .ok (a, t) ∧ f a t = .ok (b, u) := by
  have hbind : (p >>= f) s = (p s >>= fun x => f x.1 x.2) := rfl
  rw [hbind]
  cases p s with
  | error e =>
    refine iff_of_false (fun h => by cases h) ?_
    intro ⟨a, t, hp, _⟩
    cases hp
  | ok x =>
    constructor
    · intro h
      exact ⟨x.1, x.2, rfl, h⟩
    · intro ⟨a, t, hp, hf⟩
      cases hp
      exact hf

/-! ## Triples -/

/-- Where `p` returns from `s`, `Q` holds, and where it throws, `E`. -/
def Meets (p : StateT σ (Except ε) α) (s : σ) (E : ε → Prop) (Q : α → σ → Prop) : Prop :=
  (∀ a t, p s = .ok (a, t) → Q a t) ∧ ∀ e, p s = .error e → E e

variable {p : StateT σ (Except ε) α} {f : α → StateT σ (Except ε) β} {s : σ} {E : ε → Prop} {Q : α → σ → Prop}

theorem Meets.pure {a : α} (h : Q a s) : Meets (pure a) s E Q := by
  constructor
  · intro b t hrun
    cases hrun
    exact h
  · intro e hrun
    cases hrun

theorem Meets.throw {e : ε} (h : E e) : Meets (throw e) s E Q := by
  constructor
  · intro b t hrun
    cases hrun
  · intro e' hrun
    cases hrun
    exact h

/-- A computation without the state. -/
theorem Meets.lift {x : Except ε α} (hok : ∀ a, x = .ok a → Q a s) (herror : ∀ e, x = .error e → E e) :
    Meets (liftM x) s E Q := by
  cases x with
  | error e => exact Meets.throw (herror e rfl)
  | ok a => exact Meets.pure (hok a rfl)

/-- **The rule of sequences.** -/
theorem Meets.bind {R : β → σ → Prop} (hp : Meets p s E Q) (hf : ∀ a t, Q a t → Meets (f a) t E R) :
    Meets (p >>= f) s E R := by
  constructor
  · intro b u hrun
    obtain ⟨a, t, hpa, hfa⟩ := run_bind_ok.1 hrun
    exact (hf a t (hp.1 a t hpa)).1 b u hfa
  · intro e hrun
    have hbind : (p >>= f) s = (p s >>= fun x => f x.1 x.2) := rfl
    rw [hbind] at hrun
    cases hps : p s with
    | error e' =>
      rw [hps] at hrun
      cases hrun
      exact hp.2 e hps
    | ok x =>
      rw [hps] at hrun
      exact (hf x.1 x.2 (hp.1 x.1 x.2 hps)).2 e hrun

theorem Meets.mono {E' : ε → Prop} {Q' : α → σ → Prop} (h : Meets p s E Q) (hE : ∀ e, E e → E' e)
    (hQ : ∀ a t, Q a t → Q' a t) : Meets p s E' Q' :=
  ⟨fun a t hrun => hQ a t (h.1 a t hrun), fun e hrun => hE e (h.2 e hrun)⟩

/-! ## Simulations -/

/-- From related states, where `p` returns it has come to `X`, or `p'` returns as well, and the
results and the states are as `Q` says. -/
def Simulates (X : σ → Prop) (R : σ → σ' → Prop) (p : StateT σ (Except ε) α) (p' : StateT σ' (Except ε) α')
    (Q : α → α' → σ → σ' → Prop) : Prop :=
  ∀ ⦃s s' a t⦄, R s s' → p s = .ok (a, t) → X t ∨ ∃ a' t', p' s' = .ok (a', t') ∧ Q a a' t t'

variable {p' : StateT σ' (Except ε) α'} {f' : α' → StateT σ' (Except ε) β'} {X Y : σ → Prop} {R : σ → σ' → Prop}
  {S : α → α' → σ → σ' → Prop} {S' : β → β' → σ → σ' → Prop}

theorem Simulates.pure {a : α} {a' : α'} (h : ∀ ⦃s s'⦄, R s s' → S a a' s s') :
    Simulates X R (pure a : StateT σ (Except ε) α) (pure a') S := by
  intro s s' b t hR hrun
  cases hrun
  exact Or.inr ⟨a', s', rfl, h hR⟩

/-- What throws is simulated by anything. -/
theorem Simulates.throw {e : ε} : Simulates X R (throw e : StateT σ (Except ε) α) p' S := by
  intro s s' b t hR hrun
  cases hrun

theorem Simulates.lift {x : Except ε α} {x' : Except ε α'}
    (h : ∀ ⦃a s s'⦄, x = .ok a → R s s' → ∃ a', x' = .ok a' ∧ S a a' s s') :
    Simulates X R (liftM x : StateT σ (Except ε) α) (liftM x') S := by
  intro s s' b t hR hrun
  cases x with
  | error e => cases hrun
  | ok a =>
    cases hrun
    obtain ⟨a', rfl, hS⟩ := h rfl hR
    exact Or.inr ⟨a', s', rfl, hS⟩

/-- **The rule of sequences**; what comes after `Y` comes to `X`. -/
theorem Simulates.bind_of (hp : Simulates Y R p p' S)
    (hY : ∀ ⦃a t b u⦄, Y t → f a t = .ok (b, u) → X u)
    (hf : ∀ a a', Simulates X (S a a') (f a) (f' a') S') : Simulates X R (p >>= f) (p' >>= f') S' := by
  intro s s' b u hR hrun
  obtain ⟨a, t, hpa, hfa⟩ := run_bind_ok.1 hrun
  rcases hp hR hpa with hstuck | ⟨a', t', hpa', hS⟩
  · exact Or.inl (hY hstuck hfa)
  · rcases hf a a' hS hfa with hstuck | ⟨b', u', hfa', hS'⟩
    · exact Or.inl hstuck
    · exact Or.inr ⟨b', u', run_bind_ok.2 ⟨a', t', hpa', hfa'⟩, hS'⟩

/-- The rule of sequences, where the first program is never stuck. -/
theorem Simulates.bind (hp : Simulates (fun _ => False) R p p' S)
    (hf : ∀ a a', Simulates X (S a a') (f a) (f' a') S') : Simulates X R (p >>= f) (p' >>= f') S' :=
  hp.bind_of (fun _ _ _ _ h => h.elim) hf

/-- Both go the same way. -/
theorem Simulates.ite {q : StateT σ (Except ε) α} {q' : StateT σ' (Except ε) α'} {c c' : Prop} [Decidable c]
    [Decidable c'] (hc : c ↔ c') (hp : c → Simulates X R p p' S) (hq : ¬c → Simulates X R q q' S) :
    Simulates X R (if c then p else q) (if c' then p' else q') S := by
  by_cases h : c
  · rw [if_pos h, if_pos (hc.1 h)]
    exact hp h
  · rw [if_neg h, if_neg fun h' => h (hc.2 h')]
    exact hq h

theorem Simulates.mono {R₀ : σ → σ' → Prop} {S₀ : α → α' → σ → σ' → Prop} (h : Simulates Y R₀ p p' S₀)
    (hX : ∀ t, Y t → X t) (hR : ∀ s s', R s s' → R₀ s s') (hS : ∀ a a' t t', S₀ a a' t t' → S a a' t t') :
    Simulates X R p p' S := by
  intro s s' a t hstart hrun
  rcases h (hR s s' hstart) hrun with hstuck | ⟨a', t', hrun', hend⟩
  · exact Or.inl (hX t hstuck)
  · exact Or.inr ⟨a', t', hrun', hS a a' t t' hend⟩

theorem Simulates.weaken {R₀ : σ → σ' → Prop} (h : Simulates X R₀ p p' S) (hR : ∀ s s', R s s' → R₀ s s') :
    Simulates X R p p' S :=
  h.mono (fun _ hX => hX) hR fun _ _ _ _ hS => hS

/-- The results may be used together with the runs that they are from. -/
theorem Simulates.runs (h : Simulates X R p p' S) : Simulates X R p p' fun a a' t t' =>
    S a a' t t' ∧ ∃ s s', R s s' ∧ p s = .ok (a, t) ∧ p' s' = .ok (a', t') := by
  intro s s' a t hR hrun
  rcases h hR hrun with hstuck | ⟨a', t', hrun', hS⟩
  · exact Or.inl hstuck
  · exact Or.inr ⟨a', t', hrun', hS, s, s', hR, hrun, hrun'⟩

/-- A fact that holds before, whatever the states. -/
theorem Simulates.of_pre {P : Prop} (h : P → Simulates X R p p' S) : Simulates X (fun s s' => P ∧ R s s') p p' S := by
  intro s s' a t hstart hrun
  exact h hstart.1 hstart.2 hrun

end Program

end QDesktopSearch
