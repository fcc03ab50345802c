import Mathlib.Data.List.Basic
import Mathlib.Tactic.Common

/-!
# Runs of a partial machine

A machine is a partial step function: from a state and an input to a state and an
output, or to nothing where the input is not admissible. Runs read a list of inputs.

* `run_append`: a run over two lists is two runs, one after the other.
* `run_invariant`: what every step preserves, every run preserves.
* `run_invariant_meets`: the same when only steps that meet a condition preserve it.
* `run_total`: the same where the invariant also makes every step go through.
* `run_answers`: a run of a machine whose answers do not depend on its state.
* `meets_iff`: a condition on a run is one on every input, in the state it is read in.
* `Reaches`: a run over inputs of a kind leads from one state to another.
* `always_iff`: a run passes only good states exactly if its inputs meet a condition.
* `outputs_iff`: a run has only good outputs exactly if its inputs meet a condition.
* `run_simulates`: a step-wise simulation carries over to runs, outputs included.
* `since_concat`, `never_concat`: conditions on what has happened so far, by the last event.
-/

namespace QDesktopSearch.Machine

variable {σ τ ι κ ο : Type*}

/-- The run over a list of inputs, with its outputs in order. -/
def run (step : σ → ι → Option (σ × ο)) : σ → List ι → Option (σ × List ο)
  | s, [] => some (s, [])
  | s, i :: is => (step s i).bind fun r => (run step r.1 is).map fun q => (q.1, r.2 :: q.2)

/-- Every input of the list meets `C` in the state the run reads it in. -/
def Meets (step : σ → ι → Option (σ × ο)) (C : σ → ι → Prop) : σ → List ι → Prop
  | _, [] => True
  | s, i :: is => C s i ∧ ∀ s' o, step s i = some (s', o) → Meets step C s' is

/-- The inputs of another machine, each chosen by the state its input is read in. -/
def translate (step : σ → ι → Option (σ × ο)) (f : σ → ι → κ) : σ → List ι → List κ
  | _, [] => []
  | s, i :: is =>
    f s i :: match step s i with
      | none => []
      | some r => translate step f r.1 is

variable {step : σ → ι → Option (σ × ο)} {s s' : σ} {i : ι} {is js : List ι} {os : List ο}

@[simp] theorem run_nil : run step s [] = some (s, []) := rfl

theorem run_nil_some (h : run step s [] = some (s', os)) : s = s' := by
  simp only [run_nil, Option.some.injEq, Prod.mk.injEq] at h; exact h.1

/-- A nonempty run is a step and a run. -/
theorem run_cons_some : run step s (i :: is) = some (s', os) ↔
    ∃ t o os', step s i = some (t, o) ∧ run step t is = some (s', os') ∧ os = o :: os' := by
  simp only [run, Option.bind_eq_some_iff, Option.map_eq_some_iff, Prod.exists, Prod.mk.injEq]
  constructor
  · rintro ⟨t, o, ht, q, os', hq, rfl, rfl⟩; exact ⟨t, o, os', ht, hq, rfl⟩
  · rintro ⟨t, o, os', ht, hq, rfl⟩; exact ⟨t, o, ht, s', os', hq, rfl, rfl⟩

/-- **A run over two lists is two runs.** -/
theorem run_append : run step s (is ++ js) = some (s', os) ↔
    ∃ t os₁ os₂, run step s is = some (t, os₁) ∧ run step t js = some (s', os₂) ∧ os = os₁ ++ os₂ := by
  induction is generalizing s os with
  | nil => simp
  | cons i is ih =>
    simp only [List.cons_append, run_cons_some]
    constructor
    · rintro ⟨t, o, os', ht, hr, rfl⟩
      obtain ⟨u, os₁, os₂, h1, h2, rfl⟩ := ih.1 hr
      exact ⟨u, o :: os₁, os₂, ⟨t, o, os₁, ht, h1, rfl⟩, h2, rfl⟩
    · rintro ⟨u, os₁, os₂, ⟨t, o, os', ht, h1, rfl⟩, h2, rfl⟩
      exact ⟨t, o, os' ++ os₂, ht, ih.2 ⟨u, os', os₂, h1, h2, rfl⟩, rfl⟩

/-- **The invariant rule** for steps that meet a condition. -/
theorem run_invariant_meets {I : σ → Prop} {C : σ → ι → Prop}
    (hstep : ∀ s i s' o, I s → C s i → step s i = some (s', o) → I s') (hC : Meets step C s is)
    (hs : I s) (h : run step s is = some (s', os)) : I s' := by
  induction is generalizing s os with
  | nil => exact run_nil_some h ▸ hs
  | cons i is ih =>
    obtain ⟨t, o, os', ht, hr, -⟩ := run_cons_some.1 h
    exact ih (hC.2 t o ht) (hstep s i t o hs hC.1 ht) hr

theorem meets_true : Meets step (fun _ _ => True) s is := by
  induction is generalizing s with
  | nil => trivial
  | cons i is ih => exact ⟨trivial, fun _ _ _ => ih⟩

/-- **The invariant rule**: what every step preserves, every run preserves. -/
theorem run_invariant {I : σ → Prop} (hstep : ∀ s i s' o, I s → step s i = some (s', o) → I s')
    (hs : I s) (h : run step s is = some (s', os)) : I s' :=
  run_invariant_meets (fun s i s' o hI _ => hstep s i s' o hI) meets_true hs h

/-- **The invariant rule, with progress**: where the invariant and the condition make every
step go through, the run goes through. -/
theorem run_total {I : σ → Prop} {C : σ → ι → Prop}
    (hstep : ∀ s i, I s → C s i → ∃ s' o, step s i = some (s', o) ∧ I s') (hC : Meets step C s is) (hs : I s) :
    ∃ s' os, run step s is = some (s', os) ∧ I s' := by
  induction is generalizing s with
  | nil => exact ⟨s, [], rfl, hs⟩
  | cons i is ih =>
    obtain ⟨t, o, ht, hI⟩ := hstep s i hs hC.1
    obtain ⟨s', os, hr, hI'⟩ := ih (hC.2 t o ht) hI
    exact ⟨s', o :: os, run_cons_some.2 ⟨t, o, os, ht, hr, rfl⟩, hI'⟩

/-- **A machine whose answers do not depend on its state.** -/
theorem run_answers {f : ι → ο} (hstep : ∀ s i, ∃ s', step s i = some (s', f i)) :
    ∃ s', run step s is = some (s', is.map f) := by
  induction is generalizing s with
  | nil => exact ⟨s, rfl⟩
  | cons i is ih =>
    obtain ⟨t, ht⟩ := hstep s i
    obtain ⟨s', hr⟩ := ih (s := t)
    exact ⟨s', run_cons_some.2 ⟨t, f i, is.map f, ht, hr, rfl⟩⟩

/-- A condition on inputs alone. -/
theorem meets_of_forall {C : ι → Prop} (h : ∀ i ∈ is, C i) : Meets step (fun _ i => C i) s is := by
  induction is generalizing s with
  | nil => trivial
  | cons i is ih =>
    exact ⟨h i List.mem_cons_self, fun _ _ _ => ih fun j hj => h j (List.mem_cons_of_mem _ hj)⟩

theorem Meets.append {C : σ → ι → Prop} (h : Meets step C s (is ++ js)) : Meets step C s is := by
  induction is generalizing s with
  | nil => trivial
  | cons i is ih => exact ⟨h.1, fun t o ht => ih (h.2 t o ht)⟩

/-- Where a run that meets `C` is about to read an input, the input meets `C`. -/
theorem Meets.at_input {C : σ → ι → Prop} (h : Meets step C s (is ++ i :: js))
    (hr : run step s is = some (s', os)) : C s' i := by
  induction is generalizing s os with
  | nil => exact run_nil_some hr ▸ h.1
  | cons j is ih =>
    obtain ⟨t, o, os', ht, hr', -⟩ := run_cons_some.1 hr
    exact ih (h.2 t o ht) hr'

/-- **A condition on a run** is one on every input, in the state it is read in. -/
theorem meets_iff {C : σ → ι → Prop} : Meets step C s is ↔
    ∀ is₁ i is₂ s' os, is = is₁ ++ i :: is₂ → run step s is₁ = some (s', os) → C s' i := by
  constructor
  · rintro h is₁ i is₂ s' os rfl hr
    exact h.at_input hr
  · intro h
    induction is generalizing s with
    | nil => trivial
    | cons i is ih =>
      refine ⟨h [] i is s [] rfl rfl, fun t o ht => ih fun is₁ j is₂ s' os he hr => ?_⟩
      exact h (i :: is₁) j is₂ s' (o :: os) (by rw [he]; rfl) (run_cons_some.2 ⟨t, o, os, ht, hr, rfl⟩)

theorem Meets.and {C C' : σ → ι → Prop} (h : Meets step C s is) (h' : Meets step C' s is) :
    Meets step (fun s i => C s i ∧ C' s i) s is := by
  rw [meets_iff] at h h' ⊢
  exact fun is₁ i is₂ s' os he hr => ⟨h is₁ i is₂ s' os he hr, h' is₁ i is₂ s' os he hr⟩

theorem Meets.mono {C C' : σ → ι → Prop} (h : Meets step C s is) (hC : ∀ s i, C s i → C' s i) :
    Meets step C' s is := by
  rw [meets_iff] at h ⊢
  exact fun is₁ i is₂ s' os he hr => hC s' i (h is₁ i is₂ s' os he hr)

/-- Some run over inputs that satisfy `C` leads from `s` to `s'`. -/
def Reaches (step : σ → ι → Option (σ × ο)) (C : ι → Prop) (s s' : σ) : Prop :=
  ∃ is os, (∀ i ∈ is, C i) ∧ run step s is = some (s', os)

theorem Reaches.refl {C : ι → Prop} : Reaches step C s s :=
  ⟨[], [], fun _ hi => absurd hi List.not_mem_nil, rfl⟩

theorem Reaches.head {C : ι → Prop} {t : σ} {o : ο} (hi : C i) (hs : step s i = some (t, o)) (h : Reaches step C t s') :
    Reaches step C s s' := by
  obtain ⟨is, os, his, hr⟩ := h
  exact ⟨i :: is, o :: os, List.forall_mem_cons.2 ⟨hi, his⟩, run_cons_some.2 ⟨t, o, os, hs, hr, rfl⟩⟩

theorem Reaches.trans {C : ι → Prop} {t : σ} (h : Reaches step C s t) (h' : Reaches step C t s') :
    Reaches step C s s' := by
  obtain ⟨is, os, his, hr⟩ := h
  obtain ⟨js, os', hjs, hr'⟩ := h'
  exact ⟨is ++ js, os ++ os', List.forall_mem_append.2 ⟨his, hjs⟩, run_append.2 ⟨t, os, os', hr, hr', rfl⟩⟩

/-- **What the outputs tell of a run.** If in every state that satisfies the invariant an
output is good exactly if the input meets `C`, then all outputs of a run are good exactly if
the run meets `C`. -/
theorem outputs_iff {I : σ → Prop} {C : σ → ι → Prop} {G : ο → Prop}
    (hstep : ∀ s i s' o, I s → step s i = some (s', o) → I s' ∧ (G o ↔ C s i)) (hs : I s)
    (h : run step s is = some (s', os)) : (∀ o ∈ os, G o) ↔ Meets step C s is := by
  induction is generalizing s os with
  | nil =>
    simp only [run_nil, Option.some.injEq, Prod.mk.injEq] at h
    obtain ⟨-, rfl⟩ := h
    simp [Meets]
  | cons i is ih =>
    obtain ⟨t, o, os', ht, hr, rfl⟩ := run_cons_some.1 h
    obtain ⟨hI, hG⟩ := hstep s i t o hs ht
    rw [List.forall_mem_cons, hG, ih hI hr]
    constructor
    · rintro ⟨hC, hrest⟩
      refine ⟨hC, fun t' o' ht' => ?_⟩
      rw [ht, Option.some.injEq, Prod.mk.injEq] at ht'
      rw [← ht'.1]
      exact hrest
    · intro hC
      exact ⟨hC.1, hC.2 t o ht⟩

/-- Every state that the run passes satisfies `P`, the first and the last included. -/
def Always (step : σ → ι → Option (σ × ο)) (P : σ → Prop) (s : σ) (is : List ι) : Prop :=
  ∀ is₁ is₂ s' os, is = is₁ ++ is₂ → run step s is₁ = some (s', os) → P s'

theorem always_cons {P : σ → Prop} {t : σ} {o : ο} (ht : step s i = some (t, o)) :
    Always step P s (i :: is) ↔ P s ∧ Always step P t is := by
  constructor
  · intro h
    refine ⟨h [] (i :: is) s [] rfl rfl, fun is₁ is₂ s' os he hr => ?_⟩
    exact h (i :: is₁) is₂ s' (o :: os) (by rw [he]; rfl) (run_cons_some.2 ⟨t, o, os, ht, hr, rfl⟩)
  · rintro ⟨hs, h⟩ is₁ is₂ s' os he hr
    cases is₁ with
    | nil => exact run_nil_some hr ▸ hs
    | cons j is₁ =>
      rw [List.cons_append, List.cons.injEq] at he
      obtain ⟨rfl, he⟩ := he
      obtain ⟨t', o', os', ht', hr', -⟩ := run_cons_some.1 hr
      rw [ht, Option.some.injEq, Prod.mk.injEq] at ht'
      obtain ⟨rfl, -⟩ := ht'
      exact h is₁ is₂ s' os' he hr'

/-- **When a run passes only good states.** If a step from a good state leads to a good one
exactly if its input meets `C`, then all states of a run from a good one are good exactly if
the run meets `C`. -/
theorem always_iff {P : σ → Prop} {C : σ → ι → Prop}
    (hstep : ∀ s i s' o, P s → step s i = some (s', o) → (P s' ↔ C s i)) (hs : P s)
    (h : run step s is = some (s', os)) : Always step P s is ↔ Meets step C s is := by
  induction is generalizing s os with
  | nil =>
    refine iff_of_true (fun is₁ is₂ s' os he hr => ?_) trivial
    obtain ⟨rfl, rfl⟩ := List.append_eq_nil_iff.1 he.symm
    exact run_nil_some hr ▸ hs
  | cons i is ih =>
    obtain ⟨t, o, os', ht, hr, -⟩ := run_cons_some.1 h
    rw [always_cons ht, Meets, ← hstep s i t o hs ht]
    constructor
    · rintro ⟨-, halways⟩
      have hgood : P t := halways [] is t [] rfl rfl
      refine ⟨hgood, fun t' o' ht' => ?_⟩
      rw [ht, Option.some.injEq, Prod.mk.injEq] at ht'
      rw [← ht'.1]
      exact (ih hgood hr).1 halways
    · rintro ⟨hgood, hmeets⟩
      exact ⟨hs, (ih hgood hr).2 (hmeets t o ht)⟩

/-- **Simulation of runs.** If every admissible step from related states is matched by a
step with the same output on the translated input, every admissible run is matched. -/
theorem run_simulates {C : σ → ι → Prop} {step' : τ → κ → Option (τ × ο)} {f : σ → ι → κ} {R : σ → τ → Prop}
    (hstep : ∀ s t i s' o, R s t → C s i → step s i = some (s', o) →
      ∃ t', step' t (f s i) = some (t', o) ∧ R s' t')
    (hC : Meets step C s is) {t : τ} (hR : R s t) (h : run step s is = some (s', os)) :
    ∃ t', run step' t (translate step f s is) = some (t', os) ∧ R s' t' := by
  induction is generalizing s t os with
  | nil =>
    simp only [run_nil, Option.some.injEq, Prod.mk.injEq] at h
    obtain ⟨rfl, rfl⟩ := h
    exact ⟨t, rfl, hR⟩
  | cons i is ih =>
    obtain ⟨u, o, os', hu, hr, rfl⟩ := run_cons_some.1 h
    obtain ⟨t₁, ht₁, hR₁⟩ := hstep s t i u o hR hC.1 hu
    obtain ⟨t', ht', hR'⟩ := ih (hC.2 u o hu) hR₁ hr
    refine ⟨t', ?_, hR'⟩
    simp only [translate, hu]
    exact run_cons_some.2 ⟨t₁, o, os', ht₁, ht', rfl⟩

/-! ## What has happened so far -/

section History

variable {ε : Type*} {p q : ε → Prop} {trace : List ε} {e : ε}

/-- Something with `p` has happened, and nothing with `q` after it. -/
def Since (p q : ε → Prop) (trace : List ε) : Prop :=
  ∃ before e after, trace = before ++ e :: after ∧ p e ∧ ∀ f ∈ after, ¬q f

/-- Nothing with `q` has happened. -/
def Never (q : ε → Prop) (trace : List ε) : Prop := ∀ f ∈ trace, ¬q f

theorem never_nil : Never q [] := fun _ hf => absurd hf List.not_mem_nil

theorem not_since_nil : ¬Since p q [] := by
  rintro ⟨before, e, after, h, -⟩
  exact absurd h.symm (List.append_ne_nil_of_right_ne_nil _ (List.cons_ne_nil _ _))

theorem never_concat : Never q (trace ++ [e]) ↔ Never q trace ∧ ¬q e := by
  simp [Never, or_imp, forall_and]

/-- **The last event decides**, where it is one of either kind. -/
theorem since_concat : Since p q (trace ++ [e]) ↔ p e ∨ (Since p q trace ∧ ¬q e) := by
  constructor
  · rintro ⟨before, f, after, htr, hp, hq⟩
    rcases List.eq_nil_or_concat after with rfl | ⟨after, g, rfl⟩
    · have hlast := List.append_inj_right' htr rfl
      rw [List.cons.injEq] at hlast
      exact Or.inl (hlast.1 ▸ hp)
    · rw [List.concat_eq_append] at htr hq
      have hsplit : trace ++ [e] = (before ++ f :: after) ++ [g] := by rw [htr]; simp
      obtain ⟨rfl, hlast⟩ := List.append_inj' hsplit rfl
      rw [List.cons.injEq] at hlast
      refine Or.inr ⟨⟨before, f, after, rfl, hp, fun x hx => hq x (List.mem_append_left _ hx)⟩, ?_⟩
      rw [hlast.1]
      exact hq g (List.mem_append_right _ (List.mem_singleton_self _))
  · rintro (hp | ⟨⟨before, f, after, rfl, hp, hq⟩, hqe⟩)
    · exact ⟨trace, e, [], rfl, hp, fun _ hf => absurd hf List.not_mem_nil⟩
    · refine ⟨before, f, after ++ [e], by simp, hp, fun x hx => ?_⟩
      rcases List.mem_append.1 hx with hx | hx
      · exact hq x hx
      · rw [List.mem_singleton.1 hx]; exact hqe

end History

end QDesktopSearch.Machine
