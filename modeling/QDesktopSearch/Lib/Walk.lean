import Mathlib.Logic.Relation
import Mathlib.Tactic.Common

/-!
# Walks that change what they walk through

A call visits a vertex: it takes the list of its items as they are then, and goes through
them one by one. For some items it first calls itself on another vertex; for each it then
changes the state. `visit` computes a call with a bound on the depth; `Loop` is the same as
a relation, without the bound.

* `visit_iff`: the two agree.
* `Loop.invariant`: what every change preserves, a walk preserves.
* `loop_exists`: a walk ends where no vertex can be entered for ever.
-/

namespace QDesktopSearch

structure Walk (σ V I : Type*) where
  items : σ → V → List I
  /-- The vertex that is visited for an item. -/
  enter : V → I → Option V
  /-- The change of the state for an item, after that visit. -/
  leave : V → I → σ → σ

namespace Walk

variable {σ V I : Type*} (W : Walk σ V I)

/-- A call, at most so deep; nothing where it goes deeper. -/
def visit : ℕ → σ → V → Option σ
  | 0, _, _ => none
  | n + 1, s, v => (W.items s v).foldlM (fun s i =>
      match W.enter v i with
      | some v' => (visit n s v').map (W.leave v i)
      | none => some (W.leave v i s)) s

/-- The loop over a list of items of a vertex, from one state to another. -/
inductive Loop : V → List I → σ → σ → Prop
  | nil {v : V} {s : σ} : Loop v [] s s
  | leave {v : V} {i : I} {is : List I} {s s' : σ} : W.enter v i = none → Loop v is (W.leave v i s) s' →
      Loop v (i :: is) s s'
  | enter {v v' : V} {i : I} {is : List I} {s t s' : σ} : W.enter v i = some v' → Loop v' (W.items s v') s t →
      Loop v is (W.leave v i t) s' → Loop v (i :: is) s s'

/-- A call ends in a state. -/
def Visits (s : σ) (v : V) (s' : σ) : Prop := W.Loop v (W.items s v) s s'

variable {W} {s s' : σ} {v v' : V} {is : List I} {n m : ℕ}

/-! ## The two forms agree -/

/-- One item, with a bound on the depth. -/
def item (W : Walk σ V I) (n : ℕ) (v : V) (s : σ) (i : I) : Option σ :=
  match W.enter v i with
  | some v' => (W.visit n s v').map (W.leave v i)
  | none => some (W.leave v i s)

theorem visit_succ : W.visit (n + 1) s v = (W.items s v).foldlM (W.item n v) s := rfl

theorem loop_of_visit (h : W.visit n s v = some s') : W.Visits s v s' := by
  induction n generalizing s v s' with
  | zero => exact absurd h (by simp [visit])
  | succ n ih =>
    rw [visit_succ] at h
    unfold Visits
    generalize W.items s v = is at h
    induction is generalizing s with
    | nil =>
      rw [List.foldlM_nil] at h
      cases h
      exact Loop.nil
    | cons i is ihl =>
      rw [List.foldlM_cons] at h
      obtain ⟨t, ht, hrest⟩ := Option.bind_eq_some_iff.1 h
      unfold item at ht
      cases he : W.enter v i with
      | none =>
        rw [he] at ht
        cases ht
        exact Loop.leave he (ihl hrest)
      | some v' =>
        rw [he] at ht
        obtain ⟨u, hu, rfl⟩ := Option.map_eq_some_iff.1 ht
        exact Loop.enter he (ih hu) (ihl hrest)

theorem foldlM_mono (hvisit : ∀ s v s', W.visit n s v = some s' → W.visit m s v = some s')
    (h : is.foldlM (W.item n v) s = some s') : is.foldlM (W.item m v) s = some s' := by
  induction is generalizing s with
  | nil => exact h
  | cons i is ih =>
    rw [List.foldlM_cons] at h ⊢
    obtain ⟨t, ht, hrest⟩ := Option.bind_eq_some_iff.1 h
    refine Option.bind_eq_some_iff.2 ⟨t, ?_, ih hrest⟩
    unfold item at ht ⊢
    cases he : W.enter v i with
    | none =>
      rw [he] at ht
      exact ht
    | some v' =>
      rw [he] at ht
      obtain ⟨u, hu, rfl⟩ := Option.map_eq_some_iff.1 ht
      exact Option.map_eq_some_iff.2 ⟨u, hvisit _ _ _ hu, rfl⟩

/-- **A greater bound gives the same result.** -/
theorem visit_mono (h : W.visit n s v = some s') (hle : n ≤ m) : W.visit m s v = some s' := by
  induction n generalizing m s v s' with
  | zero => exact absurd h (by simp [visit])
  | succ n ih =>
    obtain ⟨m, rfl⟩ : ∃ k, m = k + 1 := ⟨m - 1, by omega⟩
    have hvisit : ∀ s v s', W.visit n s v = some s' → W.visit m s v = some s' :=
      fun s v s' hs => ih hs (by omega)
    exact foldlM_mono hvisit h

theorem visit_of_loop (h : W.Loop v is s s') : ∃ n, is.foldlM (W.item n v) s = some s' := by
  induction h with
  | nil => exact ⟨0, rfl⟩
  | leave he _ ih =>
    obtain ⟨n, hn⟩ := ih
    refine ⟨n, ?_⟩
    rw [List.foldlM_cons, item, he]
    exact hn
  | @enter v v' i is s t s' he _ _ ih₁ ih₂ =>
    obtain ⟨n, hn⟩ := ih₁
    obtain ⟨m, hm⟩ := ih₂
    have hsub : W.visit (max (n + 1) m) s v' = some t :=
      visit_mono (n := n + 1) hn (Nat.le_max_left _ _)
    have hmono : ∀ s v s', W.visit m s v = some s' → W.visit (max (n + 1) m) s v = some s' :=
      fun s v s' hs => visit_mono hs (Nat.le_max_right _ _)
    refine ⟨max (n + 1) m, ?_⟩
    rw [List.foldlM_cons, item, he]
    refine Option.bind_eq_some_iff.2 ⟨W.leave v i t, ?_, foldlM_mono hmono hm⟩
    rw [Option.map_eq_some_iff]
    exact ⟨t, hsub, rfl⟩

/-- **A call ends in a state exactly if some bound is enough.** -/
theorem visit_iff : (∃ n, W.visit n s v = some s') ↔ W.Visits s v s' := by
  constructor
  · rintro ⟨n, h⟩
    exact loop_of_visit h
  · intro h
    obtain ⟨n, hn⟩ := visit_of_loop h
    exact ⟨n + 1, hn⟩

/-! ## Rules -/

section Rules

variable {P : σ → Prop} {R : V → Prop} {C : V → I → Prop}

/-- **The invariant rule**: every change preserves `P`, where `R` holds of every vertex that is
visited and `C` of each of its items. -/
theorem Loop.invariant (hitems : ∀ s v, P s → R v → ∀ i ∈ W.items s v, C v i)
    (henter : ∀ v i v', C v i → W.enter v i = some v' → R v') (hleave : ∀ s v i, P s → C v i → P (W.leave v i s))
    (h : W.Loop v is s s') (his : ∀ i ∈ is, C v i) (hs : P s) : P s' := by
  induction h with
  | nil => exact hs
  | leave he _ ih =>
    have hi := his _ List.mem_cons_self
    exact ih (fun i hmem => his i (List.mem_cons_of_mem _ hmem)) (hleave _ _ _ hs hi)
  | enter he _ _ ih₁ ih₂ =>
    have hi := his _ List.mem_cons_self
    have ht := ih₁ (hitems _ _ hs (henter _ _ _ hi he)) hs
    exact ih₂ (fun i hmem => his i (List.mem_cons_of_mem _ hmem)) (hleave _ _ _ ht hi)

theorem Visits.invariant (hitems : ∀ s v, P s → R v → ∀ i ∈ W.items s v, C v i)
    (henter : ∀ v i v', C v i → W.enter v i = some v' → R v') (hleave : ∀ s v i, P s → C v i → P (W.leave v i s))
    (h : W.Visits s v s') (hv : R v) (hs : P s) : P s' :=
  Loop.invariant hitems henter hleave h (hitems s v hs hv) hs

/-- **A walk ends** where its items stay among those of `C` and no vertex can be entered
through them for ever. -/
theorem visits_exists {r : V → V → Prop} (hitems : ∀ s v, P s → ∀ i ∈ W.items s v, C v i)
    (hleave : ∀ s v i, P s → C v i → P (W.leave v i s)) (hr : ∀ v i v', C v i → W.enter v i = some v' → r v' v)
    (hacc : Acc r v) (hs : P s) : ∃ s', W.Visits s v s' := by
  induction hacc generalizing s with
  | intro v _ ih =>
    have hloop : ∀ (is : List I) (s : σ), P s → (∀ i ∈ is, C v i) → ∃ s', W.Loop v is s s' := by
      intro is
      induction is with
      | nil => exact fun s _ _ => ⟨s, Loop.nil⟩
      | cons i is ihl =>
        intro s hs his
        have hi := his i List.mem_cons_self
        have hrest : ∀ j ∈ is, C v j := fun j hj => his j (List.mem_cons_of_mem _ hj)
        cases he : W.enter v i with
        | none =>
          obtain ⟨s', h⟩ := ihl _ (hleave s v i hs hi) hrest
          exact ⟨s', Loop.leave he h⟩
        | some v' =>
          obtain ⟨t, ht⟩ := ih v' (hr v i v' hi he) hs
          have hPt : P t := Loop.invariant (R := fun _ => True) (fun s v hs _ => hitems s v hs)
            (fun _ _ _ _ _ => trivial) hleave ht (hitems s v' hs) hs
          obtain ⟨s', h⟩ := ihl _ (hleave t v i hPt hi) hrest
          exact ⟨s', Loop.enter he ht h⟩
    exact hloop _ s hs (hitems s v hs)

end Rules

end Walk

end QDesktopSearch
