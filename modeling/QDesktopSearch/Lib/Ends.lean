import Mathlib.Data.List.DropRight
import Mathlib.Data.List.TakeWhile
import Mathlib.Tactic.Common

/-!
# The ends of a list

Lists that are stripped of some letters at their ends, and maps of lists that leave some letters
alone (`Leaves`), wherever they stand.

* `dropWhile_eq_self_iff`, `rdropWhile_eq_self_iff`: nothing to strip.
* `last_rdropWhile_iff`: what comes to stand at the end.
* `Leaves.head?_iff`, `Leaves.getLast?_iff`: the map keeps these letters at the ends, and brings none there.
* `Leaves.rdropWhile`: to strip them is the same before and after the map.
-/

namespace QDesktopSearch.Ends

variable {α β : Type*} {f g : α → Bool} {l u : List α} {c : α}

/-! ## Stripping -/

theorem dropWhile_eq_self_iff : l.dropWhile f = l ↔ ∀ c, l.head? = some c → f c = false := by
  rw [List.dropWhile_eq_self_iff]
  cases l with
  | nil => simp
  | cons a l => simp

theorem rdropWhile_eq_self_iff : l.rdropWhile f = l ↔ ∀ c, l.getLast? = some c → f c = false := by
  rw [List.rdropWhile_eq_self_iff]
  constructor
  · intro h c hc
    obtain ⟨s, rfl⟩ := List.getLast?_eq_some_iff.1 hc
    simpa using h (by simp)
  · intro h hne
    have hlast := h _ (List.getLast?_eq_some_getLast hne)
    simp [hlast]

theorem getLast?_rdropWhile (h : (l.rdropWhile f).getLast? = some c) : f c = false :=
  rdropWhile_eq_self_iff.1 (List.rdropWhile_idempotent f l) c h

theorem rdropWhile_map {k : α → β} {f : β → Bool} : (l.map k).rdropWhile f = (l.rdropWhile (f ∘ k)).map k := by
  rw [List.rdropWhile, List.rdropWhile, ← List.map_reverse, List.dropWhile_map, List.map_reverse]

theorem rdropWhile_append (h : ∀ x ∈ u, f x = true) : (l ++ u).rdropWhile f = l.rdropWhile f := by
  rw [List.rdropWhile, List.rdropWhile, List.reverse_append, List.dropWhile_append_of_pos]
  intro x hx
  exact h x (List.mem_reverse.1 hx)

/-- **What comes to stand at the end** when letters are stripped: the last one of another kind. -/
theorem last_rdropWhile_iff (hfg : ∀ c, g c = true → f c = false) :
    (∃ c, (l.rdropWhile f).getLast? = some c ∧ g c = true) ↔
      ∃ q c u, l = q ++ c :: u ∧ g c = true ∧ ∀ x ∈ u, f x = true := by
  constructor
  · rintro ⟨c, hc, hg⟩
    obtain ⟨q, hq⟩ := List.getLast?_eq_some_iff.1 hc
    refine ⟨q, c, l.rtakeWhile f, ?_, hg, fun x hx => List.mem_rtakeWhile_imp hx⟩
    rw [List.append_cons, ← hq, List.rdropWhile_append_rtakeWhile]
  · rintro ⟨q, c, u, rfl, hg, hu⟩
    refine ⟨c, ?_, hg⟩
    rw [List.append_cons, rdropWhile_append hu, List.rdropWhile_concat_neg]
    · exact List.getLast?_concat
    · rw [hfg c hg]
      exact Bool.false_ne_true

/-! ## Maps that leave letters alone -/

/-- The map keeps the letters of `K` where they are, and makes no new ones. -/
structure Leaves (K : α → Prop) (φ : List α → List α) : Prop where
  split : ∀ s c t, K c → φ (s ++ c :: t) = φ s ++ c :: φ t
  mem : ∀ s c, K c → c ∈ φ s → c ∈ s
  nil_iff : ∀ s, φ s = [] ↔ s = []

namespace Leaves

variable {K : α → Prop} {φ : List α → List α} {s : List α}

theorem mem_iff (h : Leaves K φ) (hc : K c) : c ∈ φ s ↔ c ∈ s := by
  refine ⟨h.mem s c hc, fun hs => ?_⟩
  obtain ⟨q, u, rfl⟩ := List.append_of_mem hs
  rw [h.split q c u hc]
  exact List.mem_append_right _ List.mem_cons_self

theorem append (h : Leaves K φ) (hu : ∀ c ∈ u, K c) : φ (s ++ u) = φ s ++ u := by
  induction u generalizing s with
  | nil => rw [List.append_nil, List.append_nil]
  | cons c u ih =>
    have hnil : φ [] = [] := (h.nil_iff []).2 rfl
    have hone : φ (s ++ [c]) = φ s ++ [c] := by rw [h.split s c [] (hu c List.mem_cons_self), hnil]
    rw [List.append_cons, ih fun x hx => hu x (List.mem_cons_of_mem c hx), hone, ← List.append_cons]

theorem head?_iff (h : Leaves K φ) (hc : K c) : (φ s).head? = some c ↔ s.head? = some c := by
  constructor
  · intro hhead
    have hmem : c ∈ s := h.mem s c hc (List.mem_of_mem_head? hhead)
    -- before its first occurrence there is nothing for the map to make it from
    obtain ⟨q, u, rfl, hq⟩ := List.eq_append_cons_of_mem hmem
    cases hφ : φ q with
    | nil =>
      obtain rfl := (h.nil_iff q).1 hφ
      rfl
    | cons a r =>
      rw [h.split q c u hc, hφ] at hhead
      obtain rfl : a = c := Option.some.inj hhead
      exact absurd (h.mem q a hc (hφ ▸ List.mem_cons_self)) hq
  · intro hhead
    obtain ⟨u, rfl⟩ := List.head?_eq_some_iff.1 hhead
    have hsplit := h.split [] c u hc
    rw [(h.nil_iff []).2 rfl] at hsplit
    exact congrArg List.head? hsplit

theorem getLast?_iff (h : Leaves K φ) (hc : K c) : (φ s).getLast? = some c ↔ s.getLast? = some c := by
  constructor
  · intro hlast
    have hmem : c ∈ s := h.mem s c hc (List.mem_of_mem_getLast? hlast)
    -- after its last occurrence there is nothing for the map to make it from
    obtain ⟨q, u, hs, hu⟩ := List.eq_append_cons_of_mem (List.mem_reverse.2 hmem)
    have hs' : s = u.reverse ++ c :: q.reverse := by
      rw [← List.reverse_reverse s, hs]
      simp
    have hq : c ∉ q.reverse := by rwa [List.mem_reverse]
    rw [hs'] at hlast ⊢
    generalize q.reverse = r at hq hlast
    cases hφ : (φ r).getLast? with
    | none =>
      obtain rfl := (h.nil_iff r).1 (List.getLast?_eq_none_iff.1 hφ)
      exact List.getLast?_concat
    | some a =>
      rw [h.split _ c r hc, List.append_cons, List.getLast?_append, hφ] at hlast
      obtain rfl : a = c := Option.some.inj hlast
      exact absurd (h.mem r a hc (List.mem_of_mem_getLast? hφ)) hq
  · intro hlast
    obtain ⟨q, rfl⟩ := List.getLast?_eq_some_iff.1 hlast
    rw [h.append fun x hx => by rwa [List.mem_singleton.1 hx]]
    exact List.getLast?_concat

/-- **To strip such letters** is the same before and after the map. -/
theorem rdropWhile (h : Leaves K φ) (hf : ∀ c, f c = true → K c) : (φ s).rdropWhile f = φ (s.rdropWhile f) := by
  have hstrip : φ (s.rdropWhile f) ++ s.rtakeWhile f = φ s := by
    rw [← h.append fun c hc => hf c (List.mem_rtakeWhile_imp hc), List.rdropWhile_append_rtakeWhile]
  rw [← hstrip, rdropWhile_append fun c hc => List.mem_rtakeWhile_imp hc, rdropWhile_eq_self_iff]
  intro c hc
  by_contra hne
  have hfc : f c = true := by simpa using hne
  have hlast := getLast?_rdropWhile ((h.getLast?_iff (hf c hfc)).1 hc)
  exact hne hlast

end Leaves

end QDesktopSearch.Ends
