import Mathlib.Data.Multiset.Basic
import Mathlib.Data.List.Forall2
import Mathlib.Data.Set.Basic
import Mathlib.Tactic.Common

/-!
# Sums in some order

A sum of numbers that are rounded depends on the order in which they are added up. `Picks`: values, one of
each set, in some order.

* `sumsFrom`: what is added to a number, one value after the other.
* `sums`: what there may be if the first value is the one to which the others are added.
* `sums_singleton`: of one set.
-/

namespace QDesktopSearch

variable {ρ : Type*} {l : List ρ} {a : ρ} {A : Set ρ} {Vs : Multiset (Set ρ)}

/-- Values of the sets, one of each, in some order. -/
def Picks (l : List ρ) (Vs : Multiset (Set ρ)) : Prop :=
  ∃ Ws : List (Set ρ), (Ws : Multiset (Set ρ)) = Vs ∧ List.Forall₂ (· ∈ ·) l Ws

theorem Picks.nil : Picks ([] : List ρ) 0 := ⟨[], rfl, .nil⟩

theorem Picks.cons (ha : a ∈ A) (h : Picks l Vs) : Picks (a :: l) (A ::ₘ Vs) := by
  obtain ⟨Ws, rfl, hl⟩ := h
  exact ⟨A :: Ws, rfl, .cons ha hl⟩

/-- A value more at the end. -/
theorem Picks.concat (h : Picks l Vs) (ha : a ∈ A) : Picks (l ++ [a]) (A ::ₘ Vs) := by
  obtain ⟨Ws, rfl, hl⟩ := h
  refine ⟨Ws ++ [A], ?_, List.rel_append hl (.cons ha .nil)⟩
  rw [Multiset.cons_coe, Multiset.coe_eq_coe]
  exact List.perm_append_singleton A Ws

theorem Picks.of_forall₂ {Ws : List (Set ρ)} (h : List.Forall₂ (· ∈ ·) l Ws) : Picks l (Ws : Multiset (Set ρ)) := ⟨Ws, rfl, h⟩

/-- The sums of a number and values of the sets. -/
def sumsFrom [Add ρ] (a : ρ) (Vs : Multiset (Set ρ)) : Set ρ := {v | ∃ l, Picks l Vs ∧ l.foldl (· + ·) a = v}

/-- The sums of values of the sets. -/
def sums [Add ρ] (Vs : Multiset (Set ρ)) : Set ρ := {v | ∃ a l, Picks (a :: l) Vs ∧ l.foldl (· + ·) a = v}

theorem sums_singleton [Add ρ] : sums {A} = A := by
  ext v
  constructor
  · rintro ⟨a, l, ⟨Ws, hWs, hl⟩, rfl⟩
    obtain rfl := Multiset.coe_eq_singleton.1 hWs
    obtain _ | ⟨ha, hl⟩ := hl
    cases hl
    exact ha
  · exact fun hv => ⟨v, [], .cons hv .nil, rfl⟩

end QDesktopSearch
