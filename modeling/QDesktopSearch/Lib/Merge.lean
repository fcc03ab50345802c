import Mathlib.Data.Finset.Sort

/-!
# Merging

Several ascending lists are gone through together: the least of their first elements is taken, and the
lists that begin with it are moved on.

* `union_pass`: so all elements are taken, each once and in order.
-/

namespace QDesktopSearch.Merge

variable {κ : Type*} [LinearOrder κ] {ls : List (List κ)} {l : List κ} {t x : κ}

/-- All elements of some lists, once and in order. -/
def union (ls : List (List κ)) : List κ := ls.flatten.toFinset.sort

/-- The lists that begin with an element are moved on. -/
def pass (t : κ) (ls : List (List κ)) : List (List κ) := ls.map fun l => if l.head? = some t then l.tail else l

/-- A list begins with the element, and none with a less one. -/
structure Least (t : κ) (ls : List (List κ)) : Prop where
  mem : ∃ l ∈ ls, l.head? = some t
  le : ∀ l ∈ ls, ∀ s, l.head? = some s → t ≤ s

theorem mem_union : x ∈ union ls ↔ ∃ l ∈ ls, x ∈ l := by
  rw [union, Finset.mem_sort, List.mem_toFinset, List.mem_flatten]

theorem union_pairwise : (union ls).Pairwise (· < ·) := (Finset.sortedLT_sort _).pairwise

theorem union_length_le (ls : List (List κ)) : (union ls).length ≤ ls.flatten.length := by
  rw [union, Finset.length_sort]
  exact List.toFinset_card_le _

theorem union_nil (h : ∀ l ∈ ls, l = []) : union ls = [] := by
  refine List.eq_nil_iff_forall_not_mem.2 fun x hx => ?_
  obtain ⟨l, hl, hx⟩ := mem_union.1 hx
  rw [h l hl] at hx
  exact absurd hx (by simp)

/-- What ascending lists have, they have once. -/
theorem eq_of_mem_iff {l l' : List κ} (hl : l.Pairwise (· < ·)) (hl' : l'.Pairwise (· < ·)) (h : ∀ x, x ∈ l ↔ x ∈ l') :
    l = l' := by
  have hperm : l.Perm l' := (List.perm_ext_iff_of_nodup (hl.imp ne_of_lt) (hl'.imp ne_of_lt)).2 h
  exact hperm.eq_of_pairwise (fun a b _ _ hab hba => absurd hab hba.asymm) hl hl'

/-- The element is not behind the first of a list. -/
theorem Least.le_of_mem (h : Least t ls) (hls : ∀ l ∈ ls, l.Pairwise (· < ·)) (hl : l ∈ ls) (hx : x ∈ l) : t ≤ x := by
  obtain _ | ⟨s, l⟩ := l
  · exact absurd hx (by simp)
  · have hts := h.le _ hl s rfl
    rcases List.mem_cons.1 hx with rfl | hx
    · exact hts
    · exact hts.trans ((List.pairwise_cons.1 (hls _ hl)).1 x hx).le

/-- What is left of a list is behind the element. -/
theorem Least.lt_of_mem_pass (h : Least t ls) (hls : ∀ l ∈ ls, l.Pairwise (· < ·)) (hl : l ∈ pass t ls) (hx : x ∈ l) :
    t < x := by
  obtain ⟨l, hl', rfl⟩ := List.mem_map.1 hl
  split at hx
  · rename_i hhead
    obtain _ | ⟨s, l⟩ := l
    · exact absurd hx (by simp)
    · obtain rfl : s = t := Option.some_inj.1 hhead
      exact (List.pairwise_cons.1 (hls _ hl')).1 x hx
  · rename_i hhead
    refine lt_of_le_of_ne (h.le_of_mem hls hl' hx) ?_
    rintro rfl
    -- the element could only be the first
    obtain _ | ⟨s, l⟩ := l
    · exact absurd hx (by simp)
    · rcases List.mem_cons.1 hx with rfl | hx
      · exact hhead rfl
      · exact absurd (h.le _ hl' s rfl) (not_le.2 ((List.pairwise_cons.1 (hls _ hl')).1 _ hx))

/-- **The least element is taken**, and the others are left. -/
theorem union_pass (hls : ∀ l ∈ ls, l.Pairwise (· < ·)) (h : Least t ls) : union ls = t :: union (pass t ls) := by
  have hbehind : ∀ x ∈ union (pass t ls), t < x := by
    intro x hx
    obtain ⟨l, hl, hx⟩ := mem_union.1 hx
    exact h.lt_of_mem_pass hls hl hx
  -- both are ascending, so that it is enough that they have the same elements
  refine eq_of_mem_iff union_pairwise (List.pairwise_cons.2 ⟨hbehind, union_pairwise⟩) fun x => ?_
  rw [List.mem_cons, mem_union, mem_union]
  constructor
  · rintro ⟨l, hl, hx⟩
    by_cases hxt : x = t
    · exact .inl hxt
    · refine .inr ⟨_, List.mem_map.2 ⟨l, hl, rfl⟩, ?_⟩
      split
      · rename_i hhead
        obtain _ | ⟨s, l⟩ := l
        · exact absurd hx (by simp)
        · exact (List.mem_cons.1 hx).resolve_left fun h => hxt (h.trans (Option.some_inj.1 hhead))
      · exact hx
  · rintro (rfl | ⟨l, hl, hx⟩)
    · obtain ⟨l, hl, hhead⟩ := h.mem
      exact ⟨l, hl, List.mem_of_mem_head? hhead⟩
    · obtain ⟨l, hl', rfl⟩ := List.mem_map.1 hl
      refine ⟨l, hl', ?_⟩
      split at hx
      · exact List.mem_of_mem_tail hx
      · exact hx

end QDesktopSearch.Merge
