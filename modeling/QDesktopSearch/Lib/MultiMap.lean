import Mathlib.Algebra.Order.Group.Multiset
import Std.Data.ExtTreeMap

/-!
# Maps with lists of values

A sorted map from keys to lists of values, read as the multiset of its pairs.

* `pairs_insert`: values that are appended under a key come on top, and nothing else changes.
* `pairs_foldl`: so a sequence of such updates adds up.
-/

namespace QDesktopSearch.MultiMap

variable {κ β ι : Type*} {cmp : κ → κ → Ordering} [Std.TransCmp cmp] [Std.LawfulEqCmp cmp]

variable {m : Std.ExtTreeMap κ (List β) cmp} {k : κ} {old values : List β}

/-- The pairs of one entry. -/
def entryPairs (entry : κ × List β) : List (κ × β) := entry.2.map fun value => (entry.1, value)

/-- All pairs of a key and one of its values. -/
def pairs (m : Std.ExtTreeMap κ (List β) cmp) : Multiset (κ × β) := ↑(m.toList.flatMap entryPairs)

omit [Std.LawfulEqCmp cmp] in
theorem toList_nodup : m.toList.Nodup := by
  refine Std.ExtTreeMap.distinct_keys_toList.imp ?_
  intro a b hab he
  subst he
  exact hab Std.ReflCmp.compare_self

/-- The entry of a key can be taken out in front. -/
theorem toList_perm (h : m[k]? = some old) : m.toList.Perm ((k, old) :: (m.erase k).toList) := by
  have hmem : ∀ e : κ × List β, e ∈ (m.erase k).toList ↔ e ∈ m.toList ∧ e.1 ≠ k := by
    rintro ⟨a, v⟩
    rw [Std.ExtTreeMap.mem_toList_iff_getElem?_eq_some, Std.ExtTreeMap.mem_toList_iff_getElem?_eq_some,
      Std.ExtTreeMap.getElem?_erase]
    by_cases ha : a = k
    · subst ha; simp
    · simp [Std.LawfulEqCmp.compare_eq_iff_eq, ha, Ne.symm ha]
  have hnot : (k, old) ∉ (m.erase k).toList := fun hin => ((hmem _).1 hin).2 rfl
  refine (List.perm_ext_iff_of_nodup toList_nodup (List.nodup_cons.2 ⟨hnot, toList_nodup⟩)).2 ?_
  rintro ⟨a, v⟩
  rw [List.mem_cons, hmem]
  by_cases ha : a = k
  · subst ha
    have hiff : (a, v) ∈ m.toList ↔ v = old := by
      rw [Std.ExtTreeMap.mem_toList_iff_getElem?_eq_some, h, Option.some_inj, eq_comm]
    simp [hiff]
  · simp [ha]

omit [Std.LawfulEqCmp cmp] in
@[simp] theorem pairs_empty : pairs (∅ : Std.ExtTreeMap κ (List β) cmp) = 0 := rfl

theorem pairs_of_getElem? (h : m[k]? = some old) :
    pairs m = ↑(entryPairs (k, old)) + pairs (m.erase k) := by
  have hperm := (toList_perm h).flatMap_right entryPairs
  rw [pairs, pairs, Multiset.coe_add]
  exact Multiset.coe_eq_coe.2 hperm

/-- **Values that are appended under a key come on top.** -/
theorem pairs_insert (values : List β) :
    pairs (m.insert k (m[k]?.getD [] ++ values)) = pairs m + ↑(entryPairs (k, values)) := by
  have herase : (m.insert k (m[k]?.getD [] ++ values)).erase k = m.erase k := by
    refine Std.ExtTreeMap.ext_getElem? ?_
    intro a
    rw [Std.ExtTreeMap.getElem?_erase, Std.ExtTreeMap.getElem?_erase, Std.ExtTreeMap.getElem?_insert]
    split <;> rfl
  have hsplit : entryPairs (k, m[k]?.getD [] ++ values) = entryPairs (k, m[k]?.getD []) ++ entryPairs (k, values) := by
    simp [entryPairs]
  have hold : pairs m = ↑(entryPairs (k, m[k]?.getD [])) + pairs (m.erase k) := by
    cases h : m[k]? with
    | some old => exact pairs_of_getElem? h
    | none =>
      have hsame : m.erase k = m := by
        refine Std.ExtTreeMap.ext_getElem? ?_
        intro a
        rw [Std.ExtTreeMap.getElem?_erase]
        split
        · rename_i ha
          rw [← Std.LawfulEqCmp.eq_of_compare ha, h]
        · rfl
      rw [hsame]
      exact (zero_add _).symm
  rw [pairs_of_getElem? Std.ExtTreeMap.getElem?_insert_self, herase, hsplit, hold, ← Multiset.coe_add, add_right_comm]

omit [Std.LawfulEqCmp cmp] in
/-- **A sequence of updates adds up**, where each adds what `g` says. -/
theorem pairs_foldl {f : Std.ExtTreeMap κ (List β) cmp → ι → Std.ExtTreeMap κ (List β) cmp} {g : ι → List (κ × β)}
    (hf : ∀ m i, pairs (f m i) = pairs m + ↑(g i)) (l : List ι) (m : Std.ExtTreeMap κ (List β) cmp) :
    pairs (l.foldl f m) = pairs m + ↑(l.flatMap g) := by
  induction l generalizing m with
  | nil => exact (add_zero _).symm
  | cons i l ih => rw [List.foldl_cons, ih, hf, List.flatMap_cons, ← Multiset.coe_add, add_assoc]

end QDesktopSearch.MultiMap
