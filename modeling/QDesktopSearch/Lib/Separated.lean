import Mathlib.Data.List.Basic
import Mathlib.Tactic.Common

/-!
# Lists written with a separator

`join` writes a list of names with a separator between them, `fields` reads the nonempty
names back.

* `fields_join`: reading what was written reads each name by itself.
* `Local`: a rewriting that goes on from a separator as if it started there;
  `Local.fields_join` reads each name, rewritten, by itself.
* `flatMap_self`: a list whose members each give at most one is given back exactly if each
  gives itself.
-/

namespace QDesktopSearch.Separated

variable {α β : Type*} {sep : α} {s t : List α} {L : List (List α)} {f g : List α → List α}

/-! ## Writing -/

/-- The names with one separator between each two. -/
def join (sep : α) (L : List (List α)) : List α := [sep].intercalate L

@[simp] theorem join_nil : join sep ([] : List (List α)) = [] := rfl

@[simp] theorem join_singleton : join sep [s] = s := List.intercalate_singleton

theorem join_cons (h : L ≠ []) : join sep (s :: L) = s ++ sep :: join sep L := by
  rw [join, List.intercalate_cons_of_ne_nil h, List.append_assoc]; rfl

/-- A rewriting that goes on from a separator as from the start. -/
def Local (sep : α) (f : List α → List α) : Prop := ∀ s t, f (s ++ sep :: t) = f s ++ sep :: f t

theorem Local.id : Local sep (fun s : List α => s) := fun _ _ => rfl

theorem Local.comp (hg : Local sep g) (hf : Local sep f) : Local sep (fun s => g (f s)) := by
  intro s t
  show g (f (s ++ sep :: t)) = _
  rw [hf, hg]

theorem Local.join (hf : Local sep f) (h : L ≠ []) : f (join sep L) = Separated.join sep (L.map f) := by
  induction L with
  | nil => exact absurd rfl h
  | cons s L ih =>
    by_cases hL : L = []
    · subst hL; simp
    · rw [join_cons hL, hf, ih hL, List.map_cons, join_cons (by simpa using hL)]

/-! ## Reading -/

section Fields

variable [DecidableEq α]

/-- The nonempty names between the separators. -/
def fields (sep : α) (s : List α) : List (List α) := (s.splitOn sep).filter (· ≠ [])

/-- **Reading goes on from a separator as from the start.** -/
theorem fields_append : fields sep (s ++ sep :: t) = fields sep s ++ fields sep t := by
  rw [fields, List.splitOn_append_cons_self, List.filter_append]; rfl

theorem fields_of_not_mem (h : sep ∉ s) : fields sep s = if s = [] then [] else [s] := by
  rw [fields, List.splitOn_eq_singleton h]
  by_cases hs : s = [] <;> simp [hs]

/-- What is read is nonempty and has no separator. -/
theorem of_mem_fields {e : List α} (h : e ∈ fields sep s) : e ≠ [] ∧ sep ∉ e := by
  induction hn : s.length using Nat.strongRecOn generalizing s with
  | ind n ih =>
    by_cases hs : sep ∈ s
    · obtain ⟨a, b, rfl⟩ := List.append_of_mem hs
      rw [List.length_append, List.length_cons] at hn
      rw [fields_append] at h
      rcases List.mem_append.1 h with h | h
      · exact ih a.length (by omega) h rfl
      · exact ih b.length (by omega) h rfl
    · rw [fields_of_not_mem hs] at h
      split at h
      · exact absurd h List.not_mem_nil
      · rename_i hne
        rw [List.mem_singleton.1 h]
        exact ⟨hne, hs⟩

/-- **Reading what was written** reads each name by itself. -/
theorem fields_join : fields sep (join sep L) = L.flatMap (fields sep) := by
  induction L with
  | nil => rfl
  | cons s L ih =>
    by_cases h : L = []
    · subst h; simp
    · rw [join_cons h, fields_append, ih, List.flatMap_cons]

/-- **Reading what was written and then rewritten** reads each name, rewritten. -/
theorem Local.fields_join (hf : Local sep f) (hnil : f [] = []) :
    fields sep (f (Separated.join sep L)) = L.flatMap fun e => fields sep (f e) := by
  by_cases h : L = []
  · subst h
    rw [join_nil, hnil]; rfl
  · rw [hf.join h, Separated.fields_join, List.flatMap_map]

end Fields

/-! ## Lists that are given back -/

section FlatMap

variable {l : List β} {k : β → List β}

theorem length_flatMap_le (hk : ∀ e ∈ l, (k e).length ≤ 1) : (l.flatMap k).length ≤ l.length := by
  induction l with
  | nil => exact Nat.le_refl _
  | cons e l ih =>
    have h1 := hk e List.mem_cons_self
    have h2 := ih fun e he => hk e (List.mem_cons_of_mem _ he)
    simp only [List.flatMap_cons, List.length_append, List.length_cons]
    omega

/-- **Members that each give at most one** give the list back exactly if each gives itself. -/
theorem flatMap_self (hk : ∀ e ∈ l, (k e).length ≤ 1) : l.flatMap k = l ↔ ∀ e ∈ l, k e = [e] := by
  induction l with
  | nil => simp
  | cons e l ih =>
    have hl : ∀ e ∈ l, (k e).length ≤ 1 := fun e he => hk e (List.mem_cons_of_mem _ he)
    have ih' := ih hl
    rw [List.forall_mem_cons, List.flatMap_cons]
    constructor
    · intro h
      have hlen := length_flatMap_le hl
      have hone := hk e List.mem_cons_self
      have htotal := congrArg List.length h
      rw [List.length_append, List.length_cons] at htotal
      obtain ⟨x, hx⟩ := List.length_eq_one_iff.1 (show (k e).length = 1 by omega)
      rw [hx, List.singleton_append, List.cons.injEq] at h
      rw [hx, h.1]
      exact ⟨rfl, ih'.1 h.2⟩
    · rintro ⟨he, h⟩
      rw [he, ih'.2 h]; rfl

end FlatMap

end QDesktopSearch.Separated
