import Mathlib.Data.List.Basic
import Mathlib.Data.List.Infix
import Mathlib.Tactic.Common

/-!
# Numbered collections with deletion marks

A list of slots numbers its values by position. Deleting sets a mark and moves
nothing, so a number keeps its meaning until the collection is rewritten.

* `marks_getElem?`: what a number denotes after any set of marks.
* `live_mark`: marking one live number takes one occurrence out of `live`.
* `live_marks_numbers`: marking every live number that satisfies `p` filters `live`.
* `numbers_length`: there are as many such numbers as live values.
* `live_length_eq_iff`: all values are live exactly if nothing is marked.
-/

namespace QDesktopSearch

/-- A value with its deletion mark. -/
structure Slot (α : Type*) where
  val : α
  deleted : Bool
  deriving DecidableEq, Repr

namespace Slots

variable {α : Type*}

/-- A fresh slot for each value. -/
def ofList (as : List α) : List (Slot α) := as.map fun a => ⟨a, false⟩

/-- The values not marked deleted, in number order. -/
def live (l : List (Slot α)) : List α := (l.filter fun s => !s.deleted).map (·.val)

/-- Mark number `n`; out of range nothing changes. -/
def mark (l : List (Slot α)) (n : ℕ) : List (Slot α) := l.modify n fun s => ⟨s.val, true⟩

/-- Mark every number of a list. -/
def marks (l : List (Slot α)) (ns : List ℕ) : List (Slot α) := ns.foldl mark l

/-- The numbers, in order, whose slot is live and whose value satisfies `p`. -/
def numbers (p : α → Bool) (l : List (Slot α)) : List ℕ :=
  l.findIdxs fun s => !s.deleted && p s.val

/-- Number `n` is live and denotes `a`. -/
def LiveAt (l : List (Slot α)) (n : ℕ) (a : α) : Prop := l[n]? = some ⟨a, false⟩

variable {l l' : List (Slot α)} {n m : ℕ} {a : α} {p : α → Bool}

/-! ## Live values -/

@[simp] theorem live_nil : live ([] : List (Slot α)) = [] := rfl

@[simp] theorem live_append : live (l ++ l') = live l ++ live l' := by simp [live]

@[simp] theorem live_ofList (as : List α) : live (ofList as) = as := by
  simp [live, ofList, List.filter_map, Function.comp_def]

theorem live_cons (s : Slot α) : live (s :: l) = if s.deleted then live l else s.val :: live l := by
  cases h : s.deleted <;> simp [live, h]

@[simp] theorem live_flatten (ls : List (List (Slot α))) : live ls.flatten = ls.flatMap live := by
  induction ls with
  | nil => rfl
  | cons l ls ih => simp [ih]

theorem LiveAt.lt (h : LiveAt l n a) : n < l.length := (List.getElem?_eq_some_iff.1 h).1

theorem mem_live : a ∈ live l ↔ ∃ n, LiveAt l n a := by
  unfold live LiveAt
  simp only [List.mem_map, List.mem_filter, Bool.not_eq_true']
  constructor
  · rintro ⟨⟨v, d⟩, ⟨hm, rfl⟩, rfl⟩; exact List.mem_iff_getElem?.1 hm
  · rintro ⟨n, hn⟩; exact ⟨_, ⟨List.mem_of_getElem? hn, rfl⟩, rfl⟩

theorem LiveAt.mem (h : LiveAt l n a) : a ∈ live l := mem_live.2 ⟨n, h⟩

theorem LiveAt.unique {b : α} (h : LiveAt l n a) (h' : LiveAt l n b) : a = b := by
  unfold LiveAt at h h'; rw [h] at h'; simpa using h'

theorem live_length_le : (live l).length ≤ l.length := by
  simpa [live] using List.length_filter_le _ l

/-! ## Marking -/

@[simp] theorem mark_length : (mark l n).length = l.length := by simp [mark]

@[simp] theorem mark_map_val : (mark l n).map (·.val) = l.map (·.val) := by
  apply List.ext_getElem?; intro m
  simp only [mark, List.getElem?_map, List.getElem?_modify]
  cases l[m]? with
  | none => rfl
  | some s => by_cases h : n = m <;> simp [h]

theorem mark_getElem? : (mark l n)[m]? = l[m]?.map fun s => ⟨s.val, s.deleted || decide (n = m)⟩ := by
  simp only [mark, List.getElem?_modify]
  cases l[m]? with
  | none => rfl
  | some s => by_cases h : n = m <;> simp [h]

/-- Marking a concatenation marks the part that holds the number. -/
theorem mark_append : mark (l ++ l') n =
    if n < l.length then mark l n ++ l' else l ++ mark l' (n - l.length) := by
  apply List.ext_getElem?; intro m
  rw [mark_getElem?]
  split
  · rename_i h
    rcases Nat.lt_or_ge m l.length with hm | hm
    · rw [List.getElem?_append_left hm, List.getElem?_append_left (by simpa using hm), mark_getElem?]
    · rw [List.getElem?_append_right hm, List.getElem?_append_right (by simpa using hm), mark_length]
      have hne : n ≠ m := by omega
      simp [hne]
  · rename_i h
    rcases Nat.lt_or_ge m l.length with hm | hm
    · have hne : n ≠ m := by omega
      rw [List.getElem?_append_left hm, List.getElem?_append_left hm]; simp [hne]
    · rw [List.getElem?_append_right hm, List.getElem?_append_right hm, mark_getElem?]
      have hiff : n - l.length = m - l.length ↔ n = m := by omega
      simp [hiff]

@[simp] theorem marks_nil : marks l [] = l := rfl

@[simp] theorem marks_cons (ns : List ℕ) : marks l (n :: ns) = marks (mark l n) ns := rfl

/-- Marking in two goes. -/
theorem marks_append (ns ns' : List ℕ) : marks l (ns ++ ns') = marks (marks l ns) ns' := List.foldl_append

@[simp] theorem marks_map_val (ns : List ℕ) : (marks l ns).map (·.val) = l.map (·.val) := by
  induction ns generalizing l with
  | nil => rfl
  | cons n ns ih => rw [marks_cons, ih, mark_map_val]

@[simp] theorem marks_length (ns : List ℕ) : (marks l ns).length = l.length := by
  rw [← List.length_map (·.val), marks_map_val, List.length_map]

/-- **What a number denotes after marking**: the same value, deleted if it was or if it
is one of the marked numbers. -/
theorem marks_getElem? (ns : List ℕ) :
    (marks l ns)[m]? = l[m]?.map fun s => ⟨s.val, s.deleted || decide (m ∈ ns)⟩ := by
  induction ns generalizing l with
  | nil => simp
  | cons n ns ih =>
    rw [marks_cons, ih, mark_getElem?]
    cases l[m]? with
    | none => rfl
    | some s => by_cases h : m = n <;> simp [h, eq_comm]

theorem marks_getElem?_of_not_mem {ns : List ℕ} (h : m ∉ ns) : (marks l ns)[m]? = l[m]? := by
  rw [marks_getElem?]
  cases l[m]? with
  | none => rfl
  | some s => simp [h]

/-- A number is live after marking iff it was and is not among the marked ones. -/
theorem liveAt_marks (ns : List ℕ) : LiveAt (marks l ns) m a ↔ LiveAt l m a ∧ m ∉ ns := by
  unfold LiveAt; rw [marks_getElem?]
  cases l[m]? with
  | none => simp
  | some s => obtain ⟨v, d⟩ := s; simp [and_assoc]

/-- **Marking one live number** takes one occurrence of its value out of `live`. -/
theorem live_mark (h : LiveAt l n a) : (a :: live (mark l n)).Perm (live l) := by
  induction l generalizing n with
  | nil => simp [LiveAt] at h
  | cons s l ih =>
    cases n with
    | zero =>
      have hs : s = ⟨a, false⟩ := by simpa [LiveAt] using h
      subst hs; simp [mark, live_cons]
    | succ n =>
      have hl : LiveAt l n a := by simpa [LiveAt] using h
      have hm : mark (s :: l) (n + 1) = s :: mark l n := by simp [mark]
      rw [hm, live_cons, live_cons]
      split
      · exact ih hl
      · exact (List.Perm.swap _ _ _).trans ((ih hl).cons _)

/-! ## The numbers of the values that satisfy a predicate -/

theorem mem_numbers : m ∈ numbers p l ↔ ∃ a, LiveAt l m a ∧ p a = true := by
  unfold numbers LiveAt
  rw [List.mem_findIdxs_iff_exists_getElem_pos]
  constructor
  · rintro ⟨hm, h⟩
    simp only [Bool.and_eq_true, Bool.not_eq_true'] at h
    refine ⟨l[m].val, ?_, h.2⟩
    rw [List.getElem?_eq_getElem hm, ← h.1]
  · rintro ⟨a, h, hp⟩
    obtain ⟨hm, he⟩ := List.getElem?_eq_some_iff.1 h
    exact ⟨hm, by simp [he, hp]⟩

/-- **As many numbers as live values.** -/
theorem numbers_length : (numbers p l).length = (live l).countP p := by
  simp [numbers, live, List.countP_map, List.countP_filter, Function.comp_def, Bool.and_comm]

theorem numbers_cons (s : Slot α) : numbers p (s :: l) =
    if !s.deleted && p s.val then 0 :: (numbers p l).map (· + 1) else (numbers p l).map (· + 1) := by
  simp only [numbers, List.findIdxs_cons, Nat.zero_add]
  rw [List.findIdxs_start]

/-- **Reading the numbers back** gives the live values that satisfy `p`. -/
theorem filterMap_numbers {f : ℕ → Option α} (hf : ∀ n a, f n = some a ↔ LiveAt l n a) :
    (numbers p l).filterMap f = (live l).filter p := by
  induction l generalizing f with
  | nil => rfl
  | cons s l ih =>
    have htail : ((numbers p l).map (· + 1)).filterMap f = (live l).filter p := by
      rw [List.filterMap_map]
      exact ih fun n a => by rw [Function.comp_apply, hf]; simp [LiveAt]
    rw [numbers_cons, live_cons]
    cases hd : s.deleted with
    | true => simpa using htail
    | false =>
      have h0 : f 0 = some s.val := by rw [hf]; simp [LiveAt, ← hd]
      cases hp : p s.val with
      | true => simpa [hp, h0] using htail
      | false => simpa [hp] using htail

theorem live_map_mark (q : Slot α → Bool) :
    live (l.map fun s => ⟨s.val, s.deleted || q s⟩) =
      (l.filter fun s => !s.deleted && !q s).map (·.val) := by
  induction l with
  | nil => rfl
  | cons s l ih =>
    rw [List.map_cons, live_cons, ih]
    cases hd : s.deleted <;> cases hq : q s <;> simp [hd, hq]

/-- **Marking every live number that satisfies `p` filters the live values.** -/
theorem live_marks_numbers : live (marks l (numbers p l)) = (live l).filter fun a => !p a := by
  have hmap : marks l (numbers p l) = l.map fun s => ⟨s.val, s.deleted || p s.val⟩ := by
    apply List.ext_getElem?; intro m
    rw [marks_getElem?, List.getElem?_map]
    cases hm : l[m]? with
    | none => rfl
    | some s =>
      have hiff : m ∈ numbers p l ↔ s.deleted = false ∧ p s.val = true := by
        rw [mem_numbers]; unfold LiveAt; rw [hm]
        obtain ⟨v, d⟩ := s; simp
      cases hd : s.deleted <;> simp [hiff, hd]
  rw [hmap, live_map_mark]
  simp [live, List.filter_map, List.filter_filter, Function.comp_def, Bool.and_comm]

/-- Marking only takes values out of `live`. -/
theorem live_mark_sublist : (live (mark l n)).Sublist (live l) := by
  induction l generalizing n with
  | nil => simp [mark]
  | cons s l ih =>
    cases n with
    | zero =>
      have hm : mark (s :: l) 0 = ⟨s.val, true⟩ :: l := by simp [mark]
      rw [hm, live_cons, live_cons, if_pos rfl]
      split
      · exact List.Sublist.refl _
      · exact List.sublist_cons_self _ _
    | succ n =>
      have hm : mark (s :: l) (n + 1) = s :: mark l n := by simp [mark]
      rw [hm, live_cons, live_cons]
      split
      · exact ih
      · exact ih.cons_cons _

theorem live_marks_sublist (ns : List ℕ) : (live (marks l ns)).Sublist (live l) := by
  induction ns generalizing l with
  | nil => exact List.Sublist.refl _
  | cons n ns ih => exact ih.trans live_mark_sublist

/-- Marking a live number makes `live` shorter. -/
theorem live_marks_length_lt {ns : List ℕ} (h : LiveAt l n a) (hn : n ∈ ns) :
    (live (marks l ns)).length < (live l).length := by
  have hagain : marks l ns = marks (mark l n) ns := by
    rw [← marks_cons]
    apply List.ext_getElem?; intro m
    rw [marks_getElem?, marks_getElem?]
    have hiff : m ∈ n :: ns ↔ m ∈ ns := by
      rw [List.mem_cons]
      exact ⟨fun hm => hm.elim (fun he => he ▸ hn) id, Or.inr⟩
    simp [hiff]
  have hlen := (live_mark h).length_eq
  have hle := (live_marks_sublist (l := mark l n) ns).length_le
  rw [hagain]
  simp only [List.length_cons] at hlen
  omega

/-! ## Nothing marked -/

/-- No slot is marked. -/
def Unmarked (l : List (Slot α)) : Prop := ∀ s ∈ l, s.deleted = false

instance : Decidable (Unmarked l) := inferInstanceAs (Decidable (∀ s ∈ l, s.deleted = false))

theorem unmarked_ofList (as : List α) : Unmarked (ofList as) := by
  intro s hs
  obtain ⟨a, -, rfl⟩ := List.mem_map.1 hs
  rfl

theorem unmarked_append : Unmarked (l ++ l') ↔ Unmarked l ∧ Unmarked l' := List.forall_mem_append

/-- **All values are live** exactly if nothing is marked. -/
theorem live_length_eq_iff : (live l).length = l.length ↔ Unmarked l := by
  unfold live Unmarked
  rw [List.length_map, List.length_filter_eq_length_iff]
  simp only [Bool.not_eq_true']

/-- Marking what satisfies `p` leaves nothing marked exactly if nothing was, and nothing satisfies `p`. -/
theorem unmarked_marks_numbers : Unmarked (marks l (numbers p l)) ↔ Unmarked l ∧ ∀ a ∈ live l, p a = false := by
  have hle := live_length_le (l := l)
  have hfilter := List.length_filter_le (fun a => !p a) (live l)
  have hall : ((live l).filter fun a => !p a).length = (live l).length ↔ ∀ a ∈ live l, p a = false := by
    rw [List.length_filter_eq_length_iff]
    simp only [Bool.not_eq_true']
  rw [← live_length_eq_iff, ← live_length_eq_iff, ← hall, live_marks_numbers, marks_length]
  omega

end Slots
end QDesktopSearch
