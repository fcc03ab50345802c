import Mathlib.Data.List.Basic
import Mathlib.Tactic.Common

/-!
# Sources that are read bit by bit

A source is a state and a function that gives its next element, or nothing at the end, and
the state after it.

* `Delivers`: the elements of a source are those of a list; `Delivers.pull` says what any
  number of calls gives and leaves.
* `Delivers.map`, `Delivers.skip`: sources on top of a source.
* `Chunks`: a source that gives a list in nonempty parts.
-/

namespace QDesktopSearch.Source

variable {σ α β : Type*} {next : σ → Option α × σ} {l : σ → List α} {n : ℕ} {s : σ}

/-- The source gives the elements of the list, in order, and then nothing. -/
def Delivers (next : σ → Option α × σ) (l : σ → List α) : Prop :=
  ∀ s, (next s).1 = (l s).head? ∧ l (next s).2 = (l s).tail

/-- The results of `n` calls, up to the first that gives nothing. -/
def pull (next : σ → Option α × σ) : ℕ → σ → List α × σ
  | 0, s => ([], s)
  | n + 1, s =>
    match next s with
    | (none, s) => ([], s)
    | (some a, s) =>
      let (as, s) := pull next n s
      (a :: as, s)

/-- **What `n` calls give and leave.** -/
theorem Delivers.pull (h : Delivers next l) :
    (pull next n s).1 = (l s).take n ∧ l (pull next n s).2 = (l s).drop n := by
  induction n generalizing s with
  | zero => exact ⟨by rw [List.take_zero]; rfl, by rw [List.drop_zero]; rfl⟩
  | succ n ih =>
    obtain ⟨hhead, htail⟩ := h s
    rw [Source.pull]
    cases hn : next s with
    | mk o s' =>
      rw [hn] at hhead htail
      cases hl : l s with
      | nil =>
        rw [hl] at hhead htail
        simp only [List.head?_nil] at hhead
        subst hhead
        exact ⟨List.take_nil.symm, htail⟩
      | cons a as =>
        rw [hl] at hhead htail
        simp only [List.head?_cons, List.tail_cons] at hhead htail
        subst hhead
        obtain ⟨h1, h2⟩ := ih (s := s')
        rw [htail] at h1 h2
        exact ⟨by simp only [h1, List.take_succ_cons], h2⟩

/-- **Any number of calls** gives the beginning of the list, and of no other. -/
theorem Delivers.pull_iff (h : Delivers next l) {as : List α} : (∀ n, (Source.pull next n s).1 = as.take n) ↔ l s = as := by
  constructor
  · intro heq
    have hlong := heq ((l s).length + as.length)
    rwa [h.pull.1, List.take_of_length_le (by omega), List.take_of_length_le (by omega)] at hlong
  · intro heq n
    rw [h.pull.1, heq]

theorem Delivers.pull_same_iff (h : Delivers next l) {s' : σ} :
    (∀ n, (Source.pull next n s).1 = (Source.pull next n s').1) ↔ l s = l s' := by
  rw [← h.pull_iff]
  have hs : ∀ n, (Source.pull next n s').1 = (l s').take n := fun n => h.pull.1
  simp only [hs]

theorem Delivers.map (h : Delivers next l) (f : α → β) :
    Delivers (fun s => ((next s).1.map f, (next s).2)) fun s => (l s).map f := by
  intro s
  obtain ⟨hhead, htail⟩ := h s
  exact ⟨by simp only [hhead, List.head?_map], by simp only [htail, List.map_tail]⟩

/-- The next element that is kept, within `n` calls. -/
def skip (next : σ → Option α × σ) (keep : α → Bool) : ℕ → σ → Option α × σ
  | 0, s => (none, s)
  | n + 1, s =>
    match next s with
    | (none, s) => (none, s)
    | (some a, s) => if keep a then (some a, s) else skip next keep n s

theorem skip_of_delivers (h : Delivers next l) (keep : α → Bool) (hn : (l s).length < n) :
    (skip next keep n s).1 = ((l s).filter keep).head? ∧
      (l (skip next keep n s).2).filter keep = ((l s).filter keep).tail := by
  induction n generalizing s with
  | zero => omega
  | succ n ih =>
    obtain ⟨hhead, htail⟩ := h s
    rw [skip]
    cases hns : next s with
    | mk o s' =>
      rw [hns] at hhead htail
      cases hl : l s with
      | nil =>
        rw [hl] at hhead htail
        simp only [List.head?_nil, List.tail_nil] at hhead htail
        subst hhead
        simp [htail]
      | cons a as =>
        rw [hl] at hhead htail hn
        simp only [List.head?_cons, List.tail_cons, List.length_cons] at hhead htail hn
        subst hhead
        by_cases hk : keep a = true
        · simp [hk, htail]
        · have hi := ih (s := s') (by rw [htail]; omega)
          rw [htail] at hi
          simpa [hk] using hi

/-- **Skipping delivers what is kept**, with as many calls at hand as there are elements. -/
theorem Delivers.skip (h : Delivers next l) (keep : α → Bool) {bound : σ → ℕ} (hb : ∀ s, (l s).length < bound s) :
    Delivers (fun s => Source.skip next keep (bound s) s) fun s => (l s).filter keep :=
  fun s => skip_of_delivers h keep (hb s)

/-- The source gives the list in nonempty parts, and then nothing. -/
def Chunks (read : σ → Option (List α) × σ) (content : σ → List α) : Prop :=
  ∀ s, (∃ s', read s = (none, s') ∧ content s = [] ∧ content s' = []) ∨
    ∃ chunk s', read s = (some chunk, s') ∧ chunk ≠ [] ∧ content s = chunk ++ content s'

end QDesktopSearch.Source
