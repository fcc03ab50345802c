import Mathlib.Data.Finset.Lattice.Fold
import Mathlib.Data.Finset.Union

/-!
# Longest matches of an automaton

The states of a nondeterministic automaton match kinds as they read characters. `munch` reads as
far as there are states left, and gives the last match: the lowest kind that some state matched
there, and how much of the text it is.

* `munch_cons`: one character.
* `munch_run`: states that a class of characters keeps and any other character ends.
* `munch_union`: two sets of states, each by itself.
* `munch_kind`, `munch_take`: what an invariant of the states says of a match.
* `munch_congr`: the match depends on the characters that are asked for.
-/

namespace QDesktopSearch

/-- On a character a state matches a kind, or none (`⊤`), and adds states. -/
structure Automaton (σ α κ : Type*) where
  kind : σ → α → WithTop κ
  next : σ → α → Finset σ

namespace Automaton

variable {σ α κ : Type*}

/-- The last match after `n` characters have been read, with the match so far. -/
def matched (k : WithTop κ) (n : ℕ) (m : Option (κ × ℕ)) : Option (κ × ℕ) :=
  match k with
  | ⊤ => m
  | (k : κ) => some (k, n)

@[simp] theorem matched_top (n : ℕ) (m : Option (κ × ℕ)) : matched ⊤ n m = m := rfl

@[simp] theorem matched_coe (k : κ) (n : ℕ) (m : Option (κ × ℕ)) : matched (k : WithTop κ) n m = some (k, n) := rfl

/-- No match ends past `n`. -/
def Within (m : Option (κ × ℕ)) (n : ℕ) : Prop := ∀ x ∈ m, x.2 ≤ n

theorem within_matched {k : WithTop κ} {n : ℕ} {m : Option (κ × ℕ)} (h : Within m n) :
    Within (matched k (n + 1) m) (n + 1) := by
  cases k with
  | top => exact fun x hx => (h x hx).trans (Nat.le_succ n)
  | coe k =>
    intro x hx
    cases hx
    exact le_rfl

variable [DecidableEq σ] [LinearOrder κ] (M : Automaton σ α κ)

/-- The lowest kind that the states match. -/
def kinds (S : Finset σ) (c : α) : WithTop κ := S.inf fun s => M.kind s c

/-- The states after a character. -/
def nexts (S : Finset σ) (c : α) : Finset σ := S.biUnion fun s => M.next s c

/-- The text is read on from a set of states, after `n` characters and with the match so far. -/
def munch : Finset σ → List α → ℕ → Option (κ × ℕ) → Option (κ × ℕ)
  | _, [], _, m => m
  | S, c :: cs, n, m =>
    let m := matched (M.kinds S c) (n + 1) m
    if M.nexts S c = ∅ then m else munch (M.nexts S c) cs (n + 1) m

variable {M} {S S' : Finset σ} {c : α} {cs : List α} {n : ℕ} {m : Option (κ × ℕ)} {k : WithTop κ}

@[simp] theorem munch_nil : M.munch S [] n m = m := by rw [munch]

theorem munch_empty : M.munch ∅ cs n m = m := by
  cases cs with
  | nil => rw [munch_nil]
  | cons c cs =>
    have hkinds : M.kinds ∅ c = ⊤ := Finset.inf_empty
    have hnexts : M.nexts ∅ c = ∅ := Finset.biUnion_empty
    rw [munch, hkinds, if_pos hnexts, matched_top]

/-- **One character.** -/
theorem munch_cons (hkinds : M.kinds S c = k) (hnexts : M.nexts S c = S') :
    M.munch S (c :: cs) n m = M.munch S' cs (n + 1) (matched k (n + 1) m) := by
  rw [munch, hkinds, hnexts]
  split_ifs with h
  · rw [h, munch_empty]
  · rfl

/-- A character that no state reads ends the reading. -/
theorem munch_stop (hkinds : M.kinds S c = ⊤) (hnexts : M.nexts S c = ∅) : M.munch S (c :: cs) n m = m := by
  rw [munch_cons hkinds hnexts, munch_empty, matched_top]

/-- **States that a class of characters keeps**, with one kind, and any other character ends. -/
theorem munch_run {p : α → Bool} {k : κ} (hkeep : ∀ c, p c = true → M.kinds S c = k ∧ M.nexts S c = S)
    (hstop : ∀ c, p c = false → M.kinds S c = ⊤ ∧ M.nexts S c = ∅) :
    M.munch S cs n m = if cs.takeWhile p = [] then m else some (k, n + (cs.takeWhile p).length) := by
  induction cs generalizing n m with
  | nil => rw [munch_nil, List.takeWhile_nil, if_pos rfl]
  | cons c cs ih =>
    cases hc : p c with
    | false =>
      obtain ⟨hkinds, hnexts⟩ := hstop c hc
      have hrun : (c :: cs).takeWhile p = [] := List.takeWhile_cons_of_neg (by simp [hc])
      rw [munch_stop hkinds hnexts, if_pos hrun]
    | true =>
      obtain ⟨hkinds, hnexts⟩ := hkeep c hc
      have hrun : (c :: cs).takeWhile p = c :: cs.takeWhile p := List.takeWhile_cons_of_pos hc
      rw [munch_cons hkinds hnexts, ih, hrun, if_neg (List.cons_ne_nil _ _), List.length_cons]
      split_ifs with hnil
      · rw [hnil, matched_coe]
        rfl
      · congr 2
        omega

/-- A match comes from before, or ends in the text. -/
theorem munch_bounds {k : κ} {i : ℕ} (h : M.munch S cs n m = some (k, i)) :
    m = some (k, i) ∨ (n < i ∧ i ≤ n + cs.length) := by
  induction cs generalizing S n m with
  | nil => exact Or.inl (munch_nil.symm.trans h)
  | cons c cs ih =>
    rw [munch_cons rfl rfl] at h
    rw [List.length_cons]
    rcases ih h with h' | h'
    · cases hk : M.kinds S c with
      | top =>
        rw [hk, matched_top] at h'
        exact Or.inl h'
      | coe k' =>
        rw [hk, matched_coe] at h'
        cases h'
        exact Or.inr ⟨by omega, by omega⟩
    · exact Or.inr ⟨by omega, by omega⟩

/-! ## Two sets of states -/

/-- The longer of two matches, or the lower kind. -/
def best : Option (κ × ℕ) → Option (κ × ℕ) → Option (κ × ℕ)
  | none, y => y
  | x, none => x
  | some (k, i), some (l, j) => if i < j then some (l, j) else if j < i then some (k, i) else some (min k l, i)

/-- The best match is as long as the longer one. -/
theorem best_length {x : κ × ℕ} {y : Option (κ × ℕ)} {k : κ} {i : ℕ} (h : best (some x) y = some (k, i)) :
    x.2 ≤ i ∧ (∀ z ∈ y, z.2 ≤ i) ∧ (x.2 = i ∨ ∃ z ∈ y, z.2 = i) := by
  obtain ⟨l, j⟩ := x
  cases y with
  | none =>
    cases h
    exact ⟨le_rfl, fun z hz => (by cases hz), Or.inl rfl⟩
  | some y =>
    obtain ⟨l', j'⟩ := y
    rw [best] at h
    simp only [Option.mem_some_iff, forall_eq', exists_eq_left']
    split_ifs at h with h1 h2
    all_goals
      rw [Option.some.injEq, Prod.mk.injEq] at h
      omega

/-- The best match is of the kind of one of them. -/
theorem best_kind {x : κ × ℕ} {y : Option (κ × ℕ)} {k : κ} {i : ℕ} (h : best (some x) y = some (k, i)) :
    k = x.1 ∨ ∃ z ∈ y, k = z.1 := by
  obtain ⟨l, j⟩ := x
  cases y with
  | none =>
    cases h
    exact Or.inl rfl
  | some y =>
    obtain ⟨l', j'⟩ := y
    rw [best] at h
    simp only [Option.mem_some_iff, exists_eq_left']
    split_ifs at h with h1 h2
    · cases h
      exact Or.inr rfl
    · cases h
      exact Or.inl rfl
    · rw [Option.some.injEq, Prod.mk.injEq] at h
      rw [← h.1]
      exact min_choice l l'

/-- Kinds that end at the same place, with matches from before. -/
theorem matched_best {k k' : WithTop κ} {m m' : Option (κ × ℕ)} (hm : Within m n) (hm' : Within m' n) :
    matched (k ⊓ k') (n + 1) (best m m') = best (matched k (n + 1) m) (matched k' (n + 1) m') := by
  cases k with
  | top =>
    cases k' with
    | top => rw [top_inf_eq, matched_top, matched_top, matched_top]
    | coe l =>
      rw [top_inf_eq, matched_top, matched_coe]
      rcases m with - | ⟨k, i⟩
      · rfl
      · have hi : i ≤ n := hm (k, i) rfl
        rw [matched_coe, best, if_pos (by omega)]
  | coe k =>
    cases k' with
    | top =>
      rw [inf_top_eq, matched_top, matched_coe, matched_coe]
      rcases m' with - | ⟨l, i⟩
      · rfl
      · have hi : i ≤ n := hm' (l, i) rfl
        rw [best, if_neg (by omega), if_pos (by omega)]
    | coe l =>
      have hinf : ((k : WithTop κ) ⊓ (l : WithTop κ)) = ((min k l : κ) : WithTop κ) := rfl
      rw [hinf, matched_coe, matched_coe, matched_coe, best, if_neg (lt_irrefl _), if_neg (lt_irrefl _)]

/-- **Two sets of states** are read with each by itself. -/
theorem munch_union {m m' : Option (κ × ℕ)} (hm : Within m n) (hm' : Within m' n) :
    M.munch (S ∪ S') cs n (best m m') = best (M.munch S cs n m) (M.munch S' cs n m') := by
  induction cs generalizing S S' n m m' with
  | nil => rw [munch_nil, munch_nil, munch_nil]
  | cons c cs ih =>
    have hkinds : M.kinds (S ∪ S') c = M.kinds S c ⊓ M.kinds S' c := Finset.inf_union
    have hnexts : M.nexts (S ∪ S') c = M.nexts S c ∪ M.nexts S' c := Finset.union_biUnion
    rw [munch_cons hkinds hnexts, matched_best hm hm', ih (within_matched hm) (within_matched hm'),
      munch_cons rfl rfl, munch_cons rfl rfl]

/-! ## Invariants of the states -/

variable {I : Finset σ → Prop}

/-- The kind of a match is one that states with the invariant match. -/
theorem munch_kind {P : κ → Prop} (hI : ∀ S c, I S → I (M.nexts S c))
    (hP : ∀ S c, I S → ∀ k : κ, M.kinds S c = k → P k) (hS : I S) {k : κ} {i : ℕ}
    (h : M.munch S cs n m = some (k, i)) : m = some (k, i) ∨ P k := by
  induction cs generalizing S n m with
  | nil => exact Or.inl (munch_nil.symm.trans h)
  | cons c cs ih =>
    rw [munch_cons rfl rfl] at h
    rcases ih (hI S c hS) h with h' | h'
    · cases hk : M.kinds S c with
      | top =>
        rw [hk, matched_top] at h'
        exact Or.inl h'
      | coe k' =>
        rw [hk, matched_coe] at h'
        cases h'
        exact Or.inr (hP S c hS k hk)
    · exact Or.inr h'

/-- A match holds only characters that states with the invariant read. -/
theorem munch_take {p : α → Prop} (hI : ∀ S c, I S → I (M.nexts S c))
    (hstop : ∀ S c, I S → ¬p c → M.kinds S c = ⊤ ∧ M.nexts S c = ∅) (hS : I S) {k : κ} {i : ℕ}
    (h : M.munch S cs n m = some (k, i)) : m = some (k, i) ∨ ∀ c ∈ cs.take (i - n), p c := by
  induction cs generalizing S n m with
  | nil => exact Or.inl (munch_nil.symm.trans h)
  | cons c cs ih =>
    by_cases hc : p c
    · rw [munch_cons rfl rfl] at h
      have htake : ∀ i, n < i → (c :: cs).take (i - n) = c :: cs.take (i - (n + 1)) := by
        intro i hi
        obtain ⟨j, rfl⟩ : ∃ j, i = n + 1 + j := ⟨i - (n + 1), by omega⟩
        have h1 : n + 1 + j - n = j + 1 := by omega
        have h2 : n + 1 + j - (n + 1) = j := by omega
        rw [h1, h2, List.take_succ_cons]
      have hbounds := munch_bounds h
      rcases ih (hI S c hS) h with h' | h'
      · cases hk : M.kinds S c with
        | top =>
          rw [hk, matched_top] at h'
          exact Or.inl h'
        | coe k' =>
          rw [hk, matched_coe] at h'
          cases h'
          right
          rw [htake _ (by omega), Nat.sub_self, List.take_zero]
          exact List.forall_mem_singleton.2 hc
      · by_cases hi : n < i
        · right
          rw [htake i hi]
          exact List.forall_mem_cons.2 ⟨hc, h'⟩
        · rcases hbounds with hb | hb
          · cases hk : M.kinds S c with
            | top =>
              rw [hk, matched_top] at hb
              exact Or.inl hb
            | coe k' =>
              rw [hk, matched_coe] at hb
              cases hb
              omega
          · omega
    · obtain ⟨hkinds, hnexts⟩ := hstop S c hS hc
      rw [munch_stop hkinds hnexts] at h
      exact Or.inl h

/-! ## What is asked for -/

variable (M) in
/-- How many characters are asked for before no state is left; at the end of the text one that is
not there. -/
def asks : Finset σ → List α → ℕ
  | _, [] => 1
  | S, c :: cs => if M.nexts S c = ∅ then 1 else asks (M.nexts S c) cs + 1

omit [LinearOrder κ] in
theorem asks_le : M.asks S cs ≤ cs.length + 1 := by
  induction cs generalizing S with
  | nil => exact le_rfl
  | cons c cs ih =>
    rw [asks, List.length_cons]
    split_ifs
    · omega
    · exact Nat.succ_le_succ ih

/-- **The match depends on what is asked for**, and so does how much is asked for. -/
theorem munch_congr {cs' : List α} (h : cs'.take (M.asks S cs) = cs.take (M.asks S cs)) :
    M.munch S cs' n m = M.munch S cs n m ∧ M.asks S cs' = M.asks S cs := by
  induction cs generalizing S cs' n m with
  | nil =>
    have hnil : cs' = [] := by simpa [asks] using h
    rw [hnil]
    exact ⟨rfl, rfl⟩
  | cons c cs ih =>
    obtain ⟨k, hk⟩ : ∃ k, M.asks S (c :: cs) = k + 1 := by
      rw [asks]
      split_ifs
      · exact ⟨0, rfl⟩
      · exact ⟨_, rfl⟩
    cases cs' with
    | nil =>
      rw [hk] at h
      cases h
    | cons c' cs' =>
      rw [hk, List.take_succ_cons, List.take_succ_cons, List.cons.injEq] at h
      obtain ⟨rfl, hrest⟩ := h
      rw [munch, munch, asks, asks]
      split_ifs with hnone
      · exact ⟨rfl, rfl⟩
      · rw [asks, if_neg hnone, Nat.succ.injEq] at hk
        rw [← hk] at hrest
        obtain ⟨hmunch, hasks⟩ := ih hrest
        exact ⟨hmunch, congrArg (· + 1) hasks⟩

end Automaton

end QDesktopSearch
