import Mathlib.Data.List.Basic
import Mathlib.Tactic.Common

/-!
# Runs of a predicate in a list

`runs p` are the maximal runs of `p` with their positions, `cut n` cuts a run into pieces
of at most `n`. `pieces` finds the pieces in one pass, with the piece so far in hand.

* `pieces_eq_runs`: the pass finds the maximal runs, cut.
* `pieces_append`: it goes on from an element without `p` as from the start.
* `mem_pieces`: a piece told by positions alone (`IsPiece`).
* `pieces_determine`: the pieces determine where `p` holds.
* `kept_iff`: two predicates have the same kept pieces exactly if no kept piece contains or
  borders a position where they differ.
-/

namespace QDesktopSearch.Runs

variable {α : Type*} {p : α → Bool} {n k : ℕ} {a s t : List α} {c : α}

/-- The maximal runs, with the position at which each starts; `k` is that of the first element. -/
def runs (p : α → Bool) : ℕ → List α → List (ℕ × List α)
  | _, [] => []
  | k, c :: s =>
    if p c then (k, c :: s.takeWhile p) :: runs p (k + 1 + (s.takeWhile p).length) (s.dropWhile p)
    else runs p (k + 1) s
termination_by _ s => s.length
decreasing_by
  · have h := congrArg List.length (List.takeWhile_append_dropWhile (p := p) (l := s))
    rw [List.length_append] at h
    simp only [List.length_cons]
    omega
  · simp

/-- A run in pieces of `n`, the last one of what is left. -/
def cut (n : ℕ) (k : ℕ) (r : List α) : List (ℕ × List α) :=
  if _h : r = [] ∨ n = 0 then [] else (k, r.take n) :: cut n (k + n) (r.drop n)
termination_by r.length
decreasing_by
  have hpos : 0 < r.length := List.length_pos_iff.2 fun he => _h (Or.inl he)
  rw [List.length_drop]
  omega

/-- One pass: `k` is the position of the next element and `a` the piece so far. -/
def pieces (p : α → Bool) (n : ℕ) : ℕ → List α → List α → List (ℕ × List α)
  | k, a, [] => if a = [] then [] else [(k - a.length, a)]
  | k, a, c :: s =>
    if p c then
      if a.length + 1 = n then (k - a.length, a ++ [c]) :: pieces p n (k + 1) [] s
      else pieces p n (k + 1) (a ++ [c]) s
    else if a = [] then pieces p n (k + 1) [] s
    else (k - a.length, a) :: pieces p n (k + 1) [] s

/-! ## The pass finds the maximal runs, cut -/

theorem cut_nil : cut n k ([] : List α) = [] := by
  rw [cut, dif_pos (Or.inl rfl)]

/-- A piece of at most `n` is not cut. -/
theorem cut_short {r : List α} (hr : r ≠ []) (hn : r.length ≤ n) : cut n k r = [(k, r)] := by
  have hpos : 0 < r.length := List.length_pos_iff.2 hr
  rw [cut, dif_neg (by rintro (h | h); exact hr h; omega), List.take_of_length_le hn, List.drop_of_length_le hn, cut_nil]

theorem cut_append {r : List α} (hn : 0 < n) (ha : a.length = n) :
    cut n k (a ++ r) = (k, a) :: cut n (k + n) r := by
  have hne : ¬(a ++ r = [] ∨ n = 0) := by
    rintro (h | h)
    · have := congrArg List.length h
      simp only [List.length_append, List.length_nil] at this
      omega
    · omega
  rw [cut, dif_neg hne, List.take_left' ha, List.drop_left' ha]

/-- The piece in hand and the rest of its run come first. -/
theorem pieces_run (hn : 0 < n) (hacc : a.length < n) (hk : a.length ≤ k) :
    pieces p n k a s = cut n (k - a.length) (a ++ s.takeWhile p) ++
      pieces p n (k + (s.takeWhile p).length) [] (s.dropWhile p) := by
  induction s generalizing k a with
  | nil =>
    by_cases ha : a = []
    · subst ha
      simp [pieces, cut_nil]
    · simp [pieces, ha, cut_short ha (Nat.le_of_lt hacc)]
  | cons c s ih =>
    by_cases hc : p c = true
    · by_cases hfull : a.length + 1 = n
      · have hi := ih (k := k + 1) (a := []) hn (Nat.zero_le _)
        have hcut := cut_append (k := k - a.length) (r := s.takeWhile p) hn
          (show (a ++ [c]).length = n by simpa using hfull)
        rw [List.append_assoc, List.singleton_append] at hcut
        have hpos : k - a.length + n = k + 1 := by omega
        simp only [pieces, hc, if_true, hfull, List.takeWhile_cons_of_pos hc, List.dropWhile_cons_of_pos hc, hi, hcut,
          hpos, List.length_nil, Nat.sub_zero, List.nil_append, List.cons_append, List.length_cons]
        rw [show k + 1 + (s.takeWhile p).length = k + ((s.takeWhile p).length + 1) by omega]
      · have hi := ih (k := k + 1) (a := a ++ [c]) (by simp; omega) (by simp; omega)
        have hpos : k + 1 - (a ++ [c]).length = k - a.length := by simp
        simp only [pieces, hc, if_true, hfull, if_false, List.takeWhile_cons_of_pos hc, List.dropWhile_cons_of_pos hc,
          hi, hpos, List.append_assoc, List.singleton_append, List.length_cons]
        rw [show k + 1 + (s.takeWhile p).length = k + ((s.takeWhile p).length + 1) by omega]
    · by_cases ha : a = []
      · subst ha
        simp [pieces, hc, cut_nil]
      · simp [pieces, hc, ha, cut_short ha (Nat.le_of_lt hacc)]

/-- **The pass finds the maximal runs, cut.** -/
theorem pieces_eq_runs (hn : 0 < n) : pieces p n k [] s = (runs p k s).flatMap fun r => cut n r.1 r.2 := by
  induction k, s using runs.induct p with
  | case1 k => simp [pieces, runs]
  | case2 k c s hc ih =>
    rw [pieces_run (a := []) hn hn (Nat.zero_le _), runs, if_pos hc, List.flatMap_cons, List.takeWhile_cons_of_pos hc,
      List.dropWhile_cons_of_pos hc, ← ih, List.length_cons]
    simp only [List.length_nil, Nat.sub_zero, List.nil_append]
    rw [show k + ((s.takeWhile p).length + 1) = k + 1 + (s.takeWhile p).length by omega]
  | case3 k c s hc ih =>
    rw [runs, if_neg hc, ← ih]
    simp [pieces, hc]

/-! ## Concatenation -/

/-- **The pass goes on from an element without `p` as from the start.** -/
theorem pieces_append (hc : p c = false) : pieces p n k a (s ++ c :: t) =
    pieces p n k a s ++ pieces p n (k + s.length + 1) [] t := by
  induction s generalizing k a with
  | nil =>
    simp only [List.nil_append, pieces, hc, Bool.false_eq_true, if_false, List.length_nil, Nat.add_zero]
    split <;> rfl
  | cons d s ih =>
    have hpos : k + 1 + s.length + 1 = k + (d :: s).length + 1 := by simp only [List.length_cons]; omega
    rw [List.cons_append, pieces, pieces]
    split
    · split
      · rw [ih, hpos]; rfl
      · rw [ih, hpos]
    · split
      · rw [ih, hpos]
      · rw [ih, hpos]; rfl

/-- Positions count from where the pass starts. -/
theorem pieces_shift {d : ℕ} (hk : a.length ≤ k) :
    pieces p n (k + d) a s = (pieces p n k a s).map fun r => (r.1 + d, r.2) := by
  have hpos : ∀ k, a.length ≤ k → k + d - a.length = k - a.length + d := by intro k hk; omega
  induction s generalizing k a with
  | nil =>
    rw [pieces, pieces]
    split
    · rfl
    · rw [hpos k hk]; rfl
  | cons c s ih =>
    have hnil := ih (k := k + 1) (a := []) (Nat.zero_le _) (fun k _ => by simp)
    have hmore := ih (k := k + 1) (a := a ++ [c]) (by simp; omega) (fun k hk => by simp at hk ⊢; omega)
    have hd : k + d + 1 = k + 1 + d := by omega
    rw [pieces, pieces, hd, hnil, hmore, hpos k hk]
    split
    · split <;> rfl
    · split <;> rfl

theorem pieces_congr {q : α → Bool} (h : ∀ c ∈ s, p c = q c) : pieces p n k a s = pieces q n k a s := by
  induction s generalizing k a with
  | nil => rfl
  | cons c s ih =>
    have hs : ∀ c ∈ s, p c = q c := fun c hc => h c (List.mem_cons_of_mem _ hc)
    rw [pieces, pieces, h c List.mem_cons_self, ih hs, ih hs]

theorem pieces_length_le : (pieces p n k a s).length ≤ a.length + s.length := by
  induction s generalizing k a with
  | nil =>
    rw [pieces]
    split
    · simp
    · rename_i ha
      have := List.length_pos_iff.2 ha
      simp
      omega
  | cons c s ih =>
    have hnil := ih (k := k + 1) (a := [])
    have hmore := ih (k := k + 1) (a := a ++ [c])
    simp only [List.length_nil, List.length_append, List.length_singleton] at hnil hmore
    rw [pieces, List.length_cons]
    split
    · split
      · rw [List.length_cons]
        omega
      · omega
    · split
      · omega
      · rename_i ha
        have := List.length_pos_iff.2 ha
        rw [List.length_cons]
        omega

/-! ## Pieces by position -/

/-- `p` holds of the element at the position. -/
def holdsAt (p : α → Bool) (s : List α) (i : ℕ) : Bool := s[i]?.any p

/-- A run of `q` starts some whole pieces before `a`, and goes on up to `e`. -/
def Started (n : ℕ) (q : ℕ → Bool) (a e : ℕ) : Prop :=
  ∃ b j, a = b + j * n ∧ (∀ i, b ≤ i → i < e → q i = true) ∧ (b = 0 ∨ q (b - 1) = false)

/-- The positions from `a` on, `m` in number, are one piece of a maximal run of `q`. -/
structure IsPiece (n : ℕ) (q : ℕ → Bool) (a m : ℕ) : Prop where
  pos : 0 < m
  le : m ≤ n
  run : Started n q a (a + m)
  stop : m = n ∨ q (a + m) = false

section Position

variable {q q' : ℕ → Bool} {a' e m m' i : ℕ} {a : ℕ}

theorem Started.next (h : Started n q a (a + n)) : Started n q (a + n) (a + n) := by
  obtain ⟨b, j, hj, hrun, hb⟩ := h
  exact ⟨b, j + 1, by rw [hj, Nat.succ_mul]; omega, hrun, hb⟩

theorem Started.here (h : a = 0 ∨ q (a - 1) = false) : Started n q a a :=
  ⟨a, 0, by omega, fun i h1 h2 => by omega, h⟩

theorem Started.extend (h : Started n q a e) (he : q e = true) : Started n q a (e + 1) := by
  obtain ⟨b, j, hj, hrun, hb⟩ := h
  refine ⟨b, j, hj, fun i h1 h2 => ?_, hb⟩
  by_cases hi : i = e
  · rw [hi]; exact he
  · exact hrun i h1 (by omega)

theorem IsPiece.holds (h : IsPiece n q a m) (h1 : a ≤ i) (h2 : i < a + m) : q i = true := by
  obtain ⟨b, j, hj, hrun, -⟩ := h.run
  exact hrun i (by omega) h2

/-- **Pieces do not overlap.** -/
theorem IsPiece.unique (h : IsPiece n q a m) (h' : IsPiece n q a' m') (hi : a ≤ i ∧ i < a + m)
    (hi' : a' ≤ i ∧ i < a' + m') : a = a' ∧ m = m' := by
  obtain ⟨b, j, hj, hrun, hb⟩ := h.run
  obtain ⟨b', j', hj', hrun', hb'⟩ := h'.run
  -- both runs start at the same position
  have hbb : b = b' := by
    rcases Nat.lt_trichotomy b b' with hlt | he | hlt
    · have htrue := hrun (b' - 1) (by omega) (by omega)
      rcases hb' with h0 | hf
      · omega
      · rw [htrue] at hf; exact absurd hf (by simp)
    · exact he
    · have htrue := hrun' (b - 1) (by omega) (by omega)
      rcases hb with h0 | hf
      · omega
      · rw [htrue] at hf; exact absurd hf (by simp)
  subst hbb
  have hle := h.le
  have hle' := h'.le
  have hdiv : ∀ j a m, a = b + j * n → a ≤ i ∧ i < a + m → m ≤ n → (i - b) / n = j := by
    intro j a m hj hi hm
    refine Nat.div_eq_of_lt_le ?_ ?_
    · omega
    · rw [Nat.succ_mul]; omega
  have hjj : j = j' := (hdiv j a m hj hi hle).symm.trans (hdiv j' a' m' hj' hi' hle')
  subst hjj
  have haa : a = a' := by omega
  subst haa
  refine ⟨rfl, ?_⟩
  rcases Nat.lt_trichotomy m m' with hlt | he | hlt
  · rcases h.stop with hn | hf
    · omega
    · rw [h'.holds (by omega) (by omega)] at hf; exact absurd hf (by simp)
  · exact he
  · rcases h'.stop with hn | hf
    · omega
    · rw [h.holds (by omega) (by omega)] at hf; exact absurd hf (by simp)

/-- Before a piece there is none of its run, or a whole one. -/
theorem IsPiece.before (h : IsPiece n q a m) : a = 0 ∨ q (a - 1) = false ∨ (n ≤ a ∧ IsPiece n q (a - n) n) := by
  obtain ⟨b, j, hj, hrun, hb⟩ := h.run
  have hpos := h.pos
  have hle := h.le
  cases j with
  | zero =>
    have hab : a = b := by omega
    rw [hab]
    exact hb.imp_right Or.inl
  | succ j =>
    rw [Nat.succ_mul] at hj
    refine Or.inr (Or.inr ⟨by omega, by omega, Nat.le_refl n, ?_, Or.inl rfl⟩)
    exact ⟨b, j, by omega, fun i h1 h2 => hrun i h1 (by omega), hb⟩

/-- Each position of the run of a piece, up to its end, is in the piece or in a whole one. -/
theorem IsPiece.earlier (h : IsPiece n q a m) {b j : ℕ} (hj : a = b + j * n)
    (hrun : ∀ i, b ≤ i → i < a + m → q i = true) (hb : b = 0 ∨ q (b - 1) = false) (h1 : b ≤ i) (h2 : i < a) :
    ∃ a', IsPiece n q a' n ∧ b ≤ a' ∧ a' ≤ i ∧ i < a' + n := by
  have hn : 0 < n := Nat.lt_of_lt_of_le h.pos h.le
  have hmod := Nat.div_add_mod (i - b) n
  have hlt := Nat.mod_lt (i - b) hn
  rw [Nat.mul_comm] at hmod
  have hjlt : (i - b) / n < j := by
    rw [Nat.div_lt_iff_lt_mul hn]
    omega
  have hnext : ((i - b) / n + 1) * n ≤ j * n := Nat.mul_le_mul_right n hjlt
  rw [Nat.succ_mul] at hnext
  refine ⟨b + (i - b) / n * n, ⟨hn, Nat.le_refl n, ?_, Or.inl rfl⟩, by omega, by omega, by omega⟩
  exact ⟨b, (i - b) / n, rfl, fun i' h1' h2' => hrun i' h1' (by omega), hb⟩

/-! ## Two predicates -/

/-- The position is in the piece or next to it, where the piece is at an end of its run. -/
def Touches (n a m i : ℕ) : Prop := a ≤ i + 1 ∧ (i < a + m ∨ (i = a + m ∧ m < n))

theorem kept_of_apart {K : ℕ → ℕ → Prop} (hfull : ∀ a, IsPiece n q a n → K a n)
    (h : ∀ i, q i ≠ q' i → ∀ a m, IsPiece n q a m → Touches n a m i → ¬K a m) (hk : K a m)
    (hp : IsPiece n q a m) : IsPiece n q' a m := by
  have hsame : ∀ i a m, IsPiece n q a m → Touches n a m i → K a m → q i = q' i := by
    intro i a m hp ht hk
    by_contra hne
    exact h i hne a m hp ht hk
  have hpos := hp.pos
  have hle := hp.le
  obtain ⟨b, j, hj, hrun, hb⟩ := hp.run
  refine ⟨hpos, hle, ⟨b, j, hj, ?_, ?_⟩, ?_⟩
  · intro i h1 h2
    by_cases hi : i < a
    · obtain ⟨a', hp', -, hle', hlt'⟩ := hp.earlier hj hrun hb h1 hi
      rw [← hsame i a' n hp' ⟨by omega, Or.inl hlt'⟩ (hfull a' hp')]
      exact hrun i h1 h2
    · rw [← hsame i a m hp ⟨by omega, Or.inl h2⟩ hk]
      exact hrun i h1 h2
  · by_cases hb0 : b = 0
    · exact Or.inl hb0
    · have hf := hb.resolve_left hb0
      refine Or.inr ?_
      by_cases hab : a = b
      · rw [← hsame (b - 1) a m hp ⟨by omega, Or.inl (by omega)⟩ hk]
        exact hf
      · obtain ⟨a', hp', hle', hle'', -⟩ := hp.earlier hj hrun hb (Nat.le_refl b) (by omega)
        have ha' : a' = b := by omega
        subst ha'
        rw [← hsame (a' - 1) a' n hp' ⟨by omega, Or.inl (by omega)⟩ (hfull a' hp')]
        exact hf
  · by_cases hm : m = n
    · exact Or.inl hm
    · have hf := hp.stop.resolve_left hm
      rw [← hsame (a + m) a m hp ⟨by omega, Or.inr ⟨rfl, by omega⟩⟩ hk]
      exact Or.inr hf

/-- **Two predicates have the same kept pieces** exactly if no kept piece of either touches
a position where they differ. Whole pieces are kept. -/
theorem kept_iff {K : ℕ → ℕ → Prop} (hfull : ∀ a, IsPiece n q a n ∨ IsPiece n q' a n → K a n) :
    (∀ a m, K a m → (IsPiece n q a m ↔ IsPiece n q' a m)) ↔
      ∀ i, q i ≠ q' i → ∀ a m, IsPiece n q a m ∨ IsPiece n q' a m → Touches n a m i → ¬K a m := by
  constructor
  · intro h i hne a m hp ht hk
    have hboth : IsPiece n q a m ∧ IsPiece n q' a m := by
      rcases hp with hp | hp
      · exact ⟨hp, (h a m hk).1 hp⟩
      · exact ⟨(h a m hk).2 hp, hp⟩
    obtain ⟨hp, hp'⟩ := hboth
    -- a whole piece of one is a piece of the other
    have hwhole : ∀ a, IsPiece n q a n ↔ IsPiece n q' a n := by
      intro a
      exact ⟨fun hw => (h a n (hfull a (Or.inl hw))).1 hw, fun hw => (h a n (hfull a (Or.inr hw))).2 hw⟩
    apply hne
    by_cases hin : a ≤ i ∧ i < a + m
    · rw [hp.holds hin.1 hin.2, hp'.holds hin.1 hin.2]
    by_cases hend : i = a + m
    · have hm : m < n := by
        rcases ht.2 with h1 | h1
        · omega
        · exact h1.2
      rw [hend, hp.stop.resolve_left (by omega), hp'.stop.resolve_left (by omega)]
    · have hi : i = a - 1 ∧ a ≠ 0 := by
        have h1 := ht.1
        have h2 := ht.2
        omega
      rw [hi.1]
      have hpos := Nat.lt_of_lt_of_le hp.pos hp.le
      rcases hp.before.resolve_left hi.2 with hf | ⟨hle, hw⟩
      · rcases hp'.before.resolve_left hi.2 with hf' | ⟨hle', hw'⟩
        · rw [hf, hf']
        · rw [((hwhole _).2 hw').holds (by omega) (by omega), hw'.holds (by omega) (by omega)]
      · rw [hw.holds (by omega) (by omega), ((hwhole _).1 hw).holds (by omega) (by omega)]
  · intro h a m hk
    constructor
    · exact kept_of_apart (fun a hp => hfull a (Or.inl hp)) (fun i hne a m hp => h i hne a m (Or.inl hp)) hk
    · exact kept_of_apart (fun a hp => hfull a (Or.inr hp)) (fun i hne a m hp => h i (Ne.symm hne) a m (Or.inr hp)) hk

end Position

/-! ## The pieces of a list -/

section Pieces

variable {w u : List α} {x : ℕ × List α} {i : ℕ}

theorem holdsAt_of_append (hw : w = u ++ c :: s) : holdsAt p w u.length = p c := by
  simp [holdsAt, hw]

theorem holdsAt_eq_false (h : w.length ≤ i) : holdsAt p w i = false := by
  simp [holdsAt, List.getElem?_eq_none h]

theorem lt_of_holdsAt (h : holdsAt p w i = true) : i < w.length := by
  by_contra hle
  rw [holdsAt_eq_false (by omega)] at h
  exact absurd h (by simp)

/-- The part of a list that a piece covers. -/
def segment (w : List α) (k m : ℕ) : List α := (w.drop k).take m

theorem segment_middle (hw : w = u ++ a ++ s) : segment w u.length a.length = a := by
  rw [segment, hw, List.append_assoc, List.drop_left' rfl, List.take_left' rfl]

theorem segment_map {β : Type*} (f : α → β) (k m : ℕ) : segment (w.map f) k m = (segment w k m).map f := by
  rw [segment, segment, List.map_take, List.map_drop]

/-- A piece lies within the list. -/
theorem IsPiece.segment_length {m : ℕ} (h : IsPiece n (holdsAt p w) k m) : (segment w k m).length = m := by
  have hpos := h.pos
  have hlt := lt_of_holdsAt (h.holds (i := k + m - 1) (by omega) (by omega))
  rw [segment, List.length_take, List.length_drop]
  omega

/-- **What the pass finds are pieces.** The list is `u ++ a ++ s`, with `u` behind the pass
and `a` in hand. -/
theorem isPiece_of_mem (hw : w = u ++ a ++ s) (hn : a.length < n)
    (hstart : Started n (holdsAt p w) u.length (u.length + a.length))
    (hx : x ∈ pieces p n (u.length + a.length) a s) :
    IsPiece n (holdsAt p w) x.1 x.2.length ∧ x.2 = segment w x.1 x.2.length := by
  induction s generalizing u a with
  | nil =>
    rw [pieces] at hx
    split at hx
    · exact absurd hx List.not_mem_nil
    · rename_i ha
      rw [List.mem_singleton.1 hx, Nat.add_sub_cancel]
      refine ⟨⟨List.length_pos_iff.2 ha, Nat.le_of_lt hn, hstart, Or.inr ?_⟩, (segment_middle hw).symm⟩
      exact holdsAt_eq_false (by simp [hw])
  | cons c s ih =>
    have hc : holdsAt p w (u.length + a.length) = p c := by
      rw [← List.length_append]
      exact holdsAt_of_append hw
    have hw1 : w = u ++ (a ++ [c]) ++ s := by rw [hw]; simp
    have hw2 : w = (u ++ a ++ [c]) ++ [] ++ s := by rw [hw]; simp
    have hlen : (u ++ a ++ [c]).length + ([] : List α).length = u.length + a.length + 1 := by simp; omega
    rw [pieces] at hx
    by_cases hpc : p c = true
    · rw [hpc] at hc
      have hlonger := hstart.extend hc
      rw [if_pos hpc] at hx
      split at hx
      · rename_i hfull
        have hseg := segment_middle hw1
        rw [List.length_append, List.length_singleton] at hseg
        rcases List.mem_cons.1 hx with rfl | hx
        · rw [Nat.add_sub_cancel]
          refine ⟨⟨by simp, by simp; omega, ?_, Or.inl (by simpa using hfull)⟩, ?_⟩
          · simpa [Nat.add_assoc] using hlonger
          · simpa using hseg.symm
        · -- the next piece starts in the same run
          have hnext : u.length + n = u.length + a.length + 1 := by omega
          have hstart' := Started.next (n := n) (a := u.length) (hnext ▸ hlonger)
          refine ih hw2 (by simp; omega) ?_ (by rw [hlen]; exact hx)
          rw [hlen]
          rw [hnext] at hstart'
          simpa [Nat.add_assoc] using hstart'
      · refine ih hw1 (by simp; omega) ?_ ?_
        · simpa [Nat.add_assoc] using hlonger
        · simpa [Nat.add_assoc] using hx
    · have hf : p c = false := by simpa using hpc
      rw [hf] at hc
      have hhere : Started n (holdsAt p w) (u ++ a ++ [c]).length ((u ++ a ++ [c]).length + ([] : List α).length) := by
        have h := Started.here (n := n) (q := holdsAt p w) (a := (u ++ a ++ [c]).length) (Or.inr (by simpa using hc))
        simpa using h
      rw [if_neg hpc] at hx
      split at hx
      · exact ih hw2 (by simp; omega) hhere (by rw [hlen]; exact hx)
      · rename_i ha
        rcases List.mem_cons.1 hx with rfl | hx
        · rw [Nat.add_sub_cancel]
          exact ⟨⟨List.length_pos_iff.2 ha, Nat.le_of_lt hn, hstart, Or.inr hc⟩, (segment_middle hw).symm⟩
        · exact ih hw2 (by simp; omega) hhere (by rw [hlen]; exact hx)

/-- **Each position with `p` is in a piece.** -/
theorem covered (hw : w = u ++ a ++ s) (h1 : u.length ≤ i) (h2 : holdsAt p w i = true) :
    ∃ x ∈ pieces p n (u.length + a.length) a s, x.1 ≤ i ∧ i < x.1 + x.2.length := by
  induction s generalizing u a with
  | nil =>
    have hlt := lt_of_holdsAt h2
    rw [hw, List.append_nil, List.length_append] at hlt
    have ha : a ≠ [] := by
      rintro rfl
      simp at hlt
      omega
    refine ⟨(u.length, a), ?_, h1, hlt⟩
    rw [pieces, if_neg ha, Nat.add_sub_cancel]
    exact List.mem_singleton_self _
  | cons c s ih =>
    have hc : holdsAt p w (u.length + a.length) = p c := by
      rw [← List.length_append]
      exact holdsAt_of_append hw
    have hw1 : w = u ++ (a ++ [c]) ++ s := by rw [hw]; simp
    have hw2 : w = (u ++ a ++ [c]) ++ [] ++ s := by rw [hw]; simp
    have hlen : (u ++ a ++ [c]).length + ([] : List α).length = u.length + a.length + 1 := by simp; omega
    have hrest : u.length + a.length < i → ∃ x ∈ pieces p n (u.length + a.length + 1) [] s,
        x.1 ≤ i ∧ i < x.1 + x.2.length := by
      intro hi
      have h := ih hw2 (by simp; omega)
      rwa [hlen] at h
    rw [pieces]
    split
    · split
      · by_cases hi : i ≤ u.length + a.length
        · exact ⟨_, List.mem_cons_self, by omega, by simp; omega⟩
        · obtain ⟨x, hx, hxi⟩ := hrest (by omega)
          exact ⟨x, List.mem_cons_of_mem _ hx, hxi⟩
      · have h := ih hw1 h1
        simpa [Nat.add_assoc] using h
    · rename_i hpc
      have hne : i ≠ u.length + a.length := by
        rintro rfl
        rw [hc] at h2
        exact hpc h2
      split
      · rename_i ha
        subst ha
        exact hrest (by simp at hne ⊢; omega)
      · by_cases hi : i < u.length + a.length
        · exact ⟨_, List.mem_cons_self, by omega, by simp; omega⟩
        · obtain ⟨x, hx, hxi⟩ := hrest (by omega)
          exact ⟨x, List.mem_cons_of_mem _ hx, hxi⟩

/-- **A piece, told by positions.** -/
theorem mem_pieces (hn : 0 < n) : x ∈ pieces p n 0 [] w ↔
    IsPiece n (holdsAt p w) x.1 x.2.length ∧ x.2 = segment w x.1 x.2.length := by
  have hsound : ∀ y ∈ pieces p n 0 [] w,
      IsPiece n (holdsAt p w) y.1 y.2.length ∧ y.2 = segment w y.1 y.2.length :=
    fun y hy => isPiece_of_mem (u := []) (a := []) (by simp) hn (Started.here (Or.inl rfl)) hy
  refine ⟨hsound x, ?_⟩
  rintro ⟨hp, hseg⟩
  have hpos := hp.pos
  obtain ⟨y, hy, h1, h2⟩ := covered (n := n) (u := []) (a := []) (s := w) (by simp) (Nat.zero_le x.1)
    (hp.holds (Nat.le_refl _) (by omega))
  obtain ⟨hpy, hsegy⟩ := hsound y hy
  obtain ⟨he, hlen⟩ := hp.unique hpy ⟨Nat.le_refl _, by omega⟩ ⟨h1, h2⟩
  have hxy : x = y := by
    rw [Prod.ext_iff]
    refine ⟨he, ?_⟩
    rw [hseg, hsegy, he, hlen]
  rw [hxy]
  exact hy

theorem le_of_mem (hx : x ∈ pieces p n k a s) : k - a.length ≤ x.1 := by
  induction s generalizing k a with
  | nil =>
    rw [pieces] at hx
    split at hx
    · exact absurd hx List.not_mem_nil
    · obtain rfl := List.mem_singleton.1 hx
      exact Nat.le_refl _
  | cons c s ih =>
    rw [pieces] at hx
    have hnil : x ∈ pieces p n (k + 1) [] s → k - a.length ≤ x.1 := by
      intro h
      have := ih h
      simp at this
      omega
    split at hx
    · split at hx
      · rcases List.mem_cons.1 hx with rfl | hx
        · exact Nat.le_refl _
        · exact hnil hx
      · have := ih hx
        simp at this
        omega
    · split at hx
      · exact hnil hx
      · rcases List.mem_cons.1 hx with rfl | hx
        · exact Nat.le_refl _
        · exact hnil hx

/-- **Pieces come in the order of their positions.** -/
theorem pieces_sorted : (pieces p n k a s).Pairwise fun x y => x.1 < y.1 := by
  induction s generalizing k a with
  | nil =>
    rw [pieces]
    split
    · exact List.Pairwise.nil
    · exact List.pairwise_singleton _ _
  | cons c s ih =>
    have hcons : ∀ b : List α, ((k - a.length, b) :: pieces p n (k + 1) [] s).Pairwise fun x y => x.1 < y.1 := by
      intro b
      refine List.pairwise_cons.2 ⟨fun y hy => ?_, ih⟩
      have := le_of_mem hy
      simp at this
      show k - a.length < y.1
      omega
    rw [pieces]
    split
    · split
      · exact hcons _
      · exact ih
    · split
      · exact ih
      · exact hcons _

/-- **The pieces determine where the predicate holds.** -/
theorem pieces_determine {q : α → Bool} (hn : 0 < n) (h : pieces p n 0 [] w = pieces q n 0 [] w) :
    ∀ c ∈ w, p c = q c := by
  have hhalf : ∀ {p q : α → Bool}, pieces p n 0 [] w = pieces q n 0 [] w → ∀ i,
      holdsAt p w i = true → holdsAt q w i = true := by
    intro p q h i hi
    obtain ⟨x, hx, h1, h2⟩ := covered (n := n) (u := []) (a := []) (s := w) (by simp) (Nat.zero_le i) hi
    have hxq : x ∈ pieces q n 0 [] w := h ▸ hx
    exact ((mem_pieces hn).1 hxq).1.holds h1 h2
  intro c hc
  obtain ⟨i, hlt, rfl⟩ := List.mem_iff_getElem.1 hc
  have hp : ∀ p : α → Bool, holdsAt p w i = p w[i] := by
    intro p
    simp [holdsAt, List.getElem?_eq_getElem hlt]
  rw [← hp p, ← hp q, Bool.eq_iff_iff]
  exact ⟨hhalf h i, hhalf h.symm i⟩

end Pieces

end QDesktopSearch.Runs
