import Mathlib.Data.Finset.Interval
import Mathlib.Data.Multiset.AddSub
import Mathlib.Logic.Equiv.Basic
import Mathlib.Order.Interval.Finset.Nat

/-!
# Binary heaps

A heap is an array from position 1 on, with the least element at its top. An element that is
out of place is a hole with the element in hand: sifting moves the hole up or down until the
element fits (`siftUp_spec`, `siftDown_spec`).

* `put_spec`, `pop_spec`, `replaceTop_spec`: the operations keep the order and the elements.
* `drain_spec`: popping everything, last to first, gives the elements from the greatest down.
* `Keeps.insert`, `Keeps.foldl`, `Keeps.insertAll`: a heap of bounded size keeps the greatest
  elements of those it is given (`Best`).
* `insertAll_congr`, `drain_congr`: an order that agrees with another on the elements gives the
  same heaps (`AgreeOn`).
-/

namespace QDesktopSearch.Heap

variable {α : Type*}

/-- A strict order in which elements may tie. -/
structure WeakOrder (lt : α → α → Bool) : Prop where
  asymm : ∀ {a b}, lt a b = true → lt b a = false
  trans : ∀ {a b c}, lt a b = false → lt b c = false → lt a c = false

theorem WeakOrder.irrefl {lt : α → α → Bool} (h : WeakOrder lt) (a : α) : lt a a = false := by
  by_contra hne
  have htrue : lt a a = true := by simpa using hne
  rw [h.asymm htrue] at htrue
  exact absurd htrue (by simp)

/-- What is above something less is above. -/
theorem WeakOrder.trans_lt {lt : α → α → Bool} (h : WeakOrder lt) {a b c : α} (hab : lt a b = true)
    (hcb : lt c b = false) : lt a c = true := by
  by_contra hne
  have hac : lt a c = false := by simpa using hne
  rw [h.trans hac hcb] at hab
  exact absurd hab (by simp)

/-- Ties are broken by a key, the greater one below. -/
theorem WeakOrder.tieBreak {lt lt' : α → α → Bool} (h : WeakOrder lt) {key : α → ℕ}
    (hiff : ∀ a b, lt' a b = true ↔ lt a b = true ∨ lt b a = false ∧ key b < key a) : WeakOrder lt' := by
  have hfalse : ∀ a b, lt' a b = false ↔ lt a b = false ∧ (lt b a = true ∨ key a ≤ key b) := by
    intro a b
    rw [← Bool.not_eq_true, hiff]
    cases lt a b <;> cases lt b a <;> simp
  constructor
  · intro a b hab
    rw [hfalse]
    rcases (hiff a b).1 hab with hab | ⟨hba, hkey⟩
    · exact ⟨h.asymm hab, Or.inl hab⟩
    · exact ⟨hba, Or.inr hkey.le⟩
  · intro a b c hab hbc
    rw [hfalse] at hab hbc ⊢
    obtain ⟨hab, hba⟩ := hab
    obtain ⟨hbc, hcb⟩ := hbc
    refine ⟨h.trans hab hbc, ?_⟩
    by_cases hca : lt c a = true
    · exact Or.inl hca
    · right
      have hca : lt c a = false := by simpa using hca
      have hnba : lt b a = false := h.trans hbc hca
      have hncb : lt c b = false := h.trans hca hab
      rw [hnba] at hba
      rw [hncb] at hcb
      simp only [Bool.false_eq_true, false_or] at hba hcb
      exact hba.trans hcb

/-! ## Sifting -/

section Sift

variable (lt : α → α → Bool) (x : α)

/-- The hole at `i` goes up while the element is less than the parent; over at most `m` levels. -/
def siftUp : ℕ → (ℕ → α) → ℕ → ℕ → α
  | 0, a, i => Function.update a i x
  | m + 1, a, i =>
    if 0 < i / 2 && lt x (a (i / 2)) then siftUp m (Function.update a i (a (i / 2))) (i / 2)
    else Function.update a i x

/-- The lesser child among the first `n` positions; the left one where they tie. -/
def lesserChild (n : ℕ) (a : ℕ → α) (i : ℕ) : ℕ :=
  if 2 * i + 1 ≤ n && lt (a (2 * i + 1)) (a (2 * i)) then 2 * i + 1 else 2 * i

/-- The hole at `i` goes down while a child is less than the element. -/
def siftDown (n : ℕ) : ℕ → (ℕ → α) → ℕ → ℕ → α
  | 0, a, i => Function.update a i x
  | m + 1, a, i =>
    let j := lesserChild lt n a i
    if j ≤ n && lt (a j) x then siftDown n m (Function.update a i (a j)) j else Function.update a i x

end Sift

/-- The elements at the first `n` positions. -/
def elems (n : ℕ) (a : ℕ → α) : Multiset α := (Finset.Icc 1 n).val.map a

/-- No element is less than its parent. -/
def Ordered (lt : α → α → Bool) (n : ℕ) (a : ℕ → α) : Prop := ∀ i, 1 < i → i ≤ n → lt (a i) (a (i / 2)) = false

/-! ## The elements -/

section Elems

variable {n i j : ℕ} {a b : ℕ → α} {x y : α}

theorem elems_zero : elems 0 a = 0 := rfl

theorem elems_succ : elems (n + 1) a = a (n + 1) ::ₘ elems n a := by
  have hnot : n + 1 ∉ Finset.Icc 1 n := by
    rw [Finset.mem_Icc]
    omega
  have hcons : Finset.Icc 1 (n + 1) = Finset.cons (n + 1) (Finset.Icc 1 n) hnot := by
    ext k
    simp only [Finset.mem_Icc, Finset.mem_cons]
    omega
  rw [elems, hcons, Finset.cons_val, Multiset.map_cons, elems]

theorem elems_congr (h : ∀ k, 1 ≤ k → k ≤ n → a k = b k) : elems n a = elems n b :=
  Multiset.map_congr rfl fun k hk => h k (Finset.mem_Icc.1 hk).1 (Finset.mem_Icc.1 hk).2

theorem card_elems : (elems n a).card = n := by
  rw [elems, Multiset.card_map]
  exact (Nat.card_Icc 1 n).trans (Nat.add_sub_cancel n 1)

theorem mem_elems : x ∈ elems n a ↔ ∃ k, (1 ≤ k ∧ k ≤ n) ∧ a k = x := by
  rw [elems, Multiset.mem_map]
  simp only [Finset.mem_val, Finset.mem_Icc]

/-- The hole moves, and the element that was there the other way. -/
theorem elems_move (hi : 1 ≤ i ∧ i ≤ n) (hj : 1 ≤ j ∧ j ≤ n) (hij : i ≠ j) :
    elems n (Function.update (Function.update a i (a j)) j x) = elems n (Function.update a i x) := by
  have hswap : Function.update (Function.update a i (a j)) j x =
      Function.update a i x ∘ Equiv.swap i j := by
    funext k
    by_cases hkj : k = j
    · rw [hkj, Function.update_self, Function.comp_apply, Equiv.swap_apply_right, Function.update_self]
    · rw [Function.update_of_ne hkj]
      by_cases hki : k = i
      · rw [hki, Function.update_self, Function.comp_apply, Equiv.swap_apply_left,
          Function.update_of_ne (Ne.symm hij)]
      · rw [Function.update_of_ne hki, Function.comp_apply, Equiv.swap_apply_of_ne_of_ne hki hkj,
          Function.update_of_ne hki]
  have hmap : (Finset.Icc 1 n).map (Equiv.swap i j).toEmbedding = Finset.Icc 1 n := by
    ext k
    rw [Finset.mem_map_equiv, Equiv.symm_swap]
    by_cases hki : k = i
    · rw [hki, Equiv.swap_apply_left]
      exact iff_of_true (Finset.mem_Icc.2 hj) (Finset.mem_Icc.2 hi)
    · by_cases hkj : k = j
      · rw [hkj, Equiv.swap_apply_right]
        exact iff_of_true (Finset.mem_Icc.2 hi) (Finset.mem_Icc.2 hj)
      · rw [Equiv.swap_apply_of_ne_of_ne hki hkj]
  rw [hswap, elems, ← Multiset.map_map]
  have hval := congrArg Finset.val hmap
  rw [Finset.map_val] at hval
  exact congrArg (Multiset.map _) hval

/-- One element for another. -/
theorem elems_update (hi : 1 ≤ i ∧ i ≤ n) : a i ::ₘ elems n (Function.update a i x) = x ::ₘ elems n a := by
  induction n with
  | zero => omega
  | succ n ih =>
    rw [elems_succ, elems_succ]
    by_cases hlast : i = n + 1
    · subst hlast
      have hrest : elems n (Function.update a (n + 1) x) = elems n a :=
        elems_congr fun k _ hk => Function.update_of_ne (by omega) _ _
      rw [hrest, Function.update_self, Multiset.cons_swap]
    · rw [Function.update_of_ne (fun h => hlast h.symm), Multiset.cons_swap, ih ⟨hi.1, by omega⟩,
        Multiset.cons_swap]

end Elems

/-! ## Up -/

variable {lt : α → α → Bool} {n m i hole : ℕ} {a : ℕ → α} {x : α}

/-- The order off the hole. -/
def OrderedExcept (lt : α → α → Bool) (n : ℕ) (a : ℕ → α) (hole : ℕ) : Prop :=
  ∀ i, 1 < i → i ≤ n → i ≠ hole → i / 2 ≠ hole → lt (a i) (a (i / 2)) = false

/-- The children of the hole are not less than its parent. -/
def Bridged (lt : α → α → Bool) (n : ℕ) (a : ℕ → α) (hole : ℕ) : Prop :=
  1 < hole → ∀ i ≤ n, i / 2 = hole → lt (a i) (a (hole / 2)) = false

/-- The element may go up. -/
structure UpReady (lt : α → α → Bool) (n : ℕ) (a : ℕ → α) (hole : ℕ) (x : α) : Prop where
  inside : 1 ≤ hole ∧ hole ≤ n
  except : OrderedExcept lt n a hole
  bridged : Bridged lt n a hole
  below : ∀ i ≤ n, i / 2 = hole → lt (a i) x = false

/-- An element that fits between the parent and the children. -/
theorem ordered_update (hinside : 1 ≤ hole) (hexcept : OrderedExcept lt n a hole)
    (habove : 1 < hole → lt x (a (hole / 2)) = false) (hbelow : ∀ i ≤ n, i / 2 = hole → lt (a i) x = false) :
    Ordered lt n (Function.update a hole x) := by
  intro i hi hn
  by_cases hih : i = hole
  · subst hih
    rw [Function.update_self, Function.update_of_ne (by omega)]
    exact habove hi
  · rw [Function.update_of_ne hih]
    by_cases hph : i / 2 = hole
    · rw [hph, Function.update_self]
      exact hbelow i hn hph
    · rw [Function.update_of_ne hph]
      exact hexcept i hi hn hih hph

theorem UpReady.move (h : UpReady lt n a hole x) (hlt : WeakOrder lt) (hpar : 0 < hole / 2)
    (hless : lt x (a (hole / 2)) = true) : UpReady lt n (Function.update a hole (a (hole / 2))) (hole / 2) x := by
  obtain ⟨h1, hn⟩ := h.inside
  have hne : hole / 2 ≠ hole := by omega
  -- a child of the parent, other than the hole, is not less than the parent
  have hsibling : ∀ i ≤ n, i / 2 = hole / 2 → i ≠ hole → lt (a i) (a (hole / 2)) = false := by
    intro i hi hp hih
    have hexc := h.except i (by omega) hi hih (by omega)
    rwa [hp] at hexc
  refine ⟨by omega, ?_, ?_, ?_⟩
  · intro i hi hin hip hpp
    by_cases hih : i = hole
    · exact absurd (by rw [hih]) hpp
    · rw [Function.update_of_ne hih]
      by_cases hph : i / 2 = hole
      · rw [hph, Function.update_self]
        exact h.bridged (by omega) i hin hph
      · rw [Function.update_of_ne hph]
        exact h.except i hi hin hih hph
  · intro htop i hin hip
    have habove := h.except (hole / 2) htop (by omega) hne (by omega)
    rw [Function.update_of_ne (by omega : hole / 2 / 2 ≠ hole)]
    by_cases hih : i = hole
    · rw [hih, Function.update_self]
      exact habove
    · rw [Function.update_of_ne hih]
      exact hlt.trans (hsibling i hin hip hih) habove
  · intro i hin hip
    by_cases hih : i = hole
    · rw [hih, Function.update_self]
      exact hlt.asymm hless
    · rw [Function.update_of_ne hih]
      exact hlt.asymm (hlt.trans_lt hless (hsibling i hin hip hih))

/-- **Sifting up** puts the element where it fits. -/
theorem siftUp_spec (hlt : WeakOrder lt) (h : UpReady lt n a hole x) (hm : hole ≤ m) :
    Ordered lt n (siftUp lt x m a hole) ∧ elems n (siftUp lt x m a hole) = elems n (Function.update a hole x) := by
  induction m generalizing a hole with
  | zero =>
    obtain ⟨h1, hn⟩ := h.inside
    omega
  | succ m ih =>
    obtain ⟨h1, hn⟩ := h.inside
    rw [siftUp]
    by_cases hcond : (0 < hole / 2 && lt x (a (hole / 2))) = true
    · rw [if_pos hcond]
      simp only [Bool.and_eq_true, decide_eq_true_eq] at hcond
      obtain ⟨hord, helems⟩ := ih (h.move hlt hcond.1 hcond.2) (by omega)
      refine ⟨hord, helems.trans ?_⟩
      exact elems_move ⟨h1, hn⟩ ⟨by omega, by omega⟩ (by omega)
    · rw [if_neg hcond]
      refine ⟨ordered_update h1 h.except ?_ h.below, rfl⟩
      intro htop
      simp only [Bool.and_eq_true, decide_eq_true_eq, not_and, Bool.not_eq_true] at hcond
      exact hcond (by omega)

/-! ## Down -/

/-- The element may go down. -/
structure DownReady (lt : α → α → Bool) (n : ℕ) (a : ℕ → α) (hole : ℕ) (x : α) : Prop where
  positive : 1 ≤ hole
  except : OrderedExcept lt n a hole
  bridged : Bridged lt n a hole
  above : 1 < hole → lt x (a (hole / 2)) = false

theorem lesserChild_cases (lt : α → α → Bool) (n : ℕ) (a : ℕ → α) (i : ℕ) :
    lesserChild lt n a i = 2 * i ∨ lesserChild lt n a i = 2 * i + 1 := by
  unfold lesserChild
  split
  · exact Or.inr rfl
  · exact Or.inl rfl

theorem lesserChild_inside (hi : i ≤ n) (hp : i / 2 = hole) : lesserChild lt n a hole ≤ n := by
  unfold lesserChild
  split
  · rename_i h
    simp only [Bool.and_eq_true, decide_eq_true_eq] at h
    exact h.1
  · omega

/-- No child is less than the lesser one. -/
theorem lesserChild_le (hlt : WeakOrder lt) (hi : i ≤ n) (hp : i / 2 = hole) :
    lt (a i) (a (lesserChild lt n a hole)) = false := by
  have hcases : i = 2 * hole ∨ i = 2 * hole + 1 := by omega
  unfold lesserChild
  split
  · rename_i h
    simp only [Bool.and_eq_true, decide_eq_true_eq] at h
    rcases hcases with rfl | rfl
    · exact hlt.asymm h.2
    · exact hlt.irrefl _
  · rename_i h
    rcases hcases with rfl | rfl
    · exact hlt.irrefl _
    · simpa [hi] using h

theorem DownReady.move (h : DownReady lt n a hole x) (hlt : WeakOrder lt) (hn : lesserChild lt n a hole ≤ n)
    (hless : lt (a (lesserChild lt n a hole)) x = true) :
    DownReady lt n (Function.update a hole (a (lesserChild lt n a hole))) (lesserChild lt n a hole) x := by
  have h1 := h.positive
  have hmin : ∀ i, i ≤ n → i / 2 = hole → lt (a i) (a (lesserChild lt n a hole)) = false := fun _ => lesserChild_le hlt
  have hchild := lesserChild_cases lt n a hole
  generalize lesserChild lt n a hole = c at *
  have hparent : c / 2 = hole := by omega
  have hne : c ≠ hole := by omega
  refine ⟨by omega, ?_, ?_, ?_⟩
  · intro i hi hin hic hpc
    by_cases hih : i = hole
    · subst hih
      rw [Function.update_self, Function.update_of_ne (by omega)]
      exact h.bridged hi c hn hparent
    · rw [Function.update_of_ne hih]
      by_cases hph : i / 2 = hole
      · rw [hph, Function.update_self]
        exact hmin i hin hph
      · rw [Function.update_of_ne hph]
        exact h.except i hi hin hih hph
  · intro htop i hin hpc
    rw [hparent, Function.update_self, Function.update_of_ne (by omega)]
    have hexc := h.except i (by omega) hin (by omega) (by omega)
    rwa [hpc] at hexc
  · intro htop
    rw [hparent, Function.update_self]
    exact hlt.asymm hless

/-- **Sifting down** puts the element where it fits. -/
theorem siftDown_spec (hlt : WeakOrder lt) (h : DownReady lt n a hole x) (hn : hole ≤ n) (hm : n ≤ hole + m) :
    Ordered lt n (siftDown lt x n m a hole) ∧
      elems n (siftDown lt x n m a hole) = elems n (Function.update a hole x) := by
  induction m generalizing a hole with
  | zero =>
    -- the last position has no child
    refine ⟨ordered_update h.positive h.except h.above ?_, rfl⟩
    intro i hi hp
    have h1 := h.positive
    omega
  | succ m ih =>
    have h1 := h.positive
    have hchild := lesserChild_cases lt n a hole
    rw [siftDown]
    by_cases hcond : (lesserChild lt n a hole ≤ n && lt (a (lesserChild lt n a hole)) x) = true
    · rw [if_pos hcond]
      simp only [Bool.and_eq_true, decide_eq_true_eq] at hcond
      obtain ⟨hord, helems⟩ := ih (h.move hlt hcond.1 hcond.2) hcond.1 (by omega)
      refine ⟨hord, helems.trans ?_⟩
      exact elems_move ⟨h1, hn⟩ ⟨by omega, hcond.1⟩ (by omega)
    · rw [if_neg hcond]
      refine ⟨ordered_update h1 h.except h.above ?_, rfl⟩
      intro i hi hp
      have hmin := lesserChild_le (a := a) hlt hi hp
      have hin : lesserChild lt n a hole ≤ n := lesserChild_inside hi hp
      -- the element is not greater than the lesser child
      have hfits : lt (a (lesserChild lt n a hole)) x = false := by simpa [hin] using hcond
      exact hlt.trans hmin hfits

/-! ## The operations -/

end Heap

/-- A heap of so many elements. -/
structure Heap (α : Type*) where
  size : ℕ
  heap : ℕ → α

namespace Heap

section Operations

variable (lt : α → α → Bool)

def put (h : Heap α) (x : α) : Heap α := ⟨h.size + 1, siftUp lt x (h.size + 1) h.heap (h.size + 1)⟩

/-- The least element gives way to another. -/
def replaceTop (h : Heap α) (x : α) : Heap α := ⟨h.size, siftDown lt x h.size h.size h.heap 1⟩

/-- The least element, and the others; the last of them is put into its place. -/
def pop (h : Heap α) : α × Heap α :=
  (h.heap 1, ⟨h.size - 1, siftDown lt (h.heap h.size) (h.size - 1) (h.size - 1) h.heap 1⟩)

/-- A new element in a heap of at most `max`; whether it is let in. -/
def insert (max : ℕ) (h : Heap α) (x : α) : Bool × Heap α :=
  if h.size < max then (true, h.put lt x)
  else if 0 < h.size && !lt x (h.heap 1) then (true, h.replaceTop lt x)
  else (false, h)

/-- The elements that are popped, the last in front. -/
def drain : ℕ → Heap α → List α
  | 0, _ => []
  | n + 1, h => drain n (h.pop lt).2 ++ [(h.pop lt).1]

end Operations

/-- The elements of a heap. -/
def contents (h : Heap α) : Multiset α := elems h.size h.heap

def IsOrdered (lt : α → α → Bool) (h : Heap α) : Prop := Ordered lt h.size h.heap

variable {h : Heap α}

theorem card_contents : h.contents.card = h.size := card_elems

theorem contents_eq_zero (hs : h.size = 0) : h.contents = 0 := by
  rw [contents, hs, elems_zero]

theorem IsOrdered.top_le_at (hlt : WeakOrder lt) (ho : h.IsOrdered lt) {k : ℕ} (h1 : 1 ≤ k) (hk : k ≤ h.size) :
    lt (h.heap k) (h.heap 1) = false := by
  induction k using Nat.strong_induction_on with
  | _ k ih =>
    by_cases htop : k = 1
    · rw [htop]
      exact hlt.irrefl _
    · have hpar := ho k (by omega) hk
      have hup := ih (k / 2) (by omega) (by omega) (by omega)
      exact hlt.trans hpar hup

/-- **Nothing is less than the top.** -/
theorem IsOrdered.top_le (hlt : WeakOrder lt) (ho : h.IsOrdered lt) (hx : x ∈ h.contents) :
    lt x (h.heap 1) = false := by
  obtain ⟨k, hk, rfl⟩ := mem_elems.1 hx
  exact ho.top_le_at hlt hk.1 hk.2

theorem top_mem (hs : 0 < h.size) : h.heap 1 ∈ h.contents := mem_elems.2 ⟨1, ⟨Nat.le_refl 1, hs⟩, rfl⟩

theorem put_spec (hlt : WeakOrder lt) (ho : h.IsOrdered lt) :
    (h.put lt x).IsOrdered lt ∧ (h.put lt x).contents = x ::ₘ h.contents := by
  have hready : UpReady lt (h.size + 1) h.heap (h.size + 1) x := by
    refine ⟨⟨by omega, Nat.le_refl _⟩, ?_, ?_, ?_⟩
    · intro i hi hin hih _
      exact ho i hi (by omega)
    · intro _ i hin hp
      omega
    · intro i hin hp
      omega
  obtain ⟨hord, helems⟩ := siftUp_spec hlt hready (Nat.le_refl _)
  refine ⟨hord, ?_⟩
  have hrest : elems h.size (Function.update h.heap (h.size + 1) x) = elems h.size h.heap :=
    elems_congr fun k _ hk => Function.update_of_ne (by omega) _ _
  rw [contents, put, helems, elems_succ, Function.update_self, hrest, contents]

/-- Where the order holds the hole at the top may go down. -/
theorem downReady_top {b : ℕ → α} (ho : Ordered lt n b) : DownReady lt n b 1 x where
  positive := Nat.le_refl 1
  except i hi hin _ _ := ho i hi hin
  bridged htop := absurd htop (Nat.lt_irrefl 1)
  above htop := absurd htop (Nat.lt_irrefl 1)

theorem replaceTop_spec (hlt : WeakOrder lt) (ho : h.IsOrdered lt) (hs : 0 < h.size) :
    (h.replaceTop lt x).IsOrdered lt ∧ h.heap 1 ::ₘ (h.replaceTop lt x).contents = x ::ₘ h.contents := by
  obtain ⟨hord, helems⟩ := siftDown_spec (x := x) hlt (downReady_top ho) hs (by omega : h.size ≤ 1 + h.size)
  refine ⟨hord, ?_⟩
  rw [contents, replaceTop, helems]
  exact elems_update ⟨Nat.le_refl 1, hs⟩

theorem pop_spec (hlt : WeakOrder lt) (ho : h.IsOrdered lt) (hs : 0 < h.size) :
    (h.pop lt).2.IsOrdered lt ∧ (h.pop lt).1 ::ₘ (h.pop lt).2.contents = h.contents := by
  have hsize : h.size = h.size - 1 + 1 := by omega
  have ho' : Ordered lt (h.size - 1) h.heap := fun i hi hin => ho i hi (by omega)
  have hall : h.contents = h.heap h.size ::ₘ elems (h.size - 1) h.heap := by
    rw [contents, hsize, elems_succ, ← hsize]
  by_cases hone : h.size = 1
  · refine ⟨fun i hi hin => ?_, ?_⟩
    · simp only [pop, hone] at hin
      omega
    · rw [hall, pop, contents, hone]
      rfl
  · obtain ⟨hord, helems⟩ := siftDown_spec (x := h.heap h.size) hlt (downReady_top ho') (by omega)
      (by omega : h.size - 1 ≤ 1 + (h.size - 1))
    refine ⟨hord, ?_⟩
    rw [hall, pop, contents, helems]
    exact elems_update ⟨Nat.le_refl 1, by omega⟩

/-- **Popping everything** gives the elements, the greatest first. -/
theorem drain_spec (hlt : WeakOrder lt) (ho : h.IsOrdered lt) : (h.drain lt h.size : Multiset α) = h.contents ∧
    (h.drain lt h.size).Pairwise fun x y => lt x y = false := by
  generalize hn : h.size = n
  induction n generalizing h with
  | zero => exact ⟨(contents_eq_zero hn).symm, List.Pairwise.nil⟩
  | succ n ih =>
    obtain ⟨hord, hcontents⟩ := pop_spec hlt ho (by omega)
    obtain ⟨hperm, hsorted⟩ := ih hord (by simp only [pop]; omega)
    rw [drain]
    refine ⟨?_, List.pairwise_append.2 ⟨hsorted, List.pairwise_singleton _ _, ?_⟩⟩
    · rw [← hcontents, ← hperm, Multiset.cons_coe, Multiset.coe_eq_coe]
      exact List.perm_append_singleton _ _
    · intro x hx y hy
      obtain rfl := List.mem_singleton.1 hy
      apply ho.top_le hlt
      have hx' : x ∈ (h.pop lt).2.contents := by
        rw [← hperm]
        exact hx
      rw [← hcontents]
      exact Multiset.mem_cons_of_mem hx'

/-! ## The greatest elements -/

/-- Of all elements at most `max` are kept, and none that is dropped is greater than one that is kept. -/
def Best (lt : α → α → Bool) (max : ℕ) (all kept : Multiset α) : Prop :=
  kept.card ≤ max ∧ ∃ dropped, all = kept + dropped ∧ (∀ d ∈ dropped, ∀ k ∈ kept, lt k d = false) ∧
    (dropped = 0 ∨ kept.card = max)

/-- A heap that has seen the elements `all`. -/
structure Keeps (lt : α → α → Bool) (max : ℕ) (all : Multiset α) (h : Heap α) : Prop where
  ordered : h.IsOrdered lt
  best : Best lt max all h.contents

variable {max : ℕ} {all : Multiset α}

theorem keeps_empty {a : ℕ → α} : Keeps lt max 0 ⟨0, a⟩ where
  ordered i hi hin := by
    simp only at hin
    omega
  best := by
    refine ⟨?_, 0, ?_, fun d hd => absurd hd (Multiset.notMem_zero d), Or.inl rfl⟩
    · rw [card_contents]
      exact Nat.zero_le _
    · rw [contents_eq_zero rfl]
      rfl

theorem Keeps.size_le (hk : Keeps lt max all h) : h.size ≤ max := by
  have hcard := hk.best.1
  rwa [card_contents] at hcard

/-- An element that is refused is not greater than those that are kept. -/
theorem Keeps.refused (hk : Keeps lt max all h) (hlt : WeakOrder lt) (hrefused : (h.insert lt max x).1 = false) :
    (h.insert lt max x).2 = h ∧ h.size = max ∧ ∀ k ∈ h.contents, lt k x = false := by
  have hsize := hk.size_le
  unfold insert at hrefused ⊢
  by_cases hroom : h.size < max
  · rw [if_pos hroom] at hrefused
    exact absurd hrefused (by simp)
  · rw [if_neg hroom] at hrefused ⊢
    by_cases hreplaced : (0 < h.size && !lt x (h.heap 1)) = true
    · rw [if_pos hreplaced] at hrefused
      exact absurd hrefused (by simp)
    · rw [if_neg hreplaced]
      refine ⟨rfl, by omega, fun k hkm => ?_⟩
      have hpos : 0 < h.size := by
        rw [← card_contents]
        exact Multiset.card_pos_iff_exists_mem.2 ⟨k, hkm⟩
      have hless : lt x (h.heap 1) = true := by simpa [hpos] using hreplaced
      exact hlt.asymm (hlt.trans_lt hless (hk.ordered.top_le hlt hkm))

/-- **One more element.** -/
theorem Keeps.insert (hk : Keeps lt max all h) (hlt : WeakOrder lt) :
    Keeps lt max (x ::ₘ all) (h.insert lt max x).2 := by
  obtain ⟨hcard, dropped, hall, hdropped, hfull⟩ := hk.best
  rw [card_contents] at hcard hfull
  by_cases hrefused : (h.insert lt max x).1 = false
  · obtain ⟨hsame, hmax, hle⟩ := hk.refused hlt hrefused
    rw [hsame]
    refine ⟨hk.ordered, by rwa [card_contents], x ::ₘ dropped, ?_, ?_, Or.inr (by rwa [card_contents])⟩
    · rw [hall, Multiset.add_cons]
    · intro d hd k hkm
      rcases Multiset.mem_cons.1 hd with rfl | hd
      · exact hle k hkm
      · exact hdropped d hd k hkm
  · unfold Heap.insert at hrefused ⊢
    by_cases hroom : h.size < max
    · -- nothing was dropped before
      obtain ⟨hord, hcontents⟩ := put_spec (x := x) hlt hk.ordered
      have hnone : dropped = 0 := hfull.resolve_right (by omega)
      rw [if_pos hroom]
      refine ⟨hord, ?_, 0, ?_, fun d hd => absurd hd (Multiset.notMem_zero d), Or.inl rfl⟩
      · rw [card_contents]
        exact hroom
      · rw [hcontents, hall, hnone, add_zero, add_zero]
    · rw [if_neg hroom] at hrefused ⊢
      by_cases hreplaced : (0 < h.size && !lt x (h.heap 1)) = true
      · rw [if_pos hreplaced]
        simp only [Bool.and_eq_true, decide_eq_true_eq, Bool.not_eq_true'] at hreplaced
        obtain ⟨hord, hcontents⟩ := replaceTop_spec (x := x) hlt hk.ordered hreplaced.1
        have htop := top_mem hreplaced.1
        -- what is kept was kept before, or is the new element
        have hkept : ∀ k ∈ (h.replaceTop lt x).contents, k = x ∨ k ∈ h.contents := by
          intro k hkm
          rw [← Multiset.mem_cons, ← hcontents]
          exact Multiset.mem_cons_of_mem hkm
        have hsize : (h.replaceTop lt x).contents.card = max := by
          have hsame : (h.replaceTop lt x).size = h.size := rfl
          rw [card_contents, hsame]
          omega
        refine ⟨hord, Nat.le_of_eq hsize, h.heap 1 ::ₘ dropped, ?_, ?_, Or.inr hsize⟩
        · rw [Multiset.add_cons, ← Multiset.cons_add, hcontents, hall, Multiset.cons_add]
        · intro d hd k hkm
          have habove : lt k (h.heap 1) = false := by
            rcases hkept k hkm with rfl | hkm
            · exact hreplaced.2
            · exact hk.ordered.top_le hlt hkm
          rcases Multiset.mem_cons.1 hd with rfl | hd
          · exact habove
          · exact hlt.trans habove (hdropped d hd _ htop)
      · rw [if_neg hreplaced] at hrefused
        exact absurd rfl hrefused

/-- **Elements one after the other.** -/
theorem Keeps.foldl (hk : Keeps lt max all h) (hlt : WeakOrder lt) (xs : List α) :
    Keeps lt max (all + xs) (xs.foldl (fun h x => (h.insert lt max x).2) h) := by
  induction xs generalizing all h with
  | nil => simpa using hk
  | cons x xs ih =>
    have hrest := ih (hk.insert (x := x) hlt)
    rwa [Multiset.cons_add, ← Multiset.add_cons, Multiset.cons_coe] at hrest

/-- Elements one after the other, until one is refused. -/
def insertAll (lt : α → α → Bool) (max : ℕ) : Heap α → List α → Heap α
  | h, [] => h
  | h, x :: xs =>
    match h.insert lt max x with
    | (true, h) => insertAll lt max h xs
    | (false, h) => h

/-- **Sorted elements**: those after one that is refused would be refused. -/
theorem Keeps.insertAll (hk : Keeps lt max all h) (hlt : WeakOrder lt) {xs : List α}
    (hsorted : xs.Pairwise fun x y => lt x y = false) : Keeps lt max (all + xs) (insertAll lt max h xs) := by
  induction xs generalizing all h with
  | nil => simpa [Heap.insertAll] using hk
  | cons x xs ih =>
    obtain ⟨hx, hxs⟩ := List.pairwise_cons.1 hsorted
    have hone := hk.insert (x := x) hlt
    rw [Heap.insertAll]
    cases hins : h.insert lt max x with
    | mk inserted h' =>
      rw [hins] at hone
      cases inserted with
      | true =>
        have hrest := ih hone hxs
        rwa [Multiset.cons_add, ← Multiset.add_cons, Multiset.cons_coe] at hrest
      | false =>
        have hrefused : (h.insert lt max x).1 = false := by rw [hins]
        obtain ⟨hsame, hmax, hle⟩ := hk.refused hlt hrefused
        rw [hins] at hsame
        obtain rfl : h' = h := hsame
        obtain ⟨hcard, dropped, hall, hdropped, -⟩ := hk.best
        refine ⟨hk.ordered, hcard, dropped + (x :: xs : List α), ?_, ?_, Or.inr (by rwa [card_contents])⟩
        · rw [hall, add_assoc]
        · intro d hd k hkm
          rcases Multiset.mem_add.1 hd with hd | hd
          · exact hdropped d hd k hkm
          · rcases List.mem_cons.1 (Multiset.mem_coe.1 hd) with rfl | hd
            · exact hle k hkm
            · exact hlt.trans (hle k hkm) (hx d hd)

/-- **The best of elements without ties** are the first of them, the greatest in front. -/
theorem Best.eq_take {K L : List α} (hbest : Best lt max L K) (hL : L.Pairwise fun x y => lt y x = true)
    (hK : K.Pairwise fun x y => lt x y = false) : K = L.take max := by
  induction L generalizing K max with
  | nil =>
    obtain ⟨-, dropped, hall, -, -⟩ := hbest
    have hcards := congrArg Multiset.card hall
    rw [Multiset.card_add, Multiset.coe_card, Multiset.coe_card, List.length_nil] at hcards
    rw [List.take_nil]
    exact List.length_eq_zero_iff.1 (by omega)
  | cons x L ih =>
    obtain ⟨hx, hrest⟩ := List.pairwise_cons.1 hL
    obtain ⟨hcard, dropped, hall, hdropped, hfull⟩ := hbest
    rw [Multiset.coe_card] at hcard hfull
    cases max with
    | zero =>
      rw [List.take_zero]
      exact List.length_eq_zero_iff.1 (by omega)
    | succ max =>
      cases K with
      | nil =>
        have hnone : dropped = 0 := hfull.resolve_right (by simp)
        rw [hnone] at hall
        exact absurd hall (by simp)
      | cons k K =>
        obtain ⟨hk, hK⟩ := List.pairwise_cons.1 hK
        -- the greatest element is kept, and in front
        have hkx : k = x := by
          by_contra hne
          have hkL : k ∈ x :: L := by
            rw [← Multiset.mem_coe, hall]
            exact Multiset.mem_add.2 (Or.inl List.mem_cons_self)
          have hless := hx k ((List.mem_cons.1 hkL).resolve_left hne)
          have hxm : x ∈ ((k :: K : List α) : Multiset α) + dropped := by
            rw [← hall]
            exact List.mem_cons_self
          have hnot : lt k x = false := by
            rcases Multiset.mem_add.1 hxm with hxm | hxm
            · exact hk x ((List.mem_cons.1 (Multiset.mem_coe.1 hxm)).resolve_left (Ne.symm hne))
            · exact hdropped x hxm k List.mem_cons_self
          rw [hless] at hnot
          exact absurd hnot (by simp)
        subst hkx
        rw [List.take_succ_cons]
        congr 1
        apply ih _ hrest hK
        rw [← Multiset.cons_coe, ← Multiset.cons_coe, Multiset.cons_add] at hall
        rw [List.length_cons] at hcard hfull
        refine ⟨by rw [Multiset.coe_card]; omega, dropped, (Multiset.cons_inj_right k).1 hall, ?_, ?_⟩
        · intro d hd k' hk'
          exact hdropped d hd k' (List.mem_cons_of_mem _ hk')
        · rw [Multiset.coe_card]
          exact hfull.imp_right fun h => by omega

/-! ## The best of several -/

/-- The best of some elements are, renamed, the best of them in an order that tells less apart. -/
theorem Best.map {β : Type*} {kept : Multiset α} (lt' : β → β → Bool) (f : α → β) (hbest : Best lt max all kept)
    (hless : ∀ a ∈ all, ∀ b ∈ all, lt' (f a) (f b) = true → lt a b = true) :
    Best lt' max (all.map f) (kept.map f) := by
  obtain ⟨hcard, dropped, hall, hdropped, hfull⟩ := hbest
  refine ⟨by rwa [Multiset.card_map], dropped.map f, by rw [hall, Multiset.map_add], ?_, ?_⟩
  · intro d' hd' k' hk'
    obtain ⟨d, hd, rfl⟩ := Multiset.mem_map.1 hd'
    obtain ⟨k, hk, rfl⟩ := Multiset.mem_map.1 hk'
    by_contra hne
    have hkd := hless k (by rw [hall]; exact Multiset.mem_add.2 (Or.inl hk)) d
      (by rw [hall]; exact Multiset.mem_add.2 (Or.inr hd)) (by simpa using hne)
    rw [hdropped d hd k hk] at hkd
    exact absurd hkd (by simp)
  · rw [Multiset.card_map]
    exact hfull.imp_left fun h => by rw [h, Multiset.map_zero]

theorem Best.mem {kept : Multiset α} (hbest : Best lt max all kept) {k : α} (hk : k ∈ kept) : k ∈ all := by
  obtain ⟨-, dropped, hall, -, -⟩ := hbest
  rw [hall]
  exact Multiset.mem_add.2 (Or.inl hk)

theorem Best.card {kept : Multiset α} (hbest : Best lt max all kept) : kept.card = min max all.card := by
  obtain ⟨hcard, dropped, hall, -, hfull⟩ := hbest
  have hsum : all.card = kept.card + dropped.card := by rw [hall, Multiset.card_add]
  rcases hfull with hnone | hfull
  · rw [hnone, Multiset.card_zero] at hsum
    omega
  · omega

/-- Where there is room for all of them, all are the best. -/
theorem Best.eq_all {kept : Multiset α} (hbest : Best lt max all kept) (hroom : all.card ≤ max) : kept = all := by
  have hcard := hbest.card
  obtain ⟨-, dropped, hall, -, -⟩ := hbest
  apply Multiset.eq_of_le_of_card_le
  · rw [hall]
    exact Multiset.le_add_right _ _
  · omega

/-- What is dropped from some is not needed: the best of the best are the best. -/
theorem Best.add {all' kept' best : Multiset α} (hlt : WeakOrder lt) (hbest : Best lt max all' kept')
    (h : Best lt max (all + kept') best) : Best lt max (all + all') best := by
  classical
  obtain ⟨-, dropped', hall', hdropped', hfull'⟩ := hbest
  obtain ⟨hcard, dropped, hall, hdropped, hfull⟩ := h
  refine ⟨hcard, dropped + dropped', by rw [hall', ← add_assoc, hall, add_assoc], ?_, ?_⟩
  · intro d hd k hk
    rcases Multiset.mem_add.1 hd with hd | hd
    · exact hdropped d hd k hk
    · -- something is dropped from the others, so that as many are kept of them as in the end
      have hmax : kept'.card = max := hfull'.resolve_left fun h0 => by simp [h0] at hd
      by_contra hne
      have hless : lt k d = true := by simpa using hne
      have habove : ∀ x ∈ kept', lt k x = true := fun x hx => hlt.trans_lt hless (hdropped' d hd x hx)
      have hnotin : k ∉ kept' := fun hin => by
        have hself := habove k hin
        rw [hlt.irrefl] at hself
        exact absurd hself (by simp)
      -- all of them are kept, and one that is less, which are too many
      have hle : kept' ≤ best := by
        rw [Multiset.le_iff_count]
        intro a
        by_cases ha : a ∈ kept'
        · have hnone : Multiset.count a dropped = 0 := by
            rw [Multiset.count_eq_zero]
            intro had
            have hfalse := hdropped a had k hk
            rw [habove a ha] at hfalse
            exact absurd hfalse (by simp)
          have hcount := congrArg (Multiset.count a) hall
          rw [Multiset.count_add, Multiset.count_add] at hcount
          omega
        · rw [Multiset.count_eq_zero_of_notMem ha]
          exact Nat.zero_le _
      have hcons : k ::ₘ kept' ≤ best := by
        rw [Multiset.cons_le_of_notMem hnotin]
        exact ⟨hk, hle⟩
      have hcards := Multiset.card_le_card hcons
      rw [Multiset.card_cons] at hcards
      omega
  · rcases hfull with hnone | hfull
    · rcases hfull' with hnone' | hfull'
      · exact Or.inl (by rw [hnone, hnone', add_zero])
      · right
        have hsum := congrArg Multiset.card hall
        rw [Multiset.card_add, Multiset.card_add, hnone, Multiset.card_zero] at hsum
        omega
    · exact Or.inr hfull

/-! ## Orders that agree on the elements -/

section Congr

variable {lt' : α → α → Bool} {S : α → Prop}

/-- The orders are the same on the elements of `S`. -/
def AgreeOn (S : α → Prop) (lt lt' : α → α → Bool) : Prop := ∀ a b, S a → S b → lt a b = lt' a b

theorem siftUp_congr (h : AgreeOn S lt lt') (hx : S x) (ha : ∀ k, 1 ≤ k → k < i → S (a k)) :
    siftUp lt x m a i = siftUp lt' x m a i := by
  induction m generalizing a i with
  | zero => rfl
  | succ m ih =>
    rw [siftUp, siftUp]
    by_cases hpos : 0 < i / 2
    · rw [h x (a (i / 2)) hx (ha _ hpos (by omega))]
      rw [ih fun k h1 hk => by rw [Function.update_of_ne (by omega)]; exact ha k h1 (by omega)]
    · simp [hpos]

theorem lesserChild_congr (h : AgreeOn S lt lt') (ha : ∀ k, 1 ≤ k → k ≤ n → S (a k)) (hi : 1 ≤ i) :
    lesserChild lt n a i = lesserChild lt' n a i := by
  unfold lesserChild
  by_cases hin : 2 * i + 1 ≤ n
  · rw [h _ _ (ha _ (by omega) hin) (ha _ (by omega) (by omega))]
  · simp only [hin, decide_false, Bool.false_and]

theorem siftDown_congr (h : AgreeOn S lt lt') (hx : S x) (ha : ∀ k, 1 ≤ k → k ≤ n → S (a k)) (hi : 1 ≤ i) :
    siftDown lt x n m a i = siftDown lt' x n m a i := by
  induction m generalizing a i with
  | zero => rfl
  | succ m ih =>
    rw [siftDown, siftDown]
    simp only [lesserChild_congr h ha hi]
    have hchild := lesserChild_cases lt' n a i
    generalize lesserChild lt' n a i = j at *
    by_cases hin : j ≤ n
    · have hj : S (a j) := ha j (by omega) hin
      rw [h _ _ hj hx]
      rw [ih _ (by omega)]
      intro k h1 hk
      by_cases hki : k = i
      · rw [hki, Function.update_self]
        exact hj
      · rw [Function.update_of_ne hki]
        exact ha k h1 hk
    · simp [hin]

theorem at_mem (h : Heap α) {k : ℕ} (h1 : 1 ≤ k) (hk : k ≤ h.size) : h.heap k ∈ h.contents :=
  mem_elems.2 ⟨k, ⟨h1, hk⟩, rfl⟩

theorem insert_congr (hagree : AgreeOn S lt lt') (hS : ∀ y ∈ h.contents, S y) (hx : S x) :
    h.insert lt max x = h.insert lt' max x := by
  have ha : ∀ k, 1 ≤ k → k ≤ h.size → S (h.heap k) := fun k h1 hk => hS _ (at_mem h h1 hk)
  unfold Heap.insert put replaceTop
  rw [siftUp_congr hagree hx fun k h1 hk => ha k h1 (by omega), siftDown_congr hagree hx ha (Nat.le_refl 1)]
  by_cases hpos : 0 < h.size
  · rw [hagree x _ hx (ha 1 (Nat.le_refl 1) hpos)]
  · simp only [hpos, decide_false, Bool.false_and]

theorem insertAll_congr (hagree : AgreeOn S lt lt') (hlt : WeakOrder lt') (hk : Keeps lt' max all h)
    (hall : ∀ y ∈ all, S y) {xs : List α} (hxs : ∀ x ∈ xs, S x) :
    insertAll lt max h xs = insertAll lt' max h xs := by
  induction xs generalizing all h with
  | nil => rfl
  | cons x xs ih =>
    obtain ⟨hx, hxs⟩ := List.forall_mem_cons.1 hxs
    have hone := hk.insert (x := x) hlt
    rw [insertAll, insertAll, insert_congr hagree (fun y hy => hall y (hk.best.mem hy)) hx]
    cases hins : h.insert lt' max x with
    | mk inserted h' =>
      rw [hins] at hone
      cases inserted with
      | true => exact ih hone (Multiset.forall_mem_cons.2 ⟨hx, hall⟩) hxs
      | false => rfl

theorem drain_congr (hagree : AgreeOn S lt lt') (hlt : WeakOrder lt') (ho : h.IsOrdered lt')
    (hS : ∀ y ∈ h.contents, S y) : h.drain lt h.size = h.drain lt' h.size := by
  generalize hn : h.size = n
  induction n generalizing h with
  | zero => rfl
  | succ n ih =>
    have ha : ∀ k, 1 ≤ k → k ≤ h.size → S (h.heap k) := fun k h1 hk => hS _ (at_mem h h1 hk)
    have hpop : h.pop lt = h.pop lt' := by
      unfold pop
      rw [siftDown_congr hagree (ha _ (by omega) (Nat.le_refl _)) (fun k h1 hk => ha k h1 (by omega)) (Nat.le_refl 1)]
    obtain ⟨hord, hcontents⟩ := pop_spec hlt ho (by omega)
    rw [drain, drain, hpop, ih hord ?_ (by simp only [pop]; omega)]
    intro y hy
    apply hS
    rw [← hcontents]
    exact Multiset.mem_cons_of_mem hy

end Congr

/-! ## Popping while -/

section PopWhile

variable (lt) (p : α → Bool)

/-- What is popped while the top has a property, and what is left. -/
def popWhile : ℕ → Heap α → List α × Heap α
  | 0, h => ([], h)
  | n + 1, h =>
    if 0 < h.size && p (h.heap 1) then
      let r := popWhile n (h.pop lt).2
      ((h.pop lt).1 :: r.1, r.2)
    else ([], h)

variable {lt p}

/-- **Popping while** the top has a property gives all elements that have it, in order, where none that has it
not is before one. -/
theorem popWhile_spec (hlt : WeakOrder lt) (ho : h.IsOrdered lt) (hn : h.size ≤ n)
    (hp : ∀ a ∈ h.contents, ∀ b ∈ h.contents, p b = true → lt b a = false → p a = true) :
    (popWhile lt p n h).2.IsOrdered lt ∧ ((popWhile lt p n h).1 : Multiset α) = h.contents.filter (fun x => p x = true) ∧
      (popWhile lt p n h).2.contents = h.contents.filter (fun x => ¬ p x = true) ∧
      (popWhile lt p n h).1.Pairwise fun x y => lt y x = false := by
  induction n generalizing h with
  | zero =>
    rw [popWhile, contents_eq_zero (Nat.le_zero.1 hn)]
    exact ⟨ho, rfl, rfl, .nil⟩
  | succ n ih =>
    rw [popWhile]
    by_cases hcond : (0 < h.size && p (h.heap 1)) = true
    · rw [if_pos hcond]
      simp only [Bool.and_eq_true, decide_eq_true_eq] at hcond
      obtain ⟨hpos, htop⟩ := hcond
      obtain ⟨hord, hcontents⟩ := pop_spec hlt ho hpos
      have hmem : ∀ a ∈ (h.pop lt).2.contents, a ∈ h.contents := by
        intro a ha
        rw [← hcontents]
        exact Multiset.mem_cons_of_mem ha
      have hrest := ih hord (by simp only [pop]; omega) fun a ha b hb => hp a (hmem a ha) b (hmem b hb)
      dsimp only
      generalize popWhile lt p n (h.pop lt).2 = r at hrest ⊢
      obtain ⟨hordered, hpopped, hleft, hpairs⟩ := hrest
      have hfirst : p (h.pop lt).1 = true := htop
      refine ⟨hordered, ?_, ?_, List.pairwise_cons.2 ⟨fun y hy => ?_, hpairs⟩⟩
      · rw [← hcontents, Multiset.filter_cons_of_pos (p := fun x => p x = true) _ hfirst, ← hpopped]
        rfl
      · rw [← hcontents, Multiset.filter_cons_of_neg (p := fun x => ¬ p x = true) _ (not_not.2 hfirst), hleft]
      · have hy' : y ∈ (h.pop lt).2.contents := by
          have : y ∈ (r.1 : Multiset α) := hy
          rw [hpopped] at this
          exact Multiset.mem_of_mem_filter this
        exact ho.top_le hlt (hmem y hy')
    · rw [if_neg hcond]
      have hnone : ∀ a ∈ h.contents, ¬ p a = true := by
        intro a ha hpa
        have hpos : 0 < h.size := by
          rw [← card_contents]
          exact Multiset.card_pos_iff_exists_mem.2 ⟨a, ha⟩
        refine hcond ?_
        rw [decide_eq_true hpos, Bool.true_and]
        exact hp _ (top_mem hpos) a ha hpa (ho.top_le hlt ha)
      refine ⟨ho, ?_, ?_, .nil⟩
      · rw [Multiset.filter_eq_nil.2 hnone]
        rfl
      · rw [Multiset.filter_eq_self.2 hnone]

end PopWhile

end QDesktopSearch.Heap
