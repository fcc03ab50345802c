import QDesktopSearch.Proof.Conjunction

/-!
# Disjunctions

`DisjunctionSumScorer` visits the documents that enough of its scorers visit. Its queue holds the
scorers that are left, each on its next document.

* `topMove_spec`: the scorer at the top goes on, or goes.
* `advanceLoop_spec`: all scorers on a document are counted and go on.
* `advanceAfterCurrent_spec`: the next document that enough scorers visit.
* `at_closed`: the scorer keeps to the disjunction.
-/

namespace QDesktopSearch

open Cursor

variable {σ ρ : Type*} {fs : List (ℤ → Option (Set ρ))} {F : Multiset (ℤ → Option (Set ρ))} {f : ℤ → Option (Set ρ)} {V : Set ρ}
  {s : σ} {c d t : ℤ} {m : ℕ}

/-- The values at a document. -/
def scoresAt (F : Multiset (ℤ → Option (Set ρ))) (d : ℤ) : Multiset (Set ρ) := F.filterMap (· d)

@[simp] theorem scoresAt_zero : (scoresAt 0 d : Multiset (Set ρ)) = 0 := rfl

theorem scoresAt_cons_some (h : f d = some V) : scoresAt (f ::ₘ F) d = V ::ₘ scoresAt F d :=
  Multiset.filterMap_cons_some _ _ _ h

theorem scoresAt_cons_none (h : f d = none) : scoresAt (f ::ₘ F) d = scoresAt F d := Multiset.filterMap_cons_none _ _ h

theorem card_scoresAt_le : (scoresAt F d).card ≤ F.card := by
  induction F using Multiset.induction with
  | empty => simp
  | cons f F ih =>
    cases hf : f d with
    | none => rw [scoresAt_cons_none hf, Multiset.card_cons]; omega
    | some v => rw [scoresAt_cons_some hf, Multiset.card_cons, Multiset.card_cons]; omega

section Values

variable [Add ρ]

/-- The sums of the values, where there are enough. -/
def disjunction (m : ℕ) (fs : List (ℤ → Option (Set ρ))) (d : ℤ) : Option (Set ρ) :=
  if m ≤ (fs.filterMap (· d)).length then some (sums (fs.filterMap (· d))) else none

theorem disjunction_eq : disjunction m fs d =
    if m ≤ (scoresAt (.ofList fs) d).card then some (sums (scoresAt (.ofList fs) d)) else none := by
  rw [scoresAt, Multiset.filterMap_coe, Multiset.coe_card, disjunction]

theorem disjunction_isSome : (disjunction m fs d).isSome = true ↔ m ≤ (scoresAt (.ofList fs) d).card := by
  rw [disjunction_eq]
  split <;> simp_all

theorem disjunction_none (h : (scoresAt (.ofList fs) d).card < m) : disjunction m fs d = none := by
  rw [disjunction_eq, if_neg (by omega)]

end Values

variable [Cursor σ ρ]

namespace DisjunctionSumScorer

open ScorerDocQueue

/-- What is in the queue, with what it visits. -/
abbrev Queue (σ ρ : Type*) := Multiset (HeapedScorerDoc σ × (ℤ → Option (Set ρ)))

omit [Cursor σ ρ] in
theorem weakOrder_lessThan : Heap.WeakOrder (lessThan : HeapedScorerDoc σ → HeapedScorerDoc σ → Bool) where
  asymm {a b} h := by
    simp only [lessThan, decide_eq_true_eq, decide_eq_false_iff_not] at h ⊢
    omega
  trans {a b c} h h' := by
    simp only [lessThan, decide_eq_false_iff_not] at h h' ⊢
    omega

/-- The queue is in order, and every scorer stands on its document. -/
structure Queued (q : Heap (HeapedScorerDoc σ)) (M : Queue σ ρ) : Prop where
  ordered : q.IsOrdered lessThan
  contents : q.contents = M.map Prod.fst
  visits : ∀ x ∈ M, Visits x.2 x.1._scorer x.1._doc
  isSome : ∀ x ∈ M, (x.2 x.1._doc).isSome = true

variable {q : Heap (HeapedScorerDoc σ)} {M : Queue σ ρ} {x : HeapedScorerDoc σ} {n : ℕ} {r : Bool × σ}

theorem Queued.card (h : Queued q M) : M.card = q.size := by
  rw [← Heap.card_contents, h.contents, Multiset.card_map]

theorem Queued.left_eq (h : Queued q M) : ScorerDocQueue.left q = (M.map fun x => Cursor.left x.1._scorer + 1).sum := by
  rw [ScorerDocQueue.left, h.contents, Multiset.map_map]
  rfl

/-- The scorer at the top, and the others. -/
theorem Queued.top (h : Queued q M) (hsize : 0 < q.size) : ∃ f M', M = (q.heap 1, f) ::ₘ M' := by
  have htop := Heap.top_mem hsize
  rw [h.contents, Multiset.mem_map] at htop
  obtain ⟨⟨x, f⟩, hx, rfl⟩ := htop
  obtain ⟨M', hM⟩ := Multiset.exists_cons_of_mem hx
  exact ⟨f, M', hM⟩

/-- None is before the top. -/
theorem Queued.topDoc_le (h : Queued q M) {y : HeapedScorerDoc σ × (ℤ → Option (Set ρ))} (hy : y ∈ M) :
    topDoc q ≤ y.1._doc := by
  have hmem : y.1 ∈ q.contents := by
    rw [h.contents]
    exact Multiset.mem_map_of_mem _ hy
  have hle := h.ordered.top_le weakOrder_lessThan hmem
  simp only [lessThan, decide_eq_false_iff_not] at hle
  exact not_lt.1 hle

/-- **The scorer at the top is moved**: it stands on its next document, or is gone. -/
theorem topMove_spec (h : Queued q ((x, f) ::ₘ M)) (hx : x = q.heap 1)
    (hlands : Lands f (Visits f) t (Cursor.left x._scorer) r) :
    (r.1 = true → Queued (checkAdjustElsePop q r).2 ((⟨r.2, Cursor.doc r.2⟩, f) ::ₘ M) ∧ First f t (Cursor.doc r.2)) ∧
    (r.1 = false → Queued (checkAdjustElsePop q r).2 M ∧ ∀ e, t ≤ e → f e = none) ∧
    (checkAdjustElsePop q r).1 = r.1 ∧ ScorerDocQueue.left (checkAdjustElsePop q r).2 < ScorerDocQueue.left q := by
  have hsize : 0 < q.size := by
    rw [← h.card, Multiset.card_cons]
    exact Nat.succ_pos _
  unfold checkAdjustElsePop
  cases hr : r.1 with
  | true =>
    obtain ⟨hfirst, hleft, hs⟩ := hlands.found hr
    rw [if_pos rfl]
    obtain ⟨hord, hcontents⟩ := Heap.replaceTop_spec (x := (⟨r.2, Cursor.doc r.2⟩ : HeapedScorerDoc σ)) weakOrder_lessThan
      h.ordered hsize
    have hqueued : Queued (q.replaceTop lessThan ⟨r.2, Cursor.doc r.2⟩) ((⟨r.2, Cursor.doc r.2⟩, f) ::ₘ M) := by
      refine ⟨hord, ?_, ?_, ?_⟩
      · rw [h.contents, Multiset.map_cons, hx, Multiset.cons_swap, Multiset.cons_inj_right] at hcontents
        rw [hcontents, Multiset.map_cons]
      · intro y hy
        rcases Multiset.mem_cons.1 hy with rfl | hy
        · exact hs
        · exact h.visits y (Multiset.mem_cons_of_mem hy)
      · intro y hy
        rcases Multiset.mem_cons.1 hy with rfl | hy
        · exact hfirst.isSome
        · exact h.isSome y (Multiset.mem_cons_of_mem hy)
    refine ⟨fun _ => ⟨hqueued, hfirst⟩, fun h => by simp at h, rfl, ?_⟩
    rw [hqueued.left_eq, h.left_eq, Multiset.map_cons, Multiset.map_cons, Multiset.sum_cons, Multiset.sum_cons]
    dsimp only
    omega
  | false =>
    rw [if_neg (by simp)]
    obtain ⟨hord, hcontents⟩ := Heap.pop_spec weakOrder_lessThan h.ordered hsize
    have hqueued : Queued (q.pop lessThan).2 M := by
      refine ⟨hord, ?_, fun y hy => h.visits y (Multiset.mem_cons_of_mem hy),
        fun y hy => h.isSome y (Multiset.mem_cons_of_mem hy)⟩
      rw [h.contents, Multiset.map_cons, hx] at hcontents
      exact (Multiset.cons_inj_right _).1 hcontents
    refine ⟨fun h => by simp at h, fun _ => ⟨hqueued, hlands.exhausted hr⟩, rfl, ?_⟩
    rw [hqueued.left_eq, h.left_eq, Multiset.map_cons, Multiset.sum_cons]
    omega

/-- The score of the scorer at the top. -/
theorem topScore_spec (h : Queued q ((x, f) ::ₘ M)) (hx : x = q.heap 1) (hv : f x._doc = some V) :
    (topScore q).1 ∈ V ∧ ∃ x', Queued (topScore q).2 ((x', f) ::ₘ M) ∧ x' = (topScore q).2.heap 1 ∧ x'._doc = x._doc ∧
      ScorerDocQueue.left (topScore q).2 ≤ ScorerDocQueue.left q := by
  have hsize : 0 < q.size := by
    rw [← h.card, Multiset.card_cons]
    exact Nat.succ_pos _
  obtain ⟨hvalue, hs, hleft⟩ := Visits.value (h.visits (x, f) (Multiset.mem_cons_self _ _)) hv
  dsimp only at hvalue hs hleft
  unfold topScore
  dsimp only
  rw [← hx]
  set x' : HeapedScorerDoc σ := ⟨(Cursor.value x._scorer).2, x._doc⟩ with hx'
  have hcontents : q.heap 1 ::ₘ Heap.elems q.size (Function.update q.heap 1 x') = x' ::ₘ Heap.elems q.size q.heap :=
    Heap.elems_update ⟨Nat.le_refl 1, hsize⟩
  have hqueued : Queued { q with heap := Function.update q.heap 1 x' } ((x', f) ::ₘ M) := by
    refine ⟨?_, ?_, ?_, ?_⟩
    · -- the document at the top is the same
      have hdoc : ∀ i, (Function.update q.heap 1 x' i)._doc = (q.heap i)._doc := by
        intro i
        by_cases hi : i = 1
        · rw [hi, Function.update_self, ← hx]
        · rw [Function.update_of_ne hi]
      intro i hi hin
      have hord := h.ordered i hi hin
      simp only [lessThan, hdoc] at hord ⊢
      exact hord
    · have hall : Heap.elems q.size q.heap = x ::ₘ M.map Prod.fst := by
        rw [← Heap.contents, h.contents, Multiset.map_cons]
      rw [hall, ← hx, Multiset.cons_swap, Multiset.cons_inj_right] at hcontents
      rw [Heap.contents, hcontents, Multiset.map_cons]
    · intro y hy
      rcases Multiset.mem_cons.1 hy with rfl | hy
      · exact hs
      · exact h.visits y (Multiset.mem_cons_of_mem hy)
    · intro y hy
      rcases Multiset.mem_cons.1 hy with rfl | hy
      · show (f x._doc).isSome = true
        rw [hv]
        rfl
      · exact h.isSome y (Multiset.mem_cons_of_mem hy)
  refine ⟨hvalue, x', hqueued, ?_, rfl, ?_⟩
  · show x' = Function.update q.heap 1 x' 1
    rw [Function.update_self]
  · rw [hqueued.left_eq, h.left_eq, Multiset.map_cons, Multiset.map_cons, Multiset.sum_cons, Multiset.sum_cons]
    have hscorer : x'._scorer = (Cursor.value x._scorer).2 := rfl
    dsimp only
    rw [hscorer]
    omega

/-- From `t` on, the scorers in the queue have the values. -/
def Ahead (F : Multiset (ℤ → Option (Set ρ))) (M : Queue σ ρ) (t : ℤ) : Prop :=
  ∀ e, t ≤ e → scoresAt F e = scoresAt (M.map Prod.snd) e

/-- The values of the scorers that stand on the document. -/
def pending (M : Queue σ ρ) (d : ℤ) : Multiset (Set ρ) := M.filterMap fun x => if x.1._doc = d then x.2 d else none

omit [Cursor σ ρ] in
theorem pending_cons_ne {y : HeapedScorerDoc σ × (ℤ → Option (Set ρ))} (h : y.1._doc ≠ d) : pending (y ::ₘ M) d = pending M d :=
  Multiset.filterMap_cons_none _ _ (if_neg h)

omit [Cursor σ ρ] in
theorem pending_cons_eq {y : HeapedScorerDoc σ × (ℤ → Option (Set ρ))} (h : y.1._doc = d) (hv : y.2 d = some V) :
    pending (y ::ₘ M) d = V ::ₘ pending M d :=
  Multiset.filterMap_cons_some _ _ _ (by rw [if_pos h, hv])

omit [Cursor σ ρ] in
theorem pending_eq_zero (h : ∀ y ∈ M, y.1._doc ≠ d) : pending M d = 0 := by
  induction M using Multiset.induction with
  | empty => rfl
  | cons y M ih =>
    rw [pending_cons_ne (h y (Multiset.mem_cons_self _ _))]
    exact ih fun z hz => h z (Multiset.mem_cons_of_mem hz)

/-- Every scorer in the queue stands on the first of its documents from `t` on. -/
structure Ready (F : Multiset (ℤ → Option (Set ρ))) (t : ℤ) (q : Heap (HeapedScorerDoc σ)) (M : Queue σ ρ) : Prop where
  queued : Queued q M
  first : ∀ y ∈ M, First y.2 t y.1._doc
  ahead : Ahead F M t

theorem Ready.card_le (h : Ready F t q M) {e : ℤ} (he : t ≤ e) : (scoresAt F e).card ≤ q.size := by
  rw [h.ahead e he, ← h.queued.card, ← Multiset.card_map Prod.snd M]
  exact card_scoresAt_le

/-- Before the document at the top there is none. -/
theorem Ready.before (h : Ready F t q M) {e : ℤ} (he : t ≤ e) (hlt : e < topDoc q) : scoresAt F e = 0 := by
  -- by induction on a part of the queue
  have hzero : ∀ N : Queue σ ρ, N ≤ M → scoresAt (N.map Prod.snd) e = 0 := by
    intro N hN
    induction N using Multiset.induction with
    | empty => rfl
    | cons y N ih =>
      have hy := Multiset.mem_of_le hN (Multiset.mem_cons_self _ _)
      have hle := h.queued.topDoc_le hy
      rw [Multiset.map_cons, scoresAt_cons_none ((h.first y hy).none_before he (by omega))]
      exact ih ((Multiset.le_cons_self _ _).trans hN)
  rw [h.ahead e he]
  exact hzero M le_rfl

/-- On the document at the top there are the scorers that stand on it. -/
theorem Ready.at_top (h : Ready F t q M) (ht : t ≤ topDoc q) : scoresAt F (topDoc q) = pending M (topDoc q) := by
  have hsame : ∀ N : Queue σ ρ, N ≤ M → scoresAt (N.map Prod.snd) (topDoc q) = pending N (topDoc q) := by
    intro N hN
    induction N using Multiset.induction with
    | empty => rfl
    | cons y N ih =>
      have hy := Multiset.mem_of_le hN (Multiset.mem_cons_self _ _)
      replace ih := ih ((Multiset.le_cons_self _ _).trans hN)
      rw [Multiset.map_cons]
      by_cases hdoc : y.1._doc = topDoc q
      · obtain ⟨v, hv⟩ := Option.isSome_iff_exists.1 (h.queued.isSome y hy)
        rw [hdoc] at hv
        rw [scoresAt_cons_some hv, pending_cons_eq hdoc hv, ih]
      · have hle := h.queued.topDoc_le hy
        rw [scoresAt_cons_none ((h.first y hy).none_before ht (by omega)), pending_cons_ne hdoc, ih]
  rw [h.ahead _ ht]
  exact hsame M le_rfl

variable [FloatT ρ] {D : DisjunctionSumScorer σ ρ}

/-- **The inner loop**: the scorers on the document are counted, and go on. -/
theorem advanceLoop_spec {n : ℕ} {a : ρ} {l : List ρ} {A V : Multiset (Set ρ)} (hpicks : Picks (a :: l) A)
    (h : Queued q ((x, f) ::ₘ M)) (hx : x = q.heap 1) (hd : x._doc = d)
    (hfirst : ∀ y ∈ M, y.1._doc = d ∨ First y.2 (d + 1) y.1._doc) (hahead : Ahead F ((x, f) ::ₘ M) (d + 1))
    (hV : V = A + pending M d) (hn : ScorerDocQueue.left q ≤ n) :
    let r := advanceLoop n q d (l.foldl (· + ·) a) A.card
    (∃ M', Ready F (d + 1) r.1 M') ∧ (r.2.1 ∈ sums V ∧ r.2.2 = V.card) ∧ ScorerDocQueue.left r.1 < ScorerDocQueue.left q := by
  induction n generalizing q x f M A l with
  | zero =>
    rw [h.left_eq, Multiset.map_cons, Multiset.sum_cons] at hn
    omega
  | succ n ih =>
    have hnext : Lands f (Visits f) (d + 1) (Cursor.left x._scorer) (Cursor.next (q.heap 1)._scorer) := by
      rw [← hx, ← hd]
      exact Visits.next (h.visits _ (Multiset.mem_cons_self _ _))
    obtain ⟨hfound, hgone, -, hleft⟩ := topMove_spec h hx hnext
    -- the queue when the scorer at the top has gone on
    obtain ⟨M₁, hqueued, hfirst₁, hahead₁, hpending⟩ : ∃ M₁, Queued (topNextAndAdjustElsePop q).2 M₁ ∧
        (∀ y ∈ M₁, y.1._doc = d ∨ First y.2 (d + 1) y.1._doc) ∧ Ahead F M₁ (d + 1) ∧ pending M₁ d = pending M d := by
      cases hr : (Cursor.next (q.heap 1)._scorer).1 with
      | true =>
        obtain ⟨hqueued, hf⟩ := hfound hr
        refine ⟨_, hqueued, ?_, fun e he => ?_, pending_cons_ne ?_⟩
        · intro y hy
          rcases Multiset.mem_cons.1 hy with rfl | hy
          · exact Or.inr hf
          · exact hfirst y hy
        · rw [hahead e he, Multiset.map_cons, Multiset.map_cons]
        · have := hf.le
          dsimp only
          omega
      | false =>
        obtain ⟨hqueued, hnone⟩ := hgone hr
        refine ⟨M, hqueued, hfirst, fun e he => ?_, rfl⟩
        rw [hahead e he, Multiset.map_cons, scoresAt_cons_none (hnone e he)]
    replace hleft : ScorerDocQueue.left (topNextAndAdjustElsePop q).2 < ScorerDocQueue.left q := hleft
    rw [← hpending] at hV
    unfold advanceLoop
    dsimp only
    generalize (topNextAndAdjustElsePop q).2 = q₁ at hqueued hleft ⊢
    -- once no scorer is left on the document, all of them have been counted
    have hready (hne : ∀ y ∈ M₁, y.1._doc ≠ d) :
        (∃ M', Ready F (d + 1) q₁ M') ∧ (l.foldl (· + ·) a ∈ sums V ∧ A.card = V.card) ∧
        ScorerDocQueue.left q₁ < ScorerDocQueue.left q := by
      rw [pending_eq_zero hne, add_zero] at hV
      rw [hV]
      exact ⟨⟨M₁, hqueued, fun y hy => (hfirst₁ y hy).resolve_left (hne y hy), hahead₁⟩, ⟨⟨a, l, hpicks, rfl⟩, rfl⟩, hleft⟩
    by_cases hsize : q₁.size = 0
    · rw [if_pos hsize]
      refine hready fun y hy => ?_
      rw [Multiset.card_eq_zero.1 (hqueued.card.trans hsize)] at hy
      exact absurd hy (Multiset.notMem_zero y)
    rw [if_neg hsize]
    obtain ⟨g, M₂, hM₁⟩ := hqueued.top (Nat.pos_of_ne_zero hsize)
    have htop : topDoc q₁ = d ∨ First g (d + 1) (topDoc q₁) :=
      hfirst₁ (q₁.heap 1, g) (by rw [hM₁]; exact Multiset.mem_cons_self _ _)
    -- another scorer stands on the document, or the top is the least of those behind it
    by_cases htopDoc : topDoc q₁ = d
    · rw [if_neg (by simpa using htopDoc)]
      subst hM₁
      obtain ⟨W, hv⟩ := Option.isSome_iff_exists.1 (hqueued.isSome _ (Multiset.mem_cons_self _ _))
      obtain ⟨hscore, x₂, hqueued₂, hx₂, hdoc₂, hleft₂⟩ := topScore_spec hqueued rfl hv
      have hvd : g d = some W := by rw [← htopDoc]; exact hv
      have hsum : l.foldl (· + ·) a + (topScore q₁).1 = (l ++ [(topScore q₁).1]).foldl (· + ·) a := by
        rw [List.foldl_append, List.foldl_cons, List.foldl_nil]
      have hcard : A.card + 1 = (W ::ₘ A).card := (Multiset.card_cons _ _).symm
      rw [hsum, hcard]
      have hahead₂ : Ahead F ((x₂, g) ::ₘ M₂) (d + 1) := by
        intro e he
        rw [hahead₁ e he, Multiset.map_cons, Multiset.map_cons]
      obtain ⟨hready₂, hresult, hleft'⟩ := ih (hpicks.concat hscore) hqueued₂ hx₂ (hdoc₂.trans htopDoc)
        (fun y hy => hfirst₁ y (Multiset.mem_cons_of_mem hy)) hahead₂
        (by rw [hV, pending_cons_eq htopDoc hvd, Multiset.add_cons, Multiset.cons_add]) (by omega)
      exact ⟨hready₂, hresult, hleft'.trans (hleft₂.trans_lt hleft)⟩
    · rw [if_pos htopDoc]
      refine hready fun y hy => ?_
      have hle := hqueued.topDoc_le hy
      have := (htop.resolve_left htopDoc).le
      omega

/-- **All scorers on the document at the top** are counted, and go on. -/
theorem advanceTop_spec (h : Ready F t q M) (hsize : 0 < q.size) :
    let a := advanceLoop (ScorerDocQueue.left (topScore q).2) (topScore q).2 (topDoc q) (topScore q).1 1
    t ≤ topDoc q ∧ (∃ M', Ready F (topDoc q + 1) a.1 M') ∧
      (a.2.1 ∈ sums (scoresAt F (topDoc q)) ∧ a.2.2 = (scoresAt F (topDoc q)).card) ∧
      ScorerDocQueue.left a.1 < ScorerDocQueue.left q := by
  obtain ⟨f, M', rfl⟩ := h.queued.top hsize
  have hmem := Multiset.mem_cons_self (q.heap 1, f) M'
  have htop : First f t (topDoc q) := h.first _ hmem
  obtain ⟨V, hv⟩ := Option.isSome_iff_exists.1 htop.isSome
  obtain ⟨hscore, x', hqueued, hx', hdoc, hleft⟩ := topScore_spec h.queued rfl hv
  have hfirst : ∀ y ∈ M', y.1._doc = topDoc q ∨ First y.2 (topDoc q + 1) y.1._doc := by
    intro y hy
    have hy' : y ∈ (q.heap 1, f) ::ₘ M' := Multiset.mem_cons_of_mem hy
    have hle := h.queued.topDoc_le hy'
    rcases hle.eq_or_lt with heq | hlt
    · exact Or.inl heq.symm
    · refine Or.inr ⟨⟨by omega, (h.first y hy').isSome⟩, fun e he => ?_⟩
      exact (h.first y hy').le_of (by have := he.1; have := htop.le; omega) he.2
  have hahead : Ahead F ((x', f) ::ₘ M') (topDoc q + 1) := by
    intro e he
    rw [h.ahead e (by have := htop.le; omega), Multiset.map_cons, Multiset.map_cons]
  have hV : scoresAt F (topDoc q) = {V} + pending M' (topDoc q) := by
    have htop' : (q.heap 1, f).1._doc = topDoc q := rfl
    rw [h.at_top htop.le, pending_cons_eq htop' hv, Multiset.singleton_add]
  obtain ⟨hready, hresult, hleft'⟩ := advanceLoop_spec (.cons hscore .nil) hqueued hx' hdoc hfirst hahead hV le_rfl
  rw [Multiset.cons_zero, Multiset.card_singleton, List.foldl_nil] at hready hresult hleft'
  exact ⟨htop.le, hready, hresult, lt_of_lt_of_le hleft' hleft⟩

variable [Inhabited σ]

/-- What the scorer and the document on which it stands have in common. -/
structure At (fs : List (ℤ → Option (Set ρ))) (m : ℕ) (D : DisjunctionSumScorer σ ρ) (c : ℤ) : Prop where
  minimum : D.minimumNrMatchers = m
  ready : ∃ M, Ready (.ofList fs) (c + 1) D.queue M
  currentDoc : D.currentDoc = c
  left : ScorerDocQueue.left D.queue ≤ Cursor.left D
  score : m ≤ (scoresAt (.ofList fs) c).card → D.currentScore ∈ sums (scoresAt (.ofList fs) c) ∧
    D._nrMatchers = (scoresAt (.ofList fs) c).card

/-- **The outer loop**: the next document that enough scorers visit. -/
theorem advanceAfterCurrent_spec {n : ℕ} (h : Ready (.ofList fs) t q M) (hmin : D.minimumNrMatchers = m) (hm : 0 < m)
    (hsize : m ≤ q.size) (hn : ScorerDocQueue.left q ≤ n) :
    Lands (disjunction m fs) (At fs m) t (ScorerDocQueue.left q) (advanceAfterCurrent n D q) := by
  induction n generalizing q M t D with
  | zero =>
    obtain ⟨f, M', rfl⟩ := h.queued.top (by omega)
    rw [h.queued.left_eq, Multiset.map_cons, Multiset.sum_cons] at hn
    omega
  | succ n ih =>
    obtain ⟨hle, ⟨M', hready⟩, hresult, hleft⟩ := advanceTop_spec h (by omega)
    unfold advanceAfterCurrent
    dsimp only at hready hresult hleft ⊢
    generalize advanceLoop (ScorerDocQueue.left (topScore q).2) (topScore q).2 (topDoc q) (topScore q).1 1 = a
      at hready hresult hleft ⊢
    obtain ⟨hsum, hcard⟩ := hresult
    have hbefore : ∀ e, t ≤ e → e < topDoc q → disjunction m fs e = none := by
      intro e he hlt
      refine disjunction_none ?_
      rw [h.before he hlt, Multiset.card_zero]
      exact hm
    by_cases henough : a.2.2 ≥ D.minimumNrMatchers
    · rw [if_pos henough]
      refine ⟨fun _ => ⟨?_, hleft, hmin, ⟨M', hready⟩, rfl, le_rfl, fun _ => ⟨hsum, hcard⟩⟩, fun h => by simp at h⟩
      refine ⟨⟨hle, disjunction_isSome.2 (show m ≤ (scoresAt (.ofList fs) (topDoc q)).card by omega)⟩, fun e he => ?_⟩
      by_contra hlt
      have hnone := he.2
      rw [hbefore e he.1 (not_le.1 hlt)] at hnone
      cases hnone
    rw [if_neg henough]
    -- the document is passed, as too few scorers match it
    have hfew : disjunction m fs (topDoc q) = none := by
      refine disjunction_none ?_
      rw [← hmin, ← hcard]
      exact not_le.1 henough
    have hbefore' : ∀ e, t ≤ e → e < topDoc q + 1 → disjunction m fs e = none := by
      intro e he hlt
      rcases (Int.lt_add_one_iff.1 hlt).eq_or_lt with rfl | hlt
      · exact hfew
      · exact hbefore e he hlt
    by_cases hsize' : a.1.size < D.minimumNrMatchers
    · rw [if_pos hsize']
      refine ⟨fun h => by simp at h, fun _ e he => ?_⟩
      by_cases hlt : e < topDoc q + 1
      · exact hbefore' e he hlt
      · exact disjunction_none ((hready.card_le (not_lt.1 hlt)).trans_lt (by omega))
    · rw [if_neg hsize']
      have hlands := ih (D := { D with
        scorerDocQueue := some a.1, currentDoc := topDoc q, currentScore := a.2.1, _nrMatchers := a.2.2 })
        hready hmin (by omega) (by omega)
      refine ⟨fun hr => ?_, fun hr e he => ?_⟩
      · obtain ⟨hfirst, hleft', hat⟩ := hlands.found hr
        exact ⟨hfirst.of_none (by omega) hbefore', by omega, hat⟩
      · by_cases hlt : e < topDoc q + 1
        · exact hbefore' e he hlt
        · exact hlands.exhausted hr e (not_lt.1 hlt)

/-- **The loop of `skipTo`**: the scorers before the target go on to it, one after the other. -/
theorem skipLoop_spec {n : ℕ} (h : Queued q M) (hfirst : ∀ y ∈ M, y.1._doc < t ∨ First y.2 t y.1._doc)
    (hahead : Ahead (.ofList fs) M t)
    (hmin : D.minimumNrMatchers = m) (hm : 0 < m) (hsize : m ≤ q.size) (hn : ScorerDocQueue.left q ≤ n) :
    Lands (disjunction m fs) (At fs m) t (ScorerDocQueue.left q) (skipLoop t n D q) := by
  induction n generalizing q M with
  | zero =>
    obtain ⟨f, M', rfl⟩ := h.top (by omega)
    rw [h.left_eq, Multiset.map_cons, Multiset.sum_cons] at hn
    omega
  | succ n ih =>
    unfold skipLoop
    by_cases htop : topDoc q ≥ t
    · rw [if_pos htop]
      -- the top is not before the target, and neither are the others
      have hready : Ready (.ofList fs) t q M := by
        refine ⟨h, fun y hy => ?_, hahead⟩
        have hle := h.topDoc_le hy
        exact (hfirst y hy).resolve_left (by omega)
      exact advanceAfterCurrent_spec hready hmin hm hsize le_rfl
    rw [if_neg htop]
    obtain ⟨f, M', rfl⟩ := h.top (by omega)
    have hlands : Lands f (Visits f) t (Cursor.left (q.heap 1)._scorer) (Cursor.skipTo (q.heap 1)._scorer t) :=
      Visits.skipTo (h.visits _ (Multiset.mem_cons_self _ _)) (not_le.1 htop)
    obtain ⟨hfound, hgone, hr, hleft⟩ := topMove_spec h rfl hlands
    have hrest : ∀ y ∈ M', y.1._doc < t ∨ First y.2 t y.1._doc := fun y hy => hfirst y (Multiset.mem_cons_of_mem hy)
    have hcard := h.card
    rw [Multiset.card_cons] at hcard
    dsimp only
    change _ → Queued (topSkipToAndAdjustElsePop q t).2 _ ∧ _ at hfound
    change _ → Queued (topSkipToAndAdjustElsePop q t).2 _ ∧ _ at hgone
    change (topSkipToAndAdjustElsePop q t).1 = _ at hr
    change ScorerDocQueue.left (topSkipToAndAdjustElsePop q t).2 < _ at hleft
    generalize topSkipToAndAdjustElsePop q t = r at hfound hgone hr hleft ⊢
    rw [hr]
    cases hskip : (Cursor.skipTo (q.heap 1)._scorer t).1 with
    | true =>
      obtain ⟨hqueued, hf⟩ := hfound hskip
      have hsize' := hqueued.card
      rw [Multiset.card_cons] at hsize'
      rw [if_neg (by simp)]
      refine (ih hqueued ?_ ?_ (by omega) (by omega)).mono (fun _ _ h => h) hleft.le
      · intro y hy
        rcases Multiset.mem_cons.1 hy with rfl | hy
        · exact Or.inr hf
        · exact hrest y hy
      · intro e he
        rw [hahead e he, Multiset.map_cons, Multiset.map_cons]
    | false =>
      obtain ⟨hqueued, hnone⟩ := hgone hskip
      have hahead' : Ahead (.ofList fs) M' t := by
        intro e he
        rw [hahead e he, Multiset.map_cons, scoresAt_cons_none (hnone e he)]
      by_cases hfew : r.2.size < D.minimumNrMatchers
      · rw [if_pos (by simpa using hfew)]
        refine ⟨fun h => by simp at h, fun _ e he => disjunction_none ?_⟩
        have hle : (scoresAt (.ofList fs) e).card ≤ M'.card := by
          rw [hahead' e he, ← Multiset.card_map Prod.snd M']
          exact card_scoresAt_le
        have := hqueued.card
        omega
      · rw [if_neg (by simpa using hfew)]
        exact (ih hqueued hrest hahead' (by omega) (by omega)).mono (fun _ _ h => h) hleft.le

omit [FloatT ρ] [Inhabited σ] in
/-- A scorer that has a document is put into the queue. -/
theorem Ready.put {f : ℤ → Option (Set ρ)} {x : HeapedScorerDoc σ} (h : Ready F t q M) (hs : Visits f x._scorer x._doc)
    (hfirst : First f t x._doc) : Ready (f ::ₘ F) t (q.put lessThan x) ((x, f) ::ₘ M) := by
  obtain ⟨hord, hcontents⟩ := Heap.put_spec (x := x) weakOrder_lessThan h.queued.ordered
  refine ⟨⟨hord, ?_, ?_, ?_⟩, ?_, ?_⟩
  · rw [hcontents, h.queued.contents, Multiset.map_cons]
  · exact fun y hy => (Multiset.mem_cons.1 hy).elim (fun hy => hy ▸ hs) (h.queued.visits y)
  · exact fun y hy => (Multiset.mem_cons.1 hy).elim (fun hy => hy ▸ hfirst.isSome) (h.queued.isSome y)
  · exact fun y hy => (Multiset.mem_cons.1 hy).elim (fun hy => hy ▸ hfirst) (h.first y)
  · intro d hd
    rw [Multiset.map_cons]
    cases hv : f d with
    | none => rw [scoresAt_cons_none hv, scoresAt_cons_none hv, h.ahead d hd]
    | some v => rw [scoresAt_cons_some hv, scoresAt_cons_some hv, h.ahead d hd]

omit [FloatT ρ] [Inhabited σ] in
/-- One that has none is left out. -/
theorem Ready.leave {f : ℤ → Option (Set ρ)} (h : Ready F t q M) (hnone : ∀ d, t ≤ d → f d = none) : Ready (f ::ₘ F) t q M := by
  refine ⟨h.queued, h.first, fun d hd => ?_⟩
  rw [scoresAt_cons_none (hnone d hd), h.ahead d hd]

omit [FloatT ρ] in
/-- **The queue at the start** holds each scorer that has a document, on its first one. -/
theorem initScorerDocQueue_spec {es : Entries σ ρ} (hon : es.On (-1)) :
    ∃ M, Ready (.ofList (es.map Prod.snd)) 0 (initScorerDocQueue (es.map Prod.fst)) M ∧
      ScorerDocQueue.left (initScorerDocQueue (es.map Prod.fst)) ≤ (es.map fun e => Cursor.left e.1 + 1).sum := by
  unfold initScorerDocQueue
  -- some have been put in
  have hrun : ∀ (max : ℕ) (F : Multiset (ℤ → Option (Set ρ))) (q : Heap (HeapedScorerDoc σ)) (M : Queue σ ρ), Ready F 0 q M →
      q.size + es.length ≤ max → ∃ M', Ready (F + (.ofList (es.map Prod.snd))) 0 ((es.map Prod.fst).foldl (fun q scorer =>
        let r := Cursor.next scorer
        if r.1 then (ScorerDocQueue.insert max q r.2).2 else q) q) M' ∧
      ScorerDocQueue.left ((es.map Prod.fst).foldl (fun q scorer =>
        let r := Cursor.next scorer
        if r.1 then (ScorerDocQueue.insert max q r.2).2 else q) q) ≤
        ScorerDocQueue.left q + (es.map fun e => Cursor.left e.1 + 1).sum := by
    intro max
    induction es with
    | nil =>
      intro F q M h _
      exact ⟨M, by simpa using h, le_rfl⟩
    | cons e es ih =>
      intro F q M h hmax
      have hmax' : q.size + es.length + 1 ≤ max := hmax
      have hrest : Entries.On es (-1) := fun x hx => hon x (List.mem_cons_of_mem _ hx)
      have hnext := Visits.next (hon e List.mem_cons_self)
      have hF : F + (.ofList ((e :: es).map Prod.snd)) = (e.2 ::ₘ F) + (.ofList (es.map Prod.snd)) := by
        rw [List.map_cons, ← Multiset.cons_coe, Multiset.add_cons, Multiset.cons_add]
      rw [hF, List.map_cons, List.foldl_cons, List.map_cons, List.sum_cons]
      dsimp only
      cases hr : (Cursor.next e.1).1 with
      | true =>
        rw [if_pos rfl]
        obtain ⟨hfirst, hleft, hs⟩ := hnext.found hr
        have hput : ScorerDocQueue.insert max q (Cursor.next e.1).2 =
            (true, q.put lessThan ⟨(Cursor.next e.1).2, Cursor.doc (Cursor.next e.1).2⟩) := if_pos (by omega)
        rw [hput]
        set x : HeapedScorerDoc σ := ⟨(Cursor.next e.1).2, Cursor.doc (Cursor.next e.1).2⟩ with hx
        have hready : Ready (e.2 ::ₘ F) 0 (q.put lessThan x) ((x, e.2) ::ₘ M) := h.put hs hfirst
        have hleft' := hready.queued.left_eq
        rw [Multiset.map_cons, Multiset.sum_cons, ← h.queued.left_eq] at hleft'
        have hsize : (q.put lessThan x).size = q.size + 1 := rfl
        obtain ⟨M', hM', hle⟩ := ih hrest _ _ _ hready (by omega)
        have hscorer : x._scorer = (Cursor.next e.1).2 := rfl
        rw [hscorer] at hleft'
        exact ⟨M', hM', hle.trans (by omega)⟩
      | false =>
        rw [if_neg (by simp)]
        obtain ⟨M', hM', hle⟩ := ih hrest _ _ _ (h.leave (hnext.exhausted hr)) (by omega)
        exact ⟨M', hM', hle.trans (by omega)⟩
  have hempty : Ready 0 0 (⟨0, fun _ => default⟩ : Heap (HeapedScorerDoc σ)) 0 :=
    ⟨⟨fun i hi hin => absurd hin (by simp only; omega), rfl, by simp, by simp⟩, by simp, fun _ _ => rfl⟩
  obtain ⟨M, hready, hleft⟩ := hrun (es.map Prod.fst).length 0 _ 0 hempty (by simp)
  rw [zero_add] at hready
  exact ⟨M, hready, by simpa [ScorerDocQueue.left, Heap.contents, Heap.elems_zero] using hleft⟩

theorem at_new {es : Entries σ ρ} (hon : es.On (-1)) (hnone : disjunction m (es.map Prod.snd) (-1) = none) :
    At (es.map Prod.snd) m (DisjunctionSumScorer.construct (es.map Prod.fst) m) (-1) := by
  obtain ⟨M, hready, hleft⟩ := initScorerDocQueue_spec hon
  refine ⟨rfl, ⟨M, hready⟩, rfl, ?_, fun hm => ?_⟩
  · show ScorerDocQueue.left (initScorerDocQueue (es.map Prod.fst)) ≤ ((es.map Prod.fst).map fun s => Cursor.left s + 1).sum
    rw [List.map_map]
    exact hleft
  · have hsome := disjunction_isSome.2 hm
    rw [hnone] at hsome
    cases hsome

/-- **The scorer visits the documents that enough of its scorers visit.** -/
theorem at_closed (hm : 0 < m) : Closed (disjunction m fs) (At fs m : DisjunctionSumScorer σ ρ → ℤ → Prop) where
  doc h _ := h.currentDoc
  value := by
    intro D c V h hv
    refine ⟨?_, h, le_rfl⟩
    have hsome := disjunction_isSome.1 (Option.isSome_iff_exists.2 ⟨V, hv⟩)
    rw [disjunction_eq, if_pos hsome, Option.some_inj] at hv
    rw [← hv]
    exact (h.score hsome).1
  next := by
    intro D c h
    obtain ⟨M, hready⟩ := h.ready
    show Lands _ _ _ _ (DisjunctionSumScorer.next D)
    unfold DisjunctionSumScorer.next
    by_cases hsize : D.queue.size ≥ D.minimumNrMatchers
    · rw [if_pos hsize]
      exact (advanceAfterCurrent_spec hready h.minimum hm (by rw [← h.minimum]; exact hsize) le_rfl).mono
        (fun _ _ h => h) h.left
    · rw [if_neg hsize]
      refine ⟨fun h => by simp at h, fun _ e he => disjunction_none ((hready.card_le he).trans_lt ?_)⟩
      rw [← h.minimum]
      exact not_le.1 hsize
  skipTo := by
    intro D c t h ht
    obtain ⟨M, hready⟩ := h.ready
    show Lands _ _ _ _ (DisjunctionSumScorer.skipTo D t)
    unfold DisjunctionSumScorer.skipTo
    by_cases hsize : D.queue.size < D.minimumNrMatchers
    · rw [if_pos hsize]
      refine ⟨fun h => by simp at h, fun _ e he => disjunction_none ((hready.card_le (by omega)).trans_lt ?_)⟩
      rw [← h.minimum]
      exact hsize
    rw [if_neg hsize, if_neg (by rw [h.currentDoc]; omega)]
    have hfirst : ∀ y ∈ M, y.1._doc < t ∨ First y.2 t y.1._doc := by
      intro y hy
      rcases lt_or_ge y.1._doc t with hlt | hge
      · exact Or.inl hlt
      · exact Or.inr ⟨⟨hge, (hready.first y hy).isSome⟩, fun e he => (hready.first y hy).le_of (by have := he.1; omega) he.2⟩
    have hahead : Ahead (.ofList fs) M t := fun e he => hready.ahead e (by omega)
    exact (skipLoop_spec hready.queued hfirst hahead h.minimum hm (by have := h.minimum; omega) le_rfl).mono
      (fun _ _ h => h) h.left

end DisjunctionSumScorer

end QDesktopSearch
