import QDesktopSearch.Lib.Sums
import QDesktopSearch.Model.BooleanScorer

/-!
# Conjunctions

`ConjunctionScorer` visits the documents that all its scorers visit.

* `doNextLoop_spec`: the loop ends on the first document of all scorers.
* `init_spec`, `moveLast_spec`: so do the first call and the later ones.
* `at_closed`: the scorer keeps to the conjunction.
-/

namespace QDesktopSearch

open Cursor

variable {σ ρ : Type*} [Cursor σ ρ] {fs : List (ℤ → Option (Set ρ))} {f : ℤ → Option (Set ρ)} {s : σ} {c d t : ℤ}

theorem leftOf_append {A B : List σ} : leftOf (A ++ B) = leftOf A + leftOf B := by simp [leftOf]

theorem leftOf_cons {A : List σ} : leftOf (s :: A) = left s + leftOf A := by simp [leftOf]

theorem leftOf_perm {A B : List σ} (h : A.Perm B) : leftOf A = leftOf B := (h.map _).sum_eq

variable [FloatT ρ]

/-- The sums of the values, times `coord`, where every function has one. -/
def conjunction (fs : List (ℤ → Option (Set ρ))) (d : ℤ) : Option (Set ρ) :=
  if fs.all fun f => (f d).isSome then some ((· * coord fs.length fs.length) '' sumsFrom 0 (fs.filterMap (· d))) else none

theorem conjunction_isSome : (conjunction fs d).isSome = true ↔ ∀ f ∈ fs, (f d).isSome = true := by
  unfold conjunction
  split
  · rename_i h
    exact iff_of_true rfl (List.all_eq_true.1 h)
  · rename_i h
    exact iff_of_false (by simp) (mt List.all_eq_true.2 h)

theorem conjunction_eq_none (hf : f ∈ fs) (h : f d = none) : conjunction fs d = none := by
  rw [← Option.not_isSome_iff_eq_none, conjunction_isSome]
  intro hall
  have hsome := hall f hf
  rw [h] at hsome
  cases hsome

theorem conjunction_perm {fs' : List (ℤ → Option (Set ρ))} (h : fs.Perm fs') : conjunction fs d = conjunction fs' d := by
  unfold conjunction
  have hall : (fs.all fun f => (f d).isSome) = fs'.all fun f => (f d).isSome := by
    rw [Bool.eq_iff_iff, List.all_eq_true, List.all_eq_true]
    exact ⟨fun hf f hmem => hf f (h.mem_iff.2 hmem), fun hf f hmem => hf f (h.mem_iff.1 hmem)⟩
  rw [hall, h.length_eq, Multiset.coe_eq_coe.2 (h.filterMap _)]

/-- Scorers, with what they visit. -/
abbrev Entries (σ ρ : Type*) := List (σ × (ℤ → Option (Set ρ)))

/-- All scorers stand on the document. -/
def Entries.On (es : Entries σ ρ) (d : ℤ) : Prop := ∀ e ∈ es, Visits e.2 e.1 d

namespace ConjunctionScorer

/-- A scorer on a document. -/
structure Stands (e : σ × (ℤ → Option (Set ρ))) : Prop where
  visits : Visits e.2 e.1 (Cursor.doc e.1)
  isSome : (e.2 (Cursor.doc e.1)).isSome = true

omit [FloatT ρ] in
theorem stands_of_lands {n : ℕ} {r : Bool × σ} (h : Lands f (Visits f) t n r) (hr : r.1 = true) : Stands (r.2, f) :=
  ⟨(h.found hr).2.2, (h.found hr).1.isSome⟩

/-- What the loop ends with: all scorers on the first document of all of them, or there is none. -/
structure Ends (fs : List (ℤ → Option (Set ρ))) (t : ℤ) (n : ℕ) (r : Bool × List σ × ℤ) : Prop where
  found : r.1 = true → First (conjunction fs) t r.2.2 ∧
    ∃ es : Entries σ ρ, es.map Prod.fst = r.2.1 ∧ es.map Prod.snd = fs ∧ es.On r.2.2 ∧ leftOf r.2.1 ≤ n
  exhausted : r.1 = false → ∀ e, t ≤ e → conjunction fs e = none

/-- The loop ends where all scorers stand on `lastDoc`. -/
theorem Ends.of_same {es : Entries σ ρ} {lastDoc : ℤ} (h : ∀ e ∈ es, Stands e ∧ Cursor.doc e.1 = lastDoc)
    (hfs : es.map Prod.snd = fs) (hbefore : ∀ e, t ≤ e → e < lastDoc → conjunction fs e = none) (ht : t ≤ lastDoc) :
    Ends fs t (leftOf (es.map Prod.fst)) (true, es.map Prod.fst, lastDoc) := by
  have hsome : (conjunction fs lastDoc).isSome = true := by
    rw [conjunction_isSome, ← hfs]
    intro f hf
    obtain ⟨e, he, rfl⟩ := List.mem_map.1 hf
    rw [← (h e he).2]
    exact (h e he).1.isSome
  refine ⟨fun _ => ⟨⟨⟨ht, hsome⟩, fun e he => ?_⟩, es, rfl, hfs, fun e he => ?_, le_rfl⟩, fun hm => by simp at hm⟩
  · by_contra hlt
    have hsome' := he.2
    rw [hbefore e he.1 (not_le.1 hlt)] at hsome'
    cases hsome'
  · rw [← (h e he).2]
    exact (h e he).1.visits

omit [FloatT ρ] in
/-- A scorer that has been moved to `lastDoc` or past it comes last. -/
theorem stands_last {es : Entries σ ρ} {e : σ × (ℤ → Option (Set ρ))} {lastDoc : ℤ} (hstands : ∀ x ∈ es, Stands x)
    (hle : ∀ x ∈ es, Cursor.doc x.1 ≤ lastDoc) (hsorted : es.Pairwise fun x y => Cursor.doc x.1 ≤ Cursor.doc y.1)
    (he : Stands e) (hlast : lastDoc ≤ Cursor.doc e.1) :
    (∀ x ∈ es ++ [e], Stands x ∧ Cursor.doc x.1 ≤ Cursor.doc e.1) ∧
      (es ++ [e]).Pairwise fun x y => Cursor.doc x.1 ≤ Cursor.doc y.1 := by
  have hall : ∀ x ∈ es ++ [e], Stands x ∧ Cursor.doc x.1 ≤ Cursor.doc e.1 := by
    intro x hx
    rcases List.mem_append.1 hx with hx | hx
    · exact ⟨hstands x hx, (hle x hx).trans hlast⟩
    · rw [List.mem_singleton.1 hx]
      exact ⟨he, le_rfl⟩
  refine ⟨hall, List.pairwise_append.2 ⟨hsorted, List.pairwise_singleton _ _, fun x hx y hy => ?_⟩⟩
  rw [List.mem_singleton.1 hy]
  exact (hall x (List.mem_append_left _ hx)).2

/-- **The loop of `doNext`**, with the scorers before `first` in `A` and the others in `B`. Turned so
that `first` comes first they are in order, and none has passed `lastDoc`. -/
theorem doNextLoop_spec {n : ℕ} {A B : Entries σ ρ} {lastDoc : ℤ} (hstands : ∀ e ∈ B ++ A, Stands e) (hne : B ≠ [])
    (hsorted : (B ++ A).Pairwise fun x y => Cursor.doc x.1 ≤ Cursor.doc y.1)
    (hle : ∀ e ∈ B ++ A, Cursor.doc e.1 ≤ lastDoc) (hfs : (A ++ B).map Prod.snd = fs)
    (hbefore : ∀ e, t ≤ e → e < lastDoc → conjunction fs e = none) (ht : t ≤ lastDoc)
    (hn : leftOf ((A ++ B).map Prod.fst) < n) :
    Ends fs t (leftOf ((A ++ B).map Prod.fst)) (doNextLoop n ((A ++ B).map Prod.fst) A.length lastDoc) := by
  induction n generalizing A B lastDoc with
  | zero => omega
  | succ n ih =>
    obtain _ | ⟨⟨b, f⟩, B⟩ := B
    · exact absurd rfl hne
    have hget : ((A ++ (b, f) :: B).map Prod.fst)[A.length]? = some b := by simp
    have hb : Stands (b, f) := hstands _ (by simp)
    have hf : f ∈ fs := by rw [← hfs]; simp
    unfold doNextLoop
    rw [hget]
    dsimp only
    by_cases hlt : Cursor.doc b < lastDoc
    · rw [if_pos hlt]
      have hskip := hb.visits.skipTo hlt
      cases hr : (Cursor.skipTo b lastDoc).1 with
      | false =>
        rw [if_neg (by simp)]
        refine ⟨fun h => by simp at h, fun _ e he => ?_⟩
        by_cases hlast : e < lastDoc
        · exact hbefore e he hlast
        · exact conjunction_eq_none hf (hskip.exhausted hr e (by omega))
      | true =>
        rw [if_pos rfl]
        obtain ⟨hfirst, hleft, -⟩ := hskip.found hr
        have hstands' := stands_of_lands hskip hr
        dsimp only at hfirst hleft hstands'
        generalize Cursor.skipTo b lastDoc = r at hfirst hleft hstands' ⊢
        have hset : ((A ++ (b, f) :: B).map Prod.fst).set A.length r.2 = (A ++ (r.2, f) :: B).map Prod.fst := by simp
        have hfs' : (A ++ (r.2, f) :: B).map Prod.snd = fs := by rw [← hfs]; simp
        have hbefore' : ∀ e, t ≤ e → e < Cursor.doc r.2 → conjunction fs e = none := by
          intro e he hlt'
          by_cases hlast : e < lastDoc
          · exact hbefore e he hlast
          · exact conjunction_eq_none hf (hfirst.none_before (by omega) hlt')
        -- the one that has been moved comes last now
        obtain ⟨hturned, hsorted'⟩ := stands_last (fun x hx => hstands x (List.mem_cons_of_mem _ hx))
          (fun x hx => hle x (List.mem_cons_of_mem _ hx)) (List.pairwise_cons.1 hsorted).2 hstands' hfirst.le
        have hleft' : leftOf ((A ++ (r.2, f) :: B).map Prod.fst) < leftOf ((A ++ (b, f) :: B).map Prod.fst) := by
          simp only [List.map_append, List.map_cons, leftOf_append, leftOf_cons]
          omega
        suffices h : Ends fs t (leftOf ((A ++ (r.2, f) :: B).map Prod.fst)) (doNextLoop n ((A ++ (r.2, f) :: B).map Prod.fst)
            (if A.length = ((A ++ (b, f) :: B).map Prod.fst).length - 1 then 0 else A.length + 1) (Cursor.doc r.2)) by
          rw [hset]
          refine ⟨fun hm => ?_, h.exhausted⟩
          obtain ⟨hfound, es, hes, hsnd, hon, hes'⟩ := h.found hm
          exact ⟨hfound, es, hes, hsnd, hon, hes'.trans hleft'.le⟩
        obtain _ | ⟨b', B⟩ := B
        · -- the last of the array: it goes on at the beginning
          rw [if_pos (by simp)]
          refine ih (A := []) (B := A ++ [(r.2, f)]) ?_ (by simp) ?_ ?_ hfs' hbefore' (ht.trans hfirst.le) ?_
          · simpa using fun e he => (hturned e he).1
          · simpa using hsorted'
          · simpa using fun e he => (hturned e he).2
          · exact Nat.lt_of_lt_of_le hleft' (Nat.le_of_lt_succ hn)
        · have hmid : A.length ≠ ((A ++ (b, f) :: b' :: B).map Prod.fst).length - 1 := by
            simp only [List.length_map, List.length_append, List.length_cons]
            omega
          have happend : A ++ (r.2, f) :: b' :: B = (A ++ [(r.2, f)]) ++ b' :: B := by simp
          have hlength : A.length + 1 = (A ++ [(r.2, f)]).length := by simp
          rw [if_neg hmid, hlength]
          rw [happend] at hfs' hleft' ⊢
          refine ih ?_ (by simp) ?_ ?_ hfs' hbefore' (ht.trans hfirst.le) (Nat.lt_of_lt_of_le hleft' (Nat.le_of_lt_succ hn))
          · rw [← List.append_assoc]
            exact fun e he => (hturned e he).1
          · rwa [← List.append_assoc]
          · rw [← List.append_assoc]
            exact fun e he => (hturned e he).2
    · -- the scorers are in order, and so they all stand on `lastDoc`
      rw [if_neg hlt]
      refine Ends.of_same (fun e he => ?_) hfs hbefore ht
      have hmem : e ∈ (b, f) :: B ++ A := by
        rw [List.mem_append] at he ⊢
        exact he.symm
      refine ⟨hstands e hmem, le_antisymm (hle e hmem) ?_⟩
      rcases List.mem_cons.1 hmem with rfl | hmem
      · exact not_lt.1 hlt
      · exact (not_lt.1 hlt).trans ((List.pairwise_cons.1 hsorted).1 e hmem)

/-- Where a call has led. -/
structure Found (fs : List (ℤ → Option (Set ρ))) (t : ℤ) (n : ℕ) (r : Bool × ConjunctionScorer σ) : Prop where
  found : r.1 = true → First (conjunction fs) t r.2.lastDoc ∧ r.2.firstTime = false ∧ r.2.more = true ∧
    leftOf r.2.scorers < n ∧ ∃ es : Entries σ ρ, es.map Prod.fst = r.2.scorers ∧ (es.map Prod.snd).Perm fs ∧ es.On r.2.lastDoc
  exhausted : r.1 = false → ∀ e, t ≤ e → conjunction fs e = none

/-- **`doNext`**, where the last scorer is ahead of the others. -/
theorem doNext_spec {c : ConjunctionScorer σ} {es : Entries σ ρ} {e : σ × (ℤ → Option (Set ρ))} (hmore : c.more = true)
    (hfirst : c.firstTime = false) (hscorers : (es ++ [e]).map Prod.fst = c.scorers)
    (hperm : ((es ++ [e]).map Prod.snd).Perm fs) (hstands : ∀ x ∈ es ++ [e], Stands x)
    (hsorted : (es ++ [e]).Pairwise fun x y => Cursor.doc x.1 ≤ Cursor.doc y.1)
    (hbefore : ∀ d, t ≤ d → d < Cursor.doc e.1 → conjunction fs d = none) (ht : t ≤ Cursor.doc e.1) :
    Found fs t (leftOf c.scorers + 1) c.doNext := by
  have hlast : c.scorers.getLast? = some e.1 := by simp [← hscorers]
  have hle : ∀ x ∈ es ++ [e], Cursor.doc x.1 ≤ Cursor.doc e.1 := by
    intro x hx
    rcases List.mem_append.1 hx with hx | hx
    · exact (List.pairwise_append.1 hsorted).2.2 x hx e (List.mem_singleton_self e)
    · rw [List.mem_singleton.1 hx]
  have hconj : ∀ d, conjunction ((es ++ [e]).map Prod.snd) d = conjunction fs d := fun d => conjunction_perm hperm
  have h := doNextLoop_spec (A := []) (B := es ++ [e]) (n := leftOf c.scorers + 1) (t := t) (by simpa using hstands)
    (by simp) (by simpa using hsorted) (by simpa using hle) rfl
    (fun d hd hlt => by rw [List.nil_append, hconj]; exact hbefore d hd hlt) ht (by simp [← hscorers])
  rw [List.nil_append, hscorers, List.length_nil] at h
  unfold doNext
  rw [if_pos hmore, hlast]
  dsimp only
  refine ⟨fun hr => ?_, fun hr d hd => ?_⟩
  · obtain ⟨hfound, es', hes, hsnd, hon, hleft⟩ := h.found hr
    refine ⟨(first_congr fun d _ => hconj d).1 hfound, hfirst, hr, Nat.lt_succ_of_le hleft, es', hes, ?_, hon⟩
    rw [hsnd]
    exact hperm
  · rw [← hconj]
    exact h.exhausted hr d hd

/-- The loop of `init` brings each scorer to its first document. -/
theorem initLoop_spec {es : Entries σ ρ} (hon : es.On (-1)) (ht : -1 < t) :
    ((initLoop t (es.map Prod.fst)).1 = true → ∃ es' : Entries σ ρ, es'.map Prod.fst = (initLoop t (es.map Prod.fst)).2 ∧
      es'.map Prod.snd = es.map Prod.snd ∧ (∀ x ∈ es', Stands x ∧ First x.2 t (Cursor.doc x.1)) ∧
      leftOf (es'.map Prod.fst) + es.length ≤ leftOf (es.map Prod.fst)) ∧
    ((initLoop t (es.map Prod.fst)).1 = false → ∀ d, t ≤ d → conjunction (es.map Prod.snd) d = none) := by
  induction es with
  | nil => exact ⟨fun _ => ⟨[], rfl, rfl, by simp, by simp [leftOf]⟩, fun h => by simp [initLoop] at h⟩
  | cons e es ih =>
    obtain ⟨s, f⟩ := e
    have hs : Visits f s (-1) := hon (s, f) List.mem_cons_self
    have ih := ih fun x hx => hon x (List.mem_cons_of_mem _ hx)
    have hlands : Lands f (Visits f) t (left s) (if t = 0 then Cursor.next s else Cursor.skipTo s t) := by
      split
      · rename_i h0
        rw [h0]
        exact hs.next
      · exact hs.skipTo ht
    simp only [List.map_cons, initLoop]
    generalize (if t = 0 then Cursor.next s else Cursor.skipTo s t) = r at hlands ⊢
    cases hr : r.1 with
    | false =>
      simp only [Bool.false_eq_true, if_false, false_imp_iff, true_and]
      exact fun _ d hd => conjunction_eq_none List.mem_cons_self (hlands.exhausted hr d hd)
    | true =>
      obtain ⟨hfirst, hleft, -⟩ := hlands.found hr
      simp only [if_true]
      refine ⟨fun hq => ?_, fun hq d hd => ?_⟩
      · obtain ⟨es', hes, hsnd, hstands, hleft'⟩ := ih.1 hq
        refine ⟨(r.2, f) :: es', by rw [List.map_cons, hes], by rw [List.map_cons, hsnd], ?_, ?_⟩
        · rintro x (_ | ⟨_, hx⟩)
          · exact ⟨stands_of_lands hlands hr, hfirst⟩
          · exact hstands x hx
        · simp only [List.map_cons, leftOf_cons, List.length_cons]
          omega
      · have hnone := ih.2 hq d hd
        rw [← Option.not_isSome_iff_eq_none, conjunction_isSome] at hnone ⊢
        exact fun hall => hnone fun g hg => hall g (List.mem_cons_of_mem _ hg)

theorem swap_perm {α : Type*} {l : List α} {i j : ℕ} : (swap i j l).Perm l := by
  unfold swap
  split
  · rename_i a b hi hj
    obtain ⟨hi', rfl⟩ := List.getElem?_eq_some_iff.1 hi
    obtain ⟨hj', rfl⟩ := List.getElem?_eq_some_iff.1 hj
    exact List.set_set_perm hi' hj'
  · exact .refl _

theorem swap_map {α β : Type*} {f : α → β} {l : List α} {i j : ℕ} : swap i j (l.map f) = (swap i j l).map f := by
  unfold swap
  rw [List.getElem?_map, List.getElem?_map]
  cases l[i]? with
  | none => rfl
  | some a =>
    cases l[j]? with
    | none => rfl
    | some b => simp

theorem reverseOthers_perm {α : Type*} {l : List α} : (reverseOthers l).Perm l := by
  unfold reverseOthers
  dsimp only
  generalize List.range _ = is
  generalize l.length - 1 - 1 = last
  induction is generalizing l with
  | nil => rfl
  | cons i is ih => exact ih.trans swap_perm

theorem reverseOthers_map {α β : Type*} {f : α → β} {l : List α} : reverseOthers (l.map f) = (reverseOthers l).map f := by
  unfold reverseOthers
  dsimp only
  rw [List.length_map]
  generalize List.range _ = is
  generalize l.length - 1 - 1 = last
  induction is generalizing l with
  | nil => rfl
  | cons i is ih =>
    rw [List.foldl_cons, List.foldl_cons, swap_map, ih]

/-- **The first call.** -/
theorem init_spec {c : ConjunctionScorer σ} {es : Entries σ ρ} (hne : es ≠ []) (hscorers : es.map Prod.fst = c.scorers)
    (hon : es.On (-1)) (ht : -1 < t) :
    Found (es.map Prod.snd) t (leftOf c.scorers) (c.init t) := by
  have hinit := initLoop_spec hon ht
  rw [hscorers] at hinit
  unfold init
  dsimp only
  cases hr : (initLoop t c.scorers).1 with
  | false =>
    rw [if_neg (by simp)]
    exact ⟨fun h => by simp at h, fun _ => hinit.2 hr⟩
  | true =>
    rw [if_pos rfl]
    obtain ⟨es', hes, hsnd, hstands, hleft⟩ := hinit.1 hr
    -- the scorers are sorted, the last of them is the farthest
    set le : σ × (ℤ → Option (Set ρ)) → σ × (ℤ → Option (Set ρ)) → Prop := fun x y => Cursor.doc x.1 ≤ Cursor.doc y.1
    have hperm : (es'.insertionSort le).Perm es' := List.perm_insertionSort le es'
    have hmap : (es'.insertionSort le).map Prod.fst =
        (initLoop t c.scorers).2.insertionSort fun x y => Cursor.doc x ≤ Cursor.doc y := by
      rw [← hes]
      exact List.map_insertionSort le _ Prod.fst es' fun _ _ _ _ => Iff.rfl
    have hsorted : (es'.insertionSort le).Pairwise le := by
      have : Std.Total le := ⟨fun x y => le_total _ _⟩
      have : IsTrans (σ × (ℤ → Option (Set ρ))) le := ⟨fun x y z => le_trans⟩
      exact List.pairwise_insertionSort le es'
    have hlength : es'.length = es.length := by
      have h := congrArg List.length hsnd
      simpa using h
    -- there is a last scorer, as there are scorers
    obtain hnil | ⟨init, e, hconcat⟩ := List.eq_nil_or_concat (es'.insertionSort le)
    · rw [hnil] at hperm
      have hzero := hperm.length_eq
      rw [hlength, List.length_nil] at hzero
      exact absurd (List.length_eq_zero_iff.1 hzero.symm) hne
    rw [List.concat_eq_append] at hconcat
    rw [hconcat] at hperm hmap hsorted
    have hfirst : ∀ x ∈ init ++ [e], Stands x ∧ First x.2 t (Cursor.doc x.1) := fun x hx => hstands x (hperm.mem_iff.1 hx)
    have he : e ∈ init ++ [e] := by simp
    have hsnd' : ((init ++ [e]).map Prod.snd).Perm (es.map Prod.snd) := by
      rw [← hsnd]
      exact hperm.map _
    have hq := doNext_spec (t := t)
      (c := { c with
        scorers := (initLoop t c.scorers).2.insertionSort fun x y => Cursor.doc x ≤ Cursor.doc y
        firstTime := false, more := true }) rfl rfl hmap hsnd'
      (fun x hx => (hfirst x hx).1) hsorted (fun d hd hlt => conjunction_eq_none (hsnd'.mem_iff.1 (List.mem_map_of_mem he))
        ((hfirst e he).2.none_before hd hlt)) (hfirst e he).2.le
    refine ⟨fun hq' => ?_, hq.exhausted⟩
    obtain ⟨hfound, hfirst', hmore, hleft', es'', hes'', hperm'', hon''⟩ := hq.found hq'
    refine ⟨hfound, hfirst', hmore, ?_, reverseOthers es'', ?_, ?_, ?_⟩
    · have hsame : leftOf ((initLoop t c.scorers).2.insertionSort fun x y => Cursor.doc x ≤ Cursor.doc y) =
          leftOf (es'.map Prod.fst) := by
        rw [← hmap]
        exact leftOf_perm (hperm.map _)
      -- reversing the others changes neither their documents nor what is left of them
      have hturned : leftOf (reverseOthers es''.unzip.1) = leftOf es''.unzip.1 := leftOf_perm reverseOthers_perm
      have hpos : 0 < es.length := List.length_pos_iff.2 hne
      simp only [List.unzip_fst] at hturned
      dsimp only at hleft' ⊢
      rw [← hes'', hturned, hes'']
      omega
    · dsimp only
      rw [← hes'', reverseOthers_map]
    · exact (reverseOthers_perm.map _).trans hperm''
    · exact fun x hx => hon'' x (reverseOthers_perm.mem_iff.1 hx)

/-- **The calls that move the last scorer on.** -/
theorem moveLast_spec {c : ConjunctionScorer σ} {es : Entries σ ρ} {move : σ → Bool × σ} (hmore : c.more = true)
    (hfirst : c.firstTime = false) (hne : es ≠ []) (hscorers : es.map Prod.fst = c.scorers)
    (hperm : (es.map Prod.snd).Perm fs) (hstands : ∀ x ∈ es, Stands x ∧ Cursor.doc x.1 = d) (ht : d < t)
    (hmove : ∀ s f, Visits f s d → Lands f (Visits f) t (left s) (move s)) :
    Found fs t (leftOf c.scorers) (c.moveLast move).doNext := by
  obtain hnil | ⟨es, e, rfl⟩ := List.eq_nil_or_concat es
  · exact absurd hnil hne
  rw [List.concat_eq_append] at hscorers hperm hstands
  obtain ⟨s, f⟩ := e
  have hlast : c.scorers.getLast? = some s := by simp [← hscorers]
  have hs : Visits f s d := by
    obtain ⟨h, hdoc⟩ := hstands (s, f) (by simp)
    rw [← hdoc]
    exact h.visits
  have hlands := hmove s f hs
  have hf : f ∈ fs := hperm.mem_iff.1 (by simp)
  unfold moveLast
  rw [if_pos hmore, hlast]
  dsimp only
  generalize move s = r at hlands ⊢
  cases hr : r.1 with
  | false =>
    unfold doNext
    rw [if_neg (by simp)]
    exact ⟨fun h => by simp at h, fun _ d hd => conjunction_eq_none hf (hlands.exhausted hr d hd)⟩
  | true =>
    obtain ⟨hfound, hleft, -⟩ := hlands.found hr
    -- the others are all on one document, so that the array is still in order
    have hmoved := stands_of_lands hlands hr
    have hahead : ∀ x ∈ es, Cursor.doc x.1 ≤ Cursor.doc r.2 := by
      intro x hx
      have hdoc := (hstands x (List.mem_append_left _ hx)).2
      have hge := hfound.le
      omega
    have hscorers' : (es ++ [(r.2, f)]).map Prod.fst = c.scorers.dropLast ++ [r.2] := by simp [← hscorers]
    have hsorted : (es ++ [(r.2, f)]).Pairwise fun x y => Cursor.doc x.1 ≤ Cursor.doc y.1 := by
      rw [List.pairwise_append]
      refine ⟨?_, List.pairwise_singleton _ _, fun x hx y hy => ?_⟩
      · refine List.pairwise_of_forall_mem_list fun x hx y hy => ?_
        rw [(hstands x (List.mem_append_left _ hx)).2, (hstands y (List.mem_append_left _ hy)).2]
      · rw [List.mem_singleton.1 hy]
        exact hahead x hx
    have hall : ∀ x ∈ es ++ [(r.2, f)], Stands x := by
      intro x hx
      rcases List.mem_append.1 hx with hx | hx
      · exact (hstands x (List.mem_append_left _ hx)).1
      · rw [List.mem_singleton.1 hx]
        exact hmoved
    have hq := doNext_spec (c := { c with scorers := c.scorers.dropLast ++ [r.2], more := true }) (t := t) rfl hfirst hscorers'
      (by simpa using hperm) hall hsorted
      (fun d hd hlt => conjunction_eq_none hf (hfound.none_before hd hlt)) hfound.le
    -- the call on the last scorer is one that is no longer left
    have hfewer : leftOf (c.scorers.dropLast ++ [r.2]) < leftOf c.scorers := by
      rw [← hscorers]
      simp only [List.map_append, List.map_cons, List.map_nil, List.dropLast_concat, leftOf_append, leftOf_cons]
      omega
    refine ⟨fun hq' => ?_, hq.exhausted⟩
    obtain ⟨hfound', hfirst', hmore', hleft', hes⟩ := hq.found hq'
    exact ⟨hfound', hfirst', hmore', Nat.lt_of_lt_of_le hleft' hfewer, hes⟩

/-! ## The scorer -/

/-- Before the first call. -/
structure Fresh (fs : List (ℤ → Option (Set ρ))) (c : ConjunctionScorer σ) (d : ℤ) : Prop where
  new : c = .new c.scorers
  start : d = -1
  entries : ∃ es : Entries σ ρ, es.map Prod.fst = c.scorers ∧ es.map Prod.snd = fs ∧ es.On (-1)

/-- After a call that has found a document. -/
structure Running (fs : List (ℤ → Option (Set ρ))) (c : ConjunctionScorer σ) (d : ℤ) : Prop where
  firstTime : c.firstTime = false
  more : c.more = true
  lastDoc : c.lastDoc = d
  isSome : (conjunction fs d).isSome = true
  entries : ∃ es : Entries σ ρ, es.map Prod.fst = c.scorers ∧ (es.map Prod.snd).Perm fs ∧ es.On d

/-- A scorer on a document, or before the first one. -/
def At (fs : List (ℤ → Option (Set ρ))) (c : ConjunctionScorer σ) (d : ℤ) : Prop := Fresh fs c d ∨ Running fs c d

theorem At.length {c : ConjunctionScorer σ} (h : At fs c d) : c.scorers.length = fs.length := by
  obtain ⟨-, -, es, hes, hsnd, -⟩ | ⟨-, -, -, -, es, hes, hperm, -⟩ := h
  · rw [← hes, ← hsnd, List.length_map, List.length_map]
  · rw [← hes, ← hperm.length_eq, List.length_map, List.length_map]

theorem stands_of_on {es : Entries σ ρ} (h : (conjunction fs d).isSome = true) (hperm : (es.map Prod.snd).Perm fs)
    (hon : es.On d) : ∀ x ∈ es, Stands x ∧ Cursor.doc x.1 = d := by
  intro x hx
  have hsome : (x.2 d).isSome = true := conjunction_isSome.1 h x.2 (hperm.mem_iff.1 (List.mem_map_of_mem hx))
  have hdoc := (hon x hx).doc_eq hsome
  refine ⟨⟨?_, ?_⟩, hdoc⟩
  · rw [hdoc]
    exact hon x hx
  · rw [hdoc]
    exact hsome

theorem Found.lands {n : ℕ} {r : Bool × ConjunctionScorer σ} (h : Found fs t n r) : Lands (conjunction fs) (At fs) t n r where
  found hr := by
    obtain ⟨hfirst, hfirstTime, hmore, hleft, hes⟩ := h.found hr
    exact ⟨hfirst, hleft, Or.inr ⟨hfirstTime, hmore, rfl, hfirst.isSome, hes⟩⟩
  exhausted := h.exhausted

omit [FloatT ρ] in
/-- The scores of several scorers. -/
theorem scores_spec {es : Entries σ ρ} (hon : es.On d) (hsome : ∀ x ∈ es, (x.2 d).isSome = true) :
    List.Forall₂ (· ∈ ·) (scores (es.map Prod.fst)).1 ((es.map Prod.snd).filterMap (· d)) ∧
      ∃ es' : Entries σ ρ, es'.map Prod.fst = (scores (es.map Prod.fst)).2 ∧ es'.map Prod.snd = es.map Prod.snd ∧ es'.On d ∧
        leftOf (es'.map Prod.fst) ≤ leftOf (es.map Prod.fst) := by
  induction es with
  | nil => exact ⟨.nil, [], rfl, rfl, fun x hx => absurd hx List.not_mem_nil, le_rfl⟩
  | cons e es ih =>
    obtain ⟨s, f⟩ := e
    obtain ⟨hvalues, es', hes, hsnd, hon', hleft⟩ := ih (fun x hx => hon x (List.mem_cons_of_mem _ hx))
      fun x hx => hsome x (List.mem_cons_of_mem _ hx)
    obtain ⟨V, hv⟩ := Option.isSome_iff_exists.1 (hsome (s, f) List.mem_cons_self)
    obtain ⟨hvalue, hs, hleft'⟩ := Visits.value (hon (s, f) List.mem_cons_self) hv
    dsimp only at hv hvalue hs hleft'
    refine ⟨?_, ((value s).2, f) :: es', ?_, ?_, ?_, ?_⟩
    · simp only [scores, List.map_cons, List.unzip_cons, List.filterMap_cons, hv] at hvalues ⊢
      exact .cons hvalue hvalues
    · simp only [scores, List.map_cons, List.unzip_cons] at hes ⊢
      rw [hes]
    · rw [List.map_cons, List.map_cons, hsnd]
    · rintro x (_ | ⟨_, hx⟩)
      · exact hs
      · exact hon' x hx
    · simp only [List.map_cons, leftOf_cons]
      omega

omit [FloatT ρ] in
theorem init_more {c : ConjunctionScorer σ} : (c.init t).2.more = (c.init t).1 := by
  unfold init doNext
  dsimp only
  split
  · split
    · split <;> simp_all
    · simp_all
  · simp_all

/-- Called once more, `doNext` leaves the scorers where they are. -/
theorem doNext_again {n : ℕ} {r : Bool × ConjunctionScorer σ} (hne : fs ≠ []) (h : Found fs t n r) (hmore : r.2.more = r.1) :
    Found fs t n r.2.doNext := by
  cases hr : r.1 with
  | false =>
    unfold doNext
    rw [hmore, hr, if_neg (by simp)]
    exact ⟨fun h => by simp at h, fun _ => h.exhausted hr⟩
  | true =>
    obtain ⟨hfirst, hfirstTime, hmore', hleft, es, hes, hperm, hon⟩ := h.found hr
    have hstands := stands_of_on hfirst.isSome hperm hon
    obtain hnil | ⟨es, e, rfl⟩ := List.eq_nil_or_concat es
    · rw [hnil] at hperm
      exact absurd hperm.nil_eq.symm hne
    rw [List.concat_eq_append] at hes hperm hstands
    have hdoc := (hstands e (by simp)).2
    have hq := doNext_spec hmore' hfirstTime hes hperm (fun x hx => (hstands x hx).1) (t := t)
      (List.pairwise_of_forall_mem_list fun x hx y hy => by rw [(hstands x hx).2, (hstands y hy).2])
      (fun d hd hlt => hfirst.none_before hd (by rwa [hdoc] at hlt)) (by rw [hdoc]; exact hfirst.le)
    exact ⟨fun hq' => by
      obtain ⟨h₁, h₂, h₃, h₄, h₅⟩ := hq.found hq'
      exact ⟨h₁, h₂, h₃, by omega, h₅⟩, hq.exhausted⟩

/-- **`ConjunctionScorer` keeps to the conjunction.** -/
theorem at_closed (hne : fs ≠ []) (hnone : conjunction fs (-1) = none) :
    Closed (conjunction fs) (At fs : ConjunctionScorer σ → ℤ → Prop) where
  doc := by
    rintro c d (h | h) hd
    · rw [h.start, hnone] at hd
      cases hd
    · exact h.lastDoc
  value := by
    rintro c d V (h | h) hv
    · rw [h.start, hnone] at hv
      cases hv
    · obtain ⟨es, hes, hperm, hon⟩ := h.entries
      have hsome := conjunction_isSome.1 h.isSome
      obtain ⟨hvalues, es', hes', hsnd, hon', hleft⟩ := scores_spec hon
        fun x hx => hsome x.2 (hperm.mem_iff.1 (List.mem_map_of_mem hx))
      rw [hes] at hvalues hes' hleft
      refine ⟨?_, Or.inr ⟨h.firstTime, h.more, h.lastDoc, h.isSome, es', hes', ?_, hon'⟩, ?_⟩
      · show (scores c.scorers).1.foldl (· + ·) 0 * coord c.scorers.length c.scorers.length ∈ V
        have hconj := conjunction_perm (d := d) hperm
        rw [hv, conjunction, if_pos (List.all_eq_true.2 fun f hf => hsome f (hperm.mem_iff.1 hf)), Option.some_inj] at hconj
        rw [← hconj, hperm.length_eq, ← At.length (Or.inr h)]
        exact ⟨_, ⟨_, .of_forall₂ hvalues, rfl⟩, rfl⟩
      · rw [hsnd]
        exact hperm
      · show leftOf (scores c.scorers).2 ≤ leftOf c.scorers
        rw [← hes']
        exact hleft
  next := by
    rintro c d (h | h)
    · obtain ⟨es, hes, rfl, hon⟩ := h.entries
      have hinit := init_spec (t := 0) (by simpa using hne) hes hon (by decide)
      have hfirst : c.firstTime = true := by rw [h.new]; rfl
      have hnext : Cursor.next c = doNext (c.init 0).2 := if_pos hfirst
      rw [hnext, h.start]
      exact (doNext_again hne hinit init_more).lands
    · obtain ⟨es, hes, hperm, hon⟩ := h.entries
      have hne' : es ≠ [] := by
        rintro rfl
        exact hne hperm.nil_eq.symm
      have hnext : Cursor.next c = doNext (c.moveLast Cursor.next) := if_neg (by rw [h.firstTime]; simp)
      rw [hnext]
      exact (moveLast_spec h.more h.firstTime hne' hes hperm (stands_of_on h.isSome hperm hon) (by omega)
        fun s f hs => hs.next).lands
  skipTo := by
    rintro c d t (h | h) ht
    · obtain ⟨es, hes, rfl, hon⟩ := h.entries
      have hfirst : c.firstTime = true := by rw [h.new]; rfl
      have hskip : Cursor.skipTo c t = c.init t := if_pos hfirst
      rw [hskip]
      exact (init_spec (by simpa using hne) hes hon (by rw [← h.start]; exact ht)).lands
    · obtain ⟨es, hes, hperm, hon⟩ := h.entries
      have hne' : es ≠ [] := by
        rintro rfl
        exact hne hperm.nil_eq.symm
      have hskip : Cursor.skipTo c t = doNext (c.moveLast (Cursor.skipTo · t)) := if_neg (by rw [h.firstTime]; simp)
      rw [hskip]
      exact (moveLast_spec h.more h.firstTime hne' hes hperm (stands_of_on h.isSome hperm hon) ht
        fun s f hs => hs.skipTo ht).lands

/-- **A conjunction scorer visits the documents that all its scorers visit.** -/
theorem at_new {es : Entries σ ρ} (hon : es.On (-1)) : At (es.map Prod.snd) (ConjunctionScorer.new (es.map Prod.fst)) (-1) :=
  Or.inl ⟨rfl, rfl, es, rfl, rfl, hon⟩

end ConjunctionScorer

end QDesktopSearch
