import Mathlib.Data.List.MinMax
import QDesktopSearch.Model.SortedSearch
import QDesktopSearch.Proof.Modifier

/-!
# What a string index says of a document

`getStringIndex_ok_iff`: an index with more words in a field than documents has no string index.
`Indexes.value_document`: the entry of a document is the greatest of its words in the field.
`Indexes.order_lt_iff`: the numbers are in the order of these words.
-/

namespace QDesktopSearch

variable {E : Env} {r : IndexReader Document} {field : QString} {t u : Term} {d : Document}

/-- The greatest element, if there is one. -/
def greatest {α : Type*} [LinearOrder α] (l : List α) : WithBot α := l.maximum

/-- A greater element at the end. -/
theorem greatest_concat {α : Type*} [LinearOrder α] {l : List α} {a : α} (h : ∀ b ∈ l, b < a) :
    greatest (l ++ [a]) = a := by
  rw [greatest, List.maximum_concat, max_eq_right]
  exact List.maximum_le_of_forall_le fun b hb => WithBot.coe_le_coe.2 (h b hb).le

/-! ## The terms of a field -/

theorem Term.le_iff : t ≤ u ↔ t.field < u.field ∨ t.field = u.field ∧ t.text ≤ u.text :=
  Prod.Lex.toLex_le_toLex

theorem Term.lt_iff : t < u ↔ t.field < u.field ∨ t.field = u.field ∧ t.text < u.text :=
  Prod.Lex.toLex_lt_toLex

theorem Term.nil_le : Term.mk field [] ≤ t ↔ field ≤ t.field := by
  rw [Term.le_iff]
  constructor
  · rintro (h | ⟨h, -⟩)
    · exact h.le
    · exact h.le
  · intro h
    rcases h.lt_or_eq with h | h
    · exact Or.inl h
    · exact Or.inr ⟨h, not_lt.1 (List.not_lt_nil _)⟩

namespace Document

theorem mem_terms : t ∈ d.terms E ↔ d.hasTerm E.tokens t = true := by
  obtain ⟨name, text⟩ := t
  simp only [terms, hasTerm, List.mem_flatMap, List.mem_map, List.any_eq_true, Bool.and_eq_true, beq_iff_eq,
    List.contains_iff_mem]
  constructor
  · rintro ⟨f, hf, word, hword, h⟩
    obtain ⟨rfl, rfl⟩ := Term.mk.inj h
    exact ⟨f, hf, rfl, hword⟩
  · rintro ⟨f, hf, rfl, hword⟩
    exact ⟨f, hf, text, hword, rfl⟩

/-- The words of a document in a field. -/
def words (E : Env) (field : QString) (d : Document) : List QString :=
  ((d.terms E).filter fun t => t.field = field).map (·.text)

/-- The greatest of them. -/
def lastWord (E : Env) (field : QString) (d : Document) : WithBot QString := greatest (d.words E field)

theorem mem_words {word : QString} : word ∈ d.words E field ↔ d.hasTerm E.tokens ⟨field, word⟩ = true := by
  rw [← mem_terms, words, List.mem_map]
  constructor
  · rintro ⟨t, ht, rfl⟩
    obtain ⟨ht, hfield⟩ := List.mem_filter.1 ht
    rwa [← of_decide_eq_true hfield]
  · intro h
    exact ⟨_, List.mem_filter.2 ⟨h, decide_eq_true rfl⟩, rfl⟩

end Document

namespace IndexReader

/-- The words of an index in a field; those of deleted documents count. -/
def words (E : Env) (field : QString) (r : IndexReader Document) : List QString :=
  r.slots.flatMap fun s => s.val.words E field

/-- The terms of the field, in their order. -/
def fieldTerms (E : Env) (field : QString) (r : IndexReader Document) : List Term :=
  (r.terms E ⟨field, []⟩).takeWhile fun t => t.field = field

theorem mem_terms : t ∈ r.terms E u ↔ u ≤ t ∧ ∃ s ∈ r.slots, t ∈ s.val.terms E := by
  rw [terms, (List.perm_insertionSort _ _).mem_iff, List.mem_filter, List.mem_dedup, List.mem_flatMap,
    decide_eq_true_eq, and_comm]

theorem terms_pairwise : (r.terms E u).Pairwise (· < ·) := by
  have hle : (r.terms E u).Pairwise (· ≤ ·) := List.pairwise_insertionSort _ _
  have hnodup : (r.terms E u).Nodup :=
    (List.perm_insertionSort _ _).nodup_iff.2 ((List.nodup_dedup _).filter _)
  exact hle.imp₂ (fun a b hab hne => lt_of_le_of_ne hab hne) hnodup

/-- A condition that holds up to some element. -/
theorem takeWhile_eq_filter {α : Type*} {p : α → Bool} {l : List α}
    (h : l.Pairwise fun a b => p b = true → p a = true) : l.takeWhile p = l.filter p := by
  induction l with
  | nil => rfl
  | cons a l ih =>
    obtain ⟨ha, hl⟩ := List.pairwise_cons.1 h
    by_cases hp : p a = true
    · rw [List.takeWhile_cons_of_pos hp, List.filter_cons_of_pos hp, ih hl]
    · rw [List.takeWhile_cons_of_neg hp, List.filter_cons_of_neg hp, eq_comm, List.filter_eq_nil_iff]
      exact fun b hb hpb => hp (ha b hb hpb)

theorem fieldTerms_eq : fieldTerms E field r = (r.terms E ⟨field, []⟩).filter fun t => t.field = field := by
  apply takeWhile_eq_filter
  -- between the first possible term of the field and one that is of the field
  refine List.Pairwise.imp_of_mem ?_ terms_pairwise
  intro a b ha hb hab hfield
  rw [decide_eq_true_eq] at hfield ⊢
  have hfrom := Term.nil_le.1 (mem_terms.1 ha).1
  rcases Term.lt_iff.1 hab with h | h
  · exact absurd (hfrom.trans_lt (hfield ▸ h)) (lt_irrefl _)
  · exact h.1.trans hfield

theorem mem_fieldTerms : t ∈ fieldTerms E field r ↔ t.field = field ∧ ∃ s ∈ r.slots, t ∈ s.val.terms E := by
  rw [fieldTerms_eq, List.mem_filter, mem_terms, decide_eq_true_eq, Term.nil_le, and_comm]
  constructor
  · rintro ⟨hfield, -, h⟩
    exact ⟨hfield, h⟩
  · rintro ⟨hfield, h⟩
    exact ⟨hfield, hfield.ge, h⟩

/-- The texts of the terms ascend. -/
theorem fieldTerms_pairwise : ((fieldTerms E field r).map (·.text)).Pairwise (· < ·) := by
  rw [List.pairwise_map]
  refine List.Pairwise.imp_of_mem ?_ (terms_pairwise.sublist (List.takeWhile_sublist _))
  intro a b ha hb hab
  have hsame := (mem_fieldTerms.1 ha).1.trans (mem_fieldTerms.1 hb).1.symm
  rcases Term.lt_iff.1 hab with h | h
  · exact absurd (hsame ▸ h) (lt_irrefl _)
  · exact h.2

theorem fieldTerms_length : (fieldTerms E field r).length = (r.words E field).dedup.length := by
  rw [← List.length_map (·.text)]
  apply List.Perm.length_eq
  rw [List.perm_ext_iff_of_nodup (fieldTerms_pairwise.imp ne_of_lt) (List.nodup_dedup _)]
  intro word
  rw [List.mem_dedup, words, List.mem_flatMap, List.mem_map]
  constructor
  · rintro ⟨t, ht, rfl⟩
    obtain ⟨hfield, s, hs, hts⟩ := mem_fieldTerms.1 ht
    refine ⟨s, hs, ?_⟩
    rw [Document.mem_words, ← Document.mem_terms]
    exact hfield ▸ hts
  · rintro ⟨s, hs, hword⟩
    rw [Document.mem_words, ← Document.mem_terms] at hword
    exact ⟨_, mem_fieldTerms.2 ⟨rfl, s, hs, hword⟩, rfl⟩

end IndexReader

/-! ## The loop -/

open IndexReader FieldCacheImpl

namespace StringIndex

def entry (index : StringIndex) (i : ℕ) : WithBot QString := index.lookup.getD i none

/-- The entry of a document. -/
def value (index : StringIndex) (n : ℕ) : WithBot QString := index.entry (index.order.getD n 0)

/-- The index of the terms `done`. -/
structure Indexes (E : Env) (r : IndexReader Document) (done : List Term) (index : StringIndex) : Prop where
  lookup : index.lookup = none :: done.map fun t => some t.text
  length : index.order.length = r.maxDoc
  order_le : ∀ n, index.order.getD n 0 ≤ done.length
  value_eq : ∀ n < r.maxDoc, index.value n = greatest ((done.filter fun t => n ∈ r.termDocs E.engine t).map (·.text))

variable {done ts : List Term} {index : StringIndex} {n : ℕ}

theorem indexes_start : Indexes E r [] ⟨List.replicate r.maxDoc 0, [none]⟩ := by
  have hzero : ∀ n, (List.replicate r.maxDoc 0).getD n 0 = 0 := by
    intro n
    rw [List.getD_eq_getElem?_getD, List.getElem?_replicate]
    split <;> rfl
  refine ⟨rfl, List.length_replicate, fun n => (hzero n).le, fun n _ => ?_⟩
  simp only [value, hzero]
  rfl

theorem foldl_set_getD {docs : List ℕ} {order : List ℕ} {t : ℕ} (hn : n < order.length) :
    (docs.foldl (fun order doc => order.set doc t) order).getD n 0 = if n ∈ docs then t else order.getD n 0 := by
  induction docs generalizing order with
  | nil => simp
  | cons doc docs ih =>
    rw [List.foldl_cons, ih (by rwa [List.length_set])]
    by_cases hin : n ∈ docs
    · rw [if_pos hin, if_pos (List.mem_cons_of_mem _ hin)]
    · rw [if_neg hin]
      by_cases hdoc : n = doc
      · subst hdoc
        rw [if_pos List.mem_cons_self]
        simp [List.getD_eq_getElem?_getD, hn]
      · rw [if_neg (by simp [hdoc, hin])]
        simp [List.getD_eq_getElem?_getD, Ne.symm hdoc]

theorem foldl_set_length {docs : List ℕ} {order : List ℕ} {t : ℕ} :
    (docs.foldl (fun order doc => order.set doc t) order).length = order.length := by
  induction docs generalizing order with
  | nil => rfl
  | cons doc docs ih => rw [List.foldl_cons, ih, List.length_set]

/-- **One more term**, greater than those before. -/
theorem Indexes.step (h : Indexes E r done index) (hlast : ∀ u ∈ done, u.text < t.text) :
    Indexes E r (done ++ [t]) ⟨(r.termDocs E.engine t).foldl (fun order doc => order.set doc index.lookup.length)
      index.order, index.lookup ++ [some t.text]⟩ := by
  have hlen : index.lookup.length = done.length + 1 := by rw [h.lookup, List.length_cons, List.length_map]
  have horder : ∀ n < r.maxDoc, ((r.termDocs E.engine t).foldl
      (fun order doc => order.set doc index.lookup.length) index.order).getD n 0 =
      if n ∈ r.termDocs E.engine t then done.length + 1 else index.order.getD n 0 := by
    intro n hn
    rw [foldl_set_getD (by rwa [h.length]), hlen]
  refine ⟨by simp [h.lookup], foldl_set_length.trans h.length, fun n => ?_, fun n hn => ?_⟩
  · rw [List.length_append, List.length_singleton]
    by_cases hn : n < r.maxDoc
    · rw [horder n hn]
      have hle := h.order_le n
      split <;> omega
    · have hnone : ((r.termDocs E.engine t).foldl
          (fun order doc => order.set doc index.lookup.length) index.order)[n]? = none :=
        List.getElem?_eq_none (by rw [foldl_set_length, h.length]; omega)
      rw [List.getD_eq_getElem?_getD, hnone]
      exact Nat.zero_le _
  · rw [value, horder n hn, List.filter_append]
    by_cases hin : n ∈ r.termDocs E.engine t
    · rw [if_pos hin, List.filter_cons_of_pos (by simpa using hin), List.filter_nil, List.map_append, List.map_cons,
        List.map_nil, greatest_concat]
      · rw [← hlen, entry, List.getD_eq_getElem?_getD, List.getElem?_concat_length]
        rfl
      · intro word hword
        obtain ⟨u, hu, rfl⟩ := List.mem_map.1 hword
        exact hlast u (List.mem_filter.1 hu).1
    · rw [if_neg hin, List.filter_cons_of_neg (by simpa using hin), List.filter_nil, List.append_nil, ← h.value_eq n hn,
        value]
      have hle := h.order_le n
      generalize index.order.getD n 0 = i at hle
      rw [entry, entry, List.getD_eq_getElem?_getD, List.getElem?_append_left (by omega), List.getD_eq_getElem?_getD]

/-- **The loop** goes through exactly if there are no more terms than documents. -/
theorem loop_spec (ts : List Term) (h : Indexes E r done index) (hsorted : ((done ++ ts.takeWhile fun t => t.field = field).map
    (·.text)).Pairwise (· < ·)) :
    if (done ++ ts.takeWhile fun t => t.field = field).length ≤ r.maxDoc then
      ∃ index', getStringIndexLoop E r field ts index = .ok index' ∧
        Indexes E r (done ++ ts.takeWhile fun t => t.field = field) index'
    else done.length ≤ r.maxDoc → ∃ e, getStringIndexLoop E r field ts index = .error e := by
  induction ts generalizing done index with
  | nil =>
    simp only [List.takeWhile_nil, List.append_nil] at hsorted ⊢
    split
    · exact ⟨index, rfl, h⟩
    · exact fun hle => absurd hle ‹_›
  | cons t ts ih =>
    rw [getStringIndexLoop]
    by_cases hfield : t.field = field
    · have htake : (t :: ts).takeWhile (fun t => t.field = field) = t :: ts.takeWhile fun t => t.field = field :=
        List.takeWhile_cons_of_pos (decide_eq_true hfield)
      have hlen : index.lookup.length = done.length + 1 := by rw [h.lookup, List.length_cons, List.length_map]
      rw [htake, List.append_cons] at hsorted ⊢
      have hlast : ∀ u ∈ done, u.text < t.text := by
        intro u hu
        rw [List.map_append, List.map_append, List.append_assoc, List.pairwise_append] at hsorted
        exact hsorted.2.2 _ (List.mem_map_of_mem hu) _ List.mem_cons_self
      rw [if_neg (not_not.2 hfield)]
      simp only [hlen]
      by_cases hfull : done.length + 1 ≥ r.maxDoc + 1
      · rw [if_pos hfull, if_neg (by simp; omega)]
        exact fun _ => ⟨_, rfl⟩
      · rw [if_neg hfull]
        have hrest := ih (h.step hlast) hsorted
        simp only [hlen] at hrest
        split
        · rwa [if_pos ‹_›] at hrest
        · rw [if_neg ‹_›] at hrest
          exact fun _ => hrest (by simp; omega)
    · have htake : (t :: ts).takeWhile (fun t => t.field = field) = [] :=
        List.takeWhile_cons_of_neg (by simpa using hfield)
      rw [htake, List.append_nil, if_pos hfield]
      split
      · exact ⟨index, rfl, h⟩
      · exact fun hle => absurd hle ‹_›

/-- The entries of the terms ascend. -/
theorem Indexes.lookup_lt (h : Indexes E r done index) (hsorted : (done.map (·.text)).Pairwise (· < ·)) {i j : ℕ}
    (hij : i < j) (hj : j ≤ done.length) : index.entry i < index.entry j := by
  obtain ⟨k, rfl⟩ : ∃ k, j = k + 1 := ⟨j - 1, by omega⟩
  have hk : k < done.length := by omega
  have hat : ∀ k (hk : k < done.length), index.entry (k + 1) = (done[k].text : WithBot QString) := by
    intro k hk
    rw [entry, h.lookup, List.getD_cons_succ, List.getD_eq_getElem?_getD, List.getElem?_map,
      List.getElem?_eq_getElem hk]
    rfl
  rw [hat k hk]
  cases i with
  | zero =>
    rw [entry, h.lookup]
    exact WithBot.bot_lt_coe _
  | succ i =>
    rw [hat i (by omega)]
    have hlt := List.pairwise_iff_getElem.1 hsorted i k (by simp; omega) (by simpa using hk) (by omega)
    rw [List.getElem_map, List.getElem_map] at hlt
    exact WithBot.coe_lt_coe.2 hlt

/-- **The numbers are in the order of the entries.** -/
theorem Indexes.order_lt_iff (h : Indexes E r done index) (hsorted : (done.map (·.text)).Pairwise (· < ·)) {a b : ℕ} :
    index.order.getD a 0 < index.order.getD b 0 ↔ index.value a < index.value b := by
  have hmono : ∀ {a b}, index.order.getD a 0 < index.order.getD b 0 → index.value a < index.value b :=
    fun hlt => h.lookup_lt hsorted hlt (h.order_le _)
  refine ⟨hmono, fun hlt => ?_⟩
  by_contra hge
  rcases Nat.lt_or_eq_of_le (Nat.not_lt.1 hge) with hgt | heq
  · exact lt_asymm hlt (hmono hgt)
  · rw [StringIndex.value, StringIndex.value, heq] at hlt
    exact lt_irrefl _ hlt

end StringIndex

/-! ## The string index -/

/-- An index with a word in the field or a later one, and with no more words in the field than
documents. -/
def Fits (E : Env) (field : QString) (r : IndexReader Document) : Prop :=
  (r.maxDoc = 0 ∨ ∃ s ∈ r.slots, ∃ t ∈ s.val.terms E, field ≤ t.field) ∧ (r.words E field).dedup.length ≤ r.maxDoc

open StringIndex

theorem getStringIndex_spec : (Fits E field r → ∃ index, getStringIndex E r field = .ok index ∧
    StringIndex.Indexes E r (fieldTerms E field r) index) ∧ (¬Fits E field r → ∃ e, getStringIndex E r field = .error e) := by
  have hloop := loop_spec (r.terms E ⟨field, []⟩) (indexes_start (E := E) (r := r)) fieldTerms_pairwise
  rw [List.nil_append] at hloop
  change if (fieldTerms E field r).length ≤ _ then _ else _ at hloop
  rw [fieldTerms_length] at hloop
  have hsome : (∃ s ∈ r.slots, ∃ t ∈ s.val.terms E, field ≤ t.field) ↔ r.terms E ⟨field, []⟩ ≠ [] := by
    rw [← List.length_pos_iff, List.length_pos_iff_exists_mem]
    constructor
    · rintro ⟨s, hs, t, ht, hle⟩
      exact ⟨t, mem_terms.2 ⟨Term.nil_le.2 hle, s, hs, ht⟩⟩
    · rintro ⟨t, ht⟩
      obtain ⟨hle, s, hs, hts⟩ := mem_terms.1 ht
      exact ⟨s, hs, t, hts, Term.nil_le.1 hle⟩
  rw [Fits, hsome]
  unfold getStringIndex
  by_cases hdocs : r.maxDoc = 0
  · have hnone : fieldTerms E field r = [] := by
      have hslots : r.slots = [] := List.length_eq_zero_iff.1 (by rw [← maxDoc_eq, hdocs])
      rw [List.eq_nil_iff_forall_not_mem]
      intro t ht
      obtain ⟨-, s, hs, -⟩ := mem_fieldTerms.1 ht
      rw [hslots] at hs
      exact absurd hs List.not_mem_nil
    rw [if_neg (by omega)]
    refine ⟨fun _ => ⟨_, rfl, hnone ▸ indexes_start⟩, fun hnot => absurd ⟨Or.inl hdocs, ?_⟩ hnot⟩
    rw [← fieldTerms_length, hnone]
    exact Nat.zero_le _
  · rw [if_pos (by omega), or_iff_right hdocs]
    cases hterms : r.terms E ⟨field, []⟩ with
    | nil => exact ⟨fun h => absurd rfl h.1, fun _ => ⟨_, rfl⟩⟩
    | cons t ts =>
      rw [hterms] at hloop
      rw [and_iff_right (List.cons_ne_nil t ts)]
      constructor
      · intro hle
        rw [if_pos hle] at hloop
        rwa [fieldTerms, hterms]
      · intro hgt
        rw [if_neg hgt] at hloop
        exact hloop (Nat.zero_le _)

/-- **When there is a string index.** -/
theorem getStringIndex_ok_iff : (∃ index, getStringIndex E r field = .ok index) ↔ Fits E field r := by
  constructor
  · rintro ⟨index, hindex⟩
    by_contra hnot
    obtain ⟨e, he⟩ := getStringIndex_spec.2 hnot
    rw [he] at hindex
    cases hindex
  · intro hfits
    obtain ⟨index, hindex, -⟩ := getStringIndex_spec.1 hfits
    exact ⟨index, hindex⟩

/-- **The entry of a document** is its greatest word. -/
theorem StringIndex.Indexes.value_document {index : StringIndex} {n : ℕ}
    (h : Indexes E r (fieldTerms E field r) index) (hd : r.document n = some d) :
    index.value n = d.lastWord E field := by
  obtain ⟨s, hs, hlive⟩ := Option.bind_eq_some_iff.1 hd
  have hval : s = ⟨d, false⟩ := by
    obtain ⟨v, deleted⟩ := s
    cases deleted <;> simp_all
  subst hval
  have hn : n < r.maxDoc := by
    rw [maxDoc_eq]
    exact (List.getElem?_eq_some_iff.1 hs).1
  rw [h.value_eq n hn, Document.lastWord]
  -- the same words
  have hmem : ∀ word, word ∈ ((fieldTerms E field r).filter fun t => n ∈ r.termDocs E.engine t).map (·.text) ↔
      word ∈ d.words E field := by
    intro word
    rw [Document.mem_words, List.mem_map]
    have hdocs : ∀ t, n ∈ r.termDocs E.engine t ↔ d.hasTerm E.tokens t = true := by
      intro t
      rw [termDocs, Slots.mem_numbers]
      constructor
      · rintro ⟨a, ha, hterm⟩
        obtain rfl := Slots.LiveAt.unique ha hs
        exact hterm
      · intro hterm
        exact ⟨d, hs, hterm⟩
    constructor
    · rintro ⟨t, ht, rfl⟩
      obtain ⟨ht, hin⟩ := List.mem_filter.1 ht
      rw [← (mem_fieldTerms.1 ht).1]
      exact (hdocs t).1 (of_decide_eq_true hin)
    · intro hterm
      have hin := List.mem_of_getElem? hs
      refine ⟨⟨field, word⟩, List.mem_filter.2 ⟨mem_fieldTerms.2 ⟨rfl, _, hin, ?_⟩, ?_⟩, rfl⟩
      · exact Document.mem_terms.2 hterm
      · exact decide_eq_true ((hdocs _).2 hterm)
  exact le_antisymm (List.maximum_mono fun word h => (hmem word).1 h) (List.maximum_mono fun word h => (hmem word).2 h)

end QDesktopSearch
