import QDesktopSearch.Abstract.Collection
import QDesktopSearch.Lib.Machine
import QDesktopSearch.Proof.Modifier

/-!
# `QIndexModifier` refines a collection of documents

The calls of `QIndexModifier` are a machine; each call has a request on the abstract
collection as its meaning (`Call.request`).

* `step_refines`: one call does to `docs` what its request does to the collection.
* `modifier_refines`: any sequence of calls returns what the collection returns, and
  `flush` and `close` commit exactly the collection.
-/

namespace QDesktopSearch

open Slots

namespace QIndexModifier

variable {D T : Type*}

/-- The calls. -/
inductive Call (D T : Type*) where
  | addDocument (doc : D)
  | deleteDocuments (term : T)
  | deleteDocument (docNum : ℕ)
  | termDocs (term : T)
  | getIndexReader
  | flush

variable (P : Engine D T)

/-- The document that a number denotes in the reader that is open. -/
def currentDocument (m : QIndexModifier D) (docNum : ℕ) : Option D :=
  match m.base with
  | .reader r => r.document docNum
  | .writer _ => none

/-- The documents that an enumeration of numbers yields. -/
def enumerate (m : QIndexModifier D) (ns : List ℕ) : Multiset D :=
  (ns.filterMap m.currentDocument : List D)

/-- One call; nothing where the source throws. -/
def step (m : QIndexModifier D) : Call D T → Option (QIndexModifier D × Collection.Answer D)
  | .addDocument doc => some (m.addDocument P doc, .done)
  | .deleteDocuments term =>
    let (m, n) := m.deleteDocuments P term
    some (m, .count n)
  | .deleteDocument docNum => (m.deleteDocument P docNum).map fun m => (m, .done)
  | .termDocs term =>
    let (m, ns) := m.termDocs P term
    some (m, .docs (m.enumerate ns))
  | .getIndexReader => some ((m.getIndexReader P).1, .done)
  | .flush => some (m.flush P, .done)

/-- `deleteDocument` may be called for a live number of the open reader. -/
def Admissible (m : QIndexModifier D) (c : Call D T) : Prop :=
  ∀ n, c = .deleteDocument n → (m.currentDocument n).isSome

/-- What a call asks of the collection. -/
def Call.request (m : QIndexModifier D) : Call D T → Collection.Request D T
  | .addDocument doc => .add doc
  | .deleteDocuments term => .deleteAll term
  | .deleteDocument docNum =>
    match m.currentDocument docNum with
    | some doc => .deleteOne doc
    | none => .nothing
  | .termDocs term => .find term
  | .getIndexReader => .nothing
  | .flush => .nothing

variable {P} {m m' : QIndexModifier D} {t : T}

/-! ## The calls one by one -/

theorem docs_eq : m.docs = m.base.docs := rfl

theorem addDocument_docs (d : D) : (m.addDocument P d).docs = m.docs ++ [d] :=
  IndexModifier.addDocument_docs d

theorem deleteDocuments_docs : (m.deleteDocuments P t).1.docs = m.docs.filter fun d => !P.hasTerm t d :=
  IndexModifier.deleteDocuments_docs

theorem deleteDocuments_count : (m.deleteDocuments P t).2 = m.docs.countP (P.hasTerm t) :=
  IndexModifier.deleteDocuments_count

theorem getIndexReader_docs : (m.getIndexReader P).1.docs = m.docs :=
  IndexModifier.createIndexReader_docs

theorem termDocs_docs : (m.termDocs P t).1.docs = m.docs := IndexModifier.createIndexReader_docs

/-- **`flush` keeps the live documents**, whether or not the flag is set. -/
theorem flush_docs : (m.flush P).docs = m.docs := by
  unfold flush; simp only
  split
  · rw [docs_eq, IndexModifier.flush_docs, IndexModifier.docs_reader]
    simp only [getIndexReader, IndexReader.docs, IndexReader.slots, IndexReader.commit_segments]
    exact IndexModifier.createIndexReader_docs
  · exact IndexModifier.flush_docs

/-- **`flush` commits exactly the live documents**, whether or not the flag is set. -/
theorem flush_committed_docs : (m.flush P).committed.docs = m.docs := by
  have h : (m.flush P).committed.docs = (m.flush P).docs := by
    unfold flush; simp only [committed, docs_eq]
    rw [IndexModifier.flush_committed_docs, IndexModifier.flush_docs]
  rw [h, flush_docs]

@[simp] theorem flush_bDocDeletionCalled : (m.flush P).bDocDeletionCalled = false := by
  unfold flush; simp only
  split
  · rfl
  · rename_i h; simpa using h

@[simp] theorem flush_buffered : (m.flush P).buffered = [] := by
  simp only [flush, buffered, IndexModifier.flush_buffered]

theorem close_docs : (m.close P).docs = m.docs := IndexModifier.close_docs

theorem currentDocument_eq_some {n : ℕ} {d : D} : m.currentDocument n = some d ↔
    ∃ r, m.base = .reader r ∧ LiveAt r.slots n d := by
  unfold currentDocument
  cases hb : m.base with
  | writer w => simp
  | reader r => simp [IndexReader.document_eq_some]

/-- **`deleteDocument` of a live number** goes through and takes its document away, once. -/
theorem deleteDocument_docs {n : ℕ} {d : D} (hd : m.currentDocument n = some d) :
    ∃ m', m.deleteDocument P n = some m' ∧ (d :: m'.docs).Perm m.docs := by
  obtain ⟨r, hr, hl⟩ := currentDocument_eq_some.1 hd
  have hlt : n < r.maxDoc := by rw [IndexReader.maxDoc_eq]; exact hl.lt
  refine ⟨⟨.reader (r.delete n), true⟩, ?_, ?_⟩
  · simp [deleteDocument, IndexModifier.deleteDocument, hr, IndexModifier.createIndexReader,
      IndexReader.deleteDocument, hlt]
  · simp only [docs_eq, hr, IndexModifier.docs_reader, IndexReader.docs, IndexReader.delete_slots]
    exact live_mark hl

/-- What `termDocs` enumerates: the live documents with the term. -/
theorem termDocs_enumerate : (m.termDocs P t).1.enumerate (m.termDocs P t).2 =
    ((m.docs.filter (P.hasTerm t) : List D) : Multiset D) := by
  have key : ∀ r : IndexReader D, (r.termDocs P t).filterMap r.document = r.docs.filter (P.hasTerm t) :=
    fun r => filterMap_numbers fun _ _ => IndexReader.document_eq_some
  have h := key (m.base.createIndexReader P)
  rw [IndexModifier.createIndexReader_docs] at h
  exact congrArg _ h

/-! ## Whole sequences of calls -/

/-- **One admissible call refines its request**: it goes through with the same answer, and
`docs` follows the collection. -/
theorem step_refines {c : Call D T} (hc : m.Admissible c) :
    ∃ m' a, step P m c = some (m', a) ∧
      Collection.step P.hasTerm (m.docs : Multiset D) (c.request m) = some ((m'.docs : Multiset D), a) := by
  cases c with
  | addDocument doc =>
    refine ⟨_, _, rfl, ?_⟩
    simp only [Call.request, Collection.step, addDocument_docs, Option.some.injEq, Prod.mk.injEq, and_true]
    rw [← Multiset.coe_add, Multiset.coe_singleton, Multiset.add_comm, Multiset.singleton_add]
  | deleteDocuments term =>
    refine ⟨(m.deleteDocuments P term).1, .count (m.deleteDocuments P term).2, rfl, ?_⟩
    simp [Call.request, Collection.step, deleteDocuments_docs, deleteDocuments_count]
  | deleteDocument docNum =>
    obtain ⟨d, hd⟩ := Option.isSome_iff_exists.1 (hc docNum rfl)
    obtain ⟨m', hm', hp⟩ := deleteDocument_docs (P := P) hd
    have he : (m.docs : Multiset D) = d ::ₘ (m'.docs : Multiset D) := Multiset.coe_eq_coe.2 hp.symm
    refine ⟨m', .done, by simp [step, hm'], ?_⟩
    simp [Call.request, hd, Collection.step, he]
  | termDocs term =>
    refine ⟨(m.termDocs P term).1, .docs ((m.termDocs P term).1.enumerate (m.termDocs P term).2), rfl, ?_⟩
    simp [Call.request, Collection.step, termDocs_docs, termDocs_enumerate]
  | getIndexReader =>
    refine ⟨_, _, rfl, ?_⟩
    simp [Call.request, Collection.step, getIndexReader_docs]
  | flush =>
    refine ⟨_, _, rfl, ?_⟩
    simp [Call.request, Collection.step, flush_docs]

/-- A modifier starts with the documents of the last commit. -/
theorem init_docs {dir : Directory D} {create : Bool} (h : init dir create = some m) :
    m.docs = m.committed.docs ∧ m.committed = if create then [] else dir.getD [] := by
  simp only [init, IndexModifier.init, IndexWriter.init, Option.map_eq_some_iff] at h
  obtain ⟨_, ⟨w, hw, rfl⟩, rfl⟩ := h
  split at hw
  · simp only [Option.some.injEq] at hw; subst hw
    simp [docs_eq, committed, IndexWriter.docs, *]
  · simp only [Option.map_eq_some_iff] at hw
    obtain ⟨si, rfl, rfl⟩ := hw
    simp [docs_eq, committed, IndexWriter.docs, *]

/-- The collection a modifier stands for: its live documents. -/
def Represents (m : QIndexModifier D) (A : Multiset D) : Prop := (m.docs : Multiset D) = A

/-- **`QIndexModifier` refines the collection.** From a modifier just opened on a
committed index, every sequence of calls goes through and answers as the collection that
starts with the committed documents, and its live documents are the collection; `flush`
commits exactly the collection and clears the flag, and `close` commits exactly the
collection. -/
theorem modifier_refines {dir : Directory D} {create : Bool} {m₀ : QIndexModifier D}
    (h₀ : init dir create = some m₀) {cs : List (Call D T)} (hC : Machine.Meets (step P) Admissible m₀ cs) :
    ∃ (m : QIndexModifier D) (as : List (Collection.Answer D)) (A : Multiset D),
      Machine.run (step P) m₀ cs = some (m, as) ∧
      Machine.run (Collection.step P.hasTerm) (m₀.committed.docs : Multiset D)
        (Machine.translate (step P) Call.request m₀ cs) = some (A, as) ∧
      m.Represents A ∧
      ((m.flush P).committed.docs : Multiset D) = A ∧ (m.flush P).bDocDeletionCalled = false ∧
      ((m.close P).docs : Multiset D) = A := by
  have hgo : ∀ (s : QIndexModifier D) (c : Call D T), True → s.Admissible c →
      ∃ s' o, step P s c = some (s', o) ∧ True := by
    intro s c _ hc
    obtain ⟨s', o, hs, -⟩ := step_refines (P := P) hc
    exact ⟨s', o, hs, trivial⟩
  have hsim : ∀ (s : QIndexModifier D) (A : Multiset D) (c : Call D T) (s' : QIndexModifier D)
      (o : Collection.Answer D), s.Represents A → s.Admissible c → step P s c = some (s', o) →
      ∃ A', Collection.step P.hasTerm A (c.request s) = some (A', o) ∧ s'.Represents A' := by
    rintro s A c s' o rfl hc hs
    obtain ⟨m', a, hm', hA⟩ := step_refines (P := P) hc
    rw [hm'] at hs
    simp only [Option.some.injEq, Prod.mk.injEq] at hs
    obtain ⟨rfl, rfl⟩ := hs
    exact ⟨_, hA, rfl⟩
  have h0 : m₀.Represents (m₀.committed.docs : Multiset D) := congrArg _ (init_docs h₀).1
  obtain ⟨m, as, hrun, -⟩ := Machine.run_total hgo hC trivial
  obtain ⟨A, habs, rfl⟩ := Machine.run_simulates hsim hC h0 hrun
  refine ⟨m, as, _, hrun, habs, rfl, ?_, flush_bDocDeletionCalled, ?_⟩
  · rw [flush_committed_docs]
  · rw [close_docs]

/-- Numbers as documents, indexed under their last digit; the buffer takes two, and two
segments are merged. -/
def digits : Engine ℕ ℕ where
  hasTerm t d := d % 10 == t
  bufferFull ds := ds.length > 1
  findMerges si := if si.length > 1 then [(0, 2)] else []

/-- A run through both sub-objects: additions, a deletion by number, one by term. -/
theorem modifier_refines_digits :
    let cs : List (Call ℕ ℕ) :=
      [.addDocument 1, .addDocument 11, .addDocument 21, .getIndexReader, .deleteDocument 1, .termDocs 1,
        .deleteDocuments 1, .addDocument 2]
    let m₀ : QIndexModifier ℕ := ⟨.writer ⟨[], []⟩, false⟩
    ∃ (m : QIndexModifier ℕ) (as : List (Collection.Answer ℕ)) (A : Multiset ℕ),
      Machine.run (step digits) m₀ cs = some (m, as) ∧
      Machine.run (Collection.step digits.hasTerm) (m₀.committed.docs : Multiset ℕ)
        (Machine.translate (step digits) Call.request m₀ cs) = some (A, as) ∧
      m.Represents A ∧
      ((m.flush digits).committed.docs : Multiset ℕ) = A ∧ (m.flush digits).bDocDeletionCalled = false ∧
      ((m.close digits).docs : Multiset ℕ) = A := by
  intro cs m₀
  have h₀ : init none true = some m₀ := rfl
  have hC : Machine.Meets (step digits) Admissible m₀ cs := by
    simp only [cs, m₀, Machine.Meets, step, Admissible]
    simp
    decide
  exact modifier_refines h₀ hC

end QIndexModifier

end QDesktopSearch
