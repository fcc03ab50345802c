import Mathlib.Data.Multiset.Filter
import Mathlib.Data.Multiset.Count

/-!
# A collection of documents

What an index is for, with nothing pending: a multiset of documents that additions and
deletions change at once and that lookups read. `D` and `T` are any types, `hasTerm` any
relation between terms and documents.
-/

namespace QDesktopSearch.Collection

/-- A request to the collection. -/
inductive Request (D T : Type*) where
  | add (d : D)
  | deleteAll (t : T)
  | deleteOne (d : D)
  | find (t : T)
  | nothing

/-- What a request returns: nothing, a number of documents, or documents. -/
inductive Answer (D : Type*) where
  | done
  | count (n : ℕ)
  | docs (A : Multiset D)

variable {D T : Type*} (hasTerm : T → D → Bool)

open Classical in
/-- The collection after a request, and the answer. One document can be deleted by value
only while it is there. -/
noncomputable def step (A : Multiset D) : Request D T → Option (Multiset D × Answer D)
  | .add d => some (d ::ₘ A, .done)
  | .deleteAll t => some (A.filter fun d => hasTerm t d = false, .count (A.countP fun d => hasTerm t d = true))
  | .deleteOne d => if d ∈ A then some (A.erase d, .done) else none
  | .find t => some (A, .docs (A.filter fun d => hasTerm t d = true))
  | .nothing => some (A, .done)

end QDesktopSearch.Collection
