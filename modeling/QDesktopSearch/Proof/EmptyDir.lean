import Mathlib.Data.List.GetD
import Mathlib.Data.List.Pairwise
import Mathlib.Order.WellFounded
import QDesktopSearch.Lib.Walk
import QDesktopSearch.Model.EmptyDir

/-!
# What `emptydir` does, round by round

* `FileTree`: a file system; `FileTree.ofList` builds a finite one.
* `leave_taken`: what one round of the loop can take away.
* `Part`: the states in which a call can be.
* `Keeps`: what no call takes away stays, and so do the directories above it.
-/

namespace QDesktopSearch.EmptyDir

open Relation

variable {D : Type*}

/-- `d'` is a directory in `d`. -/
def SubDir (tree : DirTree D) (d' d : D) : Prop := ∃ e ∈ tree d, e.symLink = none ∧ e.target = .dir d'

/-- The directory lies in the tree rooted at `d`. -/
def InTree (tree : DirTree D) (d x : D) : Prop := ReflTransGen (fun a b => SubDir tree b a) d x

/-- A file system: the names in a directory differ, a directory is one entry, and lies at some depth. -/
structure FileTree (D : Type*) where
  entries : DirTree D
  names : ∀ d, (entries d).Pairwise fun e e' => e.fileName ≠ e'.fileName
  parent : ∀ {d x x' : D} {e e' : DirEntry D}, e ∈ entries x → e' ∈ entries x' → e.symLink = none → e'.symLink = none →
    e.target = .dir d → e'.target = .dir d → x = x' ∧ e = e'
  depth : WellFounded (SubDir entries)

/-- Two entries are the same directory. -/
def sameDir [DecidableEq D] (e e' : DirEntry D) : Bool :=
  e.symLink.isNone && e'.symLink.isNone && e.isDir.isSome && decide (e.isDir = e'.isDir)

/-- A finite file system, directory by directory: those in a directory come after it. -/
structure Proper (l : List (List (DirEntry ℕ))) : Prop where
  names : ∀ es ∈ l, es.Pairwise fun e e' => e.fileName ≠ e'.fileName
  parent : ∀ x < l.length, ∀ e ∈ l.getD x [], ∀ x' < l.length, ∀ e' ∈ l.getD x' [], sameDir e e' → x = x' ∧ e = e'
  after : ∀ x < l.length, ∀ e ∈ l.getD x [], e.symLink = none → e.isDir.all fun d => x < d ∧ d < l.length

theorem isDir_eq_some {e : DirEntry D} {d : D} : e.isDir = some d ↔ e.target = .dir d := by
  unfold DirEntry.isDir
  cases e.target <;> simp

theorem lt_of_mem_getD {α : Type*} {l : List (List α)} {x : ℕ} {a : α} (h : a ∈ l.getD x []) : x < l.length := by
  by_contra hlt
  rw [List.getD_eq_default _ _ (not_lt.1 hlt)] at h
  exact absurd h List.not_mem_nil

def FileTree.ofList (l : List (List (DirEntry ℕ))) (h : Proper l) : FileTree ℕ where
  entries d := l.getD d []
  names d := by
    by_cases hd : d < l.length
    · rw [List.getD_eq_getElem _ _ hd]
      exact h.names _ (List.getElem_mem hd)
    · rw [List.getD_eq_default _ _ (not_lt.1 hd)]
      exact .nil
  parent he he' hl hl' hd hd' := by
    refine h.parent _ (lt_of_mem_getD he) _ he _ (lt_of_mem_getD he') _ he' ?_
    simp [sameDir, hl, hl', isDir_eq_some.2 hd, isDir_eq_some.2 hd']
  depth := by
    refine Subrelation.wf ?_ (measure fun d => l.length - d).wf
    rintro d' d ⟨e, he, hlink, hd⟩
    have hafter := h.after d (lt_of_mem_getD he) e he hlink
    rw [isDir_eq_some.2 hd, Option.all_some, decide_eq_true_eq] at hafter
    show l.length - d' < l.length - d
    omega

variable {F : FileTree D} {maxLinks : Option ℕ} {tree s₀ t t' : DirTree D} {src v v' : QDirPath D} {e e' i : DirEntry D}
  {x y z d : D} {n links : ℕ} {b : Bool} {is : List (DirEntry D)} {r : D × QString}

/-! ## Trees -/

theorem InTree.sub (h : InTree tree d x) (he : e ∈ tree x) (hlink : e.symLink = none) (hd : e.target = .dir y) :
    InTree tree d y :=
  ReflTransGen.tail h ⟨e, he, hlink, hd⟩

theorem InTree.trans (h : InTree tree d x) (h' : InTree tree x y) : InTree tree d y := ReflTransGen.trans h h'

/-- A directory of the tree, other than its root, has its parent in it. -/
theorem parent_in_tree (hd : InTree F.entries x d) (hne : d ≠ x) (hsub : SubDir F.entries d y) : InTree F.entries x y := by
  rcases ReflTransGen.cases_tail hd with he | ⟨z, hz, e', he', hlink', hd'⟩
  · exact absurd he hne
  · obtain ⟨e, he, hlink, hdir⟩ := hsub
    rw [(F.parent he he' hlink hlink' hdir hd').1]
    exact hz

/-- Of two entries of a directory, one has the other's name only if it is the other. -/
theorem eq_of_fileName (he : e ∈ F.entries x) (he' : e' ∈ F.entries x) (h : e.fileName = e'.fileName) : e = e' := by
  by_contra hne
  have hsymm : Std.Symm fun e e' : DirEntry D => e.fileName ≠ e'.fileName := ⟨fun _ _ h => h.symm⟩
  exact (F.names x).forall he he' hne h

/-- No directory lies below itself. -/
theorem not_below (h : SubDir F.entries y x) : ¬InTree F.entries y x := by
  intro hyx
  have hloop : TransGen (SubDir F.entries) y y := by
    have hback : ReflTransGen (SubDir F.entries) x y := reflTransGen_swap.1 hyx
    exact TransGen.head' h hback
  exact F.depth.transGen.irrefl.irrefl y hloop

/-- Of two directories above one, one is above the other. -/
theorem above_or (h : InTree F.entries x z) (h' : InTree F.entries y z) : InTree F.entries x y ∨ InTree F.entries y x := by
  induction h with
  | refl => exact .inr h'
  | @tail z w hxz hsub ih =>
    rcases ReflTransGen.cases_tail h' with rfl | ⟨u, hu, hparent⟩
    · exact .inl (ReflTransGen.tail hxz hsub)
    · obtain ⟨e, he, hlink, hd⟩ := hsub
      obtain ⟨e', he', hlink', hd'⟩ := hparent
      obtain ⟨rfl, -⟩ := F.parent he he' hlink hlink' hd hd'
      exact ih hu

/-- **Two directories of one directory** have nothing in common. -/
theorem disjoint_subs (he : e ∈ F.entries x) (he' : e' ∈ F.entries x) (hne : e ≠ e') (hlink : e.symLink = none)
    (hlink' : e'.symLink = none) (hd : e.target = .dir y) (hd' : e'.target = .dir z) (hw : InTree F.entries y d) :
    ¬InTree F.entries z d := by
  have hroot : ∀ {y z : D} {e e' : DirEntry D}, e ∈ F.entries x → e' ∈ F.entries x → e ≠ e' → e.symLink = none →
      e'.symLink = none → e.target = .dir y → e'.target = .dir z → ¬InTree F.entries y z := by
    intro y z e e' he he' hne hlink hlink' hd hd' hyz
    have hyz' : z ≠ y := by
      rintro rfl
      exact hne (F.parent he he' hlink hlink' hd hd').2
    exact not_below ⟨e, he, hlink, hd⟩ (parent_in_tree hyz hyz' ⟨e', he', hlink', hd'⟩)
  intro hw'
  rcases above_or hw hw' with h | h
  · exact hroot he he' hne hlink hlink' hd hd' h
  · exact hroot he' he hne.symm hlink' hlink hd' hd h

/-! ## States -/

/-- Nothing has come in. -/
def Within (t' t : DirTree D) : Prop := ∀ x, ∀ e ∈ t' x, e ∈ t x

theorem Within.refl : Within t t := fun _ _ h => h

theorem Within.trans {t'' : DirTree D} (h : Within t'' t') (h' : Within t' t) : Within t'' t := fun x e he => h' x e (h x e he)

theorem has_iff : t.has r = true ↔ ∃ e ∈ t r.1, e.fileName = r.2 := by
  simp [DirTree.has]

theorem Within.has (h : Within t' t) (hr : t'.has r = true) : t.has r = true := by
  obtain ⟨e, he, hname⟩ := has_iff.1 hr
  exact has_iff.2 ⟨e, h _ e he, hname⟩

theorem Within.resolves (h : Within t' t) (hv : v.resolves t' = true) : v.resolves t = true := by
  rw [QDirPath.resolves, List.all_eq_true] at hv ⊢
  exact fun r hr => h.has (hv r hr)

theorem listed_iff : e.listed maxLinks t links = true ↔
    e.shown = true ∧ (∀ r ∈ e.route, t.has r = true) ∧ (e.symLink = none ∨ maxLinks.all (links + e.links ≤ ·) = true) := by
  rw [DirEntry.listed, Bool.and_eq_true, Bool.and_eq_true, Bool.or_eq_true, List.all_eq_true,
    Option.isNone_iff_eq_none, and_assoc]

/-- What is listed under a path was listed before, under one with fewer links. -/
theorem Within.listed (h : Within t' t) (he : e.listed maxLinks t' n = true) (hle : links ≤ n) :
    e.listed maxLinks t links = true := by
  obtain ⟨hshown, hroute, hlinks⟩ := listed_iff.1 he
  refine listed_iff.2 ⟨hshown, fun r hr => h.has (hroute r hr), hlinks.imp_right fun hall => ?_⟩
  cases maxLinks with
  | none => rfl
  | some k =>
    simp only [Option.all_some, decide_eq_true_eq] at hall ⊢
    omega

variable [DecidableEq D]

/-- `emptydir` as a walk. -/
def emptying (maxLinks : Option ℕ) : Walk (DirTree D) (QDirPath D) (DirEntry D) where
  items := entryInfoList maxLinks
  enter src e := e.isDir.map (src.sub e)
  leave src e tree :=
    match e.isDir with
    | some _ => rmdir tree src e
    | none => if e.isFile then remove tree src e else tree

/-- The three kinds of rounds. -/
theorem leave_file (h : i.target = .file) : (emptying maxLinks).leave v i t = remove t v i := by
  cases i
  cases h
  rfl

theorem leave_dir (h : i.target = .dir d) : (emptying maxLinks).leave v i t =
    if v.resolves t && i.symLink.isNone && i.removable && (t d).isEmpty then t.erase v.dir i else t := by
  cases i
  cases h
  rfl

theorem leave_other (h : i.target = .other) : (emptying maxLinks).leave v i t = t := by
  cases i
  cases h
  rfl

theorem item_eq (ih : ∀ (tree : DirTree D) (src : QDirPath D),
      emptydir maxLinks n tree src = ((emptying maxLinks).visit n tree src).map fun t => (t, true)) :
    (emptying maxLinks).item n src tree e =
      match e.isDir with
      | some d => (emptydir maxLinks n tree (src.sub e d)).map fun r : DirTree D × Bool => rmdir r.1 src e
      | none => some (if e.isFile then remove tree src e else tree) := by
  obtain ⟨name, link, target, shown, removable⟩ := e
  cases target with
  | file => rfl
  | other => rfl
  | dir d =>
    show _ = (emptydir maxLinks n tree (src.sub ⟨name, link, .dir d, shown, removable⟩ d)).map _
    rw [ih, Option.map_map]
    rfl

/-- `emptydir` is this walk. -/
theorem emptydir_eq : emptydir maxLinks n tree src = ((emptying maxLinks).visit n tree src).map fun t => (t, true) := by
  induction n generalizing tree src with
  | zero => rfl
  | succ n ih =>
    rw [Walk.visit_succ, emptydir]
    refine congrArg (Option.map _) (congrArg (List.foldlM · tree _) ?_)
    funext tree e
    exact (item_eq fun _ _ => ih).symm

/-- **A call that ends answers true.** -/
theorem emptydir_some : emptydir maxLinks n tree src = some (t, b) ↔
    b = true ∧ (emptying maxLinks).visit n tree src = some t := by
  rw [emptydir_eq, Option.map_eq_some_iff]
  constructor
  · rintro ⟨s, hs, heq⟩
    rw [Prod.mk.injEq] at heq
    exact ⟨heq.2.symm, heq.1 ▸ hs⟩
  · rintro ⟨rfl, h⟩
    exact ⟨t, h, rfl⟩

/-! ## One round of the loop -/

theorem mem_erase {i : DirEntry D} {d : D} : e ∈ tree.erase d i x ↔ e ∈ tree x ∧ ¬(x = d ∧ e = i) := by
  unfold DirTree.erase
  by_cases hx : x = d
  · subst hx
    simp
  · simp [hx]

/-- **What one round can do**: nothing, or take away its own entry, a file or an empty directory. -/
theorem leave_cases (maxLinks : Option ℕ) (v : QDirPath D) (i : DirEntry D) (t : DirTree D) :
    (emptying maxLinks).leave v i t = t ∨ (emptying maxLinks).leave v i t = t.erase v.dir i ∧ v.resolves t = true ∧
      i.removable = true ∧ (i.target = .file ∨ ∃ d, i.symLink = none ∧ i.target = .dir d ∧ t d = []) := by
  cases ht : i.target with
  | file =>
    rw [leave_file ht, remove]
    split
    · rename_i hrem
      obtain ⟨hv, hrem⟩ := Bool.and_eq_true_iff.1 hrem
      exact .inr ⟨rfl, hv, hrem, .inl rfl⟩
    · exact .inl rfl
  | dir d =>
    rw [leave_dir ht]
    split
    · rename_i hrem
      simp only [Bool.and_eq_true, Option.isNone_iff_eq_none, List.isEmpty_iff] at hrem
      exact .inr ⟨rfl, hrem.1.1.1, hrem.1.2, .inr ⟨d, hrem.1.1.2, rfl, hrem.2⟩⟩
    · exact .inl rfl
  | other => exact .inl (leave_other ht)

theorem leave_taken (h : e ∈ t x) (hgone : e ∉ (emptying maxLinks).leave v i t x) :
    x = v.dir ∧ e = i ∧ i.removable = true ∧ (i.target = .file ∨ ∃ d, i.symLink = none ∧ i.target = .dir d ∧ t d = []) := by
  rcases leave_cases maxLinks v i t with he | ⟨he, -, hrem, hkind⟩
  · rw [he] at hgone
    exact absurd h hgone
  · rw [he, mem_erase, not_and, not_not] at hgone
    exact ⟨(hgone h).1, (hgone h).2, hrem, hkind⟩

theorem leave_within : Within ((emptying maxLinks).leave v i t) t := by
  intro x e h
  rcases leave_cases maxLinks v i t with he | ⟨he, -⟩
  · exact he ▸ h
  · rw [he] at h
    exact (mem_erase.1 h).1

/-- A file that can be removed goes, and so does a directory that is empty. -/
theorem leave_takes (hv : v.resolves t = true) (hrem : i.removable = true)
    (h : i.target = .file ∨ ∃ d, i.symLink = none ∧ i.target = .dir d ∧ t d = []) :
    (emptying maxLinks).leave v i t = t.erase v.dir i := by
  rcases h with ht | ⟨d, hlink, ht, hd⟩
  · rw [leave_file ht, remove, hv, hrem, Bool.and_self, if_pos rfl]
  · rw [leave_dir ht, if_pos (by simp [hv, hlink, hrem, hd])]

theorem enter_eq_some : (emptying maxLinks).enter v e = some v' ↔ ∃ d, e.target = .dir d ∧ v' = v.sub e d := by
  show (e.isDir.map (v.sub e)) = some v' ↔ _
  rw [Option.map_eq_some_iff]
  constructor
  · rintro ⟨d, hd, rfl⟩
    exact ⟨d, isDir_eq_some.1 hd, rfl⟩
  · rintro ⟨d, hd, rfl⟩
    exact ⟨d, isDir_eq_some.2 hd, rfl⟩

theorem enter_eq_none : (emptying maxLinks).enter v e = none ↔ ∀ d, e.target ≠ .dir d := by
  rw [← not_iff_not, ← ne_eq, Option.ne_none_iff_exists']
  simp only [enter_eq_some, not_forall, not_not]
  exact ⟨fun ⟨_, d, hd, _⟩ => ⟨d, hd⟩, fun ⟨d, hd⟩ => ⟨_, d, hd, rfl⟩⟩

omit [DecidableEq D] in
theorem mem_entryInfoList : e ∈ entryInfoList maxLinks t v ↔
    v.resolves t = true ∧ e ∈ t v.dir ∧ e.listed maxLinks t v.links = true := by
  unfold entryInfoList
  split
  · rename_i hv
    rw [List.mem_filter]
    exact ⟨fun h => ⟨hv, h⟩, And.right⟩
  · rename_i hv
    exact ⟨fun h => absurd h List.not_mem_nil, fun h => absurd h.1 hv⟩

/-! ## What a call can only take away -/

theorem loop_within (h : (emptying maxLinks).Loop v is t t') : Within t' t :=
  Walk.Loop.invariant (P := fun t' => Within t' t) (R := fun _ => True) (C := fun _ _ => True)
    (fun _ _ _ _ _ _ => trivial) (fun _ _ _ _ _ => trivial) (fun _ _ _ hP _ => leave_within.trans hP) h
    (fun _ _ => trivial) .refl

/-- A state in which a call, begun in `s₀`, can be: links to directories are still there, and
a directory that is gone was empty. -/
structure Part (s₀ t : DirTree D) : Prop where
  within : Within t s₀
  links : ∀ {x e d}, e ∈ s₀ x → e.symLink ≠ none → e.target = .dir d → e ∈ t x
  gone : ∀ {x e d}, e ∈ s₀ x → e.target = .dir d → e ∉ t x → t d = []

omit [DecidableEq D] in
theorem Part.start : Part s₀ s₀ := ⟨.refl, fun h _ _ => h, fun h _ hn => absurd h hn⟩

omit [DecidableEq D] in
theorem Within.eq_nil (h : Within t' t) (hd : t d = []) : t' d = [] := by
  rw [List.eq_nil_iff_forall_not_mem] at hd ⊢
  exact fun e he => hd e (h d e he)

theorem Part.leave (h : Part s₀ t) : Part s₀ ((emptying maxLinks).leave v i t) where
  within := leave_within.trans h.within
  links {x e d} hm hlink hd := by
    by_contra hgone
    obtain ⟨-, rfl, -, hkind⟩ := leave_taken (h.links hm hlink hd) hgone
    rcases hkind with hfile | ⟨d', hno, -⟩
    · rw [hd] at hfile
      exact absurd hfile (by simp)
    · exact hlink hno
  gone {x e d} hm hd hgone := by
    by_cases hin : e ∈ t x
    · obtain ⟨-, rfl, -, hkind⟩ := leave_taken hin hgone
      rcases hkind with hfile | ⟨d', -, hd', hnil⟩
      · rw [hd] at hfile
        exact absurd hfile (by simp)
      · rw [hd, Target.dir.injEq] at hd'
        exact leave_within.eq_nil (hd' ▸ hnil)
    · exact leave_within.eq_nil (h.gone hm hd hin)

theorem Part.loop (h : Part s₀ t) (hl : (emptying maxLinks).Loop v is t t') : Part s₀ t' :=
  Walk.Loop.invariant (R := fun _ => True) (C := fun _ _ => True) (fun _ _ _ _ _ _ => trivial)
    (fun _ _ _ _ _ => trivial) (fun _ _ _ hP _ => hP.leave) hl (fun _ _ => trivial) h

omit [DecidableEq D] in
/-- What lies below a directory that has been emptied is gone. -/
theorem Part.below (h : Part s₀ t) (hnil : t d = []) (hx : InTree s₀ d x) : t x = [] := by
  induction hx with
  | refl => exact hnil
  | tail _ hstep ih =>
    obtain ⟨e, he, -, hd⟩ := hstep
    refine h.gone he hd ?_
    rw [ih]
    exact List.not_mem_nil

/-! ## What no call takes away -/

/-- No call removes the entry: it is not listed even at the beginning, or cannot be removed, or is neither a file
nor a directory, or is a link to a directory. -/
def Held (maxLinks : Option ℕ) (tree : DirTree D) (links : ℕ) (e : DirEntry D) : Prop :=
  e.listed maxLinks tree links = false ∨ e.removable = false ∨ e.target = .other ∨ e.symLink ≠ none ∧ ∃ d, e.target = .dir d

/-- Such an entry lies in the tree rooted at `d`. -/
def Holds (maxLinks : Option ℕ) (tree : DirTree D) (links : ℕ) (d : D) : Prop :=
  ∃ x, InTree tree d x ∧ ∃ e ∈ tree x, Held maxLinks tree links e

omit [DecidableEq D] in
theorem Holds.cases (h : Holds maxLinks s₀ links d) :
    ∃ e ∈ s₀ d, Held maxLinks s₀ links e ∨ e.symLink = none ∧ ∃ d', e.target = .dir d' ∧ Holds maxLinks s₀ links d' := by
  obtain ⟨x, hx, e, he, hs⟩ := h
  rcases ReflTransGen.cases_head hx with rfl | ⟨y, ⟨e', he', hlink, hd⟩, hrest⟩
  · exact ⟨e, he, .inl hs⟩
  · exact ⟨e', he', .inr ⟨hlink, y, hd, x, hrest, e, he, hs⟩⟩

/-- These entries are there, and so are the directories above them. -/
def Keeps (maxLinks : Option ℕ) (s₀ : DirTree D) (links : ℕ) (t : DirTree D) : Prop :=
  ∀ x, ∀ e ∈ s₀ x, (Held maxLinks s₀ links e ∨
    e.symLink = none ∧ ∃ d, e.target = .dir d ∧ Holds maxLinks s₀ links d) → e ∈ t x

omit [DecidableEq D] in
theorem Keeps.nonempty (h : Keeps maxLinks s₀ links t) (hs : Holds maxLinks s₀ links d) : t d ≠ [] := by
  obtain ⟨e, he, hkept⟩ := hs.cases
  intro hnil
  have hmem := h d e he hkept
  rw [hnil] at hmem
  exact List.not_mem_nil hmem

theorem Keeps.leave (h : Keeps maxLinks s₀ links t) (hlisted : i.listed maxLinks s₀ links = true) :
    Keeps maxLinks s₀ links ((emptying maxLinks).leave v i t) := by
  intro x e he hkept
  by_contra hgone
  obtain ⟨-, rfl, hrem, hkind⟩ := leave_taken (h x e he hkept) hgone
  rcases hkept with hs | ⟨-, d, hd, hs⟩
  · rcases hs with hhidden | hlocked | hother | ⟨hlink, d, hd⟩
    · rw [hhidden] at hlisted
      exact Bool.noConfusion hlisted
    · rw [hlocked] at hrem
      exact Bool.noConfusion hrem
    · rcases hkind with hfile | ⟨d, -, hd, -⟩
      · rw [hother] at hfile
        exact absurd hfile (by simp)
      · rw [hother] at hd
        exact absurd hd (by simp)
    · rcases hkind with hfile | ⟨d', hno, -⟩
      · rw [hd] at hfile
        exact absurd hfile (by simp)
      · exact hlink hno
  · rcases hkind with hfile | ⟨d', -, hd', hnil⟩
    · rw [hd] at hfile
      exact absurd hfile (by simp)
    · rw [hd, Target.dir.injEq] at hd'
      exact h.nonempty hs (hd' ▸ hnil)

/-- **What no call takes away stays**, and so do the directories above it. -/
theorem visits_keeps (h : (emptying maxLinks).Visits s₀ src t) : Keeps maxLinks s₀ src.links t := by
  have hend : Within t s₀ ∧ Keeps maxLinks s₀ src.links t := by
    refine Walk.Visits.invariant (P := fun t => Within t s₀ ∧ Keeps maxLinks s₀ src.links t) (R := fun v => src.links ≤ v.links)
      (C := fun v e => src.links ≤ v.links ∧ e.listed maxLinks s₀ src.links = true) ?_ ?_ ?_ h (Nat.le_refl _)
      ⟨.refl, fun _ _ he _ => he⟩
    · intro t v ht hv e he
      exact ⟨hv, ht.1.listed (mem_entryInfoList.1 he).2.2 hv⟩
    · intro v e v' hC he
      obtain ⟨d, -, rfl⟩ := enter_eq_some.1 he
      exact Nat.le_trans hC.1 (Nat.le_add_right _ _)
    · intro t v e ht hC
      exact ⟨leave_within.trans ht.1, ht.2.leave hC.2⟩
  exact hend.2

end QDesktopSearch.EmptyDir
