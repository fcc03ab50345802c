import QDesktopSearch.Proof.EmptyDir

/-!
# When `emptydir` empties a directory

* `Late`: where a directory is come to after something has gone that a link in it leads through.
* `loop_clears`: what a loop leaves, where nothing is held: it goes through its items one after the other, and takes
  away all that is below them exactly if it is never late.
* `emptydir_honest_iff`: where the answer is true, the directory is empty.
-/

namespace QDesktopSearch.EmptyDir

open Relation

variable {D : Type*}

/-- The directory lies below the items, at whatever depth. -/
def Under (tree : DirTree D) (is : List (DirEntry D)) (x : D) : Prop :=
  ∃ i ∈ is, i.symLink = none ∧ ∃ d, i.target = .dir d ∧ InTree tree d x

/-- The entry goes when an item of the directory `c` goes: it is the item, or lies below it. -/
def Goes (tree : DirTree D) (c : D) (i : DirEntry D) (r : D × QString) : Prop :=
  r = (c, i.fileName) ∨ Under tree [i] r.1 ∧ tree.has r = true

/-- A link in the directory leads through the entry. -/
def LeadsThrough (tree : DirTree D) (x : D) (r : D × QString) : Prop := ∃ e ∈ tree x, r ∈ e.route

/-- One item of the directory `c` goes before a directory below a later item is read, a link in which leads
through what goes. -/
def Late (tree : DirTree D) (c : D) : List (DirEntry D) → Prop
  | [] => False
  | i :: is => (∃ x, Under tree is x ∧ ∃ r, LeadsThrough tree x r ∧ Goes tree c i r) ∨ Late tree c is

/-- Something in the tree rooted at `d` stays: it is held, or a directory is read late. -/
def Stuck (maxLinks : Option ℕ) (tree : DirTree D) (links : ℕ) (d : D) : Prop :=
  Holds maxLinks tree links d ∨ ∃ c, InTree tree d c ∧ Late tree c (tree c)

variable {F : FileTree D} {maxLinks : Option ℕ} {t t' : DirTree D} {v : QDirPath D} {e i : DirEntry D} {x c d : D} {n links : ℕ}
  {b : Bool} {is : List (DirEntry D)} {r : D × QString}

/-! ## Below items -/

theorem under_cons : Under F.entries (i :: is) x ↔ Under F.entries [i] x ∨ Under F.entries is x := by
  unfold Under
  simp only [List.mem_cons, List.not_mem_nil, or_false, or_and_right, exists_or, exists_eq_left]

theorem under_dir (hlink : i.symLink = none) (hd : i.target = .dir d) : Under F.entries [i] x ↔ InTree F.entries d x := by
  constructor
  · rintro ⟨j, hj, -, d', hd', hx⟩
    rw [List.mem_singleton.1 hj, hd, Target.dir.injEq] at hd'
    exact hd' ▸ hx
  · exact fun hx => ⟨i, List.mem_singleton_self i, hlink, d, hd, hx⟩

theorem not_under_file (hfile : i.target = .file) : ¬Under F.entries [i] x := by
  rintro ⟨j, hj, -, d, hd, -⟩
  rw [List.mem_singleton.1 hj, hfile] at hd
  exact absurd hd (by simp)

theorem inTree_iff : InTree F.entries d x ↔ x = d ∨ Under F.entries (F.entries d) x := by
  constructor
  · intro h
    rcases ReflTransGen.cases_head h with rfl | ⟨y, ⟨e, he, hlink, hd⟩, hrest⟩
    · exact .inl rfl
    · exact .inr ⟨e, he, hlink, y, hd, hrest⟩
  · rintro (rfl | ⟨e, he, hlink, y, hd, hx⟩)
    · exact ReflTransGen.refl
    · exact ReflTransGen.head ⟨e, he, hlink, hd⟩ hx

theorem Under.mono {is' : List (DirEntry D)} (h : Under F.entries is x) (hsub : is ⊆ is') : Under F.entries is' x := by
  obtain ⟨i, hi, h⟩ := h
  exact ⟨i, hsub hi, h⟩

/-- A directory does not lie below its own items. -/
theorem ne_of_under (h : Under F.entries is x) (his : is ⊆ F.entries c) : x ≠ c := by
  rintro rfl
  obtain ⟨i, hi, hlink, d, hd, hx⟩ := h
  exact not_below ⟨i, his hi, hlink, hd⟩ hx

/-- What lies below one item does not lie below the others. -/
theorem not_under_rest (hsub : (i :: is).Sublist (F.entries c)) (h : Under F.entries is x) : ¬Under F.entries [i] x := by
  rintro ⟨j, hj, hlink, d, hd, hx⟩
  obtain rfl := List.mem_singleton.1 hj
  obtain ⟨k, hk, hlink', d', hd', hx'⟩ := h
  have hne : j ≠ k := by
    rintro rfl
    exact (List.pairwise_cons.1 ((F.names c).sublist hsub)).1 j hk rfl
  exact disjoint_subs (hsub.subset List.mem_cons_self) (hsub.subset (List.mem_cons_of_mem _ hk)) hne hlink hlink' hd hd' hx hx'

theorem notMem_rest (hsub : (i :: is).Sublist (F.entries c)) : i ∉ is := fun hi =>
  (List.pairwise_cons.1 ((F.names c).sublist hsub)).1 i hi rfl

/-! ## Never late -/

/-- From here on no directory below the items is read late. -/
structure Through (F : FileTree D) (c : D) (is : List (DirEntry D)) (t : DirTree D) : Prop where
  has : ∀ x, Under F.entries is x → ∀ r, LeadsThrough F.entries x r → t.has r = true
  items : ¬Late F.entries c is
  below : ∀ x, Under F.entries is x → ¬Late F.entries x (F.entries x)

/-- The same, with the directory itself. -/
def Enters (F : FileTree D) (d : D) (t : DirTree D) : Prop :=
  (∀ x, InTree F.entries d x → ∀ r, LeadsThrough F.entries x r → t.has r = true) ∧
    ∀ x, InTree F.entries d x → ¬Late F.entries x (F.entries x)

theorem through_entries : (Through F d (F.entries d) t ∧ ∀ r, LeadsThrough F.entries d r → t.has r = true) ↔ Enters F d t := by
  constructor
  · rintro ⟨h, hroot⟩
    refine ⟨fun x hx => ?_, fun x hx => ?_⟩
    · rcases inTree_iff.1 hx with rfl | hx
      · exact hroot
      · exact h.has x hx
    · rcases inTree_iff.1 hx with rfl | hx
      · exact h.items
      · exact h.below x hx
  · rintro ⟨hhas, hlate⟩
    exact ⟨⟨fun x hx => hhas x (inTree_iff.2 (.inr hx)), hlate d ReflTransGen.refl,
      fun x hx => hlate x (inTree_iff.2 (.inr hx))⟩, hhas d ReflTransGen.refl⟩

/-- What lies below the first item. -/
def ThroughFirst (F : FileTree D) (i : DirEntry D) (t : DirTree D) : Prop :=
  (∀ x, Under F.entries [i] x → ∀ r, LeadsThrough F.entries x r → t.has r = true) ∧
    ∀ x, Under F.entries [i] x → ¬Late F.entries x (F.entries x)

theorem Through.first (h : Through F c (i :: is) t) : ThroughFirst F i t :=
  ⟨fun x hx => h.has x (under_cons.2 (.inl hx)), fun x hx => h.below x (under_cons.2 (.inl hx))⟩

/-- **One item after the other.** -/
theorem through_cons (t' : DirTree D) (hgone : ∀ r, t'.has r = true ↔ t.has r = true ∧ ¬Goes F.entries c i r) :
    Through F c (i :: is) t ↔ ThroughFirst F i t ∧ Through F c is t' := by
  constructor
  · intro h
    refine ⟨h.first, fun x hx r hr => ?_, fun hlate => h.items (.inr hlate), fun x hx => h.below x (under_cons.2 (.inr hx))⟩
    exact (hgone r).2 ⟨h.has x (under_cons.2 (.inr hx)) r hr, fun hgoes => h.items (.inl ⟨x, hx, r, hr, hgoes⟩)⟩
  · rintro ⟨⟨hhas, hlate⟩, h⟩
    refine ⟨fun x hx r hr => ?_, ?_, fun x hx => ?_⟩
    · rcases under_cons.1 hx with hx | hx
      · exact hhas x hx r hr
      · exact ((hgone r).1 (h.has x hx r hr)).1
    · rintro (⟨x, hx, r, hr, hgoes⟩ | hrest)
      · exact ((hgone r).1 (h.has x hx r hr)).2 hgoes
      · exact h.items hrest
    · rcases under_cons.1 hx with hx | hx
      · exact hlate x hx
      · exact h.below x hx

theorem throughFirst_file (hfile : i.target = .file) : ThroughFirst F i t :=
  ⟨fun _ hx => absurd hx (not_under_file hfile), fun _ hx => absurd hx (not_under_file hfile)⟩

theorem throughFirst_dir (hlink : i.symLink = none) (hd : i.target = .dir d) : ThroughFirst F i t ↔ Enters F d t := by
  unfold ThroughFirst Enters
  simp only [under_dir hlink hd]

/-! ## A loop -/

variable [DecidableEq D]

/-- What is ahead is as it was. -/
structure Fresh (F : FileTree D) (c : D) (is : List (DirEntry D)) (t : DirTree D) : Prop where
  items : ∀ i ∈ is, i ∈ t c
  below : ∀ x, Under F.entries is x → t x = F.entries x

/-- What a loop leaves. -/
structure Clears (F : FileTree D) (v : QDirPath D) (is : List (DirEntry D)) (t t' : DirTree D) : Prop where
  frame : ∀ x, x ≠ v.dir → ¬Under F.entries is x → t' x = t x
  keep : ∀ e ∈ t v.dir, e ∉ is → e ∈ t' v.dir
  iff : (∀ i ∈ is, i ∉ t' v.dir) ↔ Through F v.dir is t

omit [DecidableEq D] in
/-- Where nothing is held, an entry of the tree is a file or a directory that can be removed, or a link to a file. -/
theorem kind_of_free (hfree : ¬Holds maxLinks F.entries links c) (he : e ∈ F.entries c) :
    e.listed maxLinks F.entries links = true ∧ e.removable = true ∧
      (e.target = .file ∨ e.symLink = none ∧ ∃ d, e.target = .dir d) := by
  have hheld : ¬Held maxLinks F.entries links e := fun h => hfree ⟨c, ReflTransGen.refl, e, he, h⟩
  refine ⟨?_, ?_, ?_⟩
  · by_contra h
    exact hheld (.inl (by simpa using h))
  · by_contra h
    exact hheld (.inr (.inl (by simpa using h)))
  · cases hd : e.target with
    | file => exact .inl rfl
    | other => exact absurd (.inr (.inr (.inl hd))) hheld
    | dir d =>
      refine .inr ⟨?_, d, rfl⟩
      by_contra hlink
      exact hheld (.inr (.inr (.inr ⟨hlink, d, hd⟩)))

omit [DecidableEq D] in
theorem free_sub (hfree : ¬Holds maxLinks F.entries links c) (he : e ∈ F.entries c) (hlink : e.symLink = none)
    (hd : e.target = .dir d) :
    ¬Holds maxLinks F.entries links d := by
  rintro ⟨x, hx, h⟩
  exact hfree ⟨x, ReflTransGen.head ⟨e, he, hlink, hd⟩ hx, h⟩

/-- The item alone has gone. -/
theorem has_erase (ht : Within t F.entries) (hi : i ∈ F.entries c) :
    (t.erase c i).has r = true ↔ t.has r = true ∧ r ≠ (c, i.fileName) := by
  rw [has_iff, has_iff]
  constructor
  · rintro ⟨e, he, hname⟩
    obtain ⟨he, hne⟩ := mem_erase.1 he
    refine ⟨⟨e, he, hname⟩, fun hr => ?_⟩
    obtain ⟨hc, hfile⟩ := Prod.mk.inj hr
    rw [hc] at he
    exact hne ⟨hc, eq_of_fileName (ht c e he) hi (hname.trans hfile)⟩
  · rintro ⟨⟨e, he, hname⟩, hne⟩
    refine ⟨e, mem_erase.2 ⟨he, ?_⟩, hname⟩
    rintro ⟨hc, rfl⟩
    exact hne (Prod.ext hc hname.symm)

omit [DecidableEq D] in
theorem entryInfoList_root : entryInfoList maxLinks t ⟨d, links, []⟩ = (t d).filter (·.listed maxLinks t links) := if_pos rfl

omit [DecidableEq D] in
/-- **A call empties its directory** exactly if it reads no directory late. -/
theorem Clears.call {u : DirTree D} (h : Clears F ⟨d, links, []⟩ (entryInfoList maxLinks t ⟨d, links, []⟩) t u)
    (hu : Within u t)
    (hd : t d = F.entries d) (hfree : ¬Holds maxLinks F.entries links d) : u d = [] ↔ Enters F d t := by
  have hmem : ∀ {e}, e ∈ entryInfoList maxLinks t ⟨d, links, []⟩ ↔ e ∈ F.entries d ∧ e.listed maxLinks t links = true := by
    intro e
    rw [mem_entryInfoList, ← hd]
    exact ⟨And.right, fun h => ⟨rfl, h⟩⟩
  -- an entry is listed if what it leads through is there
  have hlisted : ∀ e ∈ F.entries d, e.listed maxLinks t links = true ↔ ∀ r ∈ e.route, t.has r = true := by
    intro e he
    obtain ⟨hshown, -, hlinks⟩ := listed_iff.1 (kind_of_free hfree he).1
    rw [listed_iff]
    exact ⟨fun h => h.2.1, fun h => ⟨hshown, h, hlinks⟩⟩
  have hitems : (∀ e ∈ F.entries d, e.listed maxLinks t links = true) →
      entryInfoList maxLinks t ⟨d, links, []⟩ = F.entries d := by
    intro hall
    rw [entryInfoList_root, hd]
    exact List.filter_eq_self.2 hall
  rw [← through_entries]
  constructor
  · intro hnil
    have hall : ∀ e ∈ F.entries d, e.listed maxLinks t links = true := by
      intro e he
      by_contra hno
      have hkept := h.keep e (hd ▸ he) fun hin => hno (hmem.1 hin).2
      rw [hnil] at hkept
      exact List.not_mem_nil hkept
    have hthrough := h.iff.1 fun i _ hin => by
      rw [show u (QDirPath.dir ⟨d, links, []⟩) = [] from hnil] at hin
      exact List.not_mem_nil hin
    rw [hitems hall] at hthrough
    exact ⟨hthrough, fun r ⟨e, he, hr⟩ => (hlisted e he).1 (hall e he) r hr⟩
  · rintro ⟨hthrough, hhas⟩
    have hall : ∀ e ∈ F.entries d, e.listed maxLinks t links = true :=
      fun e he => (hlisted e he).2 fun r hr => hhas r ⟨e, he, hr⟩
    rw [← hitems hall] at hthrough
    have hgone := h.iff.2 hthrough
    rw [List.eq_nil_iff_forall_not_mem]
    intro e he
    refine hgone e ?_ he
    rw [hitems hall, ← hd]
    exact hu d e he

/-! ### What one item leaves -/

theorem leave_ne (hx : x ≠ v.dir) : (emptying maxLinks).leave v i t x = t x := by
  rcases leave_cases maxLinks v i t with he | ⟨he, -⟩
  · rw [he]
  · rw [he, DirTree.erase, Function.update_of_ne hx]

theorem leave_others (he : e ∈ t v.dir) (hne : e ≠ i) : e ∈ (emptying maxLinks).leave v i t v.dir := by
  by_contra hgone
  exact hne (leave_taken he hgone).2.1

/-- A directory that is not empty stays. -/
theorem leave_stays (hi : i ∈ t v.dir) (hd : i.target = .dir d) (hne : t d ≠ []) : i ∈ (emptying maxLinks).leave v i t v.dir := by
  by_contra hgone
  obtain ⟨-, -, -, hkind⟩ := leave_taken hi hgone
  rcases hkind with hfile | ⟨d', -, hd', hnil⟩
  · rw [hd] at hfile
    exact absurd hfile (by simp)
  · rw [hd, Target.dir.injEq] at hd'
    exact hne (hd' ▸ hnil)

/-- A directory that has been emptied goes, and what lay below it has gone before. -/
theorem has_emptied {u : DirTree D} (hi : i ∈ F.entries c) (hlink : i.symLink = none) (hd : i.target = .dir d)
    (ht : Within t F.entries) (hu : Part F.entries u) (hnil : u d = []) (hframe : ∀ x, ¬InTree F.entries d x → u x = t x) :
    (u.erase c i).has r = true ↔ t.has r = true ∧ ¬Goes F.entries c i r := by
  rw [has_erase hu.within hi, Goes, under_dir hlink hd, not_or, and_comm (a := ¬r = _), ← and_assoc]
  refine and_congr_left fun _ => ?_
  by_cases hr : InTree F.entries d r.1
  · have hnone : u.has r = false := by rw [DirTree.has, hu.below hnil hr]; rfl
    rw [hnone]
    exact ⟨fun h => absurd h Bool.false_ne_true, fun h => absurd ⟨hr, ht.has h.1⟩ h.2⟩
  · rw [DirTree.has, hframe _ hr, ← DirTree.has]
    exact ⟨fun h => ⟨h, fun hin => hr hin.1⟩, And.left⟩

/-- The item goes, and the others do if the loop is not late for them. -/
theorem Clears.cons {u : DirTree D} (h : Clears F v is (u.erase v.dir i) t')
    (hloop : (emptying maxLinks).Loop v is (u.erase v.dir i) t')
    (hgoes : ∀ r, (u.erase v.dir i).has r = true ↔ t.has r = true ∧ ¬Goes F.entries v.dir i r) (hfirst : ThroughFirst F i t) :
    (∀ j ∈ i :: is, j ∉ t' v.dir) ↔ Through F v.dir (i :: is) t := by
  have hgone : i ∉ t' v.dir := fun hin => (mem_erase.1 (loop_within hloop _ _ hin)).2 ⟨rfl, rfl⟩
  rw [List.forall_mem_cons, and_iff_right hgone, h.iff, through_cons _ hgoes, and_iff_right hfirst]

omit [DecidableEq D] in
/-- Outside the tree of its directory a call changes nothing. -/
theorem Clears.outside {u : DirTree D} (h : Clears F ⟨d, links, []⟩ is t u) (his : is.Sublist (F.entries d))
    (hx : ¬InTree F.entries d x) : u x = t x := by
  refine h.frame x (fun hxd => hx (hxd ▸ ReflTransGen.refl)) fun hunder => hx ?_
  exact inTree_iff.2 (.inr (hunder.mono his.subset))

/-- **A loop** in a tree in which nothing is held. -/
theorem loop_clears (h : (emptying maxLinks).Loop v is t t') (hv : v.route = [])
    (hfree : ¬Holds maxLinks F.entries v.links v.dir)
    (hpart : Part F.entries t) (hsub : is.Sublist (F.entries v.dir)) (hfresh : Fresh F v.dir is t) : Clears F v is t t' := by
  induction h with
  | nil =>
    refine ⟨fun _ _ _ => rfl, fun _ he _ => he, fun _ => ⟨?_, id, ?_⟩, fun _ _ hi => absurd hi List.not_mem_nil⟩
    · rintro x ⟨i, hi, -⟩
      exact absurd hi List.not_mem_nil
    · rintro x ⟨i, hi, -⟩
      exact absurd hi List.not_mem_nil
  | @leave v i is t t' hno hrest ih =>
    have hi : i ∈ F.entries v.dir := hsub.subset List.mem_cons_self
    obtain ⟨-, hrem, hkind⟩ := kind_of_free hfree hi
    have hfile : i.target = .file := hkind.resolve_right fun ⟨_, d, hd⟩ => enter_eq_none.1 hno d hd
    have hrest' : is.Sublist (F.entries v.dir) := (List.sublist_cons_self i is).trans hsub
    have hrec := ih hv hfree hpart.leave hrest' ?_
    · refine ⟨fun x hx hunder => ?_, fun e he hnot => ?_, ?_⟩
      · exact (hrec.frame x hx fun hu => hunder (under_cons.2 (.inr hu))).trans (leave_ne hx)
      · refine hrec.keep e (leave_others he fun hei => hnot (hei ▸ List.mem_cons_self)) fun hin => ?_
        exact hnot (List.mem_cons_of_mem _ hin)
      · have hleave : (emptying maxLinks).leave v i t = t.erase v.dir i :=
          leave_takes (by rw [QDirPath.resolves, hv]; rfl) hrem (.inl hfile)
        rw [hleave] at hrest hrec
        refine hrec.cons hrest (fun r => ?_) (throughFirst_file hfile)
        rw [has_erase hpart.within hi, Goes, or_iff_left fun hu => not_under_file hfile hu.1]
    · refine ⟨fun j hj => ?_, fun x hx => ?_⟩
      · exact leave_others (hfresh.items j (List.mem_cons_of_mem _ hj)) fun hji => notMem_rest hsub (hji ▸ hj)
      · rw [leave_ne (ne_of_under hx hrest'.subset)]
        exact hfresh.below x (under_cons.2 (.inr hx))
  | @enter v v' i is t u t' henter hcall hrest ih₁ ih₂ =>
    obtain ⟨d, hd, rfl⟩ := enter_eq_some.1 henter
    have hi : i ∈ F.entries v.dir := hsub.subset List.mem_cons_self
    obtain ⟨-, hrem, hkind⟩ := kind_of_free hfree hi
    have hlink : i.symLink = none := (hkind.resolve_left (by rw [hd]; simp)).1
    have hpath : v.sub i d = ⟨d, v.links, []⟩ := by simp [QDirPath.sub, DirEntry.links, DirEntry.route, hlink, hv]
    rw [hpath] at hcall ih₁
    have hrest' : is.Sublist (F.entries v.dir) := (List.sublist_cons_self i is).trans hsub
    have hunder : ∀ {x}, Under F.entries [i] x ↔ InTree F.entries d x := under_dir hlink hd
    have hbelow : ∀ x, InTree F.entries d x → t x = F.entries x :=
      fun x hx => hfresh.below x (under_cons.2 (.inl (hunder.2 hx)))
    have hfree' : ¬Holds maxLinks F.entries v.links d := free_sub hfree hi hlink hd
    have hitems : (entryInfoList maxLinks t ⟨d, v.links, []⟩).Sublist (F.entries d) := by
      rw [entryInfoList_root, hbelow d ReflTransGen.refl]
      exact List.filter_sublist
    -- the call
    have hcleared : Clears F ⟨d, v.links, []⟩ (entryInfoList maxLinks t ⟨d, v.links, []⟩) t u := by
      refine ih₁ rfl hfree' hpart hitems ⟨fun j hj => (mem_entryInfoList.1 hj).2.1, fun x hx => hbelow x ?_⟩
      exact inTree_iff.2 (.inr (hx.mono hitems.subset))
    have hempties := hcleared.call (loop_within hcall) (hbelow d ReflTransGen.refl) hfree'
    have hupart : Part F.entries u := hpart.loop hcall
    have huv : u v.dir = t v.dir := hcleared.outside hitems (not_below ⟨i, hi, hlink, hd⟩)
    -- and what follows it
    have hrec := ih₂ hv hfree hupart.leave hrest' ?_
    · refine ⟨fun x hx hnot => ?_, fun e he hnot => ?_, ?_⟩
      · rw [hrec.frame x hx fun hin => hnot (under_cons.2 (.inr hin)), leave_ne hx]
        exact hcleared.outside hitems fun hin => hnot (under_cons.2 (.inl (hunder.2 hin)))
      · refine hrec.keep e (leave_others (huv ▸ he) fun hei => hnot (hei ▸ List.mem_cons_self)) fun hin => ?_
        exact hnot (List.mem_cons_of_mem _ hin)
      · by_cases hnil : u d = []
        · have hleave : (emptying maxLinks).leave v i u = u.erase v.dir i :=
            leave_takes (by rw [QDirPath.resolves, hv]; rfl) hrem (.inr ⟨d, hlink, hd, hnil⟩)
          rw [hleave] at hrest hrec
          refine hrec.cons hrest (fun r => ?_) ((throughFirst_dir hlink hd).2 (hempties.1 hnil))
          exact has_emptied hi hlink hd hpart.within hupart hnil fun x => hcleared.outside hitems
        · -- the directory stays
          have hi' : i ∈ u v.dir := huv ▸ hfresh.items i List.mem_cons_self
          have hstays : i ∈ t' v.dir := hrec.keep i (leave_stays hi' hd hnil) (notMem_rest hsub)
          constructor
          · exact fun hgone => absurd hstays (hgone i List.mem_cons_self)
          · exact fun hthrough => absurd (hempties.2 ((throughFirst_dir hlink hd).1 hthrough.first)) hnil
    · refine ⟨fun j hj => ?_, fun x hx => ?_⟩
      · exact leave_others (huv ▸ hfresh.items j (List.mem_cons_of_mem _ hj)) fun hji => notMem_rest hsub (hji ▸ hj)
      · rw [leave_ne (ne_of_under hx hrest'.subset), hcleared.outside hitems fun hin => not_under_rest hsub hx (hunder.2 hin)]
        exact hfresh.below x (under_cons.2 (.inr hx))

/-! ## The answer -/

omit [DecidableEq D] in
theorem not_stuck_iff (hfree : ¬Holds maxLinks F.entries links d) :
    Enters F d F.entries ↔ ¬Stuck maxLinks F.entries links d := by
  unfold Stuck Enters
  rw [not_or, and_iff_right hfree, not_exists]
  simp only [not_and, and_iff_right_iff_imp]
  rintro - x hx r ⟨e, he, hr⟩
  have hfree' : ¬Holds maxLinks F.entries links x := fun ⟨y, hy, h⟩ => hfree ⟨y, hx.trans hy, h⟩
  exact (listed_iff.1 (kind_of_free hfree' he).1).2.1 r hr

/-- **Where the answer of a call is true, the directory is empty**: exactly if nothing in its tree stays. -/
theorem emptydir_honest_iff (F : FileTree D) (maxLinks : Option ℕ) (d : D) (links depth : ℕ) (t : DirTree D) (b : Bool)
    (hrun : emptydir maxLinks depth F.entries ⟨d, links, []⟩ = some (t, b)) :
    (b = true → t d = []) ↔ ¬Stuck maxLinks F.entries links d := by
  obtain ⟨rfl, hvisit⟩ := emptydir_some.1 hrun
  have hvisits : (emptying maxLinks).Visits F.entries ⟨d, links, []⟩ t := Walk.loop_of_visit hvisit
  rw [forall_prop_of_true rfl]
  by_cases hheld : Holds maxLinks F.entries links d
  · have hstays : t d ≠ [] := (visits_keeps hvisits).nonempty hheld
    exact ⟨fun hnil => absurd hnil hstays, fun hfree => absurd (.inl hheld) hfree⟩
  · have hsub : (entryInfoList maxLinks F.entries ⟨d, links, []⟩).Sublist (F.entries d) := by
      rw [entryInfoList_root]
      exact List.filter_sublist
    have hcleared := loop_clears hvisits rfl hheld .start hsub ⟨fun i hi => (mem_entryInfoList.1 hi).2.1, fun _ _ => rfl⟩
    rw [hcleared.call (loop_within hvisits) rfl hheld, not_stuck_iff hheld]

/-- A directory with a link to a file, a directory in which there is another, and the file. -/
def cleanTree : FileTree ℕ := .ofList
  [[⟨qs "l", some ⟨[(0, qs "z")], 0⟩, .file, true, true⟩, ⟨qs "sub", none, .dir 1, true, true⟩,
    ⟨qs "z", none, .file, true, true⟩],
    [⟨qs "m", some ⟨[(0, qs "z")], 0⟩, .file, true, true⟩]] ⟨by decide, by decide, by decide⟩

theorem emptydir_honest_iff_clean : ∃ t, emptydir none 2 cleanTree.entries ⟨0, 0, []⟩ = some (t, true) ∧ t 0 = [] ∧
    ¬Stuck none cleanTree.entries 0 0 :=
  ⟨_, rfl, by decide, (emptydir_honest_iff cleanTree none 0 0 2 _ true rfl).1 fun _ => by decide⟩

/-- A directory with a directory in which there is a hidden file; and one with a file, and a directory in which there is
a link to it. -/
def hiddenTree : FileTree ℕ := .ofList
  [[⟨qs "sub", none, .dir 1, true, true⟩], [⟨qs ".a", none, .file, false, true⟩],
    [⟨qs "a", none, .file, true, true⟩, ⟨qs "sub", none, .dir 3, true, true⟩],
      [⟨qs "l", some ⟨[(2, qs "a")], 0⟩, .file, true, true⟩]]
  ⟨by decide, by decide, by decide⟩

/-- The hidden file is not listed and stays, and so does the link, which is broken when its directory is read; the
answer is true. -/
theorem hidden_stays : (∃ t, emptydir none 2 hiddenTree.entries ⟨0, 0, []⟩ = some (t, true) ∧ t 0 ≠ []) ∧
    ∃ t, emptydir none 2 hiddenTree.entries ⟨2, 0, []⟩ = some (t, true) ∧ t 2 ≠ [] :=
  ⟨⟨_, rfl, by decide⟩, _, rfl, by decide⟩

end QDesktopSearch.EmptyDir
