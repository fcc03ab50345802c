import QDesktopSearch.Lib.Machine
import QDesktopSearch.Model.CleanUp

/-!
# When `CleanUp` is safe

`cleanUp_safe_iff`: a run takes no file from an extraction as long as `CleanUp` goes through its
list outside of extractions only (`Apart`). One worker alone is not in `CleanUp` and in an
extraction at once (`Inv`), so with one worker all runs are safe; two workers have a run that is
not (`run_overlap`).
-/

namespace QDesktopSearch

open Machine

namespace Workers

variable {W : Type*} [DecidableEq W] {Q : Qt} {s s' : Workers W} {e : Event W} {o : Unit} {w : W}

/-- The extraction that goes on has its files. -/
def Safe (s : Workers W) : Prop := ∀ x, s.extraction = some x → ∀ f ∈ x.files, f ∈ s.temp

/-- The step is no round of the loop of `emptydir`, or no extraction goes on. -/
def Apart (s : Workers W) (e : Event W) : Prop := ∀ w removed, e = .remove w removed → s.extraction = none

/-! ## One step -/

/-- The steps of the threads, one by one. -/
inductive Step (Q : Qt) (s : Workers W) : Event W → Workers W → Prop where
  | worker {w : W} {next : Position} (hn : next ∈ (s.position w).next (s.isInterruptionRequested w))
      (hc : s.position w = .opt → s.entries w = some []) :
      Step Q s (.worker w next)
        { s with position := Function.update s.position w next, entries := Function.update s.entries w none }
  | requestInterruption {w : W} : Step Q s (.requestInterruption w)
      { s with isInterruptionRequested := Function.update s.isInterruptionRequested w true }
  | getMetaContents {w : W} {files : List QString} (hx : s.extraction = none) (hw : s.position w = .awaiting)
      (hf : ∀ f ∈ files, matchesPattern Q f ∧ f ∉ s.temp) :
      Step Q s (.getMetaContents w files) { s with extraction := some ⟨w, files⟩, temp := files ++ s.temp }
  | returns {x : Extraction W} (hx : s.extraction = some x) :
      Step Q s .returns
        { s with
          position := Function.update s.position x.worker .enrichMetaContents
          extraction := none
          temp := s.temp.filter fun f => !x.files.contains f }
  | entryList {w : W} (hw : s.position w = .opt) (hl : s.entries w = none) :
      Step Q s (.entryList w)
        { s with entries := Function.update s.entries w (some (s.temp.filter (matchesPattern Q))) }
  | remove {w : W} {removed : Bool} {sFN : QString} {fs : List QString} (hl : s.entries w = some (sFN :: fs)) :
      Step Q s (.remove w removed)
        { s with
          temp := if removed then s.temp.filter (· ≠ sFN) else s.temp
          entries := Function.update s.entries w (some fs) }

theorem step_iff : s.step Q e = some (s', o) ↔ Step Q s e s' := by
  constructor
  · intro h
    cases e with
    | worker w next =>
      simp only [step, List.contains_eq_mem, decide_eq_true_eq, Option.ite_none_right_eq_some] at h
      obtain ⟨⟨hn, hc⟩, h⟩ := h
      cases h
      exact .worker hn hc
    | requestInterruption w =>
      cases h
      exact .requestInterruption
    | getMetaContents w files =>
      simp only [step, Option.ite_none_right_eq_some, Option.isNone_iff_eq_none] at h
      obtain ⟨⟨hx, hw, hf⟩, h⟩ := h
      cases h
      exact .getMetaContents hx hw hf
    | returns =>
      simp only [step, Option.map_eq_some_iff] at h
      obtain ⟨x, hx, h⟩ := h
      cases h
      exact .returns hx
    | entryList w =>
      simp only [step, Option.ite_none_right_eq_some] at h
      obtain ⟨⟨hw, hl⟩, h⟩ := h
      cases h
      exact .entryList hw hl
    | remove w removed =>
      simp only [step] at h
      split at h
      · rename_i sFN fs hl
        cases h
        exact .remove hl
      · exact absurd h (by simp)
  · intro h
    cases h with
    | worker hn hc => rw [step, if_pos ⟨by simpa using hn, hc⟩]
    | requestInterruption => rfl
    | getMetaContents hx hw hf =>
      rw [step, if_pos ⟨by rw [hx]; rfl, hw, hf⟩]
    | returns hx => simp [step, hx]
    | entryList hw hl => simp [step, hw, hl]
    | remove hl => simp [step, hl]

/-- **A round of `CleanUp` outside of extractions is safe**, and so is every other step. -/
theorem safe_step (hs : s.Safe) (he : s.Apart e) (h : s.step Q e = some (s', o)) : s'.Safe := by
  cases step_iff.1 h with
  | worker | requestInterruption | entryList => exact hs
  | getMetaContents hx hw hf =>
    intro x hx' f hf'
    obtain rfl := Option.some.inj hx'
    exact List.mem_append_left _ hf'
  | returns hx =>
    intro x hx'
    exact absurd hx' (by simp)
  | remove hl =>
    intro x hx
    exact absurd (hx.symm.trans (he _ _ rfl)) (by simp)

/-! ## Workers in `CleanUp` and in an extraction -/

/-- The worker of an extraction waits; a worker in the loop of `emptydir` is in `opt`. -/
structure Inv (s : Workers W) : Prop where
  waits : ∀ x, s.extraction = some x → s.position x.worker = .awaiting
  inOpt : ∀ w, s.entries w ≠ none → s.position w = .opt

omit [DecidableEq W] in
theorem inv_start (temp : List QString) : (start temp : Workers W).Inv :=
  ⟨fun _ h => absurd h (by simp [start]), fun _ h => absurd rfl h⟩

theorem inv_step (hs : s.Inv) (h : s.step Q e = some (s', o)) : s'.Inv := by
  cases step_iff.1 h with
  | requestInterruption => exact ⟨hs.waits, hs.inOpt⟩
  | worker hn hc =>
    rename_i w next
    constructor
    · intro x hx
      have hw := hs.waits x hx
      -- a worker that waits takes no step
      have hne : x.worker ≠ w := by
        rintro rfl
        rw [hw] at hn
        exact absurd hn List.not_mem_nil
      simp only [Function.update_of_ne hne]
      exact hw
    · intro v hv
      by_cases hvw : v = w
      · subst hvw
        exact absurd (Function.update_self ..) hv
      · simp only [Function.update_of_ne hvw] at hv ⊢
        exact hs.inOpt v hv
  | getMetaContents hx hw hf =>
    refine ⟨fun x hx' => ?_, hs.inOpt⟩
    obtain rfl := Option.some.inj hx'
    exact hw
  | returns hx =>
    rename_i x
    refine ⟨fun y hy => absurd hy (by simp), fun v hv => ?_⟩
    have hopt := hs.inOpt v hv
    have hne : v ≠ x.worker := by
      rintro rfl
      rw [hs.waits x hx] at hopt
      exact absurd hopt (by decide)
    simp only [Function.update_of_ne hne]
    exact hopt
  | entryList hw hl =>
    rename_i w
    refine ⟨hs.waits, fun v hv => ?_⟩
    by_cases hvw : v = w
    · rw [hvw]; exact hw
    · simp only [Function.update_of_ne hvw] at hv
      exact hs.inOpt v hv
  | remove hl =>
    rename_i w removed sFN fs
    refine ⟨hs.waits, fun v hv => ?_⟩
    by_cases hvw : v = w
    · rw [hvw]; exact hs.inOpt w (by rw [hl]; simp)
    · simp only [Function.update_of_ne hvw] at hv
      exact hs.inOpt v hv

omit [DecidableEq W] in
/-- A worker in `CleanUp` is not the one of the extraction. -/
theorem Inv.other (hs : s.Inv) {x : Extraction W} (hx : s.extraction = some x) (hl : s.entries w ≠ none) :
    x.worker ≠ w := by
  rintro rfl
  have hw := hs.waits x hx
  rw [hs.inOpt x.worker hl] at hw
  exact absurd hw (by decide)

/-! ## Two workers -/

/-- A worker can go from position to position by itself, outside of `opt`. -/
def Walk : Position → List Position → Prop
  | _, [] => True
  | p, q :: path => (q ∈ p.next false ∧ p ≠ .opt) ∧ Walk q path

instance instDecidableWalk : (p : Position) → (path : List Position) → Decidable (Walk p path)
  | _, [] => inferInstanceAs (Decidable True)
  | _, q :: path =>
    have := instDecidableWalk q path
    inferInstanceAs (Decidable ((_ ∧ _) ∧ _))

/-- **A walk leaves the other threads alone.** -/
theorem walk {p : Position} {path : List Position} (hpos : s.position w = p) (hp : Walk p path)
    (hirq : s.isInterruptionRequested w = false) (hl : s.entries w = none) : ∃ os,
    run (step Q) s (path.map (.worker w)) =
      some ({ s with position := Function.update s.position w (path.getLastD p) }, os) := by
  induction path generalizing s p with
  | nil => exact ⟨[], by simp [← hpos]⟩
  | cons q path ih =>
    subst hpos
    obtain ⟨⟨hq, hopt⟩, hpath⟩ := hp
    have hsame : Function.update s.entries w none = s.entries := Function.update_eq_self_iff.2 hl.symm
    have hstep : s.step Q (.worker w q) = some ({ s with position := Function.update s.position w q }, ()) := by
      rw [step, if_pos ⟨by simpa [hirq] using hq, fun h => absurd h hopt⟩, hsame]
    obtain ⟨os, hrun⟩ := ih (s := { s with position := Function.update s.position w q }) (Function.update_self ..) hpath hirq hl
    refine ⟨() :: os, run_cons_some.2 ⟨_, (), os, hstep, ?_, rfl⟩⟩
    rw [hrun]
    simp only [Function.update_idem, List.getLastD_cons]

/-- The way of a worker to the emission of `getMetaContents`, for a first file. -/
def toMeta : List Position :=
  [.openIndex, .idxCheck, .dir, .dirCheck, .entry, .ownIndex, .fileCheck1, .isIndexed, .fileCheck2, .smallFile, .emitMeta,
    .awaiting]

/-- The way of a worker without files to `CleanUp`. -/
def toOpt : List Position := [.openIndex, .idxCheck, .dir, .optCheck, .opt]

def tempFile : QString := qs "apache-tika-1.tmp"

/-- One worker is in an extraction while the other cleans up. -/
def overlap (w₁ w₂ : W) : List (Event W) :=
  toMeta.map (.worker w₁) ++ (.getMetaContents w₁ [tempFile] :: (toOpt.map (.worker w₂) ++ [.entryList w₂, .remove w₂ true]))

/-- **Two workers** are enough for an extraction to lose its file. -/
theorem run_overlap {w₁ w₂ : W} (h : w₁ ≠ w₂) :
    ∃ s os, run (step Q) (start []) (overlap w₁ w₂) = some (s, os) ∧ ¬s.Safe := by
  have hmatch : matchesPattern Q tempFile = true := by
    have hall : tempFile.all (fun c => c < 128) = true := by decide
    rw [matchesPattern, Q.toLower_ascii _ (by simpa using hall)]
    decide
  -- the first worker waits for its extraction
  have hwalk₁ : Walk .added toMeta := by decide
  obtain ⟨os₁, hrun₁⟩ := walk (Q := Q) (s := start []) (w := w₁) rfl hwalk₁ rfl rfl
  let s₁ : Workers W := { start [] with position := Function.update (fun _ => .added) w₁ .awaiting }
  have hwaits : s₁.position w₁ = .awaiting := by simp [s₁]
  have hmeta : Step Q s₁ (.getMetaContents w₁ [tempFile]) _ := .getMetaContents rfl hwaits (by simp [hmatch, s₁, start])
  -- the second one comes to `CleanUp`
  let s₂ : Workers W := { s₁ with extraction := some ⟨w₁, [tempFile]⟩, temp := [tempFile] }
  have hadded : s₂.position w₂ = .added := by simp [s₂, s₁, h.symm]
  have hwalk₂ : Walk .added toOpt := by decide
  obtain ⟨os₂, hrun₂⟩ := walk (Q := Q) (s := s₂) hadded hwalk₂ rfl rfl
  let s₃ : Workers W := { s₂ with position := Function.update s₂.position w₂ .opt }
  have hlist : Step Q s₃ (.entryList w₂) _ := .entryList (Function.update_self ..) rfl
  let s₄ : Workers W := { s₃ with entries := Function.update s₃.entries w₂ (some [tempFile]) }
  have hentries : s₄.entries w₂ = some [tempFile] := Function.update_self ..
  have hremove : Step Q s₄ (.remove w₂ true) _ := .remove hentries
  have hfilter : s₃.temp.filter (matchesPattern Q) = [tempFile] := by simp [s₃, s₂, hmatch]
  rw [hfilter] at hlist
  let s₅ : Workers W := { s₄ with temp := s₄.temp.filter (· ≠ tempFile), entries := Function.update s₄.entries w₂ (some []) }
  have hlast : run (step Q) s₃ [.entryList w₂, .remove w₂ true] = some (s₅, [(), ()]) :=
    run_cons_some.2 ⟨s₄, (), [()], step_iff.2 hlist, run_cons_some.2 ⟨s₅, (), [], step_iff.2 hremove, rfl, rfl⟩, rfl⟩
  have hsecond : run (step Q) s₂ (toOpt.map (.worker w₂) ++ [.entryList w₂, .remove w₂ true]) =
      some (s₅, os₂ ++ [(), ()]) := run_append.2 ⟨s₃, os₂, [(), ()], hrun₂, hlast, rfl⟩
  refine ⟨s₅, os₁ ++ () :: (os₂ ++ [(), ()]), ?_, ?_⟩
  · exact run_append.2 ⟨s₁, os₁, _, hrun₁, run_cons_some.2 ⟨s₂, (), _, step_iff.2 hmeta, hsecond, rfl⟩, rfl⟩
  · intro hsafe
    have hin := hsafe ⟨w₁, [tempFile]⟩ rfl tempFile (List.mem_singleton_self _)
    simp [s₅, s₄, s₃, s₂] at hin

omit [DecidableEq W] in
theorem safe_start (temp : List QString) : (start temp : Workers W).Safe := fun x hx => absurd hx (by simp [start])

/-- The one worker is in `CleanUp`, so not in an extraction. -/
theorem Inv.apart [Subsingleton W] (hs : s.Inv) (h : s.step Q e = some (s', o)) : s.Apart e := by
  rintro w removed rfl
  cases step_iff.1 h with
  | remove hl =>
    by_contra hx
    obtain ⟨x, hx⟩ := Option.ne_none_iff_exists'.1 hx
    exact hs.other hx (by rw [hl]; simp) (Subsingleton.elim _ _)

/-- **`CleanUp` takes no file from an extraction that goes on**: in all runs exactly if there is
at most one worker; and with any number of workers in every run in which it goes through its list
outside of extractions only. -/
theorem cleanUp_safe_iff (W : Type*) [DecidableEq W] (Q : Qt) :
    ((∀ (temp : List QString) (es : List (Event W)) s os, run (step Q) (start temp) es = some (s, os) → s.Safe) ↔
      Subsingleton W) ∧
    ∀ (temp : List QString) (es : List (Event W)) s os, Meets (step Q) Apart (start temp) es →
      run (step Q) (start temp) es = some (s, os) → s.Safe := by
  constructor
  · constructor
    · intro hsafe
      refine ⟨fun w₁ w₂ => ?_⟩
      by_contra hne
      obtain ⟨s, os, hrun, hnot⟩ := run_overlap (Q := Q) hne
      exact hnot (hsafe [] _ s os hrun)
    · intro hone temp es s os hrun
      have hinv : s.Inv ∧ s.Safe := by
        refine run_invariant (I := fun s => s.Inv ∧ s.Safe) (fun s e s' o hs h => ?_) ⟨inv_start temp, safe_start temp⟩ hrun
        exact ⟨inv_step hs.1 h, safe_step hs.2 (hs.1.apart h) h⟩
      exact hinv.2
  · intro temp es s os hmeets hrun
    exact run_invariant_meets (fun s e s' o hs he h => safe_step hs he h) hmeets (safe_start temp) hrun

/-- Of two workers, the one in `CleanUp` takes the file of the other's extraction. -/
theorem cleanUp_takes_file : ∃ s os, run (step sampleQt) (start []) (overlap false true) = some (s, os) ∧ ¬s.Safe :=
  run_overlap (by decide)

end Workers

end QDesktopSearch
