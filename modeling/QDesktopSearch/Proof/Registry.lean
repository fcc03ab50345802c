import QDesktopSearch.Lib.Machine
import QDesktopSearch.Model.Indexer

/-!
# The registry of worker threads

`Sound`: every entry is a thread that exists, under the normalized path of the `add` that
made it.

* `Sound.step`: every call keeps it, but for a `getIdxInfo` on a key that is not there.
* `Sound.usable`: no operation on a sound registry meets a null or dangling pointer.
* `registry_iff`: a sequence of calls keeps the registry sound, usable and untouched by
  `getIdxInfo` exactly if every `getIdxInfo` that asks is on a key that is there.
-/

namespace QDesktopSearch

namespace Indexer

variable {Q : Qt} {x x' : Indexer} {key d : QString} {value : Option IndexerThread} {t : IndexerThread}

/-- Every entry is a thread that `add` started and that was not deleted, under the
normalized path of that `add`. -/
structure Sound (Q : Qt) (x : Indexer) : Prop where
  live : ∀ key value, x.pWorkers[key]? = some value →
    ∃ t ∈ x.threads, value = some t ∧ key = normalizePath Q t.added false ∧ t.sDir2Index = key
  /-- No two objects have one address. -/
  distinct : (x.threads.map (·.ptr)).Nodup
  allocated : ∀ t ∈ x.threads, t.ptr < x.ptr

/-- No operation that reads the entries meets one that is null or dangling. -/
structure Usable (Q : Qt) (x : Indexer) : Prop where
  requestStopAll : x.requestStopAll.isSome
  isStoppedAll : ∀ isRunning, (x.isStoppedAll isRunning).isSome
  onQuit : ∀ isRunning, (x.onQuit isRunning).isSome
  destroy : x.destroy.isSome
  removeIndex : ∀ d, (x.removeIndex Q d).isSome
  searched : ∀ d ∈ x.searched, ∃ t ∈ x.threads, x.pWorkers[d]? = some (some t)

theorem isIndexing_iff : x.isIndexing key = true ↔ ∃ value, x.pWorkers[key]? = some value := by
  rw [isIndexing, Std.ExtTreeMap.contains_iff_mem, ← Std.ExtTreeMap.isSome_getElem?_iff_mem, Option.isSome_iff_exists]

theorem getElem?_insert {m : QMap (Option IndexerThread)} {k : QString} :
    (m.insert k value)[key]? = if k = key then some value else m[key]? := by
  rw [Std.ExtTreeMap.getElem?_insert]
  by_cases hk : k = key
  · subst hk; simp
  · have hcmp : ¬compare k key = .eq := fun he => hk (Std.LawfulEqCmp.eq_of_compare he)
    rw [if_neg hcmp, if_neg hk]

theorem getElem?_erase {m : QMap (Option IndexerThread)} {k : QString} :
    (m.erase k)[key]? = if k = key then none else m[key]? := by
  rw [Std.ExtTreeMap.getElem?_erase]
  by_cases hk : k = key
  · subst hk; simp
  · have hcmp : ¬compare k key = .eq := fun he => hk (Std.LawfulEqCmp.eq_of_compare he)
    rw [if_neg hcmp, if_neg hk]

/-- `operator[]` on a key that is there changes nothing. -/
theorem subscript_of_some {m : QMap (Option IndexerThread)} (h : m[key]? = some value) :
    m.subscript key = (m, value) := by rw [QMap.subscript, h]

theorem subscript_of_none {m : QMap (Option IndexerThread)} (h : m[key]? = none) :
    m.subscript key = (m.insert key none, none) := by rw [QMap.subscript, h]

theorem deref_of_mem (h : t ∈ x.threads) : x.deref (some t) = some t := by
  rw [deref, Option.filter_some, if_pos (by simpa using h)]

/-! ## Every call keeps the registry sound -/

theorem Sound.new : Sound Q new where
  live key value h := by simp [Indexer.new] at h
  distinct := List.nodup_nil
  allocated t h := absurd h List.not_mem_nil

theorem Sound.entry (h : Sound Q x) (hk : x.pWorkers[key]? = some value) :
    ∃ t ∈ x.threads, value = some t := by
  obtain ⟨t, ht, hv, -⟩ := h.live key value hk
  exact ⟨t, ht, hv⟩

/-- What `add` does: nothing, or a new thread under a new key. -/
theorem add_cases (Q : Qt) (exists_ : QString → Bool) (x : Indexer) (d : QString) :
    x.add Q exists_ d = x ∨ (x.isIndexing (normalizePath Q d false) = false ∧
      x.add Q exists_ d =
        { pWorkers := x.pWorkers.insert (normalizePath Q d false) (some ⟨x.ptr, normalizePath Q d false, d⟩)
          threads := x.threads ++ [⟨x.ptr, normalizePath Q d false, d⟩]
          ptr := x.ptr + 1 }) := by
  unfold add
  split
  · exact Or.inl rfl
  · split
    · exact Or.inl rfl
    · dsimp only
      split
      · exact Or.inl rfl
      · rename_i hidx
        exact Or.inr ⟨Bool.eq_false_iff.2 hidx, rfl⟩

theorem Sound.add (h : Sound Q x) {exists_ : QString → Bool} : Sound Q (x.add Q exists_ d) := by
  rcases add_cases Q exists_ x d with he | ⟨-, he⟩
  · rw [he]; exact h
  rw [he]
  constructor
  · intro key value hk
    dsimp only at hk
    rw [getElem?_insert] at hk
    split at hk
    · rename_i hkey
      rw [Option.some.injEq] at hk
      exact ⟨_, List.mem_append_right _ (List.mem_singleton_self _), hk.symm, hkey.symm, hkey⟩
    · obtain ⟨t, ht, hv⟩ := h.live key value hk
      exact ⟨t, List.mem_append_left _ ht, hv⟩
  · dsimp only
    rw [List.map_append, List.nodup_append]
    refine ⟨h.distinct, by simp, ?_⟩
    -- the new address is above all others
    intro a ha b hb
    obtain ⟨t, ht, rfl⟩ := List.mem_map.1 ha
    have hlt := h.allocated t ht
    have hb' : b = x.ptr := by simpa using hb
    omega
  · intro t ht
    rcases List.mem_append.1 ht with ht | ht
    · have hlt := h.allocated t ht
      show t.ptr < x.ptr + 1
      omega
    · rw [List.mem_singleton] at ht
      subst ht
      show x.ptr < x.ptr + 1
      omega

theorem Sound.init (h : Sound Q x) {exists_ : QString → Bool} {sDirs2Index : QString} :
    Sound Q (x.init Q exists_ sDirs2Index) := by
  unfold Indexer.init
  generalize splitSkipEmpty (QChar.ofChar '|') sDirs2Index = sl
  induction sl generalizing x with
  | nil => exact h
  | cons d sl ih => rw [List.foldl_cons]; exact ih h.add

/-- **`removeIndex` on a sound registry**: nothing, or the entry and its thread go. -/
theorem Sound.removeIndex_cases (h : Sound Q x) (d : QString) :
    (x.isIndexing (normalizePath Q d false) = false ∧ x.removeIndex Q d = some (x, none)) ∨
      ∃ t ∈ x.threads, x.pWorkers[normalizePath Q d false]? = some (some t) ∧ x.removeIndex Q d = some
        ({ x with pWorkers := x.pWorkers.erase (normalizePath Q d false), threads := x.threads.erase t }, some t) := by
  unfold Indexer.removeIndex
  dsimp only
  cases hc : x.pWorkers.contains (normalizePath Q d false) with
  | false => exact Or.inl ⟨hc, rfl⟩
  | true =>
    obtain ⟨value, hk⟩ := isIndexing_iff.1 hc
    obtain ⟨t, ht, rfl⟩ := h.entry hk
    refine Or.inr ⟨t, ht, hk, ?_⟩
    rw [subscript_of_some hk]
    simp only [Bool.not_true, Bool.false_eq_true, if_false, deref_of_mem ht]
    rfl

theorem Sound.removed (h : Sound Q x) (hk : x.pWorkers[key]? = some (some t)) :
    Sound Q { x with pWorkers := x.pWorkers.erase key, threads := x.threads.erase t } := by
  constructor
  · intro k value hk'
    dsimp only at hk'
    rw [getElem?_erase] at hk'
    split at hk'
    · exact absurd hk' (by simp)
    · rename_i hne
      obtain ⟨t', ht', rfl, hkey, hdir⟩ := h.live k value hk'
      obtain ⟨s, -, hs, -, hdir'⟩ := h.live key _ hk
      rw [Option.some.injEq] at hs
      subst hs
      -- another key, so another thread
      have hne' : t' ≠ t := fun he => hne (by rw [← hdir, ← hdir', he])
      exact ⟨t', (List.mem_erase_of_ne hne').2 ht', rfl, hkey, hdir⟩
  · exact h.distinct.sublist (List.erase_sublist.map _)
  · intro t' ht'
    exact h.allocated t' (List.mem_of_mem_erase ht')

/-- **`getIdxInfo` on a key that is there**, or one that does not ask, changes nothing. -/
theorem Sound.getIdxInfo (h : Sound Q x) {bAskLucy : Bool} (hd : bAskLucy = true → x.isIndexing d = true) :
    ∃ r, x.getIdxInfo d bAskLucy = some (x, r) := by
  unfold Indexer.getIdxInfo
  cases bAskLucy with
  | false => exact ⟨none, rfl⟩
  | true =>
    obtain ⟨value, hk⟩ := isIndexing_iff.1 (hd rfl)
    obtain ⟨t, ht, rfl⟩ := h.entry hk
    refine ⟨some t, ?_⟩
    simp only [Bool.not_true, Bool.false_eq_true, if_false, subscript_of_some hk, deref_of_mem ht, Option.map_some]

/-- A `getIdxInfo` that asks on a missing key leaves a null pointer under it. -/
theorem getIdxInfo_missing (hd : x.isIndexing d = false) :
    x.getIdxInfo d true = some ({ x with pWorkers := x.pWorkers.insert d none }, none) := by
  have hnone : x.pWorkers[d]? = none := by
    cases hk : x.pWorkers[d]? with
    | none => rfl
    | some value => exact absurd (isIndexing_iff.2 ⟨value, hk⟩) (by simp [hd])
  unfold Indexer.getIdxInfo
  simp only [Bool.not_true, Bool.false_eq_true, if_false, subscript_of_none hnone]

/-- The directory that `getIdxInfo` asks about has an entry. -/
def Asked (x : Indexer) (c : Call) : Prop := ∀ d, c = .getIdxInfo d true → x.isIndexing d = true

/-- **The step lemma of the registry.** -/
theorem Sound.step (h : Sound Q x) {c : Call} (hc : x.Asked c) :
    ∃ x' o, x.step Q c = some (x', o) ∧ Sound Q x' := by
  cases c with
  | init exists_ sDirs2Index => exact ⟨_, _, rfl, h.init⟩
  | add exists_ d => exact ⟨_, _, rfl, h.add⟩
  | removeIndex d =>
    rcases h.removeIndex_cases d with ⟨-, he⟩ | ⟨t, -, hk, he⟩
    · exact ⟨x, (), by simp only [Indexer.step, he, Option.map_some], h⟩
    · exact ⟨_, (), by simp only [Indexer.step, he, Option.map_some], h.removed hk⟩
  | isIndexing d => exact ⟨x, (), rfl, h⟩
  | getIdxInfo d bAskLucy =>
    have hd : bAskLucy = true → x.isIndexing d = true := fun hb => hc d (by rw [hb])
    obtain ⟨r, he⟩ := h.getIdxInfo hd
    exact ⟨x, (), by simp only [Indexer.step, he, Option.map_some], h⟩

/-! ## What a sound registry is good for -/

theorem mem_values {v : Option IndexerThread} : v ∈ x.values ↔ ∃ key : QString, x.pWorkers[key]? = some v := by
  simp only [values, List.mem_map, Prod.exists, exists_eq_right]
  constructor
  · rintro ⟨key, hk⟩; exact ⟨key, Std.ExtTreeMap.mem_toList_iff_getElem?_eq_some.1 hk⟩
  · rintro ⟨key, hk⟩; exact ⟨key, Std.ExtTreeMap.mem_toList_iff_getElem?_eq_some.2 hk⟩

theorem Sound.deref (h : Sound Q x) : ∀ v ∈ x.values, ∃ t, x.deref v = some t := by
  intro v hv
  obtain ⟨key, hk⟩ := mem_values.1 hv
  obtain ⟨t, ht, rfl⟩ := h.entry hk
  exact ⟨t, deref_of_mem ht⟩

/-- A traversal goes through where every element does. -/
theorem mapM_isSome {α β : Type*} {f : α → Option β} {l : List α} (h : ∀ a ∈ l, ∃ b, f a = some b) :
    ∃ bs, l.mapM f = some bs := by
  induction l with
  | nil => exact ⟨[], rfl⟩
  | cons a l ih =>
    obtain ⟨b, hb⟩ := h a List.mem_cons_self
    obtain ⟨bs, hbs⟩ := ih fun a ha => h a (List.mem_cons_of_mem _ ha)
    exact ⟨b :: bs, by rw [List.mapM_cons, hb, hbs]; rfl⟩

theorem Sound.stopped (h : Sound Q x) (isRunning : IndexerThread → Bool) :
    ∃ b, x.isStoppedAll isRunning = some b := by
  unfold isStoppedAll
  have hall := h.deref
  generalize x.values = i at hall
  induction i with
  | nil => exact ⟨true, rfl⟩
  | cons v i ih =>
    obtain ⟨t, ht⟩ := hall v List.mem_cons_self
    obtain ⟨b, hb⟩ := ih fun v hv => hall v (List.mem_cons_of_mem _ hv)
    cases hr : isRunning t with
    | true => exact ⟨false, by simp [Indexer.stopped, ht, hr]⟩
    | false => exact ⟨b, by simp [Indexer.stopped, ht, hr, hb]⟩

theorem Sound.waitStopped (h : Sound Q x) (isRunning : ℕ → IndexerThread → Bool) (n : ℕ) :
    ∃ b, x.waitStopped isRunning n = some b := by
  induction n with
  | zero => exact ⟨true, rfl⟩
  | succ n ih =>
    obtain ⟨b, hb⟩ := ih
    obtain ⟨s, hs⟩ := h.stopped (isRunning n)
    cases s with
    | true => exact ⟨false, by simp [Indexer.waitStopped, hs]⟩
    | false => exact ⟨b, by simp [Indexer.waitStopped, hs, hb]⟩

/-- **No operation on a sound registry meets a null or dangling pointer.** -/
theorem Sound.usable (h : Sound Q x) : Usable Q x := by
  obtain ⟨ts, hts⟩ := mapM_isSome h.deref
  constructor
  · rw [requestStopAll, hts]; rfl
  · intro isRunning
    obtain ⟨b, hb⟩ := h.stopped isRunning
    rw [hb]; rfl
  · intro isRunning
    obtain ⟨b, hb⟩ := h.waitStopped isRunning 334
    simp [onQuit, requestStopAll, hts, hb]
  · simp [destroy, hts]
  · intro d
    rcases h.removeIndex_cases d with ⟨-, he⟩ | ⟨t, -, -, he⟩ <;> rw [he] <;> rfl
  · intro d hd
    obtain ⟨⟨_, value⟩, hmem, rfl⟩ := List.mem_map.1 hd
    have hk := Std.ExtTreeMap.mem_toList_iff_getElem?_eq_some.1 hmem
    obtain ⟨t, ht, rfl⟩ := h.entry hk
    exact ⟨t, ht, hk⟩

/-! ## Sequences of calls -/

/-- After every part of the sequence the registry is there, sound and usable, and a
`getIdxInfo` that comes next leaves it as it is. -/
def Keeps (Q : Qt) (cs : List Call) : Prop :=
  ∀ cs₁ cs₂, cs = cs₁ ++ cs₂ → ∃ x os, Machine.run (step Q) new cs₁ = some (x, os) ∧ Sound Q x ∧ Usable Q x ∧
    ∀ d b cs₃, cs₂ = .getIdxInfo d b :: cs₃ → ∃ o, step Q x (.getIdxInfo d b) = some (x, o)

/-- **The registry invariant, exactly.** A sequence of `init`, `add`, `removeIndex`,
`isIndexing` and `getIdxInfo` keeps the registry sound and usable, and its `getIdxInfo`s
leave it alone, exactly if each `getIdxInfo` that asks is on a key that is there. -/
theorem registry_iff (Q : Qt) (cs : List Call) : Keeps Q cs ↔ Machine.Meets (step Q) Asked new cs := by
  constructor
  · intro h
    rw [Machine.meets_iff]
    rintro cs₁ c cs₂ x os hcs hrun d rfl
    obtain ⟨x₀, os₀, hrun₀, -, -, hinfo⟩ := h cs₁ _ hcs
    rw [hrun, Option.some.injEq, Prod.mk.injEq] at hrun₀
    obtain ⟨rfl, -⟩ := hrun₀
    obtain ⟨o, ho⟩ := hinfo d true cs₂ rfl
    by_contra hno
    rw [Bool.not_eq_true] at hno
    -- the null pointer that was not there before
    rw [step, getIdxInfo_missing hno, Option.map_some, Option.some.injEq, Prod.mk.injEq] at ho
    have hk : x.pWorkers[d]? = some none := by
      rw [← ho.1]
      exact Std.ExtTreeMap.getElem?_insert_self
    rw [isIndexing_iff.2 ⟨none, hk⟩] at hno
    exact absurd hno (by simp)
  · rintro h cs₁ cs₂ rfl
    obtain ⟨x, os, hrun, hx⟩ := Machine.run_total (fun s c hs hc => Sound.step hs hc) h.append (Sound.new (Q := Q))
    refine ⟨x, os, hrun, hx, hx.usable, ?_⟩
    rintro d b cs₃ rfl
    have hasked : x.Asked (.getIdxInfo d b) := h.at_input hrun
    have hd : b = true → x.isIndexing d = true := fun hb => hasked d (by rw [hb])
    obtain ⟨r, he⟩ := hx.getIdxInfo hd
    exact ⟨(), by rw [step, he, Option.map_some]⟩

/-- The configuration has `/x/`, which exists, and `/y`, which does not. Asked about both
entries as they are configured, `getIdxInfo` leaves two null pointers behind, which
`requestStopAll`, `onQuit`, `~indexer` and `removeIndex` dereference and whose keys
`searcher::search` opens. -/
theorem registry_breaks :
    let cs : List Call := [.init (fun d => d == qs "/x/") (qs "/x/|/y"), .getIdxInfo (qs "/x/") true,
      .getIdxInfo (qs "/y") true]
    ¬Keeps sampleQt cs ∧
      ((Machine.run (step sampleQt) new cs).any fun r =>
        r.1.pWorkers[qs "/x/"]? == some none && r.1.pWorkers[qs "/y"]? == some none &&
        r.1.requestStopAll.isNone && (r.1.onQuit fun _ _ => false).isNone && r.1.destroy.isNone &&
        (r.1.removeIndex sampleQt (qs "/y")).isNone && r.1.searched == [qs "/x", qs "/x/", qs "/y"]) = true := by
  intro cs
  constructor
  · intro h
    obtain ⟨x, os, hrun, -, husable, -⟩ := h cs [] (List.append_nil cs).symm
    have hbad : ((Machine.run (step sampleQt) new cs).any fun r => r.1.requestStopAll.isNone) = true := by
      decide +kernel
    rw [hrun] at hbad
    have hnone : x.requestStopAll = none := by simpa using hbad
    exact absurd husable.requestStopAll (by rw [hnone]; simp)
  · decide +kernel

end Indexer

end QDesktopSearch
