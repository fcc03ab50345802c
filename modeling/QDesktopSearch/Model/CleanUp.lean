import Mathlib.Logic.Function.Basic
import QDesktopSearch.Model.Removal
import QDesktopSearch.Model.Text

/-!
# `CleanUp` and the extractions

Any number of workers and the GUI thread, step by step, on one directory for temporary
files. The GUI thread runs `jvm::getMetaContents` for one worker at a time, which waits for it.
An extraction creates its files at its start and removes them when it returns. `CleanUp` ends
the part `opt` of `doWork`; it lists the directory, and then removes what it has listed, file by
file. The order in which the GUI thread takes its events is left open.
-/

namespace QDesktopSearch

variable (Q : Qt)

/-- The name filter `apache-tika-*.tmp` of `CleanUp`; `QDir` compares without case. -/
def matchesPattern (sFN : QString) : Bool :=
  let s := Q.toLower sFN
  (qs "apache-tika-").isPrefixOf s && (qs ".tmp").isSuffixOf s && 16 ≤ s.length

/-- `getMetaContents` for a worker, with its temporary files. -/
structure Extraction (W : Type*) where
  worker : W
  files : List QString

structure Workers (W : Type*) where
  position : W → Position
  isInterruptionRequested : W → Bool
  /-- What the GUI thread is in. -/
  extraction : Option (Extraction W)
  /-- The files in `QDir::tempPath()`. -/
  temp : List QString
  /-- What is left of `entryList`, in `CleanUp`. -/
  entries : W → Option (List QString)

namespace Workers

variable {W : Type*} [DecidableEq W]

/-- The workers have been added. -/
def start (temp : List QString) : Workers W := ⟨fun _ => .added, fun _ => false, none, temp, fun _ => none⟩

inductive Event (W : Type*) where
  /-- A worker takes a step, out of `opt` at the end of `CleanUp`. -/
  | worker (w : W) (next : Position)
  | requestInterruption (w : W)
  /-- The GUI thread starts `getMetaContents` for a worker. -/
  | getMetaContents (w : W) (files : List QString)
  /-- It returns and wakes the worker. -/
  | returns
  /-- `emptydir`, up to its loop. -/
  | entryList (w : W)
  /-- One round of the loop of `emptydir`; whether `QFile::remove` succeeds is open. -/
  | remove (w : W) (removed : Bool)

/-- One step of a thread; nothing where it cannot be taken. -/
def step (s : Workers W) : Event W → Option (Workers W × Unit)
  | .worker w next =>
    if ((s.position w).next (s.isInterruptionRequested w)).contains next ∧ (s.position w = .opt → s.entries w = some []) then
      some ({ s with position := Function.update s.position w next, entries := Function.update s.entries w none }, ())
    else none
  | .requestInterruption w =>
    some ({ s with isInterruptionRequested := Function.update s.isInterruptionRequested w true }, ())
  | .getMetaContents w files =>
    if s.extraction.isNone ∧ s.position w = .awaiting ∧ ∀ f ∈ files, matchesPattern Q f ∧ f ∉ s.temp then
      some ({ s with extraction := some ⟨w, files⟩, temp := files ++ s.temp }, ())
    else none
  | .returns =>
    s.extraction.map fun x =>
      ({ s with
        position := Function.update s.position x.worker .enrichMetaContents
        extraction := none
        temp := s.temp.filter fun f => !x.files.contains f }, ())
  | .entryList w =>
    if s.position w = .opt ∧ s.entries w = none then
      some ({ s with entries := Function.update s.entries w (some (s.temp.filter (matchesPattern Q))) }, ())
    else none
  | .remove w removed =>
    match s.entries w with
    | some (sFN :: fs) =>
      some ({ s with
        temp := if removed then s.temp.filter (· ≠ sFN) else s.temp
        entries := Function.update s.entries w (some fs) }, ())
    | _ => none

end Workers

end QDesktopSearch
