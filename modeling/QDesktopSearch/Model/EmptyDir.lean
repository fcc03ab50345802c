import Mathlib.Logic.Function.Basic
import QDesktopSearch.Model.Text

/-!
# `f::emptydir`

Directories are told apart by an identity, whatever path leads to them; an entry of a
directory is a file, a directory, something else, or a symbolic link to one of these. A link is a
path: it goes through other entries, and is broken as soon as one of these is gone.
-/

namespace QDesktopSearch

/-- What an entry is, links followed. -/
inductive Target (D : Type*) where
  | file
  | dir (d : D)
  /-- Neither a file nor a directory. -/
  | other
  deriving DecidableEq

/-- A symbolic link: the entries that its path goes through, by directory and name, and how many
links there are among them. -/
structure SymLink (D : Type*) where
  route : List (D × QString)
  links : ℕ
  deriving DecidableEq

structure DirEntry (D : Type*) where
  fileName : QString
  symLink : Option (SymLink D)
  target : Target D
  /-- The filter `QDir::Files | QDir::Dirs | QDir::NoDotAndDotDot` lets it through, if it is no broken link. -/
  shown : Bool
  /-- Its removal succeeds; that of a directory, once it is empty. -/
  removable : Bool
  deriving DecidableEq

/-- The entries of all directories, each in the order in which `QDir` lists them. -/
abbrev DirTree (D : Type*) := D → List (DirEntry D)

/-- The entry is there. -/
def DirTree.has {D : Type*} (tree : DirTree D) (r : D × QString) : Bool := (tree r.1).any (·.fileName == r.2)

/-- A directory; of the path to it, how many links it goes through, and which entries these lead through. -/
structure QDirPath (D : Type*) where
  dir : D
  links : ℕ
  route : List (D × QString)

namespace DirEntry

variable {D : Type*} (fileInfo : DirEntry D)

/-- The links that a path through the entry follows. -/
def links : ℕ := fileInfo.symLink.elim 0 fun l => l.links + 1

/-- The entries that it leads through. -/
def route : List (D × QString) := fileInfo.symLink.elim [] SymLink.route

/-- `QFileInfo::isDir`, which follows links. A `QFileInfo` that comes from a list is as it was when that was made. -/
def isDir : Option D :=
  match fileInfo.target with
  | .dir d => some d
  | _ => none

/-- `QFileInfo::isFile`, which follows links. -/
def isFile : Bool :=
  match fileInfo.target with
  | .file => true
  | _ => false

/-- An entry is listed under a path with so many links: no broken link is. The system follows at most `maxLinks` links
in one path: one more is like a broken one. -/
def listed (maxLinks : Option ℕ) (tree : DirTree D) (links : ℕ) : Bool :=
  fileInfo.shown && fileInfo.route.all tree.has && (fileInfo.symLink.isNone || maxLinks.all (links + fileInfo.links ≤ ·))

end DirEntry

namespace QDirPath

variable {D : Type*} (src : QDirPath D)

/-- The path of an entry, `src.absoluteFilePath(fileName)`, of a directory or a link to one. -/
def sub (fileInfo : DirEntry D) (d : D) : QDirPath D := ⟨d, src.links + fileInfo.links, src.route ++ fileInfo.route⟩

/-- The path leads to the directory. -/
def resolves (tree : DirTree D) : Bool := src.route.all tree.has

end QDirPath

variable {D : Type*} [DecidableEq D]

omit [DecidableEq D] in
/-- `QDir::entryInfoList`; nothing where the path does not lead to a directory. -/
def entryInfoList (maxLinks : Option ℕ) (tree : DirTree D) (src : QDirPath D) : List (DirEntry D) :=
  if src.resolves tree then (tree src.dir).filter (·.listed maxLinks tree src.links) else []

/-- The entry is gone. -/
def DirTree.erase (tree : DirTree D) (d : D) (fileInfo : DirEntry D) : DirTree D :=
  Function.update tree d ((tree d).filter (· ≠ fileInfo))

/-- `QDir::rmdir`: of an empty directory, not of a link to one. -/
def rmdir (tree : DirTree D) (src : QDirPath D) (fileInfo : DirEntry D) : DirTree D :=
  match fileInfo.target with
  | .dir d =>
    if src.resolves tree && fileInfo.symLink.isNone && fileInfo.removable && (tree d).isEmpty then tree.erase src.dir fileInfo
    else tree
  | _ => tree

/-- `QFile::remove`: of a file, or of the link itself. -/
def remove (tree : DirTree D) (src : QDirPath D) (fileInfo : DirEntry D) : DirTree D :=
  if src.resolves tree && fileInfo.removable then tree.erase src.dir fileInfo else tree

/-- `f::emptydir`, at most so deep; the list is taken before the loop. -/
def emptydir (maxLinks : Option ℕ) : ℕ → DirTree D → QDirPath D → Option (DirTree D × Bool)
  | 0, _, _ => none
  | depth + 1, tree, src =>
    let contents := entryInfoList maxLinks tree src
    let tree := contents.foldlM (fun tree fileInfo =>
      match fileInfo.isDir with
      | some dstsubdir =>
        -- the result of the call is not looked at
        (emptydir maxLinks depth tree (src.sub fileInfo dstsubdir)).map fun r : DirTree D × Bool => rmdir r.1 src fileInfo
      | none => some (if fileInfo.isFile then remove tree src fileInfo else tree)) tree
    tree.map fun tree => (tree, true)

end QDesktopSearch
