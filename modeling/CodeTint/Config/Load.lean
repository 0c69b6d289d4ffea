import CodeTint.Config.Document
import CodeTint.Config.FileTree

/-!
# Loading settings files

A settings file may name the file it adds to, which may name another one. The
paths read so far are remembered in the form that is the same for all spellings of
a path, so a file is read once at most and loading ends. A path that leads nowhere
is remembered as it is written.
-/

namespace CodeTint

inductive LoadError
  | cycle (place : Path)
  | unreadable (path : Path)
  | malformed (path : Path) (cause : DecodeError)
  | noDirectory (path : Path)
  deriving DecidableEq, Repr

namespace LoadError

def message : LoadError → String
  | cycle place => "config extends cycle detected at " ++ place.text
  | unreadable path => "failed to read highlight config: " ++ path.text
  | malformed path _ => "failed to parse highlight config: " ++ path.text
  | noDirectory _ => "highlight config has no parent directory"

/-- The fault of the document, if that is what went wrong. -/
def cause? : LoadError → Option DecodeError
  | malformed _ cause => some cause
  | _ => none

end LoadError

namespace Settings

/-- The path of the file that the file at `path` adds to. -/
def basePath? (path : Path) (base : String) : Option Path :=
  path.parent?.map fun directory =>
    directory.join ((Path.ofString base).withDefaultExtension "json")

/-- The path is the same as one that is remembered. -/
def isVisited (visited : List Path) (path : Path) : Bool :=
  visited.any path.same

/-- The locations not visited yet. -/
def unvisited (tree : FileTree) (visited : List Path) : List Location :=
  tree.locations.filter fun location => !isVisited visited (.ofNames location)

theorem unvisited_cons_length {tree : FileTree} {visited : List Path} {location : Location}
    (member : location ∈ tree.locations) (fresh : isVisited visited (.ofNames location) = false) :
    (unvisited tree (.ofNames location :: visited)).length < (unvisited tree visited).length := by
  have split : unvisited tree (.ofNames location :: visited) =
      (unvisited tree visited).filter fun other => !(Path.ofNames other).same (.ofNames location) := by
    unfold unvisited
    rw [List.filter_filter]
    congr 1
    funext other
    simp [isVisited, Bool.not_or]
  have present : location ∈ unvisited tree visited := by
    simp [unvisited, member, fresh]
  have itself : (Path.ofNames location).same (.ofNames location) = true := by
    simp [Path.same]
  rw [split]
  exact List.length_filter_lt_length_iff_exists.mpr ⟨location, present, by simp [itself]⟩

/-- The file that a path leads to, and the settings in it. -/
structure File (tree : FileTree) (path : Path) where
  location : Location
  located : tree.locate? path = some location
  member : location ∈ tree.locations
  settings : Settings

def readFile (tree : FileTree) (path : Path) : Except LoadError (File tree path) :=
  match located : tree.locate? path with
  | none => .error (.unreadable path)
  | some location =>
      match found : tree.read? location with
      | none => .error (.unreadable path)
      | some text =>
          match Document.read text with
          | .error cause => .error (.malformed path cause)
          | .ok settings =>
              .ok ⟨location, located, FileTree.mem_locations_of_read? found, settings⟩

theorem File.canonical {tree : FileTree} {path : Path} (file : File tree path) :
    tree.canonical path = .ofNames file.location :=
  FileTree.canonical_of_locate? file.located

/-- A file that is not visited yet is one of the finitely many that are left. -/
theorem File.unvisited_shorter {tree : FileTree} {visited : List Path} {path : Path}
    (file : File tree path) (fresh : ¬isVisited visited (tree.canonical path) = true) :
    (unvisited tree (tree.canonical path :: visited)).length < (unvisited tree visited).length := by
  rw [file.canonical] at fresh ⊢
  exact unvisited_cons_length file.member (Bool.eq_false_iff.mpr fresh)

/-- Loads the file at `path` and the files it adds to, when those at the `visited` paths are
waiting for it. -/
def loadFrom (tree : FileTree) (visited : List Path) (path : Path) : Except LoadError Settings :=
  if _ : isVisited visited (tree.canonical path) then .error (.cycle (tree.canonical path))
  else
    match _ : readFile tree path with
    | .error error => .error error
    | .ok file =>
        match file.settings.base with
        | none => .ok file.settings
        | some base =>
            match basePath? path base with
            | none => .error (.noDirectory path)
            | some next =>
                (loadFrom tree (tree.canonical path :: visited) next).map fun parent =>
                  merge parent file.settings
termination_by (unvisited tree visited).length
decreasing_by exact File.unvisited_shorter (by assumption) (by assumption)

/-- Loads a settings file with everything it adds to. -/
def load (tree : FileTree) (path : Path) : Except LoadError Settings :=
  loadFrom tree [] path

end Settings

end CodeTint
