import CodeTint.Config.Path
import CodeTint.Utf8

/-!
# File trees

A tree gives each location, a list of names from the top, a file or a directory.
A path leads to a location by its parts: each of them is looked up in a
directory that exists, two dots lead up, and an idle part stays.
-/

namespace CodeTint

/-- The names from the top of the tree down. -/
abbrev Location := List String

inductive Node
  | directory
  | file (content : Bytes)
  deriving DecidableEq, Repr

structure FileTree where
  entries : List (Location × Node)

namespace FileTree

def empty : FileTree :=
  ⟨[]⟩

/-- What stands at a location; the top is a directory. -/
def node? (tree : FileTree) (location : Location) : Option Node :=
  if location.isEmpty then some .directory else tree.entries.lookup location

/-- The locations above this one, the top left out. -/
def ancestors (location : Location) : List Location :=
  ((List.range location.length).drop 1).map location.take

/-- Puts a node into the tree and makes the directories above it. -/
def insert (tree : FileTree) (location : Location) (node : Node) : FileTree :=
  ⟨(location, node) :: (ancestors location).map (·, .directory) ++ tree.entries⟩

/-- One step along a path. -/
def step? (tree : FileTree) (location : Location) (part : String) : Option Location :=
  if tree.node? location ≠ some .directory then none
  else if Path.isIdle part then some location
  else if part == ".." then some location.dropLast
  else if (tree.node? (location ++ [part])).isSome then some (location ++ [part])
  else none

/-- The location a path leads to. -/
def locate? (tree : FileTree) (path : Path) : Option Location :=
  path.parts.foldlM tree.step? []

/-- The path of the location that a path leads to, and the path itself if it leads to none. -/
def canonical (tree : FileTree) (path : Path) : Path :=
  ((tree.locate? path).map Path.ofNames).getD path

theorem canonical_of_locate? {tree : FileTree} {path : Path} {location : Location}
    (found : tree.locate? path = some location) : tree.canonical path = .ofNames location := by
  rw [canonical, found]
  rfl

/-- The text of a file, if it is well-formed. -/
def read? (tree : FileTree) (location : Location) : Option String :=
  match tree.node? location with
  | some (.file content) => (Utf8.decodeAll? content).map String.ofList
  | _ => none

def locations (tree : FileTree) : List Location :=
  tree.entries.map Prod.fst

theorem mem_of_lookup {α β : Type} [BEq α] [LawfulBEq α] {key : α} {value : β}
    {entries : List (α × β)} (found : entries.lookup key = some value) :
    key ∈ entries.map Prod.fst := by
  induction entries with
  | nil => cases found
  | cons entry rest ih =>
      obtain ⟨name, node⟩ := entry
      by_cases same : key = name
      · simp [same]
      · have inner : rest.lookup key = some value := by
          rw [List.lookup_cons] at found
          simpa [beq_eq_false_iff_ne.mpr same] using found
        exact List.mem_cons_of_mem _ (ih inner)

theorem mem_locations_of_read? {tree : FileTree} {location : Location} {text : String}
    (found : tree.read? location = some text) : location ∈ tree.locations := by
  unfold read? at found
  split at found
  · rename_i content here
    unfold node? at here
    split at here
    · cases here
    · exact mem_of_lookup here
  · cases found

end FileTree

end CodeTint
