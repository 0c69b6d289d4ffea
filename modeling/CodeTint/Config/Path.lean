/-!
# Paths

A path is the list of its parts between slashes, so that its text is kept as it
was written. An empty first part before a slash makes the path absolute. Empty
parts and single dots after the first part are not part of any name, and paths
that differ in nothing else are the same.
-/

namespace CodeTint

structure Path where
  head : String
  tail : List String
  deriving DecidableEq, Repr

namespace Path

/-- The parts of a text between slashes; there is one at least. -/
def split : List Char → List Char × List (List Char)
  | [] => ([], [])
  | c :: rest =>
      let parts := split rest
      if c == '/' then ([], parts.1 :: parts.2) else (c :: parts.1, parts.2)

def ofString (text : String) : Path :=
  let parts := split text.toList
  ⟨String.ofList parts.1, parts.2.map String.ofList⟩

def parts (path : Path) : List String :=
  path.head :: path.tail

def text (path : Path) : String :=
  "/".intercalate path.parts

def isAbsolute (path : Path) : Bool :=
  path.head.isEmpty && !path.tail.isEmpty

/-- A part that names nothing. -/
def isIdle (part : String) : Bool :=
  part.isEmpty || part == "."

/-- The parts behind the first one that name something. -/
def names (path : Path) : List String :=
  path.tail.filter fun part => !isIdle part

/-- Paths that differ only in parts that name nothing are the same. -/
def same (left right : Path) : Bool :=
  left.isAbsolute == right.isAbsolute && left.head == right.head && left.names == right.names

/-- The absolute path with these names. -/
def ofNames (names : List String) : Path :=
  ⟨"", if names.isEmpty then [""] else names⟩

def trimIdle (parts : List String) : List String :=
  (parts.reverse.dropWhile isIdle).reverse

/-- The path of the directory; neither the root nor the empty path has one. -/
def parent? (path : Path) : Option Path :=
  match trimIdle path.tail with
  | [] => if path.head.isEmpty then none else some ⟨"", []⟩
  | tail =>
      match trimIdle tail.dropLast with
      | [] => some (if path.head.isEmpty then ⟨"", [""]⟩ else ⟨path.head, []⟩)
      | above => some ⟨path.head, above⟩

/-- A path after this one, unless it is absolute. -/
def join (path next : Path) : Path :=
  if next.isAbsolute then next
  else if path.tail.isEmpty && path.head.isEmpty then next
  else if path.tail.getLast? == some "" then ⟨path.head, path.tail.dropLast ++ next.parts⟩
  else ⟨path.head, path.tail ++ next.parts⟩

/-- A dot stands in the name after its first character. -/
def hasExtension (name : String) : Bool :=
  name.toList.tail.contains '.'

/-- The part completed by the extension, if it is a name without one. -/
def completed? (extension part : String) : Option String :=
  if isIdle part || part == ".." || hasExtension part then none
  else some (part ++ "." ++ extension)

/-- Adds the extension to a file name that has none. -/
def withDefaultExtension (path : Path) (extension : String) : Path :=
  match trimIdle path.tail with
  | [] => ((completed? extension path.head).map fun head => ⟨head, []⟩).getD path
  | tail =>
      ((tail.getLast?.bind (completed? extension)).map fun last =>
        ⟨path.head, tail.dropLast ++ [last]⟩).getD path

end Path

end CodeTint
